import RoseChain.Util.Streamable

namespace RoseChain
open Lib

section BigEndian

theorem natOfBytes_lt (b : Bytes) : natOfBytes b<256^b.length := by
  induction b using List.reverseRecOn with
  | nil => decide
  | append_singleton b x ih =>
    have hx := x.toNat_lt
    rw [natOfBytes_concat,List.length_append,List.length_singleton,pow_succ]
    omega

theorem bigEndian_succ (width n : ℕ) : bigEndian (width+1) n=bigEndian width (n / 256)++[UInt8.ofNat n] := by
  unfold bigEndian
  rw [List.range_succ,List.map_append,List.map_singleton]
  congr 1
  · apply List.map_congr_left
    intro i hi
    have hlt : i<width := List.mem_range.mp hi
    rw [Nat.div_div_eq_div_mul,show width+1-1-i=width-1-i+1 by omega,pow_succ,
      Nat.mul_comm]
  · simp

@[simp] theorem length_bigEndian (width n : ℕ) : (bigEndian width n).length=width := by
  simp [bigEndian]

theorem natOfBytes_bigEndian {width n : ℕ} (h : n<256^width) : natOfBytes (bigEndian width n)=n := by
  induction width generalizing n with
  | zero =>
    rw [pow_zero,Nat.lt_one_iff] at h
    rw [h]
    rfl
  | succ width ih =>
    rw [pow_succ] at h
    have hdiv : n / 256<256^width := Nat.div_lt_of_lt_mul (by omega)
    rw [bigEndian_succ,natOfBytes_concat,ih hdiv,UInt8.toNat_ofNat']
    omega

theorem bigEndian_natOfBytes (b : Bytes) : bigEndian b.length (natOfBytes b)=b := by
  induction b using List.reverseRecOn with
  | nil => rfl
  | append_singleton b x ih =>
    have hx := x.toNat_lt
    have hdiv : natOfBytes (b++[x]) / 256=natOfBytes b := by
      rw [natOfBytes_concat]
      omega
    have hlow : UInt8.ofNat (natOfBytes (b++[x]))=x := by
      rw [natOfBytes_concat]
      apply UInt8.toNat_inj.mp
      rw [UInt8.toNat_ofNat']
      omega
    rw [List.length_append,List.length_singleton,bigEndian_succ,hdiv,hlow,ih]

end BigEndian

namespace IntFormat
variable (F : IntFormat)

@[simp] theorem length_pack (n : ℤ) : (F.pack n).length=F.width := length_bigEndian _ _

theorem natOfBytes_pack (n : ℤ) : (natOfBytes (F.pack n) : ℤ)=n % 256^F.width := by
  have hpos : (0 : ℤ)<256^F.width := by positivity
  have h0 := Int.emod_nonneg n hpos.ne'
  have h1 := Int.emod_lt_of_pos n hpos
  have hlt : (n % 256^F.width).toNat<256^F.width := by
    apply Int.ofNat_lt.mp
    rw [Int.toNat_of_nonneg h0]
    exact_mod_cast h1
  rw [pack,natOfBytes_bigEndian hlt,Int.toNat_of_nonneg h0]

theorem unpack_pack {n : ℤ} (hlo : F.lo≤n) (hhi : n≤F.hi) : F.unpack (F.pack n)=n := by
  have hpos : (0 : ℤ)<256^F.width := by positivity
  have hl := F.lo_fits
  have hh := F.hi_fits
  have hval := F.natOfBytes_pack n
  have hcast : (256^F.width≤2*natOfBytes (F.pack n)) ↔
      (256 : ℤ)^F.width≤2*(n % 256^F.width) := by
    rw [← hval]
    exact_mod_cast Iff.rfl
  unfold unpack
  simp only [hcast,hval,length_pack]
  cases hs : F.signed with
  | true =>
    rw [hs,if_pos rfl] at hl hh
    by_cases hn : 0≤n
    · rw [Int.emod_eq_of_lt hn (by omega),if_neg (by omega)]
    · have hmod : n % 256^F.width=n+256^F.width := by
        rw [← Int.add_emod_right,Int.emod_eq_of_lt (by omega) (by omega)]
      rw [hmod,if_pos ⟨rfl,by omega⟩,Int.add_sub_cancel]
  | false =>
    rw [hs,if_neg Bool.false_ne_true] at hl hh
    rw [Int.emod_eq_of_lt (by omega) (by omega),if_neg (by simp)]

theorem pack_unpack {b : Bytes} (h : b.length=F.width) : F.pack (F.unpack b)=b := by
  have hlt := natOfBytes_lt b
  have hmod : (F.unpack b % 256^F.width).toNat=natOfBytes b := by
    have hnat : (natOfBytes b : ℤ) % 256^F.width=natOfBytes b := by
      rw [← h]
      exact Int.emod_eq_of_lt (by omega) (by exact_mod_cast hlt)
    unfold unpack
    split_ifs
    · rw [h,Int.sub_emod_right,hnat,Int.toNat_natCast]
    · rw [hnat,Int.toNat_natCast]
  rw [pack,hmod,← h,bigEndian_natOfBytes]

end IntFormat

namespace Streamable

variable {b : Bytes}

theorem read_eq_ok {n : ℕ} {s rest : Bytes} : read n s = .ok (b,rest) ↔ s.take n=b ∧ s.drop n=rest := by
  constructor
  · intro h
    exact Prod.mk.inj (Except.ok.inj h)
  · intro h
    rw [← h.1,← h.2]
    rfl

theorem readExactly_exact (n : ℕ) :
    Exact (fun b => b.length=n) (fun b => (.ok b : Check Bytes)) (readExactly n) := by
  have hassert (b s : Bytes) (u : Unit) (t : Bytes) :
      (StateT.lift (assertThat (b.length=n)) : Reader UInt8 Fail Unit) s = .ok (u,t) ↔ b.length=n ∧ s=t := by
    change (assertThat (b.length=n) >>= fun u => .ok (u,s))=_ ↔ _
    rw [Lib.bind_eq_ok]
    constructor
    · intro h
      obtain ⟨u',hu,ht⟩ := h
      exact ⟨assertThat_eq_ok.mp hu,(Prod.mk.inj (Except.ok.inj ht)).2⟩
    · intro h
      exact ⟨u,assertThat_eq_ok.mpr h.1,by rw [h.2]⟩
  intro s x rest
  change (read n >>= fun b => StateT.lift (assertThat (b.length=n)) >>= fun _ => pure b) s=_ ↔ _
  simp only [Reader.bind_eq_ok,Reader.pure_eq_ok,read_eq_ok,hassert]
  constructor
  · intro h
    obtain ⟨b,s',⟨rfl,rfl⟩,u,t,⟨hlen,rfl⟩,rfl,rfl⟩ := h
    exact ⟨hlen,_,rfl,(List.take_append_drop n s).symm⟩
  · intro h
    obtain ⟨hlen,b,hb,rfl⟩ := h
    obtain rfl := Except.ok.inj hb
    refine ⟨x,rest,⟨?_,?_⟩,(),rest,⟨hlen,rfl⟩,rfl,rfl⟩
    · rw [← hlen,List.take_left']
      rfl
    · rw [← hlen,List.drop_left']
      rfl

theorem parseInt_exact (F : IntFormat) :
    Exact (fun _ => True) (fun x : F.Value => .ok (F.pack x.val)) (parseInt F) := by
  have hconvert : ∀ (b : Bytes) (x : F.Value),b.length=F.width ∧ F.new (F.unpack b) = .ok x ↔
      True ∧ (.ok (F.pack x.val) : Check Bytes) = .ok b := by
    intro b x
    unfold IntFormat.new
    constructor
    · intro h
      obtain ⟨hlen,h⟩ := h
      split_ifs at h with hr
      rw [← Except.ok.inj h]
      exact ⟨trivial,congrArg _ (F.pack_unpack hlen)⟩
    · intro h
      have hb := Except.ok.inj h.2
      have hx := F.unpack_pack x.property.1 x.property.2
      rw [← hb]
      refine ⟨F.length_pack _,?_⟩
      rw [dif_pos (by rw [hx]; exact x.property)]
      exact congrArg _ (Subtype.ext hx)
  exact ((readExactly_exact F.width).convert hconvert).congr (fun _ => Iff.rfl) (fun _ => rfl) rfl

theorem parseBool_exact : Exact (fun _ => True) (fun x => .ok (streamBool x)) parseBool := by
  have hconvert : ∀ (b : Bytes) (x : Bool),b.length=1 ∧ flag b = .ok x ↔
      True ∧ (.ok (streamBool x) : Check Bytes) = .ok b := by
    intro b x
    unfold flag
    constructor
    · intro h
      obtain ⟨-,h⟩ := h
      split_ifs at h with h0 h1
      · rw [← Except.ok.inj h,h0]
        exact ⟨trivial,rfl⟩
      · rw [← Except.ok.inj h,h1]
        exact ⟨trivial,rfl⟩
    · intro h
      rw [← Except.ok.inj h.2]
      cases x with
      | false => exact ⟨rfl,rfl⟩
      | true => exact ⟨rfl,rfl⟩
  exact ((readExactly_exact 1).convert hconvert).congr (fun _ => Iff.rfl) (fun _ => rfl) rfl

theorem parseSize_exact : Exact (fun _ => True) streamSize parseSize := by
  have hconvert : ∀ (b : Bytes) (n : ℕ),b.length=4 ∧ (.ok (natOfBytes b) : Check ℕ) = .ok n ↔
      True ∧ streamSize n = .ok b := by
    intro b n
    unfold streamSize uint32 uint
    constructor
    · intro h
      obtain ⟨hlen,h⟩ := h
      have hn := Except.ok.inj h
      have hlt := natOfBytes_lt b
      rw [hlen,hn] at hlt
      refine ⟨trivial,?_⟩
      rw [if_pos (by omega)]
      have hb := bigEndian_natOfBytes b
      rw [hlen,hn] at hb
      exact congrArg Except.ok hb
    · intro h
      obtain ⟨-,h⟩ := h
      split_ifs at h with hlt
      · have hb : bigEndian 4 n=b := Except.ok.inj h
        rw [← hb,natOfBytes_bigEndian (by omega)]
        exact ⟨length_bigEndian 4 n,rfl⟩
      · cases h
  apply ((readExactly_exact 4).convert hconvert).congr (fun _ => Iff.rfl) ?_ rfl
  intro n
  exact (bind_pure (streamSize n)).symm

theorem parseBytes_exact : Exact (fun _ => True) streamBytes parseBytes := by
  have h := parseSize_exact.bind (f := List.length) readExactly_exact (fun n b hb => hb.symm)
  apply h.congr ?_ (fun _ => rfl) rfl
  intro b
  exact ⟨fun _ => ⟨trivial,rfl⟩,fun _ => trivial⟩

theorem parseSizedBytes_exact (size : ℕ) :
    Exact (fun _ => True) (fun x => .ok x.val) (parseSizedBytes size) := by
  have hconvert : ∀ (b : Bytes) (x : {b : Bytes // b.length=size}),b.length=size ∧ sizedBytes size b = .ok x ↔
      True ∧ (.ok x.val : Check Bytes) = .ok b := by
    intro b x
    unfold sizedBytes
    constructor
    · intro h
      obtain ⟨hlen,h⟩ := h
      rw [dif_pos hlen] at h
      rw [← Except.ok.inj h]
      exact ⟨trivial,rfl⟩
    · intro h
      rw [← Except.ok.inj h.2,dif_pos x.property]
      exact ⟨x.property,rfl⟩
  exact ((readExactly_exact size).convert hconvert).congr (fun _ => Iff.rfl) (fun _ => rfl) rfl

section Generic
variable {α : Type} {good : α → Prop} {write : α → Check Bytes} {parse : Reader UInt8 Fail α}

theorem parseList_exact (h : Exact good write parse) :
    Exact (fun l => ∀ x∈l,good x) (streamList write) (parseList parse) := by
  have hlist := parseSize_exact.bind (f := List.length) h.many (fun n l hl => hl.1.symm)
  apply hlist.congr ?_ (fun _ => rfl) rfl
  intro l
  exact ⟨fun hl => ⟨trivial,rfl,hl⟩,fun hl => hl.2.2⟩

theorem parseOptional_exact (h : Exact good write parse) :
    Exact (fun o => ∀ x,o=some x → good x) (streamOptional write) (parseOptional parse) := by
  have hitem : ∀ present : Bool,Exact (fun o => o.isSome=present ∧ ∀ x,o=some x → good x)
      (fun o => o.elim (.ok []) write)
      (if present then do
        let item ← parse
        return some item
      else return none) := by
    intro present s o rest
    cases present with
    | false =>
      rw [if_neg Bool.false_ne_true,Reader.pure_eq_ok]
      constructor
      · intro hr
        rw [← hr.1]
        exact ⟨⟨rfl,by simp⟩,[],rfl,hr.2⟩
      · intro hr
        obtain ⟨⟨ho,-⟩,b,hb,hs⟩ := hr
        rw [Option.isSome_eq_false_iff,Option.isNone_iff_eq_none] at ho
        rw [ho] at hb ⊢
        rw [← Except.ok.inj hb] at hs
        exact ⟨rfl,hs⟩
    | true =>
      rw [if_pos rfl,Reader.bind_eq_ok]
      simp only [Reader.pure_eq_ok]
      constructor
      · intro hr
        obtain ⟨x,s',hx,rfl,rfl⟩ := hr
        obtain ⟨hgood,hb⟩ := (h _ _ _).mp hx
        refine ⟨⟨rfl,?_⟩,hb⟩
        intro y hy
        rw [← Option.some.inj hy]
        exact hgood
      · intro hr
        obtain ⟨⟨ho,hgood⟩,hb⟩ := hr
        obtain ⟨x,rfl⟩ := Option.isSome_iff_exists.mp ho
        exact ⟨x,rest,(h _ _ _).mpr ⟨hgood x rfl,hb⟩,rfl,rfl⟩
  have hopt := parseBool_exact.bind (f := Option.isSome) hitem (fun present o ho => ho.1.symm)
  apply hopt.congr ?_ ?_ ?_
  · intro o
    exact ⟨fun ho => ⟨trivial,rfl,ho⟩,fun ho => ho.2.2⟩
  · intro o
    cases o with
    | none => rfl
    | some x => rfl
  · unfold parseOptional parseBool
    rw [bind_assoc]

end Generic

section Text

theorem charOfCodePoint_of_char (c : Char) : charOfCodePoint (codePointOfChar c)=some c := by
  have hvalid : Nat.isValidChar c.toNat := c.valid
  have hlt : c.toNat<0x110000 := by
    rcases hvalid with h | h
    · omega
    · exact h.2
  have hval : (codePointOfChar c).val=c.toNat := Nat.mod_eq_of_lt hlt
  unfold charOfCodePoint
  rw [hval,if_pos hvalid,Char.ofNat_toNat]

theorem codePointOfChar_eq {p : CodePoint} {c : Char} (h : charOfCodePoint p=some c) : codePointOfChar c=p := by
  unfold charOfCodePoint at h
  split_ifs at h with hvalid
  rw [← Option.some.inj h]
  have hnat : (Char.ofNat p.val).toNat=p.val := by
    unfold Char.ofNat
    rw [dif_pos hvalid]
    rfl
  apply Fin.ext
  change (Char.ofNat p.val).toNat % 0x110000=p.val
  rw [hnat,Nat.mod_eq_of_lt p.isLt]

variable {l : List CodePoint}

theorem mapM_charOfCodePoint {text : List Char} :
    l.mapM charOfCodePoint=some text ↔ l=text.map codePointOfChar := by
  induction l generalizing text with
  | nil =>
    constructor
    · intro h
      rw [← Option.some.inj h]
      rfl
    · intro h
      rw [List.map_eq_nil_iff.mp h.symm]
      rfl
  | cons p l ih =>
    rw [List.mapM_cons]
    constructor
    · intro h
      obtain ⟨c,hc,h⟩ := Option.bind_eq_some_iff.mp h
      obtain ⟨text',ht,h⟩ := Option.bind_eq_some_iff.mp h
      rw [← Option.some.inj h,List.map_cons,codePointOfChar_eq hc,ih.mp ht]
    · intro h
      cases text with
      | nil => cases h
      | cons c text =>
        obtain ⟨rfl,hl⟩ := List.cons.inj h
        rw [charOfCodePoint_of_char,ih.mpr hl]
        rfl

theorem decodeUtf8_eq_ok {b : Bytes} : decodeUtf8 b = .ok l ↔ encodeUtf8 l = .ok b := by
  have hbytes (text : List Char) : text.utf8Encode=(text.flatMap String.utf8EncodeChar).toByteArray := rfl
  unfold decodeUtf8 encodeUtf8
  constructor
  · intro h
    cases hd : b.toByteArray.utf8Decode? with
    | none =>
      rw [hd] at h
      cases h
    | some text =>
      rw [hd] at h
      have hl : text.toList.map codePointOfChar=l := Except.ok.inj h
      rw [mapM_charOfCodePoint.mpr hl.symm]
      have hsome : b.toByteArray.utf8Decode?.isSome := by rw [hd]; rfl
      have hb := ByteArray.utf8Encode_get_utf8Decode? (h := hsome)
      simp only [hd,Option.get_some,hbytes] at hb
      have hb' := congrArg (fun a : ByteArray => a.data.toList) hb
      simp only [List.data_toByteArray] at hb'
      exact congrArg Except.ok hb'
  · intro h
    cases hm : l.mapM charOfCodePoint with
    | none =>
      rw [hm] at h
      cases h
    | some text =>
      rw [hm] at h
      have hb : text.flatMap String.utf8EncodeChar=b := Except.ok.inj h
      rw [← hb,← hbytes,List.utf8Decode?_utf8Encode,mapM_charOfCodePoint.mp hm]

theorem parseStr_exact : Exact (fun _ => True) streamStr parseStr := by
  have hconvert : ∀ (b : Bytes) (l : List CodePoint),True ∧ decodeUtf8 b = .ok l ↔ True ∧ encodeUtf8 l = .ok b := by
    intro b l
    rw [decodeUtf8_eq_ok]
  apply (parseBytes_exact.convert hconvert).congr (fun _ => Iff.rfl) (fun _ => rfl)
  unfold parseStr parseBytes
  rw [bind_assoc]
  rfl

end Text

/-- What the other packages promise: bytes determine an element, and the scanner finds the program in front of a
stream. -/
structure Lawful (X : External) (IsProgram : Bytes → Prop) : Prop where
  element : ∀ k b e,b.length=k.size ∧ X.fromBytes k b = .ok e ↔ X.toBytes k e=b
  program : ∀ s n,X.serializedLength s = .ok n ↔ ∃ p rest,s=p++rest ∧ IsProgram p ∧ p.length=n

variable {X : External} {IsProgram : Bytes → Prop}

theorem parseSizeHints_exact (hX : Lawful X IsProgram) (k : SizeHint) :
    Exact (fun _ => True) (fun e => .ok (X.toBytes k e)) (parseSizeHints X k) := by
  have hconvert : ∀ (b : Bytes) (e : X.Element k),b.length=k.size ∧ X.fromBytes k b = .ok e ↔
      True ∧ (.ok (X.toBytes k e) : Check Bytes) = .ok b := by
    intro b e
    rw [hX.element,Except.ok.injEq,true_and]
  exact ((readExactly_exact k.size).convert hconvert).congr (fun _ => Iff.rfl) (fun _ => rfl) rfl

theorem parseSerializedProgram_exact (hX : Lawful X IsProgram) :
    Exact IsProgram (fun p => (.ok p : Check Bytes)) (parseSerializedProgram X) := by
  intro s p rest
  have hrun : parseSerializedProgram X s=(X.serializedLength s >>= fun n => .ok (s.take n,s.drop n)) := by
    change (X.serializedLength s >>= fun n => .ok (n,s)) >>= _=_
    cases X.serializedLength s <;> rfl
  rw [hrun,Lib.bind_eq_ok]
  constructor
  · intro h
    obtain ⟨n,hn,h⟩ := h
    obtain ⟨q,t,rfl,hq,rfl⟩ := (hX.program s n).mp hn
    obtain ⟨hp,hrest⟩ := Prod.mk.inj (Except.ok.inj h)
    rw [List.take_left'] at hp
    rw [List.drop_left'] at hrest
    · rw [← hp,← hrest]
      exact ⟨hq,q,rfl,rfl⟩
    · rfl
    · rfl
  · intro h
    obtain ⟨hp,b,hb,rfl⟩ := h
    obtain rfl := Except.ok.inj hb
    refine ⟨p.length,(hX.program _ _).mpr ⟨p,rest,rfl,hp,rfl⟩,?_⟩
    rw [List.take_left' rfl,List.drop_left' rfl]

variable (X IsProgram)

mutual

def Every {α : Type} (good : α → Prop) (l : List α) : Prop := ∀ x∈l,good x

/-- The values of a type, where what is in the place of a program is a program. -/
def WellTyped : (t : FieldType) → t.Value X → Prop
  | .int _,_ => True
  | .bool,_ => True
  | .bytes,_ => True
  | .sizedBytes _,_ => True
  | .str,_ => True
  | .sizeHint _,_ => True
  | .serializedProgram,p => IsProgram p
  | .optional t,o => ∀ x,o=some x → WellTyped t x
  | .list t,l => Every (WellTyped t) l
  | .tuple ts,xs => WellTypedItems ts xs
  | .streamable ts,xs => WellTypedItems ts xs

def WellTypedItems : (ts : List FieldType) → FieldType.Values X ts → Prop
  | [],_ => True
  | t::ts,(x,xs) => WellTyped t x ∧ WellTypedItems ts xs

end

variable {X IsProgram}

mutual

theorem parseOneItem_exact (hX : Lawful X IsProgram) :
    (t : FieldType) → Exact (WellTyped X IsProgram t) (streamOneItem X t) (parseOneItem X t)
  | .int F => parseInt_exact F
  | .bool => parseBool_exact
  | .bytes => parseBytes_exact
  | .sizedBytes size => parseSizedBytes_exact size
  | .str => parseStr_exact
  | .sizeHint k => parseSizeHints_exact hX k
  | .serializedProgram => parseSerializedProgram_exact hX
  | .optional t => parseOptional_exact (parseOneItem_exact hX t)
  | .list t => parseList_exact (parseOneItem_exact hX t)
  | .tuple ts => parseItems_exact hX ts
  | .streamable ts => parseItems_exact hX ts

theorem parseItems_exact (hX : Lawful X IsProgram) :
    (ts : List FieldType) → Exact (WellTypedItems X IsProgram ts) (streamItems X ts) (parseItems X ts)
  | [] => Exact.unit
  | t::ts => (parseOneItem_exact hX t).pair (parseItems_exact hX ts)

end

/-- What can be written: the sizes fit in four bytes, and no text has a surrogate. -/
def FitsText (l : List CodePoint) : Prop :=
  (∀ p∈l,Nat.isValidChar p) ∧ ∀ b,encodeUtf8 l = .ok b → b.length<2^32

def FitsList {α : Type} (fits : α → Prop) (l : List α) : Prop := l.length<2^32 ∧ ∀ x∈l,fits x

variable (X)

mutual

def Fits : (t : FieldType) → t.Value X → Prop
  | .int _,_ => True
  | .bool,_ => True
  | .bytes,b => List.length b<2^32
  | .sizedBytes _,_ => True
  | .str,l => FitsText l
  | .sizeHint _,_ => True
  | .serializedProgram,_ => True
  | .optional t,o => ∀ x,o=some x → Fits t x
  | .list t,l => FitsList (Fits t) l
  | .tuple ts,xs => FitsItems ts xs
  | .streamable ts,xs => FitsItems ts xs

def FitsItems : (ts : List FieldType) → FieldType.Values X ts → Prop
  | [],_ => True
  | t::ts,(x,xs) => Fits t x ∧ FitsItems ts xs

end

variable {X}

/-- The values of which `write` gives the bytes. -/
def Writes {α : Type} (fits : α → Prop) (write : α → Check Bytes) : Prop := ∀ x,(∃ b,write x = .ok b) ↔ fits x

theorem writes_ok {α : Type} (f : α → Bytes) : Writes (fun _ => True) fun x => .ok (f x) :=
  fun x => ⟨fun _ => trivial,fun _ => ⟨f x,rfl⟩⟩

theorem streamSize_writes : Writes (· < 2^32) streamSize := by
  intro n
  unfold streamSize uint32 uint
  constructor
  · intro h
    obtain ⟨b,h⟩ := h
    split_ifs at h with hlt
    · omega
    · cases h
  · intro h
    rw [if_pos (by omega)]
    exact ⟨_,rfl⟩

theorem streamBytes_writes : Writes (fun b => b.length<2^32) streamBytes := by
  intro b
  rw [← streamSize_writes]
  unfold streamBytes
  constructor
  · intro h
    obtain ⟨c,h⟩ := h
    obtain ⟨d,hd,-⟩ := bind_ok.mp h
    exact ⟨d,hd⟩
  · intro h
    obtain ⟨d,hd⟩ := h
    exact ⟨d++b,by rw [hd]; rfl⟩

theorem encodeUtf8_ok (l : List CodePoint) : (∃ b,encodeUtf8 l = .ok b) ↔ ∀ p∈l,Nat.isValidChar p := by
  have hchar (p : CodePoint) : (∃ c,charOfCodePoint p=some c) ↔ Nat.isValidChar p := by
    unfold charOfCodePoint
    split_ifs with h
    · exact ⟨fun _ => h,fun _ => ⟨_,rfl⟩⟩
    · exact ⟨fun hc => (by obtain ⟨c,hc⟩ := hc; cases hc),fun hp => absurd hp h⟩
  have hmap : (∃ text,l.mapM charOfCodePoint=some text) ↔ ∀ p∈l,Nat.isValidChar p := by
    induction l with
    | nil => exact ⟨fun _ => (by simp),fun _ => ⟨[],rfl⟩⟩
    | cons p l ih =>
      rw [List.forall_mem_cons,← ih,← hchar,List.mapM_cons]
      constructor
      · intro h
        obtain ⟨text,h⟩ := h
        obtain ⟨c,hc,h⟩ := Option.bind_eq_some_iff.mp h
        obtain ⟨text',ht,-⟩ := Option.bind_eq_some_iff.mp h
        exact ⟨⟨c,hc⟩,text',ht⟩
      · intro h
        obtain ⟨⟨c,hc⟩,text,ht⟩ := h
        exact ⟨c::text,by rw [hc,ht]; rfl⟩
  rw [← hmap]
  unfold encodeUtf8
  cases l.mapM charOfCodePoint with
  | none => exact ⟨fun h => (by obtain ⟨b,h⟩ := h; cases h),fun h => (by obtain ⟨b,h⟩ := h; cases h)⟩
  | some text => exact ⟨fun _ => ⟨text,rfl⟩,fun _ => ⟨_,rfl⟩⟩

theorem streamStr_writes : Writes FitsText streamStr := by
  intro l
  unfold FitsText streamStr
  rw [← encodeUtf8_ok]
  constructor
  · intro h
    obtain ⟨c,h⟩ := h
    obtain ⟨b,hb,h⟩ := bind_ok.mp h
    obtain ⟨d,hd,-⟩ := bind_ok.mp h
    refine ⟨⟨b,hb⟩,?_⟩
    intro b' hb'
    rw [hb] at hb'
    rw [← Except.ok.inj hb']
    exact (streamSize_writes _).mp ⟨d,hd⟩
  · intro h
    obtain ⟨⟨b,hb⟩,hlt⟩ := h
    obtain ⟨d,hd⟩ := (streamSize_writes _).mpr (hlt b hb)
    exact ⟨d++b,bind_ok.mpr ⟨b,hb,bind_ok.mpr ⟨d,hd,rfl⟩⟩⟩

section Generic
variable {α β : Type} {fits : α → Prop} {write : α → Check Bytes}

theorem Writes.optional (h : Writes fits write) :
    Writes (fun o => ∀ x,o=some x → fits x) (streamOptional write) := by
  intro o
  cases o with
  | none => exact ⟨fun _ => (by simp),fun _ => ⟨[0],rfl⟩⟩
  | some x =>
    constructor
    · intro hw y hy
      obtain ⟨b,hb⟩ := hw
      obtain ⟨c,hc,-⟩ := bind_ok.mp hb
      rw [← Option.some.inj hy]
      exact (h x).mp ⟨c,hc⟩
    · intro hx
      obtain ⟨c,hc⟩ := (h x).mpr (hx x rfl)
      exact ⟨[1]++c,bind_ok.mpr ⟨c,hc,rfl⟩⟩

theorem writes_both {first second : Check Bytes} :
    (∃ b,(do
      let c ← first
      let d ← second
      return c++d) = .ok b) ↔ (∃ c,first = .ok c) ∧ ∃ d,second = .ok d := by
  constructor
  · intro hw
    obtain ⟨b,hb⟩ := hw
    obtain ⟨c,hc,hb⟩ := bind_ok.mp hb
    obtain ⟨d,hd,-⟩ := bind_ok.mp hb
    exact ⟨⟨c,hc⟩,d,hd⟩
  · intro hw
    obtain ⟨⟨c,hc⟩,d,hd⟩ := hw
    exact ⟨c++d,bind_ok.mpr ⟨c,hc,bind_ok.mpr ⟨d,hd,rfl⟩⟩⟩

theorem Writes.all (h : Writes fits write) : Writes (fun l => ∀ x∈l,fits x) (writeAll write) := by
  intro l
  induction l with
  | nil => exact ⟨fun _ => (by simp),fun _ => ⟨[],rfl⟩⟩
  | cons x l ih =>
    change _ ↔ ∀ y∈l,fits y at ih
    change _ ↔ ∀ y∈x::l,fits y
    rw [List.forall_mem_cons,← ih,← h]
    exact writes_both

theorem Writes.list (h : Writes fits write) : Writes (FitsList fits) (streamList write) := by
  intro l
  unfold FitsList
  have hall : _ ↔ ∀ x∈l,fits x := h.all l
  have hsize : _ ↔ l.length<2^32 := streamSize_writes l.length
  rw [← hall,← hsize]
  exact writes_both

end Generic

mutual

theorem streamOneItem_writes : (t : FieldType) → Writes (Fits X t) (streamOneItem X t)
  | .int F => writes_ok fun x : F.Value => F.pack x.val
  | .bool => writes_ok streamBool
  | .bytes => streamBytes_writes
  | .sizedBytes size => writes_ok fun x : {b : Bytes // b.length=size} => x.val
  | .str => streamStr_writes
  | .sizeHint k => writes_ok (X.toBytes k)
  | .serializedProgram => writes_ok fun p => p
  | .optional t => (streamOneItem_writes t).optional
  | .list t => (streamOneItem_writes t).list
  | .tuple ts => streamItems_writes ts
  | .streamable ts => streamItems_writes ts

theorem streamItems_writes : (ts : List FieldType) → Writes (FitsItems X ts) (streamItems X ts)
  | [] => writes_ok fun _ => []
  | t::ts => by
    intro xs
    change _ ↔ Fits X t xs.1 ∧ FitsItems X ts xs.2
    rw [← streamOneItem_writes t xs.1,← streamItems_writes ts xs.2]
    exact writes_both

end

theorem fromBytes_eq_ok {fields : List FieldType} {x : FieldType.Values X fields} :
    fromBytes X fields b = .ok x ↔ parseItems X fields b = .ok (x,[]) := by
  unfold fromBytes
  rw [bind_ok]
  constructor
  · intro h
    obtain ⟨⟨y,rest⟩,hy,h⟩ := h
    obtain ⟨_,hrest,h⟩ := bind_ok.mp h
    rw [hy,← Except.ok.inj h,assertThat_eq_ok.mp hrest]
  · intro h
    exact ⟨(x,[]),h,rfl⟩

/-- A class of any fields: what fits is read back, and what is accepted is the one encoding of its value. -/
theorem fromBytes_toBytes (hX : Lawful X IsProgram) (fields : List FieldType) :
    (∀ x,WellTypedItems X IsProgram fields x → FitsItems X fields x →
      ∃ b,toBytes X fields x = .ok b ∧ fromBytes X fields b = .ok x) ∧
    (∀ x,¬ FitsItems X fields x → ∃ e,toBytes X fields x = .error e) ∧
    ∀ b x,fromBytes X fields b = .ok x → toBytes X fields x = .ok b := by
  refine ⟨?_,?_,?_⟩
  · intro x htyped hfits
    obtain ⟨b,hb⟩ := (streamItems_writes fields x).mpr hfits
    exact ⟨b,hb,fromBytes_eq_ok.mpr ((parseItems_exact hX fields).whole.mpr ⟨htyped,hb⟩)⟩
  · intro x hno
    cases hx : toBytes X fields x with
    | error e => exact ⟨e,rfl⟩
    | ok b => exact absurd ((streamItems_writes fields x).mp ⟨b,hx⟩) hno
  · intro b x h
    exact ((parseItems_exact hX fields).whole.mp (fromBytes_eq_ok.mp h)).2

/-- The point at infinity of each group, the key zero, and the program `()`. -/
def tinyExternal : External where
  Element _ := Unit
  fromBytes k b := if b=(match k with
      | .privateKey => List.replicate 32 0
      | .g1Element => 0xc0::List.replicate 47 0
      | .g2Element => 0xc0::List.replicate 95 0) then .ok () else .error (.raised .value)
  toBytes k _ := match k with
    | .privateKey => List.replicate 32 0
    | .g1Element => 0xc0::List.replicate 47 0
    | .g2Element => 0xc0::List.replicate 95 0
  serializedLength
    | 0x80::_ => .ok 1
    | _ => .error (.raised .value)

theorem tinyExternal_lawful : Lawful tinyExternal (· = [0x80]) := by
  refine ⟨?_,?_⟩
  · intro k b e
    have hsize : (tinyExternal.toBytes k e).length=k.size := by
      cases k <;> rfl
    have hfrom : tinyExternal.fromBytes k b = .ok e ↔ tinyExternal.toBytes k e=b := by
      change (if b=tinyExternal.toBytes k e then .ok () else .error (.raised .value) : Check Unit) = .ok e ↔ _
      split_ifs with hb
      · exact ⟨fun _ => hb.symm,fun _ => rfl⟩
      · exact ⟨fun h => (by cases h),fun h => absurd h.symm hb⟩
    rw [hfrom]
    constructor
    · exact fun h => h.2
    · intro h
      exact ⟨h ▸ hsize,h⟩
  · intro s n
    constructor
    · intro h
      cases s with
      | nil => cases h
      | cons x s =>
        by_cases hx : x=0x80
        · subst hx
          exact ⟨[0x80],s,rfl,rfl,Except.ok.inj h⟩
        · have hno : tinyExternal.serializedLength (x::s) = .error (.raised .value) := by
            unfold tinyExternal
            simp [hx]
          rw [hno] at h
          cases h
    · intro h
      obtain ⟨p,rest,rfl,rfl,rfl⟩ := h
      rfl

theorem fromBytes_toBytes_tiny : ∃ b,
    toBytes tinyExternal [.int .uint16,.optional .bool,.list .serializedProgram]
        (⟨258,by decide⟩,some true,[[0x80]],()) = .ok b ∧
      fromBytes tinyExternal [.int .uint16,.optional .bool,.list .serializedProgram] b =
        .ok (⟨258,by decide⟩,some true,[[0x80]],()) := by
  refine (fromBytes_toBytes tinyExternal_lawful
    [.int .uint16,.optional .bool,.list .serializedProgram]).1 _ ?_ ?_
  · refine ⟨trivial,fun _ _ => trivial,?_,trivial⟩
    intro p hp
    exact List.mem_singleton.mp hp
  · refine ⟨trivial,fun _ _ => trivial,⟨?_,fun _ _ => trivial⟩,trivial⟩
    decide

/-- A text of one surrogate is well typed, and is not written. -/
theorem surrogate_not_written : WellTypedItems tinyExternal (· = [0x80]) [.str] ([0xd800],()) ∧
    toBytes tinyExternal [.str] ([0xd800],()) = .error (.raised .value) := ⟨⟨trivial,trivial⟩,rfl⟩

end Streamable
end RoseChain
