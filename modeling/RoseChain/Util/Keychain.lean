import RoseChain.Lib.Bits
import RoseChain.Util.MerkleCanonical

namespace RoseChain
open Lib

namespace Keychain

abbrev Text := List Char

/-- `BitArray(b)`. -/
def bitArray (b : Bytes) : List Bool := b.flatMap fun x => bitsOf 8 x.toNat

/-- `.bytes` of a bit array of whole bytes. -/
def bitBytes (bits : List Bool) : Bytes := (slices 8 bits).map fun s => UInt8.ofNat (uintOf s)

variable (E : Env) (wordList : List Text)

def checksum (m : Bytes) (length : ℕ) : List Bool := (bitArray (bytes32 (E.stdHash m))).take length

def mnemonicWord (bits : List Bool) : Check Text :=
  match wordList[uintOf bits]? with
  | some word => .ok word
  | none => .error (.raised .index)

def bytesToMnemonic (mnemonicBytes : Bytes) : Check Text := do
  if mnemonicBytes.length∉[16,20,24,28,32] then .error (.raised .value) else
  let CS := mnemonicBytes.length / 4
  let bitarray := bitArray mnemonicBytes++checksum E mnemonicBytes CS
  assertThat (bitarray.length % 11=0)
  let mnemonics ← (slices 11 bitarray).mapM (mnemonicWord wordList)
  return List.intercalate [' '] mnemonics

/-- Of a word that stands twice in the list the last place counts. -/
def wordPositions : Dict Text ℕ := wordList.zipIdx.foldl (fun d e => d.set e.1 e.2) Dict.empty

def wordBits (word : Text) : Check (List Bool) :=
  match (wordPositions wordList).get? word with
  | none => .error (.raised .value)
  | some value => if value<2^11 then .ok (bitsOf 11 value) else .error (.raised .value)

def bytesFromMnemonic (mnemonicStr : Text) : Check Bytes := do
  let mnemonic := mnemonicStr.splitOn ' '
  if mnemonic.length∉[12,15,18,21,24] then .error (.raised .value) else
  let bits := (← mnemonic.mapM (wordBits wordList)).flatten
  let CS := mnemonic.length / 3
  let ENT := mnemonic.length*11-CS
  assertThat (bits.length=mnemonic.length*11)
  assertThat (ENT % 32=0)
  let entropyBytes := bitBytes (bits.take ENT)
  let checksumBytes := bits.drop ENT
  assertThat (checksumBytes.length=CS)
  if checksum E entropyBytes CS≠checksumBytes then .error (.raised .value)
  else return entropyBytes

/-- A word list as the format has it. -/
structure WordList : Prop where
  length : wordList.length=2048
  distinct : wordList.Nodup
  unbroken : ∀ word∈wordList, ' ' ∉ word

theorem length_bitArray (b : Bytes) : (bitArray b).length=8*b.length := by
  induction b with
  | nil => rfl
  | cons x b ih =>
    rw [bitArray,List.flatMap_cons,List.length_append,length_bitsOf,List.length_cons]
    rw [bitArray] at ih
    omega

theorem bitBytes_bitArray (b : Bytes) : bitBytes (bitArray b)=b := by
  have hcut : slices 8 (bitArray b)=b.map fun x => bitsOf 8 x.toNat := by
    rw [bitArray,List.flatMap_def]
    refine slices_flatten (by omega) fun piece hp => ?_
    obtain ⟨x,-,rfl⟩ := List.mem_map.mp hp
    exact length_bitsOf _ _
  rw [bitBytes,hcut,List.map_map]
  conv_rhs => rw [← List.map_id b]
  apply List.map_congr_left
  intro x _
  have hx : uintOf (bitsOf 8 x.toNat)=x.toNat := uintOf_bitsOf x.toNat_lt
  simp only [Function.comp_apply,hx,UInt8.ofNat_toNat,id_eq]

variable {bits : List Bool}

theorem bitArray_bitBytes (n : ℕ) (h : bits.length=n*8) :
    bitArray (bitBytes bits)=bits ∧ (bitBytes bits).length=n := by
  obtain ⟨pieces,rfl,hn,hp⟩ := exists_pieces n h
  rw [bitBytes,slices_flatten (by omega) hp]
  refine ⟨?_,by rw [List.length_map,hn]⟩
  rw [bitArray,List.flatMap_map,List.flatMap_def]
  conv_rhs => rw [← List.map_id pieces]
  congr 1
  apply List.map_congr_left
  intro piece hmem
  have hlt := uintOf_lt piece
  rw [hp piece hmem] at hlt
  have hval : (UInt8.ofNat (uintOf piece)).toNat=uintOf piece := by
    rw [UInt8.toNat_ofNat']
    exact Nat.mod_eq_of_lt hlt
  have hback := bitsOf_uintOf piece
  rw [hp piece hmem] at hback
  rw [hval,hback,id_eq]

variable {n : ℕ}

theorem length_checksum (m : Bytes) (h : n≤256) : (checksum E m n).length=n := by
  rw [checksum,List.length_take,length_bitArray,bytes32_length]
  omega

theorem get?_foldl_set {K V : Type} [DecidableEq K] (entries : List (K × V)) (d : Dict K V) (key : K)
    (value : V) (h : (entries.map Prod.fst).Nodup) :
    (entries.foldl (fun d e => d.set e.1 e.2) d).get? key=some value ↔
      (key,value)∈entries ∨ key∉entries.map Prod.fst ∧ d.get? key=some value := by
  induction entries generalizing d with
  | nil => simp
  | cons e entries ih =>
    rw [List.map_cons,List.nodup_cons] at h
    rw [List.foldl_cons,ih _ h.2,Dict.get?_set]
    obtain ⟨k,v⟩ := e
    by_cases hk : k=key
    · subst hk
      have hnot : (k,value)∉entries := fun hm => h.1 (List.mem_map.mpr ⟨_,hm,rfl⟩)
      simp [h.1,hnot,eq_comm]
    · have hne : key≠k := fun e => hk e.symm
      simp [hk,hne]

variable {E wordList}

variable {word : Text}

theorem WordList.position (h : WordList wordList) {i : ℕ} :
    (wordPositions wordList).get? word=some i ↔ wordList[i]?=some word := by
  have hfst : wordList.zipIdx.map Prod.fst=wordList := List.zipIdx_map_fst 0 wordList
  have hnodup : (wordList.zipIdx.map Prod.fst).Nodup := hfst.symm ▸ h.distinct
  rw [wordPositions,get?_foldl_set _ _ _ _ hnodup,List.mk_mem_zipIdx_iff_getElem?]
  simp

theorem WordList.wordBits_eq_ok (h : WordList wordList) :
    wordBits wordList word = .ok bits ↔ bits.length=11 ∧ mnemonicWord wordList bits = .ok word := by
  unfold wordBits mnemonicWord
  constructor
  · intro hb
    cases hp : (wordPositions wordList).get? word with
    | none => simp [hp] at hb
    | some value =>
      simp only [hp] at hb
      split_ifs at hb with hlt
      obtain rfl := Except.ok.inj hb
      rw [uintOf_bitsOf hlt,h.position.mp hp]
      exact ⟨length_bitsOf _ _,rfl⟩
  · rintro ⟨hlen,hw⟩
    have hlt := uintOf_lt bits
    rw [hlen] at hlt
    cases hi : wordList[uintOf bits]? with
    | none => simp [hi] at hw
    | some found =>
      simp only [hi,Except.ok.injEq] at hw
      subst hw
      have hback := bitsOf_uintOf bits
      rw [hlen] at hback
      rw [h.position.mpr hi]
      dsimp only
      rw [if_pos hlt,hback]

theorem WordList.mnemonicWord_ok (h : WordList wordList) (hlen : bits.length=11) :
    ∃ word∈wordList,mnemonicWord wordList bits = .ok word := by
  have hlt := uintOf_lt bits
  rw [hlen] at hlt
  have hin : uintOf bits<wordList.length := by
    rw [h.length]
    omega
  refine ⟨wordList[uintOf bits],List.getElem_mem hin,?_⟩
  rw [mnemonicWord,List.getElem?_eq_getElem hin]

variable (E wordList)

/-- The words of an entropy of so many times four bytes. -/
structure Spells (k : ℕ) (e : Bytes) (groups : List (List Bool)) (words : List Text) : Prop where
  size : k∈[4,5,6,7,8]
  length : e.length=4*k
  count : words.length=3*k
  joined : groups.flatten=bitArray e++checksum E e k
  each : List.Forall₂ (fun bits word => bits.length=11 ∧ mnemonicWord wordList bits = .ok word) groups words

variable {E wordList} {k : ℕ} {e : Bytes} {groups : List (List Bool)} {words : List Text}

theorem forall₂_width {α β : Type} {P : List α → β → Prop} {groups : List (List α)}
    {words : List β} (h : List.Forall₂ (fun bits word => bits.length=n ∧ P bits word) groups words) :
    ∀ bits∈groups,bits.length=n := by
  induction h with
  | nil => simp
  | cons hhead _ ih =>
    intro bits hb
    obtain rfl | hb := List.mem_cons.mp hb
    · exact hhead.1
    · exact ih bits hb

theorem Spells.slices (h : Spells E wordList k e groups words) :
    slices 11 (bitArray e++checksum E e k)=groups := by
  rw [← h.joined]
  exact slices_flatten (by omega) (forall₂_width h.each)

theorem exists_groups (he : e.length∈[16,20,24,28,32]) : ∃ (k : ℕ) (groups : List (List Bool)),
    k∈[4,5,6,7,8] ∧ e.length=4*k ∧ groups.flatten=bitArray e++checksum E e k ∧
    groups.length=3*k ∧ ∀ bits∈groups,bits.length=11 := by
  simp only [List.mem_cons,List.not_mem_nil,or_false] at he
  obtain ⟨k,hek,hk⟩ : ∃ k,e.length=4*k ∧ (k=4 ∨ k=5 ∨ k=6 ∨ k=7 ∨ k=8) :=
    ⟨e.length / 4,by omega,by omega⟩
  have hbits : (bitArray e++checksum E e k).length=3*k*11 := by
    rw [List.length_append,length_bitArray,length_checksum E e (by omega),hek]
    ring
  obtain ⟨groups,hflat,hcount,hwidth⟩ := exists_pieces (3*k) hbits
  exact ⟨k,groups,by simpa using hk,hek,hflat,hcount,hwidth⟩

variable {m : Text}

theorem bytesToMnemonic_eq_ok : bytesToMnemonic E wordList e = .ok m ↔
    ∃ k groups words,Spells E wordList k e groups words ∧ m=List.intercalate [' '] words := by
  constructor
  · intro h
    unfold bytesToMnemonic at h
    split_ifs at h with hlen
    obtain ⟨k,groups,hk,hek,hflat,hcount,hwidth⟩ := exists_groups (E := E) (by simpa using hlen)
    have hdiv : e.length / 4=k := by omega
    simp only [hdiv] at h
    obtain ⟨u,-,h⟩ := bind_ok.mp h
    obtain ⟨words,hwords,h⟩ := bind_ok.mp h
    rw [← hflat,slices_flatten (by omega) hwidth] at hwords
    have heach := mapM_eq_ok.mp hwords
    refine ⟨k,groups,words,⟨hk,hek,by rw [← heach.length_eq,hcount],hflat,?_⟩,
      (Except.ok.inj h).symm⟩
    exact List.forall₂_iff_get.mpr ⟨heach.length_eq,fun i h₁ h₂ =>
      ⟨hwidth _ (List.get_mem _ _),(List.forall₂_iff_get.mp heach).2 i h₁ h₂⟩⟩
  · rintro ⟨k,groups,words,h,rfl⟩
    have hk := h.size
    simp only [List.mem_cons,List.not_mem_nil,or_false] at hk
    have hlen : ¬ e.length∉[16,20,24,28,32] := by
      simp only [List.mem_cons,List.not_mem_nil,or_false,h.length]
      omega
    have hdiv : e.length / 4=k := by
      rw [h.length]
      omega
    have hbits : (bitArray e++checksum E e k).length % 11=0 := by
      rw [List.length_append,length_bitArray,length_checksum E e (by omega),h.length]
      omega
    unfold bytesToMnemonic
    rw [if_neg hlen]
    simp only [hdiv]
    rw [bind_of_ok ((assertThat_eq_ok (u := ())).mpr hbits),h.slices,
      bind_of_ok (mapM_eq_ok.mpr (h.each.imp fun _ _ hw => hw.2))]
    rfl

theorem WordList.bytesFromMnemonic_eq_ok (hl : WordList wordList) : bytesFromMnemonic E wordList m = .ok e ↔
      ∃ k groups,Spells E wordList k e groups (m.splitOn ' ') := by
  constructor
  · intro h
    unfold bytesFromMnemonic at h
    simp only at h
    generalize m.splitOn ' ' = words at h ⊢
    split_ifs at h with hlen
    obtain ⟨k,hk,hwk⟩ : ∃ k,k∈[4,5,6,7,8] ∧ words.length=3*k := by
      simp only [List.mem_cons,List.not_mem_nil,or_false] at hlen
      refine ⟨words.length / 3,?_,by omega⟩
      simp only [List.mem_cons,List.not_mem_nil,or_false]
      omega
    have hdiv : words.length / 3=k := by omega
    have hent : words.length*11-k=4*k*8 := by omega
    obtain ⟨groups,hgroups,h⟩ := bind_ok.mp h
    simp only [hdiv,hent] at h
    obtain ⟨_,hbits,h⟩ := bind_ok.mp h
    obtain ⟨_,-,h⟩ := bind_ok.mp h
    obtain ⟨_,-,h⟩ := bind_ok.mp h
    split_ifs at h with hsum
    rw [assertThat_eq_ok] at hbits
    rw [not_not] at hsum
    have hlen : (groups.flatten.take (4*k*8)).length=4*k*8 := by
      rw [List.length_take,hbits]
      omega
    obtain ⟨hback,hsize⟩ := bitArray_bitBytes (4*k) hlen
    obtain rfl := Except.ok.inj h
    refine ⟨k,groups,hk,hsize,hwk,?_,?_⟩
    · rw [hback,hsum,List.take_append_drop]
    · exact ((mapM_eq_ok.mp hgroups).imp fun _ _ hw => hl.wordBits_eq_ok.mp hw).flip
  · rintro ⟨k,groups,h⟩
    unfold bytesFromMnemonic
    simp only
    generalize m.splitOn ' ' = words at h ⊢
    have hk := h.size
    have hwk := h.count
    simp only [List.mem_cons,List.not_mem_nil,or_false] at hk
    have hlen : ¬ words.length∉[12,15,18,21,24] := by
      simp only [List.mem_cons,List.not_mem_nil,or_false]
      omega
    have hgroups : words.mapM (wordBits wordList) = .ok groups :=
      mapM_eq_ok.mpr (h.each.flip.imp fun _ _ hw => hl.wordBits_eq_ok.mpr hw)
    have hdiv : words.length / 3=k := by omega
    have hent : words.length*11-k=8*e.length := by
      rw [h.length]
      omega
    have hsum := length_checksum (E := E) e (n := k) (by omega)
    have hbits : groups.flatten.length=words.length*11 := by
      rw [h.joined,List.length_append,length_bitArray,hsum,h.length]
      omega
    have htake : groups.flatten.take (8*e.length)=bitArray e := by
      rw [h.joined,← length_bitArray,List.take_left]
    have hdrop : groups.flatten.drop (8*e.length)=checksum E e k := by
      rw [h.joined,← length_bitArray,List.drop_left]
    rw [if_neg hlen,bind_of_ok hgroups]
    simp only [hdiv,hent,htake,hdrop,bitBytes_bitArray]
    rw [bind_of_ok ((assertThat_eq_ok (u := ())).mpr hbits),
      bind_of_ok ((assertThat_eq_ok (u := ())).mpr (by rw [h.length]; omega)),
      bind_of_ok ((assertThat_eq_ok (u := ())).mpr hsum),if_neg (by simp)]
    rfl

theorem WordList.exists_spells (hl : WordList wordList) (he : e.length∈[16,20,24,28,32]) :
    ∃ k groups words,Spells E wordList k e groups words := by
  obtain ⟨k,groups,hk,hek,hflat,hcount,hwidth⟩ := exists_groups (E := E) he
  have hwords : ∀ l : List (List Bool),(∀ bits∈l,bits.length=11) → ∃ words : List Text,
      List.Forall₂ (fun bits word => bits.length=11 ∧ mnemonicWord wordList bits = .ok word) l words := by
    intro l hwidth
    induction l with
    | nil => exact ⟨[],.nil⟩
    | cons bits l ih =>
      obtain ⟨words,hwords⟩ := ih fun b hb => hwidth b (List.mem_cons_of_mem _ hb)
      obtain ⟨word,-,hword⟩ := hl.mnemonicWord_ok (hwidth bits List.mem_cons_self)
      exact ⟨word::words,.cons ⟨hwidth bits List.mem_cons_self,hword⟩ hwords⟩
  obtain ⟨words,heach⟩ := hwords groups hwidth
  exact ⟨k,groups,words,hk,hek,by rw [← heach.length_eq,hcount],hflat,heach⟩

theorem Spells.mem_wordList (h : Spells E wordList k e groups words) : ∀ word∈words,word∈wordList := by
  intro word hword
  obtain ⟨i,hi,rfl⟩ := List.mem_iff_getElem.mp hword
  have hpair := (List.forall₂_iff_get.mp h.each).2 i (by rw [h.each.length_eq]; exact hi) hi
  have hfound := hpair.2
  unfold mnemonicWord at hfound
  split at hfound
  · rename_i found hget
    rw [List.get_eq_getElem,Except.ok.injEq] at hfound
    rw [← hfound]
    exact List.mem_of_getElem? hget
  · cases hfound

theorem WordList.reads_iff_writes (hl : WordList wordList) :
    bytesFromMnemonic E wordList m = .ok e ↔ bytesToMnemonic E wordList e = .ok m := by
  rw [hl.bytesFromMnemonic_eq_ok,bytesToMnemonic_eq_ok]
  constructor
  · rintro ⟨k,groups,h⟩
    exact ⟨k,groups,m.splitOn ' ',h,(List.intercalate_splitOn ' ').symm⟩
  · rintro ⟨k,groups,words,h,rfl⟩
    have hne : words≠[] := by
      rintro rfl
      have hsize := h.size
      have hcount := h.count
      simp only [List.mem_cons,List.not_mem_nil,or_false] at hsize
      simp only [List.length_nil] at hcount
      omega
    rw [List.splitOn_intercalate ' ' (fun word hw => hl.unbroken word (h.mem_wordList word hw)) hne]
    exact ⟨k,groups,h⟩

/-- Every entropy is written and read back, every mnemonic that is accepted is what its entropy is
written as, and no two accepted mnemonics have one entropy. -/
theorem mnemonic_roundTrip (hl : WordList wordList) : (∀ e : Bytes,e.length∈[16,20,24,28,32] →
      ∃ m,bytesToMnemonic E wordList e = .ok m ∧ bytesFromMnemonic E wordList m = .ok e) ∧
    (∀ m e,bytesFromMnemonic E wordList m = .ok e → bytesToMnemonic E wordList e = .ok m) ∧
    ∀ m m' e,bytesFromMnemonic E wordList m = .ok e → bytesFromMnemonic E wordList m' = .ok e → m=m' := by
  refine ⟨fun e he => ?_,fun m e h => hl.reads_iff_writes.mp h,fun m m' e h h' => ?_⟩
  · obtain ⟨k,groups,words,h⟩ := hl.exists_spells (E := E) he
    have hm := bytesToMnemonic_eq_ok.mpr ⟨k,groups,words,h,rfl⟩
    exact ⟨_,hm,hl.reads_iff_writes.mpr hm⟩
  · have hm := hl.reads_iff_writes.mp h
    rw [hl.reads_iff_writes.mp h'] at hm
    exact (Except.ok.inj hm).symm

def tallyWords : List Text := (List.range 2048).map fun i => List.replicate (i+1) 'a'

theorem tallyWords_wordList : WordList tallyWords := by
  refine ⟨by simp [tallyWords],?_,fun word hw hspace => ?_⟩
  · refine List.Nodup.map ?_ List.nodup_range
    intro i j hij
    have hlen := congrArg List.length hij
    simpa using hlen
  · obtain ⟨i,-,rfl⟩ := List.mem_map.mp hw
    have hletter := List.eq_of_mem_replicate hspace
    exact absurd hletter (by decide)

theorem mnemonic_roundTrip_tally : ∃ m,bytesToMnemonic tinyEnv tallyWords (List.replicate 16 7) = .ok m ∧
    bytesFromMnemonic tinyEnv tallyWords m = .ok (List.replicate 16 7) :=
  (mnemonic_roundTrip tallyWords_wordList).1 _ (by decide)

end Keychain
end RoseChain
