import Mathlib.Tactic.IntervalCases
import RoseChain.Util.MerkleCanonical

namespace RoseChain

def extraSizeBytes (size : ℕ) : Option ℕ :=
  if size<0x40 then some 0
  else if size<0x2000 then some 1
  else if size<0x100000 then some 2
  else if size<0x8000000 then some 3
  else if size<0x400000000 then some 4
  else none

/-- A size in `n + 1` bytes, of which the first starts with `n + 1` ones. -/
def sizeBlob (n size : ℕ) : Bytes :=
  UInt8.ofNat (256-2^(7-n)+size / 256^n)::(List.range n).map fun i => UInt8.ofNat (size / 256^(n-1-i))

def atomToBytes (b : Bytes) : Option Bytes :=
  match b with
  | [] => some [0x80]
  | [x] => if x≤0x7f then some [x] else some [0x81,x]
  | _ => (extraSizeBytes b.length).map fun n => sizeBlob n b.length++b

/-- `as_bin()`. -/
def SExp.asBin : SExp → Option Bytes
  | .atom b => atomToBytes b
  | .pair first rest => do
    let b ← asBin first
    let c ← asBin rest
    return 0xff::(b++c)

/-- Ones at the start of a byte that begins a size, less one. -/
def extraBytesOf (b : UInt8) : ℕ :=
  if b≤0xbf then 0
  else if b≤0xdf then 1
  else if b≤0xef then 2
  else if b≤0xf7 then 3
  else if b≤0xfb then 4
  else if b≤0xfd then 5
  else 6

/-- `atom_from_stream`. -/
def atomFromStream (b : UInt8) (input : Bytes) : Option (Bytes × Bytes) :=
  if b=0x80 then some ([],input)
  else if b≤0x7f then some ([b],input)
  else
    let n := extraBytesOf b
    let size := natOfBytes (UInt8.ofNat (b.toNat % 2^(7-n))::input.take n)
    if input.length<n ∨ 0x400000000 ≤ size ∨ (input.drop n).length<size then none
    else some ((input.drop n).take size,(input.drop n).drop size)

/-- A value from the front of the input, with so many values inside each other at most. -/
def readSexp : ℕ → Bytes → Option (SExp × Bytes)
  | 0,_ => none
  | _+1,[] => none
  | n+1,b::input =>
    if b=0xff then do
      let (first,input') ← readSexp n input
      let (rest,input'') ← readSexp n input'
      return (.pair first rest,input'')
    else (atomFromStream b input).map fun r => (.atom r.1,r.2)

/-- `sexp_from_stream`. Each value inside another starts at least one byte later. -/
def sexpFromStream (input : Bytes) : Option (SExp × Bytes) := readSexp input.length input

/-- The bytes are those of the value, whatever comes after them. -/
def ReadsAs (b : Bytes) (s : SExp) : Prop := ∀ t,sexpFromStream (b++t)=some (s,t)

variable {n : ℕ} {b : Bytes}

variable {r : SExp × Bytes}

theorem readSexp_mono {m : ℕ} (hnm : n ≤ m) (h : readSexp n b=some r) : readSexp m b=some r := by
  induction n generalizing m b r with
  | zero => cases h
  | succ n ih =>
    obtain ⟨m,rfl⟩ : ∃ k,m=k+1 := ⟨m - 1,by omega⟩
    cases b with
    | nil => cases h
    | cons x input =>
      unfold readSexp at h ⊢
      split_ifs at h ⊢ with hx
      · simp only [Option.bind_eq_bind,Option.bind_eq_some_iff] at h ⊢
        obtain ⟨p,hp,q,hq,hr⟩ := h
        exact ⟨p,ih (by omega) hp,q,ih (by omega) hq,hr⟩
      · exact h

variable {x : UInt8}

theorem atomFromStream_append {input : Bytes} {r : Bytes × Bytes} (h : atomFromStream x input=some r)
    (t : Bytes) : atomFromStream x (input++t)=some (r.1,r.2++t) := by
  unfold atomFromStream at h ⊢
  split_ifs at h ⊢ with h80 h7f
  · cases h; rfl
  · cases h; rfl
  · dsimp only at h ⊢
    split_ifs at h with hbad
    simp only [not_or,not_lt,not_le] at hbad
    obtain ⟨hn,hsize,hlen⟩ := hbad
    rw [List.take_append_of_le_length hn,List.drop_append_of_le_length hn,if_neg]
    · rw [List.take_append_of_le_length hlen,List.drop_append_of_le_length hlen]
      cases h
      rfl
    · simp only [not_or,not_lt,not_le,List.length_append]
      exact ⟨by omega,hsize,by omega⟩

theorem readSexp_append (h : readSexp n b=some r) (t : Bytes) : readSexp n (b++t)=some (r.1,r.2++t) := by
  induction n generalizing b r with
  | zero => cases h
  | succ n ih =>
    cases b with
    | nil => cases h
    | cons x input =>
      rw [List.cons_append]
      unfold readSexp at h ⊢
      split_ifs at h ⊢ with hx
      · simp only [Option.bind_eq_bind,Option.bind_eq_some_iff] at h ⊢
        obtain ⟨p,hp,q,hq,hr⟩ := h
        refine ⟨_,ih hp,_,ih hq,?_⟩
        cases hr
        rfl
      · obtain ⟨a,ha,hr⟩ := Option.map_eq_some_iff.mp h
        rw [atomFromStream_append ha]
        cases hr
        rfl

variable {s : SExp}

theorem ReadsAs.of_readSexp (hn : n≤b.length) (h : readSexp n b=some (s,[])) : ReadsAs b s := by
  intro t
  apply readSexp_mono (n := n)
  · rw [List.length_append]
    omega
  · exact readSexp_append h t

theorem ReadsAs.of_stream (h : sexpFromStream b=some (s,[])) : ReadsAs b s :=
  .of_readSexp le_rfl h

theorem ReadsAs.stream (h : ReadsAs b s) : sexpFromStream b=some (s,[]) := by
  have h := h []
  rwa [List.append_nil] at h

variable {c : Bytes}

theorem ReadsAs.pair {s' : SExp} (h : ReadsAs b s) (h' : ReadsAs c s') : ReadsAs (0xff::(b++c)) (.pair s s') := by
  intro t
  have hb : readSexp (b++c++t).length (b++(c++t))=some (s,c++t) := by
    rw [List.append_assoc]
    exact h (c++t)
  have hc : readSexp (b++c++t).length (c++t)=some (s',t) := by
    apply readSexp_mono (n := (c++t).length)
    · simp only [List.length_append]
      omega
    · exact h' t
  rw [List.append_assoc] at hb hc
  simp only [sexpFromStream,List.cons_append,List.append_assoc,List.length_cons,readSexp,if_true,
    Option.bind_eq_bind,hb,hc,Option.bind_some,Option.pure_def]

theorem ReadsAs.atom {a : Bytes} (hx : x≠0xff) (h : atomFromStream x c=some (a,[])) :
    ReadsAs (x::c) (.atom a) := by
  apply ReadsAs.of_readSexp (n := 1) (by simp)
  unfold readSexp
  rw [if_neg hx,h]
  rfl

theorem ReadsAs.nil : ReadsAs [0x80] (.atom []) := .atom (by decide) rfl

theorem sizeByte : ∀ n<5,∀ q<2^(6-n),UInt8.ofNat (256-2^(7-n)+q)≠0xff ∧ ¬ UInt8.ofNat (256-2^(7-n)+q)≤0x7f ∧
      extraBytesOf (UInt8.ofNat (256-2^(7-n)+q))=n ∧
      UInt8.ofNat ((UInt8.ofNat (256-2^(7-n)+q)).toNat % 2^(7-n))=UInt8.ofNat q ∧
      (UInt8.ofNat (256-2^(7-n)+q)=0x80 → n=0 ∧ q=0) := by
  decide

variable {size : ℕ}

theorem natOfBytes_size (h : size<256^(n+1)) :
    natOfBytes (UInt8.ofNat (size / 256^n)::(List.range n).map fun i => UInt8.ofNat (size / 256^(n-1-i)))=size := by
  have hlist : UInt8.ofNat (size / 256^n)::(List.range n).map (fun i => UInt8.ofNat (size / 256^(n-1-i))) =
      (List.range (n+1)).map fun i => UInt8.ofNat (size / 256^(n+1-1-i)) := by
    rw [List.range_succ_eq_map,List.map_cons,List.map_map]
    congr 1
    apply List.map_congr_left
    intro i hi
    simp only [Function.comp,Nat.succ_eq_add_one]
    congr 3
    omega
  rw [hlist,natOfBytes_digits,Nat.mod_eq_of_lt h]

theorem readsAs_sizeBlob (hn : n≤4) (hlt : b.length<2^(6-n)*256^n) (hne : b≠[]) :
    ReadsAs (sizeBlob n b.length++b) (.atom b) := by
  have hq : b.length / 256^n<2^(6-n) := Nat.div_lt_of_lt_mul (by rwa [mul_comm])
  have hpos : 0<b.length := List.length_pos_of_ne_nil hne
  have hsmall : b.length<0x400000000 ∧ b.length<256^(n+1) := by
    interval_cases n <;> omega
  obtain ⟨hcons,hsingle,hextra,hrest,hzero⟩ := sizeByte n (by omega) _ hq
  unfold sizeBlob
  rw [List.cons_append]
  apply ReadsAs.atom hcons
  unfold atomFromStream
  rw [if_neg,if_neg hsingle,hextra]
  · have hlen : ((List.range n).map fun i => UInt8.ofNat (b.length / 256^(n-1-i))).length=n := by simp
    dsimp only
    rw [hrest,List.take_left' hlen,List.drop_left' hlen,natOfBytes_size hsmall.2,if_neg]
    · simp
    · rw [List.length_append,hlen]
      omega
  · intro h80
    obtain ⟨rfl,h0⟩ := hzero h80
    rw [pow_zero,Nat.div_one] at h0
    omega

theorem extraSizeBytes_some (h : extraSizeBytes size=some n) : n≤4 ∧ size<2^(6-n)*256^n := by
  unfold extraSizeBytes at h
  split_ifs at h <;> cases h <;> omega

theorem readsAs_atomToBytes (h : atomToBytes b=some c) : ReadsAs c (.atom b) := by
  unfold atomToBytes at h
  split at h
  · cases h
    exact ReadsAs.nil
  · next x =>
    split_ifs at h with hx <;> cases h
    · apply ReadsAs.atom (by rintro rfl; exact absurd hx (by decide))
      unfold atomFromStream
      rw [if_neg (by rintro rfl; exact absurd hx (by decide)),if_pos hx]
    · have hsize : sizeBlob 0 [x].length++[x]=[0x81,x] := by simp [sizeBlob]
      rw [← hsize]
      exact readsAs_sizeBlob (by decide) (by simp) (by simp)
  · next hnil _ =>
    obtain ⟨n,hn,rfl⟩ := Option.map_eq_some_iff.mp h
    obtain ⟨hle,hlt⟩ := extraSizeBytes_some hn
    exact readsAs_sizeBlob hle hlt hnil

theorem readsAs_asBin (h : s.asBin=some b) : ReadsAs b s := by
  induction s generalizing b with
  | atom a => exact readsAs_atomToBytes h
  | pair first rest ihFirst ihRest =>
    simp only [SExp.asBin,Option.bind_eq_bind,Option.bind_eq_some_iff,Option.pure_def,Option.some.injEq] at h
    obtain ⟨c,hc,d,hd,rfl⟩ := h
    exact (ihFirst hc).pair (ihRest hd)

theorem asBin_short (h : b.length<0x40) : ∃ c,(SExp.atom b).asBin=some c := by
  unfold SExp.asBin atomToBytes
  split
  · exact ⟨_,rfl⟩
  · split_ifs
    · exact ⟨_,rfl⟩
    · exact ⟨_,rfl⟩
  · rw [extraSizeBytes,if_pos h]
    exact ⟨_,rfl⟩

end RoseChain
