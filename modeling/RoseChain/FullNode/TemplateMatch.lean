import RoseChain.FullNode.BundleTools

namespace RoseChain
open Lib
variable {body : Bytes} {text : HexText}

/-- The puzzle prefix from one byte offset to the other, then a public key and the rest of the puzzle. -/
def TemplateAt (body : Bytes) (start stop : ℕ) : Prop :=
  ∃ before publicKey after,body=before++(fromHex standardTransactionPuzzlePrefix++(0xb0::publicKey ++
      (fromHex standardTransactionPuzzleSuffix++after))) ∧ publicKey.length=48 ∧
    start=before.length ∧ stop=start+(fromHex standardTransactionPuzzlePrefix).length

/-- No call raises, and a template is returned where there is one. -/
def DetectsTemplate (body : Bytes) : Prop :=
  (∀ blockHeight,∃ r,detectPotentialTemplateGenerator blockHeight body = .ok r) ∧
    ((matchStandardTransactionAtAnyIndex body = .ok none ∧ ∀ start stop,¬ TemplateAt body start stop) ∨
      ∃ start stop,matchStandardTransactionAtAnyIndex body = .ok (some (start,stop)) ∧ TemplateAt body start stop)

theorem toHex_cons (x : UInt8) (b : Bytes) : toHex (x::b)=x.toNat / 16::x.toNat % 16::toHex b := rfl

theorem toHex_length (b : Bytes) : (toHex b).length=2*b.length := by
  induction b with
  | nil => rfl
  | cons x b ih =>
    rw [toHex_cons]
    simp only [List.length_cons,ih]
    omega

theorem toHex_lt {d : ℕ} (h : d∈toHex body) : d<16 := by
  obtain ⟨x,-,hd⟩ := List.mem_flatMap.mp h
  have hx := x.toNat_lt
  simp only [List.mem_cons,List.not_mem_nil,or_false] at hd
  omega

@[simp] theorem fromHex_toHex (b : Bytes) : fromHex (toHex b)=b := by
  induction b with
  | nil => rfl
  | cons x b ih =>
    rw [toHex_cons,fromHex,ih,Nat.div_add_mod]
    simp

theorem toHex_drop (b : Bytes) (n : ℕ) : (toHex b).drop (2*n)=toHex (b.drop n) := by
  induction n generalizing b with
  | zero => rfl
  | succ n ih =>
    cases b with
    | nil => rfl
    | cons x b => exact ih b

theorem toHex_take (b : Bytes) (n : ℕ) : (toHex b).take (2*n)=toHex (b.take n) := by
  induction n generalizing b with
  | zero => rfl
  | succ n ih =>
    cases b with
    | nil => rfl
    | cons x b =>
      rw [List.take_succ_cons,toHex_cons,toHex_cons,← ih b]
      rfl

variable {n : ℕ}

theorem take_toHex_iff {b : Bytes} (text : HexText) (htext : toHex (fromHex text)=text) :
    (toHex b).take (2*n)=text ↔ b.take n=fromHex text := by
  rw [toHex_take]
  constructor
  · intro h
    rw [← h,fromHex_toHex]
  · intro h
    rw [h,htext]

theorem prefix_bytes : toHex (fromHex standardTransactionPuzzlePrefix)=standardTransactionPuzzlePrefix ∧
    (fromHex standardTransactionPuzzlePrefix).length=238 := by decide +kernel

theorem suffix_bytes : toHex (fromHex standardTransactionPuzzleSuffix)=standardTransactionPuzzleSuffix ∧
    (fromHex standardTransactionPuzzleSuffix).length=4 := ⟨rfl,rfl⟩

theorem startsWithPattern_toHex : StartsWithPattern (toHex body) ↔
    ∃ publicKey after,body=fromHex standardTransactionPuzzlePrefix++(0xb0::publicKey ++
      (fromHex standardTransactionPuzzleSuffix++after)) ∧ publicKey.length=48 := by
  have hkey : toHex (fromHex [11,0])=[11,0] := by decide
  have hdrop (n : ℕ) := toHex_drop body n
  unfold StartsWithPattern
  rw [take_toHex_iff (n := 238) _ prefix_bytes.1,hdrop 238,take_toHex_iff (n := 1) _ hkey,hdrop 239,
    toHex_take _ 48,toHex_length,hdrop 287,take_toHex_iff (n := 4) _ suffix_bytes.1]
  constructor
  · intro ⟨hhead,htag,hlen,_,hsuffix⟩
    refine ⟨(body.drop 239).take 48,body.drop 291,?_,by omega⟩
    have htag' : body.drop 238=0xb0::body.drop 239 := by
      rw [← List.take_append_drop 1 (body.drop 238),htag,List.drop_drop]
      rfl
    have hrest : body.drop 239=(body.drop 239).take 48++(fromHex standardTransactionPuzzleSuffix++body.drop 291) := by
      rw [← hsuffix,← List.drop_drop (i := 4) (j := 287),List.take_append_drop,
        ← List.drop_drop (i := 48) (j := 239),List.take_append_drop]
    rw [List.cons_append,← hrest,← htag',← hhead,List.take_append_drop]
  · intro ⟨publicKey,after,hbody,hlen⟩
    have h238 : body.drop 238=0xb0::publicKey++(fromHex standardTransactionPuzzleSuffix++after) := by
      rw [hbody,List.drop_left' prefix_bytes.2]
    have h239 : body.drop 239=publicKey++(fromHex standardTransactionPuzzleSuffix++after) := by
      rw [← List.drop_drop (i := 1) (j := 238),h238]
      rfl
    have h287 : body.drop 287=fromHex standardTransactionPuzzleSuffix++after := by
      rw [← List.drop_drop (i := 48) (j := 239),h239,List.drop_left' hlen]
    refine ⟨?_,?_,?_,fun d => toHex_lt,?_⟩
    · rw [hbody,List.take_left' prefix_bytes.2]
    · rw [h238]
      rfl
    · rw [h239,List.take_left' hlen,hlen]
    · rw [h287,List.take_left' suffix_bytes.2]

theorem startsWithPattern_nil : ¬ StartsWithPattern [] := by
  intro h
  cases h.1

theorem searchPattern_cases (text : HexText) (start : ℕ) :
    (searchPattern text start=none ∧ ∀ i,¬ StartsWithPattern (text.drop i)) ∨
      ∃ i,searchPattern text start=some (start+i,start+i+582) ∧ StartsWithPattern (text.drop i) ∧
        ∀ j < i,¬ StartsWithPattern (text.drop j) := by
  induction text generalizing start with
  | nil =>
    left
    unfold searchPattern
    rw [if_neg startsWithPattern_nil]
    simp [startsWithPattern_nil]
  | cons d text ih =>
    unfold searchPattern
    split_ifs with hd
    · exact Or.inr ⟨0,rfl,hd,by omega⟩
    · obtain ⟨hnone,hno⟩ | ⟨i,hsome,hi,hleft⟩ := ih (start+1)
      · left
        refine ⟨hnone,?_⟩
        intro i
        cases i with
        | zero => exact hd
        | succ i => exact hno i
      · right
        refine ⟨i+1,?_,hi,?_⟩
        · dsimp only
          rw [hsome,show start+1+i=start+(i+1) by omega]
        · intro j hj
          cases j with
          | zero => exact hd
          | succ j => exact hleft j (by omega)

theorem templateAt_iff {stop : ℕ} : TemplateAt body n stop ↔
    StartsWithPattern ((toHex body).drop (2*n)) ∧ stop=n+238 := by
  rw [toHex_drop,startsWithPattern_toHex]
  unfold TemplateAt
  rw [prefix_bytes.2]
  constructor
  · intro ⟨before,publicKey,after,hbody,hlen,hstart,hstop⟩
    refine ⟨⟨publicKey,after,?_,hlen⟩,hstop⟩
    rw [hbody,List.drop_left' hstart.symm]
  · intro ⟨⟨publicKey,after,hbody,hlen⟩,hstop⟩
    refine ⟨body.take n,publicKey,after,?_,hlen,?_,hstop⟩
    · rw [← hbody,List.take_append_drop]
    · have hne := congrArg List.length hbody
      simp only [List.length_drop,List.length_append,List.length_cons] at hne
      rw [List.length_take]
      omega

theorem detect_ok {m : Option (ℕ × ℕ)} (h : matchStandardTransactionAtAnyIndex body = .ok m) (blockHeight : ℕ) :
    ∃ r,detectPotentialTemplateGenerator blockHeight body = .ok r := by
  unfold detectPotentialTemplateGenerator
  rw [h]
  cases m with
  | none => exact ⟨_,rfl⟩
  | some m =>
    rw [bind_of_ok rfl]
    dsimp only
    split_ifs
    · exact ⟨_,rfl⟩
    · exact ⟨_,rfl⟩

theorem match_even (h : searchPattern (toHex body) 0=some (2*n,2*n+582))
    (hn : StartsWithPattern ((toHex body).drop (2*n))) :
    matchStandardTransactionAtAnyIndex body = .ok (some (n,n+238)) := by
  rw [toHex_drop] at hn
  obtain ⟨publicKey,after,hbody,-⟩ := startsWithPattern_toHex.mp hn
  have hslice : (body.take (n+238)).drop n=fromHex standardTransactionPuzzlePrefix := by
    rw [List.drop_take,show n+238-n=238 by omega,hbody,List.take_left' prefix_bytes.2]
  unfold matchStandardTransactionAtAnyIndex
  rw [h]
  dsimp only
  rw [show (2*n+582-98-8) / 2=n+238 by omega,show 2*n / 2=n by omega,bind_of_ok (a := ()),
    bind_of_ok (a := ())]
  · rfl
  · exact assertThat_eq_ok.mpr hslice
  · exact assertThat_eq_ok.mpr (by omega)

theorem match_odd (h : searchPattern (toHex body) 0=some (2*n+1,2*n+1+582)) :
    matchStandardTransactionAtAnyIndex body = .error (.raised .assertion) := by
  unfold matchStandardTransactionAtAnyIndex
  rw [h]
  have hodd : assertThat ((2*n+1) % 2=0 ∧ (2*n+1+582) % 2=0) = .error (.raised .assertion) := by
    unfold assertThat
    rw [if_neg (by omega)]
  dsimp only
  rw [hodd]
  rfl

/-- A template is found unless the text matches at half a byte before it matches at a whole one. -/
theorem detectsTemplate_iff (body : Bytes) : DetectsTemplate body ↔
    ∀ i,StartsWithPattern ((toHex body).drop (2*i+1)) → ∃ j ≤ i,StartsWithPattern ((toHex body).drop (2*j)) := by
  obtain ⟨hnone,hno⟩ | ⟨i,hsome,hi,hleft⟩ := searchPattern_cases (toHex body) 0
  · have hmatch : matchStandardTransactionAtAnyIndex body = .ok none := by
      unfold matchStandardTransactionAtAnyIndex
      rw [hnone]
    constructor
    · intro _ i hodd
      exact absurd hodd (hno _)
    · intro _
      refine ⟨detect_ok hmatch,Or.inl ⟨hmatch,?_⟩⟩
      intro start stop ht
      exact hno _ (templateAt_iff.mp ht).1
  · rw [Nat.zero_add] at hsome
    obtain ⟨n,rfl | rfl⟩ : ∃ n,i=2*n ∨ i=2*n+1 := ⟨i / 2,by omega⟩
    · have hmatch := match_even hsome hi
      constructor
      · intro _ k hk
        refine ⟨n,?_,hi⟩
        by_contra hlt
        exact hleft _ (by omega) hk
      · intro _
        exact ⟨detect_ok hmatch,Or.inr ⟨_,_,hmatch,templateAt_iff.mpr ⟨hi,rfl⟩⟩⟩
    · have hmatch := match_odd hsome
      constructor
      · rintro ⟨-,⟨hok,-⟩ | ⟨_,_,hok,-⟩⟩ <;> rw [hmatch] at hok <;> cases hok
      · intro hcond
        obtain ⟨j,hj,hmatches⟩ := hcond n hi
        exact absurd hmatches (hleft _ (by omega))

def shiftedTemplate : Bytes :=
  fromHex ([0]++standardTransactionPuzzlePrefix++[11,0]++List.replicate 96 1++standardTransactionPuzzleSuffix++[0])

example : shiftedTemplate.length=292 := by decide +kernel

theorem shiftedTemplate_raises : ¬ DetectsTemplate shiftedTemplate := by
  rw [detectsTemplate_iff]
  intro h
  obtain ⟨j,hj,hmatches⟩ := h 0 (by decide +kernel)
  obtain rfl : j=0 := by omega
  exact absurd hmatches (by decide +kernel)

end RoseChain
