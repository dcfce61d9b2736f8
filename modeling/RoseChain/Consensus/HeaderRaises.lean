import RoseChain.Consensus.Iterations
import RoseChain.FullNode.NoRaise
import RoseChain.Consensus.Runs

namespace RoseChain
open Lib ClassgroupElement

/-- There is no last one of the hashes of a slot's end. -/
def LastMissing (o : Option (List Bytes32)) : Prop := ∀ hashes,o=some hashes → hashes=[]

theorem raises_last (o : Option (List Bytes32)) :
    Raises (do index (← assertSome o).getLast?) ↔ LastMissing o := by
  unfold LastMissing
  rw [raises_bind,raises_assertSome]
  simp only [assertSome_eq_ok,raises_index,List.getLast?_eq_none_iff]
  cases o <;> simp

section Iterations
variable (C : ConsensusConstants) (ssi index required : ℕ)

/-- A sub-slot has no whole intervals, or they do not fit. -/
def IntervalUpsets : Prop := C.numSpsSubSlot=0 ∨ ssi % C.numSpsSubSlot≠0 ∨ 2^64 ≤ intervalOf C ssi

def SpUpsets : Prop := C.numSpsSubSlot ≤ index ∨ IntervalUpsets C ssi ∨ 2^64 ≤ spPlace C ssi index

def IpUpsets : Prop := SpUpsets C ssi index ∨ ¬ (0 < required ∧ required < intervalOf C ssi) ∨
  2^64 ≤ ipPlace C ssi index required

theorem raises_of_cases {α : Type} {u : Prop} {x : Check α} {a : α} (h : u ∧ Raises x ∨ ¬ u ∧ x = .ok a) :
    Raises x ↔ u := by
  rcases h with ⟨hu,hx⟩ | ⟨hu,hx⟩
  · exact iff_of_true hx hu
  · rw [hx]
    exact iff_of_false (not_raises_ok a) hu

theorem calculateSpIntervalIters_cases : IntervalUpsets C ssi ∧ Raises (calculateSpIntervalIters C ssi) ∨
    ¬ IntervalUpsets C ssi ∧ calculateSpIntervalIters C ssi = .ok (intervalOf C ssi) := by
  unfold calculateSpIntervalIters IntervalUpsets
  by_cases hz : C.numSpsSubSlot=0
  · exact Or.inl ⟨Or.inl hz,.zeroDivision,by rw [hz]; rfl⟩
  have hpos := Nat.pos_of_ne_zero hz
  rw [bind_of_ok (floorMod_natCast hpos)]
  by_cases hmod : ssi % C.numSpsSubSlot=0
  · rw [bind_of_ok ((assertThat_eq_ok (u := ())).mpr (by simp [hmod])),bind_of_ok (floorDiv_natCast hpos)]
    by_cases hfits : 2^64 ≤ intervalOf C ssi
    · exact Or.inl ⟨Or.inr (Or.inr hfits),(raises_uint ..).mpr hfits⟩
    · exact Or.inr ⟨by tauto,uint_ok rfl (not_le.mp hfits)⟩
  · refine Or.inl ⟨Or.inr (Or.inl hmod),?_⟩
    rw [raises_unit_bind,raises_assertThat]
    exact Or.inl (by exact_mod_cast hmod)

theorem calculateSpIters_cases : SpUpsets C ssi index ∧ Raises (calculateSpIters C ssi index) ∨
    ¬ SpUpsets C ssi index ∧ calculateSpIters C ssi index = .ok (spPlace C ssi index) := by
  unfold calculateSpIters SpUpsets
  by_cases hindex : C.numSpsSubSlot ≤ index
  · refine Or.inl ⟨Or.inl hindex,?_⟩
    rw [raises_unit_bind,raises_raiseIf]
    exact Or.inl hindex
  rw [bind_of_ok ((raiseIf_eq_ok (u := ())).mpr hindex)]
  rcases calculateSpIntervalIters_cases C ssi with ⟨hupset,hraises⟩ | ⟨hupset,hok⟩
  · exact Or.inl ⟨Or.inr (Or.inl hupset),raises_bind.mpr (Or.inl hraises)⟩
  · rw [bind_of_ok hok]
    by_cases hfits : 2^64 ≤ spPlace C ssi index
    · exact Or.inl ⟨Or.inr (Or.inr hfits),(raises_uint ..).mpr hfits⟩
    · exact Or.inr ⟨by tauto,uint_ok rfl (not_le.mp hfits)⟩

theorem calculateIpIters_raises : Raises (calculateIpIters C ssi index required) ↔ IpUpsets C ssi index required := by
  unfold calculateIpIters IpUpsets
  rcases calculateSpIters_cases C ssi index with ⟨hupset,hraises⟩ | ⟨hupset,hok⟩
  · exact iff_of_true (raises_bind.mpr (Or.inl hraises)) (Or.inl hupset)
  rw [or_iff_right hupset,bind_of_ok hok]
  unfold SpUpsets at hupset
  rw [not_or,not_or] at hupset
  obtain ⟨hindex,hinterval,-⟩ := hupset
  rw [bind_of_ok ((calculateSpIntervalIters_cases C ssi).resolve_left fun h => hinterval h.1).2]
  rcases Nat.eq_zero_or_pos (intervalOf C ssi) with hz | hpos
  · rw [hz]
    exact iff_of_true ⟨.zeroDivision,rfl⟩ (Or.inl fun h => Nat.not_lt_zero _ h.2)
  have hmod : spPlace C ssi index % intervalOf C ssi=0 := by simp [spPlace]
  have hdiv : intervalOf C ssi*C.numSpsSubSlot=ssi := by
    unfold IntervalUpsets at hinterval
    exact Nat.div_mul_cancel (Nat.dvd_of_mod_eq_zero (by tauto))
  have hlt : spPlace C ssi index < ssi := (Nat.mul_lt_mul_of_pos_left (not_le.mp hindex) hpos).trans_eq hdiv
  rw [bind_of_ok (floorMod_natCast hpos),bind_of_ok ((raiseIf_eq_ok (u := ())).mpr (by rw [hmod]; omega)),
    raises_unit_bind,raises_raiseIf,raiseIf_eq_ok]
  by_cases hrequired : 0 < required ∧ required < intervalOf C ssi
  · have h : Timed C ssi index required := ⟨not_le.mp hindex,hdiv,hrequired.1,hrequired.2⟩
    have hcast : (spPlace C ssi index+C.numSpIntervalsExtra*intervalOf C ssi+required : ℤ) =
        (spPlace C ssi index+C.numSpIntervalsExtra*intervalOf C ssi+required : ℕ) := by simp
    rw [hcast,bind_of_ok (floorMod_natCast (Nat.zero_lt_of_lt hlt)),h.place_mod,raises_uint]
    omega
  · exact iff_of_true (Or.inl (by omega)) (Or.inl hrequired)

/-- The iterations of a block or those left do not fit, or they do and what follows fails. -/
def RestUpsets (b : BlockRecord) (next : Prop) : Prop :=
  IpUpsets C b.subSlotIters b.signagePointIndex b.requiredIters ∨
    ∃ ip,b.ipIters C = .ok ip ∧ ((0 : ℤ) ≤ ssi-ip ∧ (ssi-ip : ℤ)<2^64 → next)

theorem rest_raises {α : Type} (b : BlockRecord) {p : Prop} {f : ℕ → Check α} (hf : ∀ n,Raises (f n) ↔ p) :
    Raises (do f (← uint64 (ssi-(← b.ipIters C)))) ↔ RestUpsets C ssi b p := by
  unfold RestUpsets uint64
  rw [raises_bind]
  refine or_congr (calculateIpIters_raises ..) (exists_congr fun ip => and_congr_right fun _ => ?_)
  rw [raises_sized_bind,hf]
  tauto

end Iterations
section Walks
variable (V : BlockView) (stop : BlockRecord → Bool)

/-- No block on the way back is one to stop at, and the next is missing or one too many. -/
def Lost : ℕ → BlockRecord → Prop
  | 0,_ => True
  | n+1,b => stop b=false ∧ ∀ prev,V.tryBlockRecord b.prevHash=some prev → Lost n prev

theorem walk_raises (n : ℕ) (b : BlockRecord) : Raises (V.walk stop n b) ↔ Lost V stop n b := by
  induction n generalizing b with
  | zero => exact iff_of_true ⟨_,rfl⟩ trivial
  | succ n ih =>
    unfold BlockView.walk Lost BlockView.blockRecord BlockView.tryBlockRecord
    cases stop b <;> cases V.blockRecords.get? b.prevHash <;> simp [raises_bind,raises_lookup,not_raises_ok,ih]

theorem blocksInSubSlot_raises (n : ℕ) (b : BlockRecord) :
    Raises (blocksInSubSlot V n b) ↔ Lost V (·.firstInSubSlot) n b := by
  induction n generalizing b with
  | zero => exact iff_of_true ⟨_,rfl⟩ trivial
  | succ n ih =>
    unfold blocksInSubSlot Lost BlockView.blockRecord BlockView.tryBlockRecord
    cases b.firstInSubSlot <;> cases V.blockRecords.get? b.prevHash <;>
      simp [raises_bind,raises_map,raises_lookup,not_raises_ok,ih]

/-- No slot is finished, and the blocks back to the start of the sub-slot are not all there. -/
def SlotLost (slots : List EndOfSubSlotBundle) (prevHash : Bytes32) : Prop := slots=[] ∧
  ∀ b,V.tryBlockRecord prevHash=some b → Lost V (fun b => b.firstInSubSlot || decide (b.height=0)) (b.height+1) b

theorem back_raises (near : BlockRecord → Bool) (n : ℕ) (b : BlockRecord) (seen : Bool) :
    Raises (finalEosIsAlreadyIncluded.back V near n b seen) ↔
      Lost V (fun b => b.firstInSubSlot || decide (b.height=0)) n b := by
  induction n generalizing b seen with
  | zero => exact iff_of_true ⟨_,rfl⟩ trivial
  | succ n ih =>
    unfold finalEosIsAlreadyIncluded.back Lost BlockView.blockRecord BlockView.tryBlockRecord
    cases V.blockRecords.get? b.prevHash <;> cases b.firstInSubSlot <;> by_cases hground : b.height=0 <;>
      simp [raises_bind,raises_lookup,not_raises_ok,hground,ih]

theorem finalEosIsAlreadyIncluded_raises (slots : List EndOfSubSlotBundle) (prevHash : Bytes32) (m n : ℕ) :
    Raises (finalEosIsAlreadyIncluded V slots prevHash m n) ↔ SlotLost V slots prevHash := by
  unfold finalEosIsAlreadyIncluded SlotLost BlockView.blockRecord BlockView.tryBlockRecord
  cases slots <;> cases V.blockRecords.get? prevHash <;>
    simp [raises_bind,raises_lookup,raises_pure,back_raises]

end Walks
namespace SubSlot
variable (E : Env) (V : BlockView) (prevB : Option BlockRecord) (previousSlot : Option EndOfSubSlotBundle)
  (canFinishEpoch : Bool) (expectedDifficulty expectedSubSlotIters : ℕ) (skipVdfIsValid : Bool)
  (sesHash : Option Bytes32) (subSlot : EndOfSubSlotBundle)

/-- The start of the previous block's sub-slot is not known. -/
def StartUnknown (hashes : BlockRecord → Option (List Bytes32)) (prev : BlockRecord) : Prop :=
  Lost V (·.firstInSubSlot) (prev.height+1) prev ∨
    ∃ curr,V.walkBack (·.firstInSubSlot) prev = .ok curr ∧ LastMissing (hashes curr)

theorem challenge_raises : Raises (challenge E V prevB previousSlot subSlot) ↔
    previousSlot=none ∧ ∃ prev,prevB=some prev ∧ StartUnknown V (·.finishedChallengeSlotHashes) prev := by
  unfold challenge StartUnknown
  cases previousSlot with
  | some previous => simp [raises_reject]
  | none =>
    cases prevB with
    | none => simp [raises_reject]
    | some prev =>
      simp only [true_and,Option.some.injEq,exists_eq_left',← raises_last,raises_bind,BlockView.walkBack,walk_raises,
        raises_reject,and_false,exists_false,or_false]

/-- The infused challenge chain to expect cannot be told. -/
def IccUnknown (prev : BlockRecord) : Prop := prev.deficit<E.minBlocksPerChallengeBlock ∧ match previousSlot with
  | some finished => finished.rewardChain.deficit<E.minBlocksPerChallengeBlock ∧ finished.infusedChallengeChain=none
  | none =>
    let stop := fun b : BlockRecord => b.isChallengeBlock E.constants || b.firstInSubSlot
    let rest := RestUpsets E.constants prev.subSlotIters prev False
    Lost V stop (prev.height+1) prev ∨ ∃ curr,V.walkBack stop prev = .ok curr ∧
      if curr.isChallengeBlock E.constants then RestUpsets E.constants prev.subSlotIters curr rest
      else LastMissing curr.finishedInfusedChallengeSlotHashes ∨ rest

/-- The infused challenge chain of the sub-slot is not as expected, or cannot be checked. -/
def IccUpsets : Prop := ∃ prev,prevB=some prev ∧ (IccUnknown E V previousSlot prev ∨
  ∃ expected,expectedIcc E V prev previousSlot = .ok expected ∧
    (subSlot.infusedChallengeChain.isNone≠expected.isNone ∨ ∃ e,expected=some e ∧
      subSlot.infusedChallengeChain.isSome ∧
        (e.vdfInput=none ∨ subSlot.proofs.infusedChallengeChainSlotProof=none)))

theorem expectedIcc_raises (prev : BlockRecord) :
    Raises (expectedIcc E V prev previousSlot) ↔ IccUnknown E V previousSlot prev := by
  unfold expectedIcc IccUnknown
  by_cases hdeficit : prev.deficit ≥ E.minBlocksPerChallengeBlock
  · dsimp only
    rw [if_pos hdeficit]
    exact iff_of_false (not_raises_ok _) fun h => absurd h.1 (by omega)
  dsimp only
  rw [if_neg hdeficit,and_iff_right (not_le.mp hdeficit)]
  have hrest (f : ℕ → Option IccExpectation) : Raises (do
      return f (← uint64 (prev.subSlotIters-(← prev.ipIters E.constants)))) ↔
        RestUpsets E.constants prev.subSlotIters prev False := rest_raises _ _ _ fun _ => raises_pure _
  cases previousSlot with
  | some finished => simp [raises_ite,raises_map,raises_assertSome,raises_pure]
  | none =>
    rw [raises_bind]
    refine or_congr (walk_raises ..) (exists_congr fun curr => and_congr_right fun _ => ?_)
    by_cases hchallenge : curr.isChallengeBlock E.constants
    · rw [if_pos hchallenge,if_pos hchallenge]
      exact rest_raises _ _ _ fun _ => hrest _
    · rw [if_neg hchallenge,if_neg hchallenge]
      unfold LastMissing
      cases curr.finishedInfusedChallengeSlotHashes with
      | none => exact iff_of_true ⟨_,rfl⟩ (Or.inl fun _ h => by cases h)
      | some hashes =>
        rw [raises_bind,or_iff_right (by simp [raises_assertSome])]
        simp only [assertSome_eq_ok,Option.some.injEq,exists_eq_left',forall_eq']
        rw [raises_bind,raises_index,List.getLast?_eq_none_iff]
        refine or_congr_right' fun hne => ?_
        constructor
        · rintro ⟨_,-,h⟩
          exact (hrest _).mp h
        · exact fun h => ⟨_,index_eq_ok.mpr (List.getLast?_eq_some_getLast hne),(hrest _).mpr h⟩

theorem validateIcc_raises : Raises (validateIcc E V prevB previousSlot subSlot skipVdfIsValid) ↔
    IccUpsets E V prevB previousSlot subSlot := by
  unfold validateIcc IccUpsets
  cases prevB with
  | none => simp [raises_reject]
  | some prev =>
    dsimp only
    rw [raises_bind]
    rw [expectedIcc_raises]
    simp only [Option.some.injEq,exists_eq_left']
    refine or_congr_right (exists_congr fun expected => and_congr_right fun _ => ?_)
    cases subSlot.infusedChallengeChain with
    | none =>
      cases expected with
      | none => simp [raises_bind,raises_assertThat,raises_reject]
      | some e => simp [raises_bind,raises_assertThat,raises_reject]
    | some icc =>
      cases expected with
      | none => simp [raises_bind,raises_assertThat]
      | some e =>
        cases hinput : e.vdfInput with
        | none => simp [raises_bind,raises_assertThat,raises_assertSome,hinput]
        | some input =>
          cases subSlot.proofs.infusedChallengeChainSlotProof with
          | none => simp [raises_bind,raises_assertThat,raises_assertSome,hinput]
          | some proof =>
            simp [raises_bind,raises_assertThat,raises_assertSome,hinput,raises_reject,raises_ite]

/-- The iterations from the previous block to the end of its sub-slot do not fit. -/
def ItersUpset : Prop := previousSlot=none ∧ ∃ prev,prevB=some prev ∧
  RestUpsets E.constants prev.subSlotIters prev False

theorem chains_raises : Raises (chains E prevB previousSlot expectedSubSlotIters) ↔
    ItersUpset E prevB previousSlot := by
  unfold chains ItersUpset
  cases previousSlot with
  | some previous => simp [raises_pure]
  | none =>
    cases prevB with
    | none => simp [raises_pure]
    | some prev =>
      simp [raises_bind,raises_map,raises_sized,BlockRecord.ipIters,calculateIpIters_raises,RestUpsets]

theorem changes_not_raises :
    ¬ Raises (changes E previousSlot canFinishEpoch expectedDifficulty expectedSubSlotIters subSlot) := by
  unfold changes
  simp [raises_bind,raises_reject,raises_ite]

theorem vdfs_not_raises (t : Bytes32 × ℕ × ClassgroupElement) :
    ¬ Raises (vdfs E prevB previousSlot expectedSubSlotIters skipVdfIsValid subSlot t) := by
  unfold vdfs
  cases prevB with
  | none => simp [raises_bind,raises_reject]
  | some prev => simp [raises_bind,raises_reject,raises_ite]

/-- The validation of the sub-slot raises, where it is reached. -/
def Upsets : Prop :=
  (previousSlot=none ∧ ∃ prev,prevB=some prev ∧ StartUnknown V (·.finishedChallengeSlotHashes) prev) ∨
  (challenge E V prevB previousSlot subSlot = .ok () ∧ (IccUpsets E V prevB previousSlot subSlot ∨
    (validateIcc E V prevB previousSlot subSlot skipVdfIsValid = .ok () ∧
      ((sesHash.isSome ∧ subSlot.challengeChain.subepochSummaryHash.isSome) ∨
        (¬ (sesHash.isSome ∧ subSlot.challengeChain.subepochSummaryHash.isSome) ∧
          changes E previousSlot canFinishEpoch expectedDifficulty expectedSubSlotIters subSlot = .ok () ∧
          ItersUpset E prevB previousSlot)))))

theorem validateFinishedSubSlot_raises :
    Raises (validateFinishedSubSlot E V prevB previousSlot canFinishEpoch expectedDifficulty expectedSubSlotIters
      skipVdfIsValid sesHash subSlot) ↔ Upsets E V prevB previousSlot canFinishEpoch expectedDifficulty
        expectedSubSlotIters skipVdfIsValid sesHash subSlot := by
  rw [validateFinishedSubSlot_eq]
  unfold Upsets
  rw [raises_unit_bind,challenge_raises,raises_unit_bind,validateIcc_raises]
  refine or_congr_right (and_congr_right fun _ => or_congr_right (and_congr_right fun _ => ?_))
  -- after the summary hash only the iterations can raise
  have hlast (found : Option Bytes32) : Raises (do
      changes E previousSlot canFinishEpoch expectedDifficulty expectedSubSlotIters subSlot
      let t ← chains E prevB previousSlot expectedSubSlotIters
      vdfs E prevB previousSlot expectedSubSlotIters skipVdfIsValid subSlot t
      return found) ↔ changes E previousSlot canFinishEpoch expectedDifficulty expectedSubSlotIters subSlot = .ok () ∧
        ItersUpset E prevB previousSlot := by
    rw [raises_unit_bind,or_iff_right (changes_not_raises E previousSlot canFinishEpoch expectedDifficulty expectedSubSlotIters subSlot),raises_bind,chains_raises]
    simp [raises_map,vdfs_not_raises]
  rw [raises_bind]
  simp only [hlast]
  unfold summaryHash
  cases subSlot.challengeChain.subepochSummaryHash with
  | none => simp [raises_ok,pure,Except.pure]
  | some h =>
    cases sesHash with
    | none => simp [raises_ok,assertThat,pure,Except.pure,bind,Except.bind]
    | some h' => simp [raises_raised,assertThat,bind,Except.bind]

theorem validateFinishedSubSlots_raises (previous : Option EndOfSubSlotBundle) (l : List EndOfSubSlotBundle) :
    Raises (validateFinishedSubSlots E V prevB canFinishEpoch expectedDifficulty expectedSubSlotIters skipVdfIsValid
      previous sesHash l) ↔ ∃ before slot after found,l=before++slot::after ∧
        validateFinishedSubSlots E V prevB canFinishEpoch expectedDifficulty expectedSubSlotIters skipVdfIsValid
          previous sesHash before = .ok found ∧
        Upsets E V prevB (before.getLast?.or previous) canFinishEpoch expectedDifficulty expectedSubSlotIters
          skipVdfIsValid found slot := by
  induction l generalizing previous sesHash with
  | nil =>
    unfold validateFinishedSubSlots
    exact iff_of_false (not_raises_ok _) (by simp)
  | cons slot l ih =>
    rw [validateFinishedSubSlots,raises_bind,validateFinishedSubSlot_raises]
    simp only [ih]
    constructor
    · rintro (h | ⟨found,hfound,before,slot',after,found',rfl,hrun,h⟩)
      · exact ⟨[],slot,l,sesHash,rfl,rfl,h⟩
      · refine ⟨slot::before,slot',after,found',rfl,?_,?_⟩
        · rw [validateFinishedSubSlots,bind_of_ok hfound]
          exact hrun
        · cases hlast : before.getLast? with
          | none => simpa [List.getLast?_cons,hlast] using h
          | some last => simpa [List.getLast?_cons,hlast] using h
    · rintro ⟨before,slot',after,found,heq,hrun,h⟩
      cases before with
      | nil =>
        obtain ⟨rfl,rfl⟩ := List.cons.inj heq
        unfold validateFinishedSubSlots at hrun
        obtain rfl := Except.ok.inj hrun
        exact Or.inl h
      | cons first before =>
        obtain ⟨rfl,rfl⟩ := List.cons.inj heq
        rw [validateFinishedSubSlots] at hrun
        obtain ⟨middle,hmiddle,hrest⟩ := bind_ok.mp hrun
        refine Or.inr ⟨middle,hmiddle,before,slot',after,found,rfl,hrest,?_⟩
        cases hlast : before.getLast? with
        | none => simpa [List.getLast?_cons,hlast] using h
        | some last => simpa [List.getLast?_cons,hlast] using h

end SubSlot

namespace HeaderCall
variable (E : Env) (V : BlockView) (c : HeaderCall)

theorem isOverflowBlock_raises (C : ConsensusConstants) (i : ℕ) : Raises (isOverflowBlock C i) ↔ C.numSpsSubSlot ≤ i := by
  unfold isOverflowBlock
  rw [raises_bind,raises_raiseIf]
  simp [raises_pure]

/-- The header is before the first block with other parameters than the starting ones, or too high, or the
ancestors do not tell whether an epoch ends. -/
def PositionUpsets (overflow skip : Bool) : Prop :=
  (c.prevB V=none ∧ (c.expectedDifficulty≠E.difficultyStarting ∨
    c.expectedSubSlotIters≠E.subSlotItersStarting)) ∨
  ∃ prev,c.prevB V=some prev ∧ (2^32≤prev.height+1 ∨ (c.newSubSlot overflow skip ∧
    Raises (canFinishSubAndFullEpoch E.constants V prev.height prev.prevHash prev.deficit
      prev.subEpochSummaryIncluded.isSome)))

theorem position_raises (overflow skip : Bool) :
    Raises (c.position E V overflow skip) ↔ c.PositionUpsets E V overflow skip := by
  unfold position PositionUpsets
  cases c.prevB V with
  | none =>
    by_cases hd : c.expectedDifficulty=E.difficultyStarting
    · simp [raises_unit_bind,raises_assertThat,raises_map,hd]
    · simp [raises_unit_bind,raises_assertThat,hd]
  | some prev =>
    have hheight : Raises (uint32 ((prev.height : ℤ)+1)) ↔ 2^32≤prev.height+1 :=
      raises_uint 32 (prev.height+1)
    dsimp only
    rw [raises_bind,hheight]
    by_cases hfits : 2^32≤prev.height+1
    · exact iff_of_true (Or.inl hfits) (Or.inr ⟨prev,rfl,Or.inl hfits⟩)
    · have huint : uint32 ((prev.height : ℤ)+1) = .ok (prev.height+1) := by
        unfold uint32 uint
        rw [if_pos ⟨by omega,by omega⟩]
        rfl
      simp [huint,raises_ite,raises_map,raises_pure]

def PlaceUpsets : Prop :=
  ¬ ((c.prevB V).isNone ∧ c.header.foliage.prevBlockHash≠E.genesisChallenge) ∧
  (E.numSpsSubSlot ≤ c.header.rewardChainBlock.signagePointIndex ∨
    ∃ overflow,isOverflowBlock E.constants c.header.rewardChainBlock.signagePointIndex = .ok overflow ∧
      ((c.skipOverflowLastSsValidation ∧ overflow ∧ SlotLost V c.header.finishedSubSlots c.header.foliage.prevBlockHash) ∨
        ∃ skip,c.skipSlots V overflow = .ok skip ∧ c.PositionUpsets E V overflow skip))

theorem place_raises : Raises (c.place E V) ↔ c.PlaceUpsets E V := by
  unfold place PlaceUpsets
  rw [raises_reject_bind,raises_bind,isOverflowBlock_raises]
  refine and_congr_right fun _ => or_congr_right (exists_congr fun overflow => and_congr_right fun _ => ?_)
  rw [raises_bind]
  refine or_congr ?_ (exists_congr fun skip => and_congr_right fun _ => ?_)
  · unfold skipSlots
    simp [raises_ite,raises_map,raises_pure,and_assoc,finalEosIsAlreadyIncluded_raises]
  · rw [raises_bind,position_raises]
    simp [raises_pure]

variable (x : HeaderPlace)

/-- A finished sub-slot upsets the validation, after those before it have been found valid. -/
def LoopUpsets : Prop := (c.newSubSlot x.overflow x.skip ∧ ¬ x.skip) ∧
  ∃ before slot after found,c.header.finishedSubSlots=before++slot::after ∧
    validateFinishedSubSlots E V (c.prevB V) x.canFinishEpoch c.expectedDifficulty c.expectedSubSlotIters
      c.skipVdfIsValid none none before = .ok found ∧
    SubSlot.Upsets E V (c.prevB V) before.getLast? x.canFinishEpoch c.expectedDifficulty c.expectedSubSlotIters
      c.skipVdfIsValid found slot

theorem slotLoop_raises : Raises (c.slotLoop E V x) ↔ c.LoopUpsets E V x := by
  unfold slotLoop LoopUpsets
  rw [raises_ite,SubSlot.validateFinishedSubSlots_raises]
  simp [raises_pure]

/-- The sub-epoch summary that the header should include cannot be made. -/
def SummaryUpsets (sesHash : Option Bytes32) : Prop := (c.newSubSlot x.overflow x.skip ∧ ¬ x.skip) ∧
  x.canFinishSe ∧ c.checkSubEpochSummary ∧ ∃ hash prev,sesHash=some hash ∧ c.prevB V=some prev ∧
    (Raises (V.blockRecord prev.prevHash) ∨ ∃ prevPrev,V.blockRecord prev.prevHash = .ok prevPrev ∧
      Raises (makeSubEpochSummary E.constants V E.toOracles x.height prevPrev
        (if x.canFinishEpoch then some c.expectedDifficulty else none)
        (if x.canFinishEpoch then some c.expectedSubSlotIters else none)))

theorem summary_raises (sesHash : Option Bytes32) : Raises (c.summary E V x sesHash) ↔ c.SummaryUpsets E V x sesHash := by
  unfold summary SummaryUpsets validateSubEpochSummary
  rw [raises_ite]
  simp only [raises_pure,and_false,or_false]
  refine and_congr_right fun hslots => ?_
  cases sesHash with
  | none => cases c.prevB V <;> simp [raises_pure,raises_reject]
  | some hash =>
    cases c.prevB V with
    | none => simp [not_raises_invalid]
    | some prev =>
      simp [raises_ite,raises_bind,raises_reject,raises_pure,hslots.1]

def CountUpsets : Prop := ¬ c.newSubSlot x.overflow x.skip ∧ ∃ prev,c.prevB V=some prev ∧
  Lost V (·.firstInSubSlot) (prev.height+1) prev

theorem blockCount_raises : Raises (c.blockCount E V x) ↔ c.CountUpsets V x := by
  unfold blockCount CountUpsets
  cases c.prevB V with
  | none => simp [raises_pure]
  | some prev =>
    simp [raises_ite,raises_bind,raises_reject,raises_pure,blocksInSubSlot_raises]

/-- There are too few finished slots to find the challenge. -/
def ChallengeUpsets : Prop := c.header.finishedSubSlots=[] ∧ ∃ prev,c.prevB V=some prev ∧
  (Raises (reversedChallengeHashes V (if x.overflow ∧ ¬ x.skip then 2 else 1) (prev.height+2) [] prev) ∨
    ∃ found,reversedChallengeHashes V (if x.overflow ∧ ¬ x.skip then 2 else 1) (prev.height+2) [] prev = .ok found ∧
      found.length < if x.overflow ∧ ¬ x.skip then 2 else 1)

theorem getBlockChallenge_raises : Raises (getBlockChallenge E V c.header.finishedSubSlots
    c.header.foliage.prevBlockHash (c.prevB V).isNone x.overflow x.skip) ↔ c.ChallengeUpsets V x := by
  unfold getBlockChallenge ChallengeUpsets
  cases hlast : c.header.finishedSubSlots.getLast? with
  | some last =>
    have hne : c.header.finishedSubSlots≠[] := by
      intro h
      rw [h] at hlast
      cases hlast
    simp [raises_ite,raises_pure,hne]
  | none =>
    rw [List.getLast?_eq_none_iff] at hlast
    cases hprev : c.prevB V with
    | none => simp [raises_pure]
    | some prev =>
      have hrecord : V.blockRecord c.header.foliage.prevBlockHash = .ok prev := lookup_eq_ok.mpr hprev
      simp only [Option.isNone_some,Bool.false_eq_true,if_false,bind_of_ok hrecord,hlast,true_and,
        Option.some.injEq,exists_eq_left']
      rw [raises_bind]
      refine or_congr_right (exists_congr fun found => and_congr_right fun _ => ?_)
      rw [raises_index,List.getElem?_eq_none_iff]
      split_ifs <;> omega

theorem verifyAndGetQualityString_not_raises (p : ProofOfSpace) (challenge signagePoint : Bytes32) :
    ¬ Raises (p.verifyAndGetQualityString E challenge signagePoint) := by
  unfold ProofOfSpace.verifyAndGetQualityString ProofOfSpace.getPlotId
  cases p.poolPublicKey <;> cases p.poolContractPuzzleHash <;>
    simp [raises_ite,raises_bind,raises_assertThat,raises_assertSome,raises_pure]

/-- The iterations that a quality string stands for, before they are bounded. -/
def iterationsOf (q ccSpHash : Bytes32) : ℕ :=
  c.expectedDifficulty*E.difficultyConstantFactor*(E.stdHash (bytes32 q++bytes32 ccSpHash)).toNat /
    (2^256*expectedPlotSize c.header.rewardChainBlock.proofOfSpace.size)

/-- There is no challenge, or the iterations do not fit. -/
def SpaceUpsets : Prop := c.ChallengeUpsets V x ∨
  ∃ challenge,getBlockChallenge E V c.header.finishedSubSlots c.header.foliage.prevBlockHash (c.prevB V).isNone
      x.overflow x.skip = .ok challenge ∧ challenge=c.header.rewardChainBlock.posSsCcChallengeHash ∧
    ∃ q,c.header.rewardChainBlock.proofOfSpace.verifyAndGetQualityString E challenge (c.ccSpHash E challenge) =
        .ok (some q) ∧ c.header.rewardChainBlock.signagePointIndex<E.numSpsSubSlot ∧
      (2^64 ≤ c.iterationsOf E q (c.ccSpHash E challenge) ∨
        IntervalUpsets E.constants c.expectedSubSlotIters)

theorem calculateIterationsQuality_raises (q ccSpHash : Bytes32) :
    Raises (calculateIterationsQuality E.toOracles E.difficultyConstantFactor q
      c.header.rewardChainBlock.proofOfSpace.size c.expectedDifficulty ccSpHash) ↔
        2^64 ≤ c.iterationsOf E q ccSpHash := by
  unfold calculateIterationsQuality iterationsOf
  rw [raises_bind,raises_uint]
  simp [raises_pure]

theorem space_raises : Raises (c.space E V x) ↔ c.SpaceUpsets E V x := by
  unfold space SpaceUpsets
  rw [raises_bind,getBlockChallenge_raises]
  refine or_congr_right (exists_congr fun challenge => and_congr_right fun _ => ?_)
  rw [raises_reject_bind,not_not]
  refine and_congr_right fun _ => ?_
  rw [raises_bind,or_iff_right (verifyAndGetQualityString_not_raises E _ _ _)]
  have hrest (q : Bytes32) : Raises (do
      reject (c.header.rewardChainBlock.signagePointIndex ≥ E.numSpsSubSlot) .invalidSpIndex
      let requiredIters ← calculateIterationsQuality E.toOracles E.difficultyConstantFactor q
        c.header.rewardChainBlock.proofOfSpace.size c.expectedDifficulty (c.ccSpHash E challenge)
      let interval ← calculateSpIntervalIters E.constants c.expectedSubSlotIters
      reject (requiredIters ≥ interval) .invalidRequiredIters
      return (c.ccSpHash E challenge,requiredIters)) ↔
      c.header.rewardChainBlock.signagePointIndex<E.numSpsSubSlot ∧
        (2^64 ≤ c.iterationsOf E q (c.ccSpHash E challenge) ∨
          IntervalUpsets E.constants c.expectedSubSlotIters) := by
    rw [raises_reject_bind,not_le,raises_bind,calculateIterationsQuality_raises]
    refine and_congr_right fun _ => ?_
    by_cases hfits : 2^64 ≤ c.iterationsOf E q (c.ccSpHash E challenge)
    · exact iff_of_true (Or.inl hfits) (Or.inl hfits)
    · have hok : calculateIterationsQuality E.toOracles E.difficultyConstantFactor q
          c.header.rewardChainBlock.proofOfSpace.size c.expectedDifficulty (c.ccSpHash E challenge) =
          .ok (max (c.iterationsOf E q (c.ccSpHash E challenge)) 1) :=
        bind_of_ok (uint_eq_ok.mpr ⟨rfl,not_le.mp hfits⟩)
      simp [hok,raises_bind,raises_map,raises_reject,raises_of_cases (calculateSpIntervalIters_cases ..)]
  constructor
  · rintro ⟨quality,hquality,h⟩
    cases quality with
    | none =>
      exact absurd h (not_raises_invalid _)
    | some q =>
      refine ⟨q,hquality,?_⟩
      simp only [pure_bind] at h
      rw [hrest] at h
      exact h
  · rintro ⟨q,hquality,h⟩
    refine ⟨some q,hquality,?_⟩
    simp only [pure_bind]
    rw [hrest]
    exact h

def TotalUpsets (n ipIters : ℕ) : Prop :=
  (c.prevB V=none ∧ 2^128 ≤ c.expectedSubSlotIters*n+ipIters) ∨
  ∃ prev,c.prevB V=some prev ∧ (IpUpsets E.constants prev.subSlotIters prev.signagePointIndex prev.requiredIters ∨
    ∃ ip start,prev.ipIters E.constants = .ok ip ∧
      start=(prev.totalIters+(if n > 0 then prev.subSlotIters else 0)-ip : ℤ) ∧
      ¬ (0 ≤ start ∧ start+(c.expectedSubSlotIters*(n-1) : ℕ)+ipIters<2^128))

theorem expectedTotalIters_raises (n ipIters : ℕ) :
    Raises (expectedTotalIters E (c.prevB V) n c.expectedSubSlotIters ipIters) ↔ c.TotalUpsets E V n ipIters := by
  unfold expectedTotalIters TotalUpsets
  cases c.prevB V with
  | none =>
    dsimp only
    rw [raises_sized_bind,raises_sized]
    simp only [Int.toNat_natCast,reduceCtorEq,false_and,exists_false,or_false,true_and]
    omega
  | some prev =>
    cases n with
    | zero =>
      simp only [gt_iff_lt,lt_self_iff_false,if_false]
      rw [raises_bind]
      simp only [raises_sized_bind,raises_sized,reduceCtorEq,false_and,false_or,Option.some.injEq,
        exists_eq_left']
      refine or_congr (calculateIpIters_raises ..) (exists_congr fun ip => ?_)
      simp only [exists_and_left,exists_eq_left]
      refine and_congr_right fun _ => ?_
      simp
      omega
    | succ m =>
      simp only [gt_iff_lt,Nat.zero_lt_succ,if_true]
      rw [raises_bind]
      simp only [raises_sized_bind,raises_sized,reduceCtorEq,false_and,false_or,Option.some.injEq,
        exists_eq_left']
      refine or_congr (calculateIpIters_raises ..) (exists_congr fun ip => ?_)
      simp only [exists_and_left,exists_eq_left]
      refine and_congr_right fun _ => ?_
      have hmul : ((c.expectedSubSlotIters*(m+1-1) : ℕ) : ℤ)=c.expectedSubSlotIters*((m+1 : ℕ)-1) := by
        push_cast
        simp
      rw [hmul]
      have hpos : (0 : ℤ) ≤ c.expectedSubSlotIters*((m+1 : ℕ)-1) := by
        rw [← hmul]
        exact Int.natCast_nonneg _
      generalize ((c.expectedSubSlotIters : ℤ)*((m+1 : ℕ)-1))=k at hpos
      omega

/-- The signage point's iterations do not fit, or an overflow block is at the first signage point. -/
def ItersUpsets (requiredIters : ℕ) : Prop :=
  decide (c.header.rewardChainBlock.signagePointIndex=0)=c.header.rewardChainBlock.challengeChainSpVdf.isNone ∧
  decide (c.header.rewardChainBlock.signagePointIndex=0)=c.header.rewardChainBlock.rewardChainSpVdf.isNone ∧
  (SpUpsets E.constants c.expectedSubSlotIters c.header.rewardChainBlock.signagePointIndex ∨
    ∃ spIters,calculateSpIters E.constants c.expectedSubSlotIters
        c.header.rewardChainBlock.signagePointIndex = .ok spIters ∧
      (IpUpsets E.constants c.expectedSubSlotIters c.header.rewardChainBlock.signagePointIndex requiredIters ∨
        ∃ ipIters,calculateIpIters E.constants c.expectedSubSlotIters
            c.header.rewardChainBlock.signagePointIndex requiredIters = .ok ipIters ∧
          ((c.header.rewardChainBlock.challengeChainSpVdf.isNone ∧ x.overflow) ∨
            (¬ (c.header.rewardChainBlock.challengeChainSpVdf.isNone ∧ x.overflow) ∧
              ¬ (x.overflow ∧ x.canFinishEpoch ∧ c.numSlots x.overflow x.skip<2) ∧
              (c.TotalUpsets E V (c.numSlots x.overflow x.skip) ipIters ∨
                (expectedTotalIters E (c.prevB V) (c.numSlots x.overflow x.skip) c.expectedSubSlotIters ipIters =
                    .ok c.header.rewardChainBlock.totalIters ∧
                  ¬ (0≤(c.header.rewardChainBlock.totalIters-ipIters+spIters -
                      (if x.overflow then c.expectedSubSlotIters else 0 : ℕ) : ℤ) ∧
                    (c.header.rewardChainBlock.totalIters-ipIters+spIters -
                      (if x.overflow then c.expectedSubSlotIters else 0 : ℕ) : ℤ)<2^128)))))))

theorem iters_raises (requiredIters : ℕ) : Raises (c.iters E V x requiredIters) ↔ c.ItersUpsets E V x requiredIters := by
  unfold iters ItersUpsets
  rw [raises_reject_bind,not_not,raises_reject_bind,not_not]
  refine and_congr_right fun _ => and_congr_right fun _ => ?_
  rw [raises_bind]
  refine or_congr (raises_of_cases (calculateSpIters_cases ..)) (exists_congr fun spIters => and_congr_right fun _ => ?_)
  rw [raises_bind]
  refine or_congr (calculateIpIters_raises ..) (exists_congr fun ipIters => and_congr_right fun _ => ?_)
  rw [raises_unit_bind,raises_assertThat,assertThat_eq_ok,raises_reject_bind,raises_bind,expectedTotalIters_raises]
  have hlast (total : ℕ) : Raises (do
      reject (total≠c.header.rewardChainBlock.totalIters) .invalidTotalIters
      let spTotalIters ← uint128 (total-ipIters+spIters-(if x.overflow then c.expectedSubSlotIters else 0 : ℕ))
      return (spIters,spTotalIters)) ↔ total=c.header.rewardChainBlock.totalIters ∧
        ¬ (0≤(total-ipIters+spIters-(if x.overflow then c.expectedSubSlotIters else 0 : ℕ) : ℤ) ∧
          (total-ipIters+spIters-(if x.overflow then c.expectedSubSlotIters else 0 : ℕ) : ℤ)<2^128) := by
    rw [raises_reject_bind,not_not,raises_sized_bind]
    simp [raises_pure]
  simp only [hlast]
  refine or_congr (by simp) (and_congr (by simp) (and_congr_right fun _ => or_congr_right ?_))
  constructor
  · rintro ⟨total,hok,rfl,h⟩
    exact ⟨hok,h⟩
  · rintro ⟨hok,h⟩
    exact ⟨_,hok,rfl,h⟩

/-- What the signage point of the reward chain is checked with is not there. -/
def RcSpUpsets (spIters : ℕ) : Prop :=
  (spIters≠0 ∧ (c.header.rewardChainBlock.rewardChainSpVdf=none ∨ c.header.rewardChainSpProof=none)) ∨
  (spIters=0 ∧ c.header.rewardChainBlock.rewardChainSpVdf=none ∧
    ((c.newSubSlot x.overflow x.skip ∧ c.header.finishedSubSlots=[]) ∨
      (¬ c.newSubSlot x.overflow x.skip ∧ ∃ prev,c.prevB V=some prev ∧
        SubSlot.StartUnknown V (·.finishedRewardSlotHashes) prev)))

theorem validateRcSp_raises (info : SignagePointVdfInfo) (spIters : ℕ) :
    Raises (validateRcSp E V c.header (c.prevB V) (c.newSubSlot x.overflow x.skip) info spIters c.skipVdfIsValid) ↔
      c.RcSpUpsets V x spIters := by
  unfold validateRcSp RcSpUpsets
  rw [raises_ite]
  refine or_congr (and_congr_right fun _ => ?_) (and_congr (by simp) ?_)
  · cases c.header.rewardChainBlock.rewardChainSpVdf with
    | none => simp [raises_bind,raises_assertSome]
    | some vdf =>
      cases c.header.rewardChainSpProof with
      | none => simp [raises_bind,raises_assertSome]
      | some proof => simp [raises_bind,raises_map,raises_assertSome,raises_reject]
  · rw [raises_reject_bind,Option.not_isSome_iff_eq_none,raises_ite]
    refine and_congr_right fun _ => or_congr (and_congr_right fun _ => ?_) (and_congr_right fun _ => ?_)
    · simp [raises_map,raises_index]
    · cases c.prevB V with
      | none => simp [raises_pure]
      | some prev =>
        unfold SubSlot.StartUnknown
        simp only [Option.some.injEq,exists_eq_left',← raises_last,raises_bind,BlockView.walkBack,walk_raises]

/-- What the signage points are checked with is not there. -/
def SignagePointUpsets (spIters spTotalIters : ℕ) : Prop :=
  Raises (getSignagePointVdfInfo E V (c.spSlots x) x.overflow (c.prevB V) spTotalIters spIters) ∨
  ∃ info,getSignagePointVdfInfo E V (c.spSlots x) x.overflow (c.prevB V) spTotalIters spIters = .ok info ∧
    (c.RcSpUpsets V x spIters ∨
      ∃ rcSpHash,validateRcSp E V c.header (c.prevB V) (c.newSubSlot x.overflow x.skip) info spIters
          c.skipVdfIsValid = .ok rcSpHash ∧
        E.verify c.header.rewardChainBlock.proofOfSpace.plotPublicKey (bytes32 rcSpHash)
          c.header.rewardChainBlock.rewardChainSpSignature ∧
        spIters≠0 ∧ (c.header.rewardChainBlock.challengeChainSpVdf=none ∨ c.header.challengeChainSpProof=none))

theorem validateCcSp_raises (info : SignagePointVdfInfo) (spIters : ℕ) :
    Raises (validateCcSp E c.header info spIters c.skipVdfIsValid) ↔ spIters≠0 ∧
      (c.header.rewardChainBlock.challengeChainSpVdf=none ∨ c.header.challengeChainSpProof=none) := by
  unfold validateCcSp
  rw [raises_ite]
  simp only [raises_reject,and_false,or_false]
  refine and_congr_right fun _ => ?_
  cases c.header.rewardChainBlock.challengeChainSpVdf with
  | none => simp [raises_bind,raises_assertSome]
  | some vdf =>
    cases c.header.challengeChainSpProof with
    | none => simp [raises_bind,raises_assertSome]
    | some proof => simp [raises_bind,raises_assertSome,raises_reject]

theorem signagePoint_raises (ccSpHash : Bytes32) (spIters spTotalIters : ℕ) :
    Raises (c.signagePoint E V x ccSpHash spIters spTotalIters) ↔
      c.SignagePointUpsets E V x spIters spTotalIters := by
  unfold signagePoint SignagePointUpsets
  rw [raises_bind]
  refine or_congr_right (exists_congr fun info => and_congr_right fun _ => ?_)
  rw [raises_bind,validateRcSp_raises]
  refine or_congr_right (exists_congr fun rcSpHash => and_congr_right fun _ => ?_)
  rw [raises_reject_bind,not_not,raises_unit_bind,validateCcSp_raises]
  simp [raises_reject]

/-- A signature of a transaction block's foliage is not there. -/
def SignatureUpsets : Prop :=
  E.verify c.header.rewardChainBlock.proofOfSpace.plotPublicKey
      (bytes32 (E.hashFoliageBlockData c.header.foliage.foliageBlockData)) c.header.foliage.foliageBlockDataSignature ∧
    c.header.foliage.foliageTransactionBlockHash.isSome ∧ c.header.foliage.foliageTransactionBlockSignature=none

theorem signatures_raises : Raises (c.signatures E) ↔ c.SignatureUpsets E := by
  unfold signatures SignatureUpsets
  rw [raises_reject_bind,not_not]
  refine and_congr_right fun _ => ?_
  cases c.header.foliage.foliageTransactionBlockHash with
  | none => simp [raises_pure]
  | some hash =>
    unfold verifyOptional
    cases c.header.foliage.foliageTransactionBlockSignature with
    | none => simp [raises_bind,raises_assertSome]
    | some signature => simp [raises_bind,raises_assertSome,raises_reject]

/-- A pool signature that is needed is not there, or the proof names not just one pool. -/
def PoolUpsets : Prop := (c.prevB V).isSome ∧
  ((c.header.rewardChainBlock.proofOfSpace.poolPublicKey.isSome ∧
      (c.header.rewardChainBlock.proofOfSpace.poolContractPuzzleHash.isSome ∨
        c.header.foliage.foliageBlockData.poolSignature=none)) ∨
    (c.header.rewardChainBlock.proofOfSpace.poolPublicKey=none ∧
      (c.header.rewardChainBlock.proofOfSpace.poolContractPuzzleHash=none ∨
        (c.header.rewardChainBlock.proofOfSpace.poolContractPuzzleHash ≠
            some c.header.foliage.foliageBlockData.poolTarget.puzzleHash ∧
          c.header.foliage.foliageBlockData.poolSignature=none))))

theorem validatePoolTarget_raises : Raises (validatePoolTarget E (c.prevB V).isNone c.header.rewardChainBlock.proofOfSpace
    c.header.foliage.foliageBlockData) ↔ c.PoolUpsets V := by
  unfold validatePoolTarget PoolUpsets
  cases c.prevB V with
  | none => simp [raises_bind,raises_reject]
  | some prev =>
    unfold verifyOptional
    cases c.header.rewardChainBlock.proofOfSpace.poolPublicKey with
    | some pk =>
      cases c.header.rewardChainBlock.proofOfSpace.poolContractPuzzleHash with
      | some contract => simp [raises_bind,raises_assertThat]
      | none =>
        cases c.header.foliage.foliageBlockData.poolSignature with
        | none => simp [raises_bind,raises_assertThat,raises_assertSome]
        | some signature =>
          simp [raises_bind,raises_assertThat,raises_assertSome,raises_ite,raises_reject,raises_pure]
    | none =>
      cases c.header.rewardChainBlock.proofOfSpace.poolContractPuzzleHash with
      | none => simp [raises_bind,raises_assertSome]
      | some contract =>
        cases c.header.foliage.foliageBlockData.poolSignature with
        | none =>
          simp [raises_bind,raises_assertSome,raises_ite,raises_pure]
          exact not_congr eq_comm
        | some signature =>
          simp [raises_bind,raises_assertSome,raises_ite,raises_reject,raises_pure]

/-- The block that a transaction block follows has no record or no timestamp. -/
def TimestampUpsets : Prop :=
  c.header.foliage.foliageTransactionBlockHash.isSome=c.header.foliageTransactionBlock.isSome ∧
  c.header.foliage.foliageTransactionBlockSignature.isSome=c.header.foliageTransactionBlock.isSome ∧
  ∃ ftb,c.header.foliageTransactionBlock=some ftb ∧
    some (E.hashFoliageTransactionBlock ftb)=c.header.foliage.foliageTransactionBlockHash ∧
    ∃ prev,c.prevB V=some prev ∧ (Lost V (·.isTransactionBlock) (prev.height+1) prev ∨
      ∃ curr,V.lastTransactionBlock prev = .ok curr ∧ ftb.prevTransactionBlockHash=curr.headerHash ∧
        ¬ (c.checkFilter ∧ ftb.filterHash≠E.stdHash c.header.transactionsFilter) ∧
        ftb.timestamp≤E.now+E.maxFutureTime ∧
        ∀ r,V.tryBlockRecord ftb.prevTransactionBlockHash=some r → r.timestamp=none)

theorem validateFoliage_raises : Raises (validateFoliage E V (c.prevB V) c.header c.checkFilter) ↔
    c.TimestampUpsets E V := by
  unfold validateFoliage TimestampUpsets
  rw [raises_reject_bind,not_not,raises_reject_bind,not_not]
  refine and_congr_right fun _ => and_congr_right fun _ => ?_
  cases c.header.foliageTransactionBlock with
  | none => simp [raises_pure]
  | some ftb =>
    simp only [Option.some.injEq,exists_eq_left']
    rw [raises_reject_bind,not_not]
    refine and_congr_right fun _ => ?_
    cases c.prevB V with
    | none => simp [raises_reject_bind,raises_reject]
    | some prev =>
      simp only [Option.some.injEq,exists_eq_left']
      rw [raises_bind]
      refine or_congr (walk_raises ..) (exists_congr fun curr => and_congr_right fun _ => ?_)
      rw [raises_reject_bind,not_not,raises_reject_bind,raises_reject_bind,not_lt]
      refine and_congr_right fun _ => and_congr_right fun _ => and_congr_right fun _ => ?_
      unfold BlockView.blockRecord BlockView.tryBlockRecord
      cases V.blockRecords.get? ftb.prevTransactionBlockHash with
      | none => simp [raises_bind,raises_lookup]
      | some r =>
        cases hr : r.timestamp with
        | none => simp [raises_bind,raises_lookup,raises_assertSome,hr]
        | some timestamp => simp [raises_bind,raises_lookup,raises_assertSome,raises_reject,hr]

def FoliageUpsets (spTotalIters : ℕ) : Prop :=
  (∃ prev,c.prevB V=some prev ∧ Lost V (·.isTransactionBlock) (prev.height+1) prev) ∨
  (validateIsTransactionBlock V (c.prevB V) c.header.foliage spTotalIters = .ok () ∧
    (c.SignatureUpsets E ∨ (c.signatures E = .ok () ∧
      E.hashRewardChainBlockUnfinished c.header.rewardChainBlock =
        c.header.foliage.foliageBlockData.unfinishedRewardBlockHash ∧
      ¬ (c.header.foliage.foliageBlockData.poolTarget.maxHeight≠0 ∧
        c.header.foliage.foliageBlockData.poolTarget.maxHeight<x.height) ∧
      (c.PoolUpsets V ∨ (validatePoolTarget E (c.prevB V).isNone c.header.rewardChainBlock.proofOfSpace
          c.header.foliage.foliageBlockData = .ok () ∧ c.TimestampUpsets E V)))))

theorem validateIsTransactionBlock_raises (spTotalIters : ℕ) :
    Raises (validateIsTransactionBlock V (c.prevB V) c.header.foliage spTotalIters) ↔
      ∃ prev,c.prevB V=some prev ∧ Lost V (·.isTransactionBlock) (prev.height+1) prev := by
  unfold validateIsTransactionBlock BlockView.lastTransactionBlock BlockView.walkBack
  cases c.prevB V with
  | none => simp [raises_reject]
  | some prev => simp [raises_bind,raises_reject,walk_raises]

theorem foliage_raises (spTotalIters : ℕ) :
    Raises (c.foliage E V x spTotalIters) ↔ c.FoliageUpsets E V x spTotalIters := by
  unfold foliage FoliageUpsets
  rw [raises_unit_bind,validateIsTransactionBlock_raises]
  refine or_congr_right (and_congr_right fun _ => ?_)
  rw [raises_unit_bind,signatures_raises]
  refine or_congr_right (and_congr_right fun _ => ?_)
  rw [raises_reject_bind,not_not,raises_reject_bind,raises_unit_bind,validatePoolTarget_raises,
    validateFoliage_raises]

/-- From check 8 on. -/
def RestUpsets (p : Bytes32 × ℕ) : Prop := c.ItersUpsets E V x p.2 ∨
  ∃ q,c.iters E V x p.2 = .ok q ∧ (c.SignagePointUpsets E V x q.1 q.2 ∨
    (c.signagePoint E V x p.1 q.1 q.2 = .ok () ∧ c.FoliageUpsets E V x q.2))

theorem rest_raises (p : Bytes32 × ℕ) : Raises (c.rest E V x p) ↔ c.RestUpsets E V x p := by
  unfold rest RestUpsets
  rw [raises_bind,iters_raises]
  refine or_congr_right (exists_congr fun q => and_congr_right fun _ => ?_)
  rw [raises_unit_bind,signagePoint_raises,raises_unit_bind,foliage_raises]
  simp [raises_pure]

/-- The header upsets its validation at a check, after it has passed all those before. -/
def Upsets : Prop := c.PlaceUpsets E V ∨ ∃ x,c.place E V = .ok x ∧ (c.LoopUpsets E V x ∨
  ∃ sesHash,c.slotLoop E V x = .ok sesHash ∧ (c.SummaryUpsets E V x sesHash ∨
    (c.summary E V x sesHash = .ok () ∧ (c.CountUpsets V x ∨ (c.blockCount E V x = .ok () ∧
      (c.SpaceUpsets E V x ∨ ∃ p,c.space E V x = .ok p ∧ c.RestUpsets E V x p))))))

theorem run_raises : Raises (c.run E V) ↔ c.Upsets E V := by
  rw [run_eq,raises_bind,place_raises]
  refine or_congr_right (exists_congr fun x => and_congr_right fun _ => ?_)
  rw [raises_bind,slotLoop_raises]
  refine or_congr_right (exists_congr fun sesHash => and_congr_right fun _ => ?_)
  rw [raises_unit_bind,summary_raises]
  refine or_congr_right (and_congr_right fun _ => ?_)
  rw [raises_unit_bind,blockCount_raises]
  refine or_congr_right (and_congr_right fun _ => ?_)
  rw [raises_bind,space_raises]
  simp only [rest_raises]

/-- The validation answers unless the header upsets it. -/
theorem run_answers_iff :
    ((∃ requiredIters,c.run E V = .ok requiredIters) ∨ ∃ e,c.run E V = .error (.invalid e)) ↔ ¬ c.Upsets E V := by
  rw [← run_raises]
  cases hrun : c.run E V with
  | ok n => exact iff_of_true (Or.inl ⟨n,rfl⟩) (not_raises_ok n)
  | error e =>
    cases e with
    | invalid e => exact iff_of_true (Or.inr ⟨e,rfl⟩) (not_raises_invalid e)
    | raised e =>
      refine iff_of_false ?_ (not_not.mpr ⟨e,rfl⟩)
      rintro (⟨n,h⟩ | ⟨e',h⟩) <;> cases h

/-- A header before any other block, with a signage point so late that the block overflows. -/
def tinyCall (slots : List EndOfSubSlotBundle) (signagePointIndex : ℕ) (skip : Bool) : HeaderCall where
  header := ⟨slots,{ tinyGenesis.rewardChainBlock.getUnfinished with signagePointIndex },none,none,
    tinyGenesis.foliage,tinyGenesis.foliageTransactionBlock,[]⟩
  checkFilter := false
  expectedDifficulty := tinyEnv.difficultyStarting
  expectedSubSlotIters := tinyEnv.subSlotItersStarting
  skipOverflowLastSsValidation := skip
  skipVdfIsValid := false
  checkSubEpochSummary := true

def summarySlot (challenge rcChallenge : Bytes32) : EndOfSubSlotBundle :=
  ⟨⟨⟨challenge,1024,getDefaultElement⟩,none,some 5,none,none⟩,none,
    ⟨⟨rcChallenge,1024,getDefaultElement⟩,0,none,16⟩,⟨tinyProof,none,tinyProof⟩⟩

/-- A late signage point leads to a `KeyError`, one too late to a `ValueError`; two summary hashes
fail an assertion. -/
theorem run_raises_genesis :
    (tinyCall [] 62 true).run tinyEnv (World.empty 5 5).chain.view = .error (.raised .key) ∧
    (tinyCall [] 64 true).run tinyEnv (World.empty 5 5).chain.view = .error (.raised .value) ∧
    (tinyCall [summarySlot 1 1,summarySlot 0 0] 0 false).run tinyEnv (World.empty 5 5).chain.view =
      .error (.raised .assertion) := by
  refine ⟨?_,?_,?_⟩ <;> decide +kernel

end HeaderCall

end RoseChain
