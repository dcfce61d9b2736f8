import RoseChain.Consensus.SlotChain
import RoseChain.FullNode.SubSlotAdmission

namespace RoseChain
open Lib
variable {E : Env} {V : BlockView} {C : ConsensusConstants}

/-- Without a summary since the sub-epoch began there is no adjustment either. -/
theorem adjustedSince_of_sesSince {n : ℕ} {curr : BlockRecord} (h : sesSince C V n curr = .ok false) :
    adjustedSince V C n curr = .ok false := by
  induction n generalizing curr with
  | zero => cases h
  | succ n ih =>
    unfold sesSince at h
    unfold adjustedSince
    cases hses : curr.subEpochSummaryIncluded with
    | some _ =>
      rw [hses,if_pos Option.isSome_some] at h
      cases h
    | none =>
      rw [hses,if_neg (by simp)] at h
      by_cases hmore : curr.height % C.subEpochBlocks > 0
      · rw [if_pos hmore] at h ⊢
        obtain ⟨prev,hprev,h⟩ := bind_ok.mp h
        rw [bind_of_ok hprev,bind_of_ok (ih h)]
        rfl
      · rw [if_neg hmore]
        rfl

variable {epoch : Bool}

theorem canFinish_deficit {height deficit : ℕ} {prevHash : Bytes32} {included : Bool}
    (h : canFinishSubAndFullEpoch C V height prevHash deficit included = .ok (true,epoch)) :
    (C.subEpochBlocks : ℤ)-1≤height ∧ deficit=0 := by
  unfold canFinishSubAndFullEpoch at h
  by_cases hheight : (height : ℤ)<C.subEpochBlocks-1
  · rw [if_pos hheight] at h
    cases h
  rw [if_neg hheight] at h
  by_cases hdeficit : deficit > 0
  · rw [if_pos hdeficit] at h
    cases h
  exact ⟨not_lt.mp hheight,Nat.eq_zero_of_not_pos hdeficit⟩

theorem canFinishEpochSoon_eq {record prev : BlockRecord}
    (hprev : V.blockRecord record.prevHash = .ok prev) (hheight : record.height=prev.height+1)
    (h : canFinishSubAndFullEpoch C V record.height record.prevHash record.deficit
      record.subEpochSummaryIncluded.isSome = .ok (true,epoch))
    (hfar : epoch=false → heightCanBeFirstInEpoch C (record.height+1+C.maxSubSlotBlocks)=false) :
    canFinishEpochSoon V C prev = .ok epoch := by
  obtain ⟨hse,-⟩ | ⟨-,hepoch,hsince⟩ := canFinish_cases h
  · cases hse
  rw [hheight] at hepoch hsince hfar
  unfold canFinishEpochSoon
  cases hfirst : heightCanBeFirstInEpoch C (prev.height+2) with
  | false =>
    rw [hfirst] at hepoch
    have hlate := hfar hepoch
    rw [show prev.height+1+1+C.maxSubSlotBlocks=prev.height+C.maxSubSlotBlocks+2 by omega] at hlate
    rw [if_neg Bool.false_ne_true,hlate,hepoch]
    rfl
  | true =>
    rw [hfirst] at hepoch
    rw [if_pos rfl,hepoch]
    split_ifs with hmore
    · obtain ⟨curr,hcurr,hnone⟩ := hsince hmore
      obtain rfl := Except.ok.inj (hprev.symm.trans hcurr)
      rw [bind_of_ok (adjustedSince_of_sesSince hnone)]
      rfl
    · rfl

section Adjusting
variable {prevHash : Bytes32} {height curr curr' deficit sp : ℕ} {se : Bool}

section
variable (h : canFinishSubAndFullEpoch C V height prevHash deficit false = .ok (se,true))
include h

theorem getNextDifficulty_finishing : getNextDifficulty C V prevHash height curr deficit false true sp false =
      getNextDifficulty C V prevHash height curr' 0 false true sp true := by
  unfold getNextDifficulty
  rw [h]
  rfl

theorem getNextSubSlotIters_finishing :
    getNextSubSlotIters C V prevHash height curr deficit false true sp false =
      getNextSubSlotIters C V prevHash height curr' 0 false true sp true := by
  unfold getNextSubSlotIters
  rw [h]
  rfl

end

end Adjusting

namespace FullNodeStore

/-- The record of the peak is that of its block, comes after its parent, and adjusts nothing without a summary.
-/
structure PeakOnChain.OfBlock (p : PeakOnChain E V) : Prop where
  record : blockToBlockRecord E V p.record.requiredIters p.block = .ok p.record
  height : ∀ prev,V.tryBlockRecord p.block.prevHeaderHash=some prev → p.record.height=prev.height+1
  adjusts : ∀ slot∈p.block.finishedSubSlots,slot.challengeChain.subepochSummaryHash=none →
    slot.challengeChain.newDifficulty=none

/-- The fields that the summary is made from. -/
structure SameFields (E : Env) (V : BlockView) (record : BlockRecord) (block : FullBlock) : Prop where
  prevHash : record.prevHash=block.prevHeaderHash
  totalIters : record.totalIters=block.totalIters
  signagePointIndex : record.signagePointIndex=block.rewardChainBlock.signagePointIndex
  subSlotIters : ∃ difficulty,getNextSubSlotItersAndDifficulty E.constants V
    (!block.finishedSubSlots.isEmpty) (V.tryBlockRecord block.prevHeaderHash) = .ok (record.subSlotIters,difficulty)
  overflow : isOverflowBlock E.constants block.rewardChainBlock.signagePointIndex = .ok record.overflow

variable {p : PeakOnChain E V}

theorem PeakOnChain.OfBlock.fields (hb : p.OfBlock) : SameFields E V p.record p.block := by
  obtain ⟨subSlotIters,difficulty,overflow,deficit,height,ses,hiters,hoverflow,-,hrecord⟩ :=
    blockToBlockRecord_ok _ hb.record
  rw [hrecord]
  exact ⟨rfl,rfl,rfl,⟨difficulty,hiters⟩,hoverflow⟩

theorem PeakOnChain.OfBlock.unadjusted (hb : p.OfBlock)
    (hnone : p.record.subEpochSummaryIncluded=none) :
    let firstSlot := p.block.finishedSubSlots.head?.map (·.challengeChain)
    firstSlot.bind (·.newDifficulty)=none ∧ firstSlot.bind (·.subepochSummaryHash)=none := by
  have hrecorded : p.record.subEpochSummaryIncluded.isSome=true ↔ 0<summariesOf p.block.finishedSubSlots :=
    blockToBlockRecord_recorded _ hb.record
  rw [hnone] at hrecorded
  have hcount : summariesOf p.block.finishedSubSlots=0 :=
    Nat.eq_zero_of_not_pos fun hpos => Bool.false_ne_true (hrecorded.mpr hpos)
  cases hslots : p.block.finishedSubSlots with
  | nil => exact ⟨rfl,rfl⟩
  | cons slot more =>
    have hmem : slot∈p.block.finishedSubSlots := by
      rw [hslots]
      exact List.mem_cons_self
    have hses : slot.challengeChain.subepochSummaryHash=none :=
      Option.not_isSome_iff_eq_none.mp (List.countP_eq_zero.mp hcount slot hmem)
    exact ⟨hb.adjusts slot hmem hses,hses⟩

variable {record : BlockRecord} {block : FullBlock} {ip total : ℕ}

theorem spTotalIters_eq (hf : SameFields E V record block) {sp : ℕ}
    (hsp : calculateSpIters E.constants record.subSlotIters block.rewardChainBlock.signagePointIndex = .ok sp)
    (hip : calculateIpIters E.constants record.subSlotIters block.rewardChainBlock.signagePointIndex
      record.requiredIters = .ok ip)
    (htotal : uint128 (block.totalIters-ip+sp-(if record.overflow then record.subSlotIters else 0 : ℕ)) = .ok total)
    {total' : ℕ} (hrecord : record.spTotalIters E.constants = .ok total') : total'=total := by
  unfold BlockRecord.spTotalIters BlockRecord.spSubSlotTotalIters BlockRecord.spIters BlockRecord.ipIters at hrecord
  rw [hf.signagePointIndex,hip,hsp,hf.totalIters] at hrecord
  obtain ⟨start,hstart,hrecord⟩ := bind_ok.mp hrecord
  obtain ⟨_,hsame,hrecord⟩ := bind_ok.mp hrecord
  obtain ⟨_,hip',hstart⟩ := bind_ok.mp hstart
  cases hsame
  cases hip'
  have htotal' := (uint_eq_ok.mp htotal).1
  have hstart' := (uint_eq_ok.mp hstart).1
  rw [← Except.ok.inj hrecord]
  cases hoverflow : record.overflow with
  | true =>
    rw [hoverflow,if_pos rfl] at htotal' hstart'
    omega
  | false =>
    rw [hoverflow,if_neg Bool.false_ne_true] at htotal' hstart'
    omega

variable {difficulty iters : ℕ}

theorem nextAdjustment (hf : SameFields E V record block) (hheight : record.height≠0) {se : Bool}
    (hcan : canFinishSubAndFullEpoch E.constants V record.height record.prevHash record.deficit
      record.subEpochSummaryIncluded.isSome = .ok (se,true)) (hnone : record.subEpochSummaryIncluded=none)
    (hnext : getNextSubSlotItersAndDifficulty E.constants V true (some record) = .ok (iters,difficulty))
    {sp : ℕ}
    (hsp : calculateSpIters E.constants record.subSlotIters block.rewardChainBlock.signagePointIndex = .ok sp)
    (hip : calculateIpIters E.constants record.subSlotIters block.rewardChainBlock.signagePointIndex
      record.requiredIters = .ok ip)
    (htotal : uint128 (block.totalIters-ip+sp-(if record.overflow then record.subSlotIters else 0 : ℕ)) = .ok total)
    (current current' : ℕ) :
    getNextDifficulty E.constants V block.prevHeaderHash record.height current 0 false true total true =
        .ok difficulty ∧
      getNextSubSlotIters E.constants V block.prevHeaderHash record.height current' 0 false true total true =
        .ok iters := by
  rw [hnone,Option.isSome_none] at hcan
  unfold getNextSubSlotItersAndDifficulty at hnext
  dsimp only at hnext
  rw [if_pos hheight] at hnext
  obtain ⟨before,-,hnext⟩ := bind_ok.mp hnext
  obtain ⟨prevDifficulty,-,hnext⟩ := bind_ok.mp hnext
  rw [hnone,if_neg (by simp)] at hnext
  obtain ⟨total',htotal',hnext⟩ := bind_ok.mp hnext
  obtain ⟨difficulty',hdifficulty,hnext⟩ := bind_ok.mp hnext
  obtain ⟨iters',hiters,hnext⟩ := bind_ok.mp hnext
  obtain ⟨rfl,rfl⟩ := Prod.mk.inj (Except.ok.inj hnext)
  rw [spTotalIters_eq hf hsp hip htotal htotal'] at hdifficulty hiters
  rw [getNextDifficulty_finishing hcan,hf.prevHash] at hdifficulty
  rw [getNextSubSlotIters_finishing hcan,hf.prevHash] at hiters
  exact ⟨hdifficulty,hiters⟩

theorem PeakOnChain.OfBlock.foreseen (hb : p.OfBlock) (hC : 2<E.subEpochBlocks) {epoch : Bool}
    (hcan : canFinishSubAndFullEpoch E.constants V p.record.height p.record.prevHash p.record.deficit
      p.record.subEpochSummaryIncluded.isSome = .ok (true,epoch))
    (hfar : epoch=false → heightCanBeFirstInEpoch E.constants (p.record.height+1+E.maxSubSlotBlocks)=false)
    (hnext : getNextSubSlotItersAndDifficulty E.constants V true (some p.record) =
      .ok (iters,difficulty)) {prev : BlockRecord} (hprev : V.blockRecord p.record.prevHash = .ok prev)
    {expected : SubEpochSummary} (hexpected : makeSubEpochSummary E.constants V E.toOracles (p.record.height+1)
      prev (if epoch then some difficulty else none) (if epoch then some iters else none) = .ok expected) :
    nextSubEpochSummary E V p.record.requiredIters p.block = .ok (some expected) := by
  have hf := hb.fields
  obtain ⟨hlow,hdeficit⟩ := canFinish_deficit hcan
  have hnone : p.record.subEpochSummaryIncluded=none := by
    obtain ⟨hse,-⟩ | ⟨hincluded,-⟩ := canFinish_cases hcan
    · cases hse
    · exact Option.not_isSome_iff_eq_none.mp (Bool.eq_false_iff.mp hincluded)
  obtain ⟨hunadjusted,hunsummarised⟩ := hb.unadjusted hnone
  have htry : V.tryBlockRecord p.block.prevHeaderHash=some prev := by
    rw [← hf.prevHash]
    exact lookup_eq_ok.mp hprev
  have hheight := hb.height prev htry
  have hpos : prev.height≠0 := by omega
  obtain ⟨difficulty',hiters⟩ := hf.subSlotIters
  have hempty : decide (p.block.finishedSubSlots.length > 0) = !p.block.finishedSubSlots.isEmpty := by
    cases p.block.finishedSubSlots <;> rfl
  have hsoon := canFinishEpochSoon_eq hprev hheight hcan hfar
  rw [hheight] at hexpected
  obtain ⟨ses,hses⟩ := p.summary
  unfold nextSubEpochSummary at hses ⊢
  rw [htry] at hses hiters ⊢
  dsimp only at hses hunadjusted hunsummarised ⊢
  rw [if_neg hpos,hunadjusted,if_neg (by simp),hempty,bind_of_ok hiters] at hses ⊢
  dsimp only at hses ⊢
  rw [bind_of_ok hf.overflow,hunsummarised,if_neg (by simp),bind_of_ok hsoon] at hses ⊢
  cases epoch with
  | false =>
    have hmake : makeSubEpochSummary E.constants V E.toOracles (prev.height+2) prev none none =
      .ok expected := hexpected
    rw [if_neg Bool.false_ne_true,bind_of_ok hmake]
    rfl
  | true =>
    have hmake : makeSubEpochSummary E.constants V E.toOracles (prev.height+2) prev (some difficulty)
      (some iters) = .ok expected := hexpected
    rw [if_pos rfl] at hses ⊢
    obtain ⟨sp,hsp,hses⟩ := bind_ok.mp hses
    obtain ⟨ip,hip,hses⟩ := bind_ok.mp hses
    obtain ⟨before,hbefore,hses⟩ := bind_ok.mp hses
    obtain ⟨current,hcurrent,hses⟩ := bind_ok.mp hses
    obtain ⟨total,htotal,hses⟩ := bind_ok.mp hses
    -- both numbers are those of the next block
    obtain ⟨hnextDifficulty,hnextIters⟩ := nextAdjustment hf (by omega) hcan hnone hnext hsp hip htotal current p.record.subSlotIters
    rw [hheight] at hnextDifficulty hnextIters
    rw [bind_of_ok hsp,bind_of_ok hip,bind_of_ok hbefore,bind_of_ok hcurrent,bind_of_ok htotal,
      bind_of_ok hnextDifficulty,bind_of_ok hnextIters,bind_of_ok hmake]
    rfl

end FullNodeStore
end RoseChain
