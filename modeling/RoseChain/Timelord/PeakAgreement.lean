import RoseChain.Consensus.RewardChallenges
import RoseChain.Timelord.Infusion

namespace RoseChain
open Blockchain ClassgroupElement FullNodeStore FullNode
namespace Timelord
variable {E : Env} {V : BlockView}

/-- A block of a valid chain that the node can send as its peak. -/
structure ChainPeak (E : Env) (V : BlockView) extends TimelordPeak E V where
  blockWeight : block.rewardChainBlock.weight=record.weight
  blockHeight : block.rewardChainBlock.height=record.height
  transaction : block.rewardChainBlock.isTransactionBlock=record.isTransactionBlock
  nextDifficulty : FullNode.nextDifficulty E V record = .ok difficulty
  sameDifficulty : ∀ newDifficulty iters,
    expectedOnPeak (some toTimelordPeak.toPeakOnChain) = .ok (false,newDifficulty,iters) → newDifficulty=difficulty

/-- Where a sub-slot starts, so many slots after a block. -/
def slotStart (p : TimelordPeak E V) (slots iters : ℕ) : ℕ :=
  if slots=0 then p.start else p.start+p.record.subSlotIters+(slots-1)*iters

def hasSummary (eos : EndOfSubSlotBundle) : Bool := eos.challengeChain.subepochSummaryHash.isSome

/-- The challenges of the reward chain at the sub-slots after a block. -/
def slotsSince (p : TimelordPeak E V) (slots : List EndOfSubSlotBundle) (iters : ℕ) : List (Bytes32 × ℕ) :=
  slots.zipIdx.map fun (eos,i) => (E.hashRewardChainSubSlot eos.rewardChain,slotStart p (i+1) iters)

def challengesSince (p : TimelordPeak E V) (slots : List EndOfSubSlotBundle) (iters : ℕ) : List (Bytes32 × ℕ) :=
  (p.record.rewardInfusionNewChallenge,p.record.totalIters)::slotsSince p slots iters

/-- The chain goes on with a block `q`, after the sub-slots that ended since its block `p`. -/
structure NextBlock (p : ChainPeak E V) (slots : List EndOfSubSlotBundle) (u : NewUnfinishedBlockTimelord)
    (q : ChainPeak E V) : Prop where
  prev : V.blockRecord q.record.prevHash = .ok p.record
  height : q.record.height=p.record.height+1
  weight : q.record.weight=p.record.weight+u.difficulty
  difficulty : q.difficulty=u.difficulty
  subSlotIters : q.record.subSlotIters=u.subSlotIters
  unfinished : q.block.rewardChainBlock.getUnfinished=u.rewardChainBlock
  unchanged : slots=[] → u.difficulty=p.difficulty ∧ u.subSlotIters=p.record.subSlotIters
  adjusted : slots≠[] → ∀ epoch difficulty iters,
    expectedOnPeak (some p.toPeakOnChain) = .ok (epoch,difficulty,iters) →
      u.difficulty=difficulty ∧ u.subSlotIters=iters
  start : q.start=slotStart p.toTimelordPeak slots.length u.subSlotIters
  overflow : isOverflowBlock E.constants u.rewardChainBlock.signagePointIndex = .ok q.record.overflow
  deficit : calculateDeficit E.constants q.record.height (some p.record) q.record.overflow slots.length =
    .ok q.record.deficit
  firstInSubSlot : q.record.firstInSubSlot = !slots.isEmpty
  summary : q.record.subEpochSummaryIncluded.isSome=slots.any hasSummary
  transaction : ∀ last,V.lastTransactionBlock p.record = .ok last → q.record.isTransactionBlock =
    decide ((last.totalIters : ℤ)<q.record.totalIters-q.ipIters+q.spIters -
      (if q.record.overflow then u.subSlotIters else 0 : ℕ))

/-- The block `q` finishes the sub-slots since its parent, of which only the first can include a summary. The
message `u` has the summary to come after the unfinished block, which lacks the last of them in an overflow. -/
structure FinishesSlots (p : ChainPeak E V) (slots : List EndOfSubSlotBundle) (u : NewUnfinishedBlockTimelord)
    (q : ChainPeak E V) : Prop where
  finished : q.block.finishedSubSlots=slots
  prevHash : q.block.prevHeaderHash=q.record.prevHash
  totalIters : q.record.totalIters<2^128
  rewardHashes : slots≠[] → q.record.finishedRewardSlotHashes =
    some (slots.map fun eos => E.hashRewardChainSubSlot eos.rewardChain)
  iters : slots≠[] → u.subSlotIters≤p.start+p.record.subSlotIters
  first : ∀ eos∈slots.tail,hasSummary eos=false
  adjusts : ∀ eos∈slots,hasSummary eos=false → eos.challengeChain.newDifficulty=none
  sent : ∃ known,(known=slots ∨ q.record.overflow=true ∧ ∃ eos,slots=known++[eos]) ∧
    nextSubEpochSummary E V q.record.requiredIters { q.block with finishedSubSlots := known } = .ok u.subEpochSummary

/-- The VDFs of a message are those of the block. -/
structure SameVdfs (msg : NewPeakTimelord) (block : FullBlock) : Prop where
  cc : msg.rewardChainBlock.challengeChainIpVdf=block.rewardChainBlock.challengeChainIpVdf
  rc : msg.rewardChainBlock.rewardChainIpVdf=block.rewardChainBlock.rewardChainIpVdf
  icc : msg.rewardChainBlock.infusedChallengeChainIpVdf=block.rewardChainBlock.infusedChallengeChainIpVdf

def Infuses (E : Env) (s : LastState) (u : NewUnfinishedBlockTimelord) (msg : NewPeakTimelord) : Prop :=
  ∃ unfinished iteration finished ipIters,blockToInfuse E s iteration unfinished=some (u,ipIters) ∧
    checkForNewIp E s unfinished iteration finished = .ok (some msg)

/-- A summary since the last block is in the last sub-slot, at a multiple of the sub-epoch's height. -/
def SummaryLast (slots : List EndOfSubSlotBundle) (q : ChainPeak E V) : Prop :=
  q.record.height % E.subEpochBlocks=0 → slots.any hasSummary=true → slots.getLast?.any hasSummary=true

/-- The last transaction block, if the timelord knows one, is the last one of the chain. -/
def TransactionKnown (p : ChainPeak E V) (s : LastState) : Prop :=
  p.record.isTransactionBlock=false → ∀ total,s.lastBlockTotalIters=some total →
    ∃ last,V.lastTransactionBlock p.record = .ok last ∧ last.totalIters=total

/-- The states of the timelord along a valid chain, from a peak that the node sent. -/
inductive Run (E : Env) (V : BlockView) : ChainPeak E V → List EndOfSubSlotBundle → LastState → Prop
  | received {p : ChainPeak E V} {s s' : LastState} {sent : NewPeakTimelord} {recentRc : List (Bytes32 × ℕ)} :
    getRecentRewardChallenges E V (some p.record) = .ok recentRc → sendPeakToTimelords E V p.record p.block recentRc = .ok sent → TransactionKnown p s →
    s.setPeak E sent = .ok s' → Run E V p [] s'
  | slot {p : ChainPeak E V} {slots : List EndOfSubSlotBundle} {s s' : LastState} {eos : EndOfSubSlotBundle} :
    Run E V p slots s → ValidEnd (some p.toTimelordPeak) slots.getLast? eos → s.setSlot E eos = .ok s' →
    Run E V p (slots++[eos]) s'
  | infused {p q : ChainPeak E V} {slots : List EndOfSubSlotBundle} {s s' : LastState}
    {u : NewUnfinishedBlockTimelord} {msg : NewPeakTimelord} : Run E V p slots s → NextBlock p slots u q →
    FinishesSlots p slots u q → Infuses E s u msg → SameVdfs msg q.block → SummaryLast slots q → s.setPeak E msg = .ok s' → Run E V q [] s'

/-- What the timelord knows of the chain, after the slots since its last block. -/
structure Knows (p : ChainPeak E V) (slots : List EndOfSubSlotBundle) (s : LastState) : Prop where
  stands : Stands E V (some p.toTimelordPeak) slots.getLast? s
  weight : s.lastWeight=p.record.weight
  height : s.lastHeight=p.record.height
  start : (s.totalIters : ℤ)-s.lastIp=slotStart p.toTimelordPeak slots.length s.subSlotIters
  difficulty : slots=[] → s.difficulty=p.difficulty
  adjusted : slots≠[] → ∃ epoch,expectedOnPeak (some p.toPeakOnChain) = .ok (epoch,s.difficulty,s.subSlotIters)
  icc : ∀ eos,slots.getLast?=some eos → eos.rewardChain.deficit=E.minBlocksPerChallengeBlock →
    (eos.infusedChallengeChain.isSome ↔ p.record.deficit=0 ∧ slots.length=1)
  transaction : ∀ total,s.lastBlockTotalIters=some total →
    ∃ last,V.lastTransactionBlock p.record = .ok last ∧ last.totalIters=total
  passed : ∃ passed,passedSesHeight E V p.record = .ok passed ∧ s.passedSesHeightButNotYetIncluded =
    if slots.any hasSummary then false else if (p.record.height+1) % E.subEpochBlocks=0 then true else passed
  infusedSes : slots≠[] → s.infusedSes=slots.getLast?.any hasSummary
  foreseen : ∀ eos,slots.head?=some eos → ∀ difficulty iters,
    expectedOnPeak (some p.toPeakOnChain) = .ok (true,difficulty,iters) → hasSummary eos=true
  cache : ∃ recent,getRecentRewardChallenges E V (some p.record) = .ok recent ∧ s.rewardChallengeCache =
    (recent++challengesSince p.toTimelordPeak slots s.subSlotIters).rtake (2*E.maxSubSlotBlocks)

theorem Stands.atPeak {p : TimelordPeak E V} {s : LastState} (h : Stands E V (some p) none s) :
    ∃ msg,AtPeak p msg s := by
  cases h with
  | peak hpeak => exact ⟨_,hpeak⟩

theorem Stands.atEnd {peak : Option (TimelordPeak E V)} {eos : EndOfSubSlotBundle} {s : LastState}
    (h : Stands E V peak (some eos) s) : AtEnd peak eos s := by
  cases h with
  | slot hend => exact hend

theorem slotStart_next {p : TimelordPeak E V} {slots : List EndOfSubSlotBundle} {s : LastState} {iters : ℕ}
    (h : Stands E V (some p) slots.getLast? s)
    (hstart : (s.totalIters : ℤ)-s.lastIp=slotStart p slots.length s.subSlotIters)
    (hsame : slots≠[] → s.subSlotIters=iters) : s.slotEnd=slotStart p (slots.length+1) iters := by
  rw [slotStart,if_neg (Nat.succ_ne_zero _),Nat.add_sub_cancel]
  rcases List.eq_nil_or_concat slots with rfl | ⟨before,last,rfl⟩
  · obtain ⟨msg,hpeak⟩ := h.atPeak
    have htotal := p.totalIters_eq
    rw [LastState.slotEnd,hpeak.peak,Option.isSome_some,if_pos rfl,hpeak.totalIters,hpeak.lastIp,
      hpeak.subSlotIters,List.length_nil]
    omega
  · rw [List.concat_eq_append,List.getLast?_concat] at h
    have hprev := h.atEnd
    rw [hsame (by simp),hprev.lastIp,slotStart,List.concat_eq_append,List.length_append,List.length_singleton,
      if_neg (Nat.succ_ne_zero _),Nat.add_sub_cancel] at hstart
    rw [LastState.slotEnd,hprev.noPeak,hsame (by simp),List.concat_eq_append,List.length_append,
      List.length_singleton,Nat.succ_mul]
    simp only [Option.isSome_none,Bool.false_eq_true,if_false]
    push_cast at hstart ⊢
    omega

section Challenges
variable {p : TimelordPeak E V} {slots : List EndOfSubSlotBundle} {iters : ℕ}

theorem slotsSince_concat (eos : EndOfSubSlotBundle) : slotsSince p (slots++[eos]) iters =
    slotsSince p slots iters++[(E.hashRewardChainSubSlot eos.rewardChain,slotStart p (slots.length+1) iters)] := by
  unfold slotsSince
  rw [List.zipIdx_append,List.map_append,Nat.zero_add]
  rfl

/-- The walk finds all sub-slots since the parent, the last one first. -/
theorem slotChallenges_since (hiters : slots≠[] → iters≤p.start+p.record.subSlotIters) :
    slotChallenges iters (slotStart p slots.length iters)
        (slots.map fun eos => E.hashRewardChainSubSlot eos.rewardChain).reverse =
      (slotsSince p slots iters).reverse := by
  induction slots using List.reverseRecOn with
  | nil => rfl
  | append_singleton slots eos ih =>
    have hfirst : iters≤p.start+p.record.subSlotIters := hiters (by simp)
    have hnot : ¬ slotStart p (slots.length+1) iters < iters := by
      rw [slotStart,if_neg (Nat.succ_ne_zero _)]
      omega
    rw [List.map_append,List.reverse_append,List.length_append,List.length_singleton,slotsSince_concat,
      List.reverse_append,← ih fun _ => hfirst]
    show slotChallenges iters (slotStart p (slots.length+1) iters) (_::_)=_::_
    rw [slotChallenges,if_neg hnot]
    rcases slots with _ | ⟨first,more⟩
    · rfl
    · have hbefore : slotStart p ((first::more).length+1) iters-iters=slotStart p (first::more).length iters := by
        simp only [slotStart,List.length_cons,Nat.succ_ne_zero,if_false,Nat.add_sub_cancel,Nat.succ_mul]
        omega
      rw [hbefore]
      rfl

end Challenges

section Summaries
variable {b : FullBlock} {p : PeakOnChain E V} {eos : EndOfSubSlotBundle} {l l' : List EndOfSubSlotBundle}
  {requiredIters difficulty iters : ℕ} {ses : Option SubEpochSummary}

theorem nextSubEpochSummary_head (h : l.head?=l'.head?) :
    nextSubEpochSummary E V requiredIters { b with finishedSubSlots := l } =
      nextSubEpochSummary E V requiredIters { b with finishedSubSlots := l' } := by
  cases l with
  | nil =>
    rw [List.head?_eq_none_iff.mp h.symm]
  | cons eos more =>
    cases l' with
    | nil => cases h
    | cons eos' more' =>
      cases h
      rfl

theorem nextSubEpochSummary_included (hfirst : b.finishedSubSlots.head?=some eos) (hincluded : hasSummary eos=true)
    (h : nextSubEpochSummary E V requiredIters b = .ok ses) : ses=none := by
  have hsummary : ((b.finishedSubSlots.head?.map (·.challengeChain)).bind (·.subepochSummaryHash)).isSome=true := by
    rw [hfirst]
    exact hincluded
  unfold nextSubEpochSummary at h
  cases htry : V.tryBlockRecord b.prevHeaderHash with
  | none =>
    rw [htry] at h
    exact (Except.ok.inj h).symm
  | some prev =>
    rw [htry] at h
    dsimp only at h
    by_cases hzero : prev.height=0
    · rw [if_pos hzero] at h
      exact (Except.ok.inj h).symm
    rw [if_neg hzero] at h
    by_cases hnew : ((b.finishedSubSlots.head?.map (·.challengeChain)).bind (·.newDifficulty)).isSome=true
    · rw [if_pos hnew] at h
      exact (Except.ok.inj h).symm
    rw [if_neg hnew] at h
    obtain ⟨⟨subSlotIters,_⟩,-,h⟩ := bind_ok.mp h
    obtain ⟨overflow,-,h⟩ := bind_ok.mp h
    rw [if_pos hsummary] at h
    exact (Except.ok.inj h).symm

section Unfinished
variable {C : ConsensusConstants} {prevHash : Bytes32} {height curr deficit sp : ℕ} {se : Bool}

section
variable (h : canFinishSubAndFullEpoch C V height prevHash deficit false = .ok (se,false))
include h

theorem getNextDifficulty_unfinished : getNextDifficulty C V prevHash height curr deficit false false sp false =
      getNextDifficulty C V prevHash height curr deficit false true sp false := by
  unfold getNextDifficulty
  rw [h]
  rfl

theorem getNextSubSlotIters_unfinished :
    getNextSubSlotIters C V prevHash height curr deficit false false sp false =
      getNextSubSlotIters C V prevHash height curr deficit false true sp false := by
  unfold getNextSubSlotIters
  rw [h]
  rfl

end

end Unfinished

theorem getNextSubSlotItersAndDifficulty_same (h : expectedOnPeak (some p) = .ok (false,difficulty,iters)) :
    getNextSubSlotItersAndDifficulty E.constants V false (some p.record) =
      getNextSubSlotItersAndDifficulty E.constants V true (some p.record) := by
  obtain ⟨⟨se,epoch⟩,hfinish,h⟩ := bind_ok.mp h
  obtain ⟨⟨_,_⟩,-,h⟩ := bind_ok.mp h
  cases h
  have hcan : canFinishSubAndFullEpoch E.constants V p.record.height p.record.prevHash p.record.deficit
      p.record.subEpochSummaryIncluded.isSome = .ok (se,false) := hfinish
  unfold getNextSubSlotItersAndDifficulty
  cases hses : p.record.subEpochSummaryIncluded.isSome with
  | true => simp only [hses,if_true]
  | false =>
    rw [hses] at hcan
    simp only [getNextDifficulty_unfinished hcan,getNextSubSlotIters_unfinished hcan]

theorem nextSubEpochSummary_plain (hprev : V.tryBlockRecord b.prevHeaderHash=some p.record)
    (h : expectedOnPeak (some p) = .ok (false,difficulty,iters)) (hnone : hasSummary eos=false)
    (hnew : eos.challengeChain.newDifficulty=none) :
    nextSubEpochSummary E V requiredIters { b with finishedSubSlots := [] } =
      nextSubEpochSummary E V requiredIters { b with finishedSubSlots := [eos] } := by
  have hnone : eos.challengeChain.subepochSummaryHash=none := Option.not_isSome_iff_eq_none.mp (Bool.eq_false_iff.mp hnone)
  have hb : ∀ l,V.tryBlockRecord { b with finishedSubSlots := l }.prevHeaderHash=some p.record := fun _ => hprev
  unfold nextSubEpochSummary
  rw [hb,hb]
  dsimp only
  simp only [List.head?_nil,List.head?_cons,Option.map_none,Option.map_some,Option.bind_none,Option.bind_some,hnone,hnew,
    List.length_nil,List.length_singleton,gt_iff_lt,lt_irrefl,Nat.one_pos,decide_true,decide_false]
  rw [getNextSubSlotItersAndDifficulty_same h]
  rfl

end Summaries
section Step
variable {p q : ChainPeak E V} {slots : List EndOfSubSlotBundle} {s s' : LastState}
  {u : NewUnfinishedBlockTimelord} {msg sent : NewPeakTimelord} {eos : EndOfSubSlotBundle}

theorem Knows.atEnd {before : List EndOfSubSlotBundle} (h : Knows p (before.concat eos) s) :
    AtEnd (some p.toTimelordPeak) eos s := by
  have hstands := h.stands
  rw [List.concat_eq_append,List.getLast?_concat] at hstands
  exact hstands.atEnd

/-- A message that says what the node's does, with the same recent challenges, as many as are kept. -/
structure SamePeak (E : Env) (msg sent : NewPeakTimelord) : Prop where
  rewardChainBlock : msg.rewardChainBlock=sent.rewardChainBlock
  difficulty : msg.difficulty=sent.difficulty
  deficit : msg.deficit=sent.deficit
  subSlotIters : msg.subSlotIters=sent.subSlotIters
  lastChallenge : msg.lastChallengeSbOrEosTotalIters=sent.lastChallengeSbOrEosTotalIters
  passed : msg.passesSesHeightButNotYetIncluded=sent.passesSesHeightButNotYetIncluded
  subEpochSummary : msg.subEpochSummary=sent.subEpochSummary
  previousRewardChallenges : msg.previousRewardChallenges.rtake (2*E.maxSubSlotBlocks) =
    sent.previousRewardChallenges.rtake (2*E.maxSubSlotBlocks)

theorem remember_eq (h : s.remember E = .ok s') : ∃ challenge,s.getChallenge E .rewardChain = .ok (some challenge) ∧
    s' = { s with rewardChallengeCache :=
      (s.rewardChallengeCache++[(challenge,s.totalIters)]).rtake (2*E.maxSubSlotBlocks) } := by
  obtain ⟨found,hfound,h⟩ := bind_ok.mp h
  obtain ⟨challenge,hchallenge,h⟩ := bind_ok.mp h
  rw [assertSome_eq_ok.mp hchallenge] at hfound
  cases h
  exact ⟨challenge,hfound,rfl⟩

theorem Knows.setPeak (hm : PeakMessage p.toTimelordPeak msg)
    (hpassed : passedSesHeight E V p.record = .ok msg.passesSesHeightButNotYetIncluded)
    (ht : TransactionKnown p s) {recent : List (Bytes32 × ℕ)}
    (hrecent : getRecentRewardChallenges E V (some p.record) = .ok recent)
    (hkept : msg.previousRewardChallenges.rtake (2*E.maxSubSlotBlocks)=recent.rtake (2*E.maxSubSlotBlocks))
    (h : s.setPeak E msg = .ok s') : Knows p [] s' := by
  have hpeak := setPeak_atPeak hm h
  have htotal := p.totalIters_eq
  unfold LastState.setPeak at h
  obtain ⟨⟨spIters,ipIters⟩,-,h⟩ := bind_ok.mp h
  obtain ⟨challenge,hchallenge,rfl⟩ := remember_eq h
  refine ⟨.peak hpeak,?_,?_,?_,fun _ => hm.difficulty,fun hne => absurd rfl hne,?_,?_,⟨_,hpassed,?_⟩,
    fun hne => absurd rfl hne,?_,⟨recent,hrecent,?_⟩⟩
  · show msg.rewardChainBlock.weight=_
    rw [hm.rewardChainBlock,p.blockWeight]
  · show msg.rewardChainBlock.height=_
    rw [hm.rewardChainBlock,p.blockHeight]
  · rw [hpeak.totalIters,hpeak.lastIp,slotStart,List.length_nil,if_pos rfl]
    omega
  · rintro _ ⟨⟩
  · show ∀ total,(if msg.rewardChainBlock.isTransactionBlock then some msg.rewardChainBlock.totalIters
      else s.lastBlockTotalIters)=some total → _
    rw [hm.rewardChainBlock,p.transaction,p.blockTotalIters]
    intro total hlast
    cases htx : p.record.isTransactionBlock with
    | true =>
      rw [htx,if_pos rfl] at hlast
      exact ⟨p.record,BlockView.walkBack_here htx,Option.some.inj hlast⟩
    | false =>
      rw [htx,if_neg Bool.false_ne_true] at hlast
      exact ht htx total hlast
  · show (if (msg.rewardChainBlock.height+1) % E.subEpochBlocks=0 then true
      else msg.passesSesHeightButNotYetIncluded)=_
    rw [hm.rewardChainBlock,p.blockHeight]
    rfl
  · rintro _ ⟨⟩
  · obtain rfl : E.hashRewardChainBlock msg.rewardChainBlock=challenge := Option.some.inj (Except.ok.inj hchallenge)
    show (msg.previousRewardChallenges++[(E.hashRewardChainBlock msg.rewardChainBlock,
      msg.rewardChainBlock.totalIters)]).rtake _=_
    rw [← rtake_append,hkept,rtake_append,hm.rewardChainBlock,p.rewardHash,p.blockTotalIters]
    rfl

theorem Knows.setSlot (hmin : 0<E.minBlocksPerChallengeBlock) (h : Knows p slots s) (hv : ValidEnd (some p.toTimelordPeak) slots.getLast? eos)
    (hs : s.setSlot E eos = .ok s') : Knows p (slots++[eos]) s' := by
  have hend := setSlot_atEnd h.stands hv hs
  obtain ⟨epoch,difficulty,iters,he,hadjusted,hdue⟩ := hv.adjusted
  have hiters := hend.iters _ _ _ he
  unfold LastState.setSlot at hs
  obtain ⟨totalIters,htotal,hs⟩ := bind_ok.mp hs
  obtain ⟨subSlotIters,-,hs⟩ := bind_ok.mp hs
  obtain ⟨challenge,hchallenge,rfl⟩ := remember_eq hs
  have hlast : (slots++[eos]).getLast?=some eos := List.getLast?_concat
  have hne : slots++[eos]≠[] := List.concat_ne_nil eos slots
  have hsame : slots≠[] → s.difficulty=difficulty ∧ s.subSlotIters=iters := by
    intro hslots
    obtain ⟨epoch',he'⟩ := h.adjusted hslots
    cases he.symm.trans he'
    exact ⟨rfl,rfl⟩
  have hplace : totalIters=slotStart p.toTimelordPeak (slots.length+1) iters := by
    have hvalue := (uint_eq_ok.mp htotal).1
    rw [slotStart_next h.stands h.start fun hslots => (hsame hslots).2] at hvalue
    omega
  refine ⟨by rw [hlast]; exact .slot hend,h.weight,h.height,?_,fun hnil => absurd hnil hne,fun _ => ⟨epoch,?_⟩,
    ?_,h.transaction,?_,fun _ => by rw [hlast]; rfl,?_,?_⟩
  · rw [List.length_append,List.length_singleton,hiters,← hplace]
    exact sub_zero _
  · have hdifficulty : eos.challengeChain.newDifficulty.getD s.difficulty=difficulty := by
      have hadjusts := hadjusted.adjusts
      split_ifs at hadjusts with hboth
      · rw [hadjusts.2]
        rfl
      · rw [hadjusts.2]
        by_cases hslots : slots=[]
        · subst hslots
          have hepoch : epoch=false := by
            rw [Bool.eq_false_iff]
            exact fun htrue => hboth ⟨htrue,hdue rfl htrue⟩
          subst hepoch
          exact (h.difficulty rfl).trans (p.sameDifficulty _ _ he).symm
        · exact (hsame hslots).1
    rw [hiters]
    show expectedOnPeak _ = .ok (epoch,eos.challengeChain.newDifficulty.getD s.difficulty,iters)
    rw [hdifficulty]
    exact he
  · rintro last hlast' hfull
    cases hlast.symm.trans hlast'
    have hrequired := hfull.symm.trans hv.deficit
    rcases List.eq_nil_or_concat slots with rfl | ⟨before,last,rfl⟩
    · obtain ⟨icc,-,hsome,hexpected⟩ := p.iccOfPeak_ok
      have hpresent := hv.icc _ _ rfl hexpected
      rw [Option.isNone_map] at hpresent
      have hzero : p.record.deficit<E.minBlocksPerChallengeBlock ↔ p.record.deficit=0 := by
        constructor
        · intro hlt
          by_contra hne
          rw [show requiredDeficit E (recordOf (some p.toTimelordPeak))=p.record.deficit from if_neg hne] at hrequired
          omega
        · omega
      rw [← Option.not_isNone,hpresent,Option.not_isNone,hsome,hzero,List.nil_append,List.length_singleton]
      exact (and_iff_left rfl).symm
    · have hprev := h.atEnd
      have hexpected := expectedIcc_behind (p := p.toPeakOnChain) hprev.required (hprev.icc _ rfl)
      have hnone : iccAfter E (some last)=none := if_neg (not_not.mpr (hprev.required.trans hrequired.symm))
      rw [hnone] at hexpected
      have hpresent := hv.icc _ _ rfl (by rw [List.concat_eq_append,List.getLast?_concat]; exact hexpected)
      rw [← Option.not_isNone,hpresent]
      simp
  · obtain ⟨passed,hpassed,hs⟩ := h.passed
    refine ⟨passed,hpassed,?_⟩
    show (if eos.challengeChain.subepochSummaryHash.isSome then false else s.passedSesHeightButNotYetIncluded)=_
    rw [hs,List.any_append,List.any_cons,List.any_nil,Bool.or_false,← hasSummary]
    cases hasSummary eos with
    | false => rw [Bool.or_false,if_neg Bool.false_ne_true]
    | true => rw [Bool.or_true,if_pos rfl,if_pos rfl]
  · intro first hhead difficulty' iters' he'
    by_cases hslots : slots=[]
    · subst hslots
      cases hhead
      cases he.symm.trans he'
      exact hdue rfl rfl
    · rw [List.head?_append_of_ne_nil _ hslots] at hhead
      exact h.foreseen first hhead _ _ he'
  · obtain ⟨recent,hrecent,hcache⟩ := h.cache
    obtain rfl : E.hashRewardChainSubSlot eos.rewardChain=challenge := Option.some.inj (Except.ok.inj hchallenge)
    refine ⟨recent,hrecent,?_⟩
    have hsince : challengesSince p.toTimelordPeak slots s.subSlotIters =
        challengesSince p.toTimelordPeak slots iters := by
      by_cases hslots : slots=[]
      · rw [hslots]
        rfl
      · rw [(hsame hslots).2]
    rw [hiters,challengesSince,slotsSince_concat,← hplace]
    show (s.rewardChallengeCache++[(E.hashRewardChainSubSlot eos.rewardChain,totalIters)]).rtake _=_
    rw [hcache,hsince,rtake_append,List.append_assoc]
    rfl

/-- What the timelord does with a block that it infuses, where and when it may infuse one. -/
theorem Infuses.parts (h : Infuses E s u msg) : ∃ spIters ipIters overflow cc rc icc,
    blockIters E s u = .ok (spIters,ipIters) ∧ s.lastIp ≤ ipIters ∧
    isOverflowBlock E.constants u.rewardChainBlock.signagePointIndex = .ok overflow ∧
    s.canInfuseBlock E overflow=true ∧ Timelord.newPeak E s u ipIters overflow cc rc icc = .ok (some msg) := by
  obtain ⟨unfinished,iteration,finished,ipIters,hfound,h⟩ := h
  have hiters : ∃ spIters,blockIters E s u = .ok (spIters,ipIters) ∧ s.lastIp ≤ ipIters := by
    clear h
    induction unfinished with
    | nil => cases hfound
    | cons block more ih =>
      unfold blockToInfuse at hfound
      cases hb : blockIters E s block with
      | error e =>
        rw [hb] at hfound
        exact ih hfound
      | ok iters =>
        rw [hb] at hfound
        dsimp only at hfound
        split_ifs at hfound with hwhen
        · cases hfound
          exact ⟨_,hb,by omega⟩
        · exact ih hfound
  obtain ⟨spIters,hiters,hle⟩ := hiters
  unfold checkForNewIp at h
  obtain ⟨challenge,-,h⟩ := bind_ok.mp h
  dsimp only at h
  by_cases hcount : finished.length≠if challenge.isSome then 3 else 2
  · rw [if_pos hcount] at h
    cases h
  rw [if_neg hcount] at h
  obtain ⟨_,-,h⟩ := bind_ok.mp h
  rw [hfound] at h
  cases hcc : finishedOf finished .challengeChain with
  | none =>
    rw [hcc] at h
    cases h
  | some cc =>
    cases hrc : finishedOf finished .rewardChain with
    | none =>
      rw [hcc,hrc] at h
      cases h
    | some rc =>
      rw [hcc,hrc] at h
      obtain ⟨_,-,h⟩ := bind_ok.mp h
      split at h
      · cases h
      obtain ⟨overflow,hoverflow,h⟩ := bind_ok.mp h
      split at h
      · cases h
      next hallowed =>
        split at h
        · cases h
        exact ⟨spIters,ipIters,overflow,_,_,_,hiters,hle,hoverflow,Bool.of_not_eq_false hallowed,h⟩

theorem Infuses.newPeak (h : Infuses E s u msg) : ∃ spIters ipIters overflow cc rc icc,
    blockIters E s u = .ok (spIters,ipIters) ∧
    isOverflowBlock E.constants u.rewardChainBlock.signagePointIndex = .ok overflow ∧
    Timelord.newPeak E s u ipIters overflow cc rc icc = .ok (some msg) := by
  obtain ⟨spIters,ipIters,overflow,cc,rc,icc,hiters,-,hoverflow,-,hmade⟩ := h.parts
  exact ⟨spIters,ipIters,overflow,cc,rc,icc,hiters,hoverflow,hmade⟩

theorem NextBlock.deficit_eq (hn : NextBlock p slots u q) : q.record.deficit =
    if p.record.deficit=E.minBlocksPerChallengeBlock then
      if q.record.overflow=true then if slots.length=0 then p.record.deficit else p.record.deficit-1
      else p.record.deficit-1 else if p.record.deficit=0 then if slots.length=0 then 0
      else if q.record.overflow=true then
        if slots.length=1 then E.minBlocksPerChallengeBlock else E.minBlocksPerChallengeBlock-1
      else E.minBlocksPerChallengeBlock-1 else p.record.deficit-1 := by
  have hchain := hn.deficit
  have hprev : assertSome (some p.record) = .ok p.record := rfl
  unfold calculateDeficit at hchain
  rw [if_neg (by rw [hn.height]; exact Nat.succ_ne_zero _),bind_of_ok hprev] at hchain
  split_ifs at hchain <;> split_ifs <;> have hvalue := (uint_eq_ok.mp hchain).1 <;> omega

theorem Knows.newDeficit_eq (hmin : 0<E.minBlocksPerChallengeBlock) (h : Knows p slots s)
    (hn : NextBlock p slots u q) {deficit : ℕ} (hd : newDeficit E s q.record.overflow = .ok deficit) :
    deficit=q.record.deficit := by
  have hle := p.deficit_le
  rw [hn.deficit_eq]
  unfold newDeficit at hd
  rcases List.eq_nil_or_concat slots with rfl | ⟨before,last,rfl⟩
  · obtain ⟨m,hpeak⟩ := h.stands.atPeak
    rw [if_neg (by rw [hpeak.stateType]; decide),hpeak.deficit,hpeak.peak] at hd
    by_cases hoverflow : q.record.overflow=true ∧ p.record.deficit=E.minBlocksPerChallengeBlock
    · rw [if_pos hoverflow] at hd
      obtain ⟨_,-,hd⟩ := bind_ok.mp hd
      rw [if_pos hoverflow.2,if_pos hoverflow.1,List.length_nil,if_pos rfl,hoverflow.2]
      exact (Except.ok.inj hd).symm
    · rw [if_neg hoverflow] at hd
      rw [← Except.ok.inj hd,List.length_nil]
      split_ifs <;> first | omega | tauto
  · have hend := h.atEnd
    have hicc := h.icc last
    rw [List.concat_eq_append,List.getLast?_concat] at hicc
    have hrequired : last.rewardChain.deficit =
      if p.record.deficit=0 then E.minBlocksPerChallengeBlock else p.record.deficit := hend.required
    rw [if_neg (by rw [hend.stateType]; decide),hend.deficit,hend.noPeak,hend.subslotEnd] at hd
    have hlength : (before.concat last).length≠0 := by simp
    rw [List.concat_eq_append] at hlength ⊢
    by_cases hoverflow : q.record.overflow=true ∧ last.rewardChain.deficit=E.minBlocksPerChallengeBlock
    · rw [if_pos hoverflow] at hd
      have hnone : last.infusedChallengeChain.isNone=true ↔
          ¬ (p.record.deficit=0 ∧ (before++[last]).length=1) := by
        rw [← hicc rfl hoverflow.2,Option.isNone_iff_eq_none,Option.not_isSome_iff_eq_none]
      have hvalue : (if last.infusedChallengeChain.isNone=true then E.minBlocksPerChallengeBlock-1
        else E.minBlocksPerChallengeBlock)=deficit := Except.ok.inj hd
      have hfull := hrequired.symm.trans hoverflow.2
      rw [← hvalue,if_congr hnone rfl rfl,if_pos hoverflow.1,if_pos hoverflow.1]
      split_ifs at hfull ⊢ <;> omega
    · rw [if_neg hoverflow] at hd
      rw [← Except.ok.inj hd,hrequired]
      rw [hrequired] at hoverflow
      split_ifs at hoverflow ⊢ <;> first | omega | tauto

section
variable (h : Knows p slots s)
include h

theorem Knows.sameIters (hn : NextBlock p slots u q) :
    s.difficulty=u.difficulty ∧ s.subSlotIters=u.subSlotIters := by
  by_cases hslots : slots=[]
  · subst hslots
    obtain ⟨m,hpeak⟩ := h.stands.atPeak
    obtain ⟨hdifficulty,hiters⟩ := hn.unchanged rfl
    exact ⟨(h.difficulty rfl).trans hdifficulty.symm,hpeak.subSlotIters.trans hiters.symm⟩
  · obtain ⟨epoch,he⟩ := h.adjusted hslots
    obtain ⟨hdifficulty,hiters⟩ := hn.adjusted hslots _ _ _ he
    exact ⟨hdifficulty.symm,hiters.symm⟩

theorem Knows.start_eq (hn : NextBlock p slots u q) : (s.totalIters : ℤ)-s.lastIp=q.start := by
  rw [h.start,hn.start,(h.sameIters hn).2]

theorem Knows.lastChallengeSbOrEos_eq (hn : NextBlock p slots u q) :
    lastChallengeSbOrEos E V q.record = .ok (if q.record.deficit+1=E.minBlocksPerChallengeBlock
      then q.record.totalIters else s.lastChallengeSbOrEosTotalIters) := by
  have hstart := h.start_eq hn
  unfold lastChallengeSbOrEos
  by_cases hd : q.record.deficit+1=E.minBlocksPerChallengeBlock
  · have hchallenge : q.record.isChallengeBlock E.constants=true := decide_eq_true (by omega)
    have hwalk : V.walkBack (fun b => b.isChallengeBlock E.constants || b.firstInSubSlot) q.record =
        .ok q.record := BlockView.walkBack_here (by rw [hchallenge,Bool.true_or])
    rw [if_pos hd,bind_of_ok hwalk,if_pos hchallenge]
    rfl
  · have hchallenge : q.record.isChallengeBlock E.constants=false := decide_eq_false (by omega)
    rw [if_neg hd]
    rcases List.eq_nil_or_concat slots with rfl | ⟨before,last,rfl⟩
    · obtain ⟨m,hpeak⟩ := h.stands.atPeak
      have hwalk : V.walkBack (fun b => b.isChallengeBlock E.constants || b.firstInSubSlot) q.record =
          V.walkBack (fun b => b.isChallengeBlock E.constants || b.firstInSubSlot) p.record :=
        BlockView.walkBack_prev (by rw [hchallenge,hn.firstInSubSlot]; rfl) hn.prev hn.height
      have hsame := hpeak.message.lastChallenge
      unfold lastChallengeSbOrEos at hsame
      dsimp only at hsame ⊢
      rw [hwalk,hpeak.lastChallenge]
      exact hsame
    · have hend := h.atEnd
      have hfirst : q.record.firstInSubSlot=true := by
        rw [hn.firstInSubSlot]
        simp
      have hwalk : V.walkBack (fun b => b.isChallengeBlock E.constants || b.firstInSubSlot) q.record =
          .ok q.record := BlockView.walkBack_here (by rw [hfirst,Bool.or_true])
      rw [bind_of_ok hwalk,if_neg (Bool.eq_false_iff.mp hchallenge),q.slotStart _ hwalk hchallenge,
        hend.lastChallenge]
      rw [hend.lastIp] at hstart
      exact congrArg Except.ok (by omega)

theorem Knows.justInfused : s.justInfusedSubEpochSummary=slots.getLast?.any hasSummary := by
  unfold LastState.justInfusedSubEpochSummary
  rcases List.eq_nil_or_concat slots with rfl | ⟨before,last,rfl⟩
  · obtain ⟨m,hpeak⟩ := h.stands.atPeak
    rw [hpeak.stateType]
    rfl
  · rw [h.atEnd.stateType,h.infusedSes (by simp),List.concat_eq_append,List.getLast?_concat]
    rfl

/-- And whether the height of a summary is passed, unless one came before the last of the sub-slots. -/
theorem Knows.passedSes_eq (hn : NextBlock p slots u q) (hlast : SummaryLast slots q) :
    passedSesHeight E V q.record = .ok (newPassedSes E s q.record.height) := by
  obtain ⟨passed,hpassed,hs⟩ := h.passed
  have hnot : q.record.height≠0 := by
    rw [hn.height]
    exact Nat.succ_ne_zero _
  have hjust := h.justInfused
  have hany : slots.getLast?.any hasSummary=true → slots.any hasSummary=true := by
    rcases List.eq_nil_or_concat slots with rfl | ⟨before,last,rfl⟩
    · intro hnone
      exact absurd hnone Bool.false_ne_true
    · intro hsome
      rw [List.concat_eq_append,List.getLast?_concat] at hsome
      rw [List.concat_eq_append,List.any_append,List.any_cons,show hasSummary last=true from hsome,Bool.true_or,
        Bool.or_true]
  unfold passedSesHeight passedSes newPassedSes
  rw [hn.summary,hjust]
  by_cases hmultiple : q.record.height % E.subEpochBlocks=0
  · rw [if_pos hmultiple,if_pos hmultiple,decide_eq_false hnot,Bool.or_false]
    cases hsummary : slots.any hasSummary with
    | true => rw [if_pos (hlast hmultiple hsummary),Bool.not_true]; rfl
    | false =>
      rw [if_neg (fun hsome => by rw [hany hsome] at hsummary; cases hsummary),Bool.not_false]
      rfl
  · rw [if_neg hmultiple,if_neg hmultiple,bind_of_ok hn.prev,hn.height]
    unfold passedSesHeight at hpassed
    rw [bind_of_ok hpassed,hs]
    rw [hn.height] at hmultiple
    rw [if_neg hmultiple]
    cases hsummary : slots.any hasSummary with
    | true =>
      simp only [Bool.not_true,Bool.and_false,if_true,ite_self]
      rfl
    | false =>
      rw [if_neg (fun hsome => by rw [hany hsome] at hsummary; cases hsummary),Bool.not_false,Bool.and_true,
        if_neg Bool.false_ne_true]
      rfl

end

theorem itersFromBlock_sp {signagePointIndex subSlotIters difficulty spIters ipIters : ℕ} {challenge : Bytes32}
    {space : ProofOfSpace} {vdf : Option VDFInfo}
    (h : itersFromBlock E signagePointIndex challenge space vdf subSlotIters difficulty = .ok (spIters,ipIters)) :
    calculateSpIters E.constants subSlotIters signagePointIndex = .ok spIters := by
  unfold itersFromBlock at h
  extract_lets C jp at h
  have hjp : ∀ ccSp,jp ccSp = .ok (spIters,ipIters) → calculateSpIters C subSlotIters signagePointIndex =
      .ok spIters := by
    intro ccSp h
    obtain ⟨_,-,h⟩ := bind_ok.mp h
    obtain ⟨_,-,h⟩ := bind_ok.mp h
    obtain ⟨_,-,h⟩ := bind_ok.mp h
    obtain ⟨_,hsp,h⟩ := bind_ok.mp h
    obtain ⟨_,-,h⟩ := bind_ok.mp h
    cases h
    exact hsp
  cases vdf with
  | none =>
    obtain ⟨_,-,h⟩ := bind_ok.mp h
    exact hjp _ h
  | some vdf => exact hjp _ h

theorem Knows.newPlace_eq (h : Knows p slots s) (hn : NextBlock p slots u q) {isTransactionBlock : Bool} {height : ℕ}
    (hplace : newPlace s (q.record.totalIters-q.ipIters+q.spIters -
      (if q.record.overflow then u.subSlotIters else 0 : ℕ)) = .ok (isTransactionBlock,height)) :
    isTransactionBlock=q.record.isTransactionBlock ∧ height=q.record.height := by
  have hstate : s.stateType ≠ .firstSubSlot := by
    rcases List.eq_nil_or_concat slots with rfl | ⟨before,last,rfl⟩
    · obtain ⟨m,hpeak⟩ := h.stands.atPeak
      rw [hpeak.stateType]
      decide
    · rw [h.atEnd.stateType]
      decide
  unfold newPlace at hplace
  rw [if_neg hstate] at hplace
  obtain ⟨total,htotal,hplace⟩ := bind_ok.mp hplace
  obtain ⟨newHeight,hheight,hplace⟩ := bind_ok.mp hplace
  cases hplace
  obtain ⟨last,hlast,rfl⟩ := h.transaction total (assertSome_eq_ok.mp htotal)
  have hvalue := (uint_eq_ok.mp hheight).1
  rw [h.height] at hvalue
  refine ⟨(hn.transaction last hlast).symm,?_⟩
  rw [hn.height]
  omega

theorem Knows.infuses (hmin : 0<E.minBlocksPerChallengeBlock) (h : Knows p slots s) (hn : NextBlock p slots u q)
    (hi : Infuses E s u msg) (hv : SameVdfs msg q.block) (hlast : SummaryLast slots q) :
    PeakMessage q.toTimelordPeak msg ∧ passedSesHeight E V q.record = .ok msg.passesSesHeightButNotYetIncluded ∧
      msg.subEpochSummary=(if slots.getLast?.any hasSummary then none else u.subEpochSummary) ∧
      msg.previousRewardChallenges=s.rewardChallengeCache := by
  obtain ⟨spIters,ipIters,overflow,cc,rc,icc,hiters,hoverflow,hnew⟩ := hi.newPeak
  obtain ⟨hdifficulty,hsubSlotIters⟩ := h.sameIters hn
  have hstart := h.start_eq hn
  have htotal := q.totalIters_eq
  cases hoverflow.symm.trans hn.overflow
  have hq := q.iters
  rw [hn.subSlotIters,hn.difficulty,← hsubSlotIters,← hdifficulty] at hq
  unfold blockIters at hiters
  rw [← hn.unfinished] at hiters
  cases hiters.symm.trans hq
  have hip : ipTotalIters s q.ipIters=q.record.totalIters := by
    unfold ipTotalIters
    omega
  unfold Timelord.newPeak at hnew
  obtain ⟨sp,hsp,hnew⟩ := bind_ok.mp hnew
  rw [← hn.unfinished,← hsubSlotIters] at hsp
  cases hsp.symm.trans (itersFromBlock_sp hq)
  rw [hip] at hnew
  obtain ⟨⟨isTransactionBlock,height⟩,hplace,hnew⟩ := bind_ok.mp hnew
  obtain ⟨rfl,rfl⟩ := h.newPlace_eq hn hplace
  dsimp only at hnew
  split at hnew
  · cases hnew
  obtain ⟨weight,hweight,hnew⟩ := bind_ok.mp hnew
  obtain ⟨totalIters,htotalIters,hnew⟩ := bind_ok.mp hnew
  obtain ⟨deficit,hdeficit,hnew⟩ := bind_ok.mp hnew
  obtain ⟨newDeficit,hnewDeficit,hnew⟩ := bind_ok.mp hnew
  obtain ⟨lastChallenge,hlastChallenge,hnew⟩ := bind_ok.mp hnew
  cases hnew
  obtain rfl := h.newDeficit_eq hmin hn hdeficit
  have hweightEq : weight=q.record.weight := by
    have hvalue := (uint_eq_ok.mp hweight).1
    rw [h.weight] at hvalue
    rw [hn.weight]
    omega
  have htotalEq : totalIters=q.record.totalIters := by
    have hvalue := (uint_eq_ok.mp htotalIters).1
    omega
  have hdeficitEq : newDeficit=q.record.deficit := by
    have hvalue := (uint_eq_ok.mp hnewDeficit).1
    omega
  refine ⟨⟨?_,hn.difficulty.symm,hdeficitEq,hn.subSlotIters.symm,?_⟩,h.passedSes_eq hn hlast,?_,rfl⟩
  · have hcc : cc=q.block.rewardChainBlock.challengeChainIpVdf := hv.cc
    have hrc : rc=q.block.rewardChainBlock.rewardChainIpVdf := hv.rc
    have hicc : icc=q.block.rewardChainBlock.infusedChallengeChainIpVdf := hv.icc
    dsimp only
    rw [← hn.unfinished,hweightEq,htotalEq,← q.blockWeight,← q.blockHeight,← q.blockTotalIters,← q.transaction,
      hcc,hrc,hicc]
    rfl
  · have hvalue := (uint_eq_ok.mp hlastChallenge).1
    rw [h.lastChallengeSbOrEos_eq hn]
    refine congrArg Except.ok ?_
    dsimp only
    split_ifs at hvalue ⊢ <;> omega
  · dsimp only
    rw [h.justInfused]

/-- The summary to come after the block is that of its message, unless one was just infused. -/
theorem Knows.nextSummary (h : Knows p slots s) (hn : NextBlock p slots u q) (hf : FinishesSlots p slots u q) :
    nextSubEpochSummary E V q.record.requiredIters q.block =
      .ok (if slots.getLast?.any hasSummary then none else u.subEpochSummary) := by
  obtain ⟨ses,hses⟩ := q.summary
  obtain ⟨known,hknown,hsent⟩ := hf.sent
  have hwith : nextSubEpochSummary E V q.record.requiredIters { q.block with finishedSubSlots := slots } = .ok ses := by
    rw [← hf.finished]
    exact hses
  rw [hses]
  rcases slots with _ | ⟨first,more⟩
  · have hnil : known=[] := by
      obtain hsame | ⟨-,eos,hmore⟩ := hknown
      · exact hsame
      · simp at hmore
    rw [hnil,hwith] at hsent
    exact hsent
  -- from the first of the sub-slots on, the summary of the message is that of the block
  have hsame : known.head?=some first → ses=u.subEpochSummary := by
    intro hhead
    rw [nextSubEpochSummary_head (hhead.trans List.head?_cons.symm),hwith] at hsent
    exact Except.ok.inj hsent
  have hhead : known.head?=some first ∨ known=[] ∧ more=[] := by
    obtain rfl | ⟨-,eos,hmore⟩ := hknown
    · exact Or.inl rfl
    · cases known with
      | nil =>
        cases hmore
        exact Or.inr ⟨rfl,rfl⟩
      | cons eos' known =>
        cases hmore
        exact Or.inl rfl
  by_cases hmore : more=[]
  · subst hmore
    show Except.ok ses = .ok (if hasSummary first then none else u.subEpochSummary)
    cases hincluded : hasSummary first with
    | true =>
      have hfirst : q.block.finishedSubSlots.head?=some first := by
        rw [hf.finished]
        rfl
      rw [if_pos rfl,nextSubEpochSummary_included hfirst hincluded hses]
    | false =>
      rw [if_neg Bool.false_ne_true]
      obtain hhead | ⟨rfl,-⟩ := hhead
      · rw [hsame hhead]
      · have hplain : ∃ difficulty iters,expectedOnPeak (some p.toPeakOnChain) = .ok (false,difficulty,iters) := by
          obtain ⟨epoch,he⟩ := h.adjusted (List.cons_ne_nil _ _)
          cases epoch with
          | false => exact ⟨_,_,he⟩
          | true => exact absurd (h.foreseen first rfl _ _ he) (Bool.eq_false_iff.mp hincluded)
        obtain ⟨difficulty,iters,he⟩ := hplain
        have hprev : V.tryBlockRecord q.block.prevHeaderHash=some p.record := by
          rw [hf.prevHash]
          exact lookup_eq_ok.mp hn.prev
        rw [nextSubEpochSummary_plain hprev he hincluded (hf.adjusts first List.mem_cons_self hincluded),hwith] at hsent
        exact hsent
  · have hlast : (first::more).getLast?.any hasSummary=false := by
      obtain ⟨before,last,rfl⟩ := (List.eq_nil_or_concat more).resolve_left hmore
      rw [List.concat_eq_append,← List.cons_append,List.getLast?_concat]
      exact hf.first last (by simp)
    rw [hlast,if_neg Bool.false_ne_true,hsame (hhead.resolve_right fun hnil => hmore hnil.2)]

theorem FinishesSlots.recent (hV : Ascends V) (hn : NextBlock p slots u q) (hf : FinishesSlots p slots u q)
    {recent : List (Bytes32 × ℕ)} (h : getRecentRewardChallenges E V (some p.record) = .ok recent) :
    ∃ recent',getRecentRewardChallenges E V (some q.record) = .ok recent' ∧
      recent'.rtake (2*E.maxSubSlotBlocks)=(recent++challengesSince p.toTimelordPeak slots u.subSlotIters).rtake
        (2*E.maxSubSlotBlocks) := by
  have hown : addRewardChallenges E q.record q.record [] = .ok (slotsSince p.toTimelordPeak slots u.subSlotIters).reverse := by
    unfold addRewardChallenges
    rw [if_neg (not_not.mpr rfl),hn.firstInSubSlot]
    by_cases hslots : slots=[]
    · rw [hslots]
      rfl
    · have hstart : q.record.ipSubSlotTotalIters E.constants = .ok q.start := by
        unfold BlockRecord.ipSubSlotTotalIters
        rw [bind_of_ok q.ipIters_eq]
        have htotal := q.totalIters_eq
        have hbound := hf.totalIters
        exact uint_eq_ok.mpr ⟨by omega,by omega⟩
      have hhashes := assertSome_eq_ok.mpr (hf.rewardHashes hslots)
      rw [List.isEmpty_eq_false_iff.mpr hslots,Bool.not_false,if_pos rfl,bind_of_ok hhashes,bind_of_ok hstart,
        hn.start,hn.subSlotIters,slotChallenges_since hf.iters]
      rfl
  obtain ⟨recent',hrecent,hsame⟩ := getRecentRewardChallenges_next hV ⟨_,lookup_eq_ok.mp hn.prev⟩
    (lookup_eq_ok.mp hn.prev) (by rw [hn.height]; exact Nat.lt_succ_self _) hown h
  rw [List.reverse_reverse] at hsame
  exact ⟨recent',hrecent,hsame⟩

theorem Knows.recent (hV : Ascends V) (h : Knows p slots s) (hn : NextBlock p slots u q) (hf : FinishesSlots p slots u q) :
    ∃ recent,getRecentRewardChallenges E V (some q.record) = .ok recent ∧
      s.rewardChallengeCache.rtake (2*E.maxSubSlotBlocks)=recent.rtake (2*E.maxSubSlotBlocks) := by
  obtain ⟨recent,hrecent,hcache⟩ := h.cache
  obtain ⟨recent',hrecent',hsame⟩ := hf.recent hV hn hrecent
  refine ⟨recent',hrecent',?_⟩
  rw [hcache,rtake_rtake,(h.sameIters hn).2,hsame]

end Step

section Run
variable {p q : ChainPeak E V} {slots : List EndOfSubSlotBundle} {s s' : LastState}
  {u : NewUnfinishedBlockTimelord} {msg sent : NewPeakTimelord} {recentRc : List (Bytes32 × ℕ)}

theorem ChainPeak.send_ok (recentRc : List (Bytes32 × ℕ)) {last : ℕ} {passed : Bool} {ses : Option SubEpochSummary}
    (hlast : lastChallengeSbOrEos E V q.record = .ok last)
    (hses : nextSubEpochSummary E V q.record.requiredIters q.block = .ok ses)
    (hpassed : passedSesHeight E V q.record = .ok passed) :
    sendPeakToTimelords E V q.record q.block recentRc = .ok ⟨q.block.rewardChainBlock,q.difficulty,
      q.record.deficit,q.record.subSlotIters,ses,recentRc,last,passed⟩ := by
  unfold sendPeakToTimelords
  rw [bind_of_ok q.nextDifficulty,bind_of_ok hses,bind_of_ok hlast,bind_of_ok hpassed]
  rfl

theorem ChainPeak.of_sent (h : sendPeakToTimelords E V p.record p.block recentRc = .ok sent) :
    PeakMessage p.toTimelordPeak sent ∧
      passedSesHeight E V p.record = .ok sent.passesSesHeightButNotYetIncluded ∧
      sent.previousRewardChallenges=recentRc := by
  unfold sendPeakToTimelords at h
  obtain ⟨difficulty,hdifficulty,h⟩ := bind_ok.mp h
  obtain ⟨ses,-,h⟩ := bind_ok.mp h
  obtain ⟨last,hlast,h⟩ := bind_ok.mp h
  obtain ⟨passed,hpassed,h⟩ := bind_ok.mp h
  cases h
  exact ⟨⟨rfl,Except.ok.inj (hdifficulty.symm.trans p.nextDifficulty),rfl,rfl,hlast⟩,hpassed,rfl⟩

theorem Knows.transactionKnown (h : Knows p slots s) (hn : NextBlock p slots u q) : TransactionKnown q s := by
  intro htx total htotal
  obtain ⟨last,hlast,hvalue⟩ := h.transaction total htotal
  refine ⟨last,?_,hvalue⟩
  rw [BlockView.lastTransactionBlock,BlockView.walkBack_prev htx hn.prev hn.height]
  exact hlast

theorem Run.knows (hmin : 0<E.minBlocksPerChallengeBlock) (hV : Ascends V) (h : Run E V p slots s) :
    Knows p slots s := by
  induction h with
  | received hrecent hsent ht hs =>
    obtain ⟨hm,hpassed,hkept⟩ := ChainPeak.of_sent hsent
    exact Knows.setPeak hm hpassed ht hrecent (by rw [hkept]) hs
  | slot _ hv hs ih => exact ih.setSlot hmin hv hs
  | infused _ hn hf hi hv hlast hs ih =>
    obtain ⟨hm,hpassed,-,hcache⟩ := ih.infuses hmin hn hi hv hlast
    obtain ⟨recent,hrecent,hkept⟩ := ih.recent hV hn hf
    exact Knows.setPeak hm hpassed (ih.transactionKnown hn) hrecent (by rw [hcache,hkept]) hs

/-- The same state, at peaks that say the same. -/
structure SameState (E : Env) (s s' : LastState) : Prop where
  rest : { s with peak := none } = { s' with peak := none }
  peak : ∃ msg sent,s.peak=some msg ∧ s'.peak=some sent ∧ SamePeak E msg sent

theorem SamePeak.setPeak {t : LastState} (h : SamePeak E msg sent) (ht : s.setPeak E msg = .ok t) :
    ∃ t',s.setPeak E sent = .ok t' ∧ SameState E t t' := by
  have hcache := rtake_append (2*E.maxSubSlotBlocks) msg.previousRewardChallenges
    [(E.hashRewardChainBlock msg.rewardChainBlock,msg.rewardChainBlock.totalIters)]
  rw [h.previousRewardChallenges,rtake_append] at hcache
  obtain ⟨⟨spIters,ipIters⟩,hiters,ht⟩ := bind_ok.mp ht
  obtain ⟨challenge,hchallenge,rfl⟩ := remember_eq ht
  obtain rfl : E.hashRewardChainBlock msg.rewardChainBlock=challenge := Option.some.inj (Except.ok.inj hchallenge)
  rw [h.rewardChainBlock,h.difficulty,h.subSlotIters] at hiters
  unfold LastState.setPeak
  dsimp only
  rw [bind_of_ok hiters]
  refine ⟨_,rfl,?_,msg,sent,rfl,rfl,h⟩
  congr 1
  · exact h.deficit
  · exact h.subEpochSummary
  · exact congrArg (·.weight) h.rewardChainBlock
  · exact congrArg (·.height) h.rewardChainBlock
  · exact congrArg (·.totalIters) h.rewardChainBlock
  · exact h.lastChallenge
  · show (if msg.rewardChainBlock.isTransactionBlock then _ else _)=_
    rw [h.rewardChainBlock]
  · exact congrArg E.hashRewardChainBlock h.rewardChainBlock
  · exact h.difficulty
  · exact h.subSlotIters
  · show (msg.previousRewardChallenges++_).rtake _=_
    rw [← hcache,h.rewardChainBlock]
    rfl
  · show (if (msg.rewardChainBlock.height+1) % E.subEpochBlocks=0 then true else _)=_
    rw [h.rewardChainBlock,h.passed]

/-- Along every run, the peak that the timelord makes of a block that it infuses is the one that the node sends of
it, and both set the same state. -/
theorem newPeak_agrees (hmin : 0<E.minBlocksPerChallengeBlock) (hV : Ascends V) (h : Run E V p slots s)
    (hn : NextBlock p slots u q) (hf : FinishesSlots p slots u q) (hi : Infuses E s u msg) (hv : SameVdfs msg q.block)
    (hlast : SummaryLast slots q) :
    ∃ recentRc sent,getRecentRewardChallenges E V (some q.record) = .ok recentRc ∧
      sendPeakToTimelords E V q.record q.block recentRc = .ok sent ∧ SamePeak E msg sent ∧
      ∀ t,s.setPeak E msg = .ok t → ∃ t',s.setPeak E sent = .ok t' ∧ SameState E t t' := by
  have hknows := h.knows hmin hV
  obtain ⟨hm,hpassed,hses,hcache⟩ := hknows.infuses hmin hn hi hv hlast
  obtain ⟨recentRc,hrecent,hkept⟩ := hknows.recent hV hn hf
  have hsummary := hknows.nextSummary hn hf
  have hsent := ChainPeak.send_ok recentRc hm.lastChallenge hsummary hpassed
  have hsame : SamePeak E msg ⟨q.block.rewardChainBlock,q.difficulty,q.record.deficit,q.record.subSlotIters,_,
      recentRc,msg.lastChallengeSbOrEosTotalIters,msg.passesSesHeightButNotYetIncluded⟩ :=
    ⟨hm.rewardChainBlock,hm.difficulty,hm.deficit,hm.subSlotIters,rfl,rfl,hses,by rw [hcache,hkept]⟩
  exact ⟨recentRc,_,hrecent,hsent,hsame,fun t ht => hsame.setPeak ht⟩

end Run

section Divergence

deriving instance DecidableEq for NewPeakTimelord
deriving instance DecidableEq for LastState
deriving instance DecidableEq for NewUnfinishedBlockTimelord

def space : ProofOfSpace := ⟨0,some [],none,[],32,[]⟩

def fifth : BlockRecord :=
  { shortRecord 5 none none with signagePointIndex := 2,totalIters := 1105,timestamp := some 1 }

/-- The sixth, after two sub-slots; the first of them has a summary or not. -/
def sixth (summary : Bool) : BlockRecord :=
  { shortRecord 6 (some [0,0]) (if summary then some ⟨0,0,1,none,none⟩ else none) with
    totalIters := 3121
    timestamp := some 2 }

def endView : BlockView where
  blockRecords := [shortRecord 3 none none,
    { shortRecord 4 (some [0]) (some ⟨1,1,0,none,none⟩) with totalIters := 1073 },fifth].foldl
      (fun d b => d.set b.headerHash b) Lib.Dict.empty
  heights := Lib.Dict.empty

def fifthEnd (summary : Bool) : EndOfSubSlotBundle where
  challengeChain := ⟨⟨0,1024,getDefaultElement⟩,some 0,if summary then some 0 else none,none,none⟩
  infusedChallengeChain := some ⟨⟨0,943,getDefaultElement⟩⟩
  rewardChain := ⟨⟨0,943,getDefaultElement⟩,0,some 0,1⟩
  proofs := ⟨shortProof,some shortProof,shortProof⟩

def emptyEnd : EndOfSubSlotBundle where
  challengeChain := ⟨⟨0,1024,getDefaultElement⟩,none,none,none,none⟩
  infusedChallengeChain := none
  rewardChain := ⟨⟨0,1024,getDefaultElement⟩,0,none,1⟩
  proofs := ⟨shortProof,none,shortProof⟩

def fifthBlock : FullBlock :=
  { tinyBlock 6 5 5 42 with
    rewardChainBlock := ⟨42,5,1105,2,0,space,some ⟨0,32,getDefaultElement⟩,[],⟨0,81,getDefaultElement⟩,
      none,[],⟨0,32,getDefaultElement⟩,none,true⟩ }

def sixthBlock (summary : Bool) : FullBlock :=
  { tinyBlock 7 6 6 49 with
    finishedSubSlots := [fifthEnd summary,emptyEnd]
    rewardChainBlock := ⟨49,6,3121,0,0,space,none,[],⟨0,49,getDefaultElement⟩,none,[],
      ⟨0,49,getDefaultElement⟩,none,true⟩ }

def fifthOnChain : PeakOnChain shortEnv endView where
  record := fifth
  block := fifthBlock
  spSlot := none
  slot := some (shortSlot 0)
  start := 1024
  ipIters := 81
  ipIters_eq := by decide +kernel
  ipIters_pos := by decide
  ipIters_lt := by decide
  subSlotIters_lt := by decide
  totalIters_eq := rfl
  start_zero := fun h => by cases h
  deficit_le := by decide
  challenge := ⟨_,_,rfl,rfl,rfl⟩
  icc := fun _ => ⟨fifth,rfl,by
    rw [if_pos (by decide)]
    exact ⟨81,by decide +kernel,rfl,by decide⟩⟩
  iccStart := fun _ => by decide
  finishes := ⟨(true,false),by decide +kernel⟩
  summary := ⟨some ⟨0,0,1,none,none⟩,by decide +kernel⟩

def sixthOnChain (summary : Bool) : PeakOnChain shortEnv endView where
  record := sixth summary
  block := sixthBlock summary
  spSlot := none
  slot := some emptyEnd
  start := 3072
  ipIters := 49
  ipIters_eq := by cases summary <;> decide +kernel
  ipIters_pos := Nat.succ_pos 48
  ipIters_lt := by cases summary <;> decide
  subSlotIters_lt := by cases summary <;> decide
  totalIters_eq := rfl
  start_zero := fun h => by cases h
  deficit_le := by cases summary <;> decide
  challenge := ⟨_,_,rfl,rfl,rfl⟩
  icc := fun _ => ⟨sixth summary,rfl,by
    rw [if_pos (by cases summary <;> decide)]
    exact ⟨49,by cases summary <;> decide +kernel,rfl,by cases summary <;> decide⟩⟩
  iccStart := fun _ => by cases summary <;> decide
  finishes := by
    cases summary with
    | false => exact ⟨(true,false),by decide +kernel⟩
    | true => exact ⟨(false,false),by decide +kernel⟩
  summary := by
    cases summary with
    | false => exact ⟨some ⟨0,0,1,none,none⟩,by decide +kernel⟩
    | true => exact ⟨none,by decide +kernel⟩

theorem expectedOnPeak_fifth : expectedOnPeak (some fifthOnChain) = .ok (false,7,1024) := by decide +kernel

theorem expectedOnPeak_sixth (summary : Bool) :
    expectedOnPeak (some (sixthOnChain summary)) = .ok (false,7,1024) := by
  cases summary <;> decide +kernel

def fifthPeak : ChainPeak shortEnv endView where
  toPeakOnChain := fifthOnChain
  difficulty := 7
  spIters := 32
  rewardHash := rfl
  blockTotalIters := rfl
  ipOutput := rfl
  ipChallenge := rfl
  infoHash := rfl
  infusedIff := by decide
  infusedOutput := rfl
  infusedChallenge := fun _ _ h => by cases h
  iters := by decide +kernel
  slotStart := by
    intro curr hwalk hchallenge
    cases (BlockView.walkBack_here (by decide)).symm.trans hwalk
    exact absurd hchallenge (by decide)
  sameIters _ _ he := (adjusts_eq expectedOnPeak_fifth he).2
  blockWeight := rfl
  blockHeight := rfl
  transaction := rfl
  nextDifficulty := by decide +kernel
  sameDifficulty _ _ he := (adjusts_eq expectedOnPeak_fifth he).1

def sixthPeak (summary : Bool) : ChainPeak shortEnv endView where
  toPeakOnChain := sixthOnChain summary
  difficulty := 7
  spIters := 0
  rewardHash := rfl
  blockTotalIters := rfl
  ipOutput := rfl
  ipChallenge := rfl
  infoHash := rfl
  infusedIff := by cases summary <;> decide
  infusedOutput := rfl
  infusedChallenge := fun _ _ h => by cases h
  iters := by cases summary <;> decide +kernel
  slotStart := by
    intro curr hwalk hchallenge
    cases (BlockView.walkBack_here (by cases summary <;> decide)).symm.trans hwalk
    cases summary <;> exact absurd hchallenge (by decide)
  sameIters _ _ he := (adjusts_eq (expectedOnPeak_sixth summary) he).2
  blockWeight := rfl
  blockHeight := rfl
  transaction := rfl
  nextDifficulty := by cases summary <;> decide +kernel
  sameDifficulty _ _ he := (adjusts_eq (expectedOnPeak_sixth summary) he).1

/-- The node's message of the sixth block, with the summary to come if there was none yet. -/
def unfinishedSixth (summary : Bool) : NewUnfinishedBlockTimelord :=
  ⟨(sixthBlock true).rewardChainBlock.getUnfinished,7,1024,if summary then none else some ⟨0,0,1,none,none⟩,0⟩

theorem sixth_next (summary : Bool) :
    NextBlock fifthPeak [fifthEnd summary,emptyEnd] (unfinishedSixth summary) (sixthPeak summary) where
  prev := by cases summary <;> rfl
  height := by cases summary <;> decide
  weight := by cases summary <;> decide
  difficulty := rfl
  subSlotIters := rfl
  unfinished := rfl
  unchanged := fun h => by cases h
  adjusted := by
    intro _ epoch difficulty iters he
    cases expectedOnPeak_fifth.symm.trans he
    exact ⟨rfl,rfl⟩
  start := by cases summary <;> decide
  overflow := by cases summary <;> decide +kernel
  deficit := by cases summary <;> decide +kernel
  firstInSubSlot := rfl
  summary := by cases summary <;> rfl
  transaction := by
    intro last hlast
    have hfifth : endView.lastTransactionBlock fifth = .ok fifth := BlockView.walkBack_here rfl
    cases hfifth.symm.trans hlast
    cases summary <;> decide

theorem sixth_finishes (summary : Bool) :
    FinishesSlots fifthPeak [fifthEnd summary,emptyEnd] (unfinishedSixth summary) (sixthPeak summary) where
  finished := rfl
  prevHash := by cases summary <;> rfl
  totalIters := by cases summary <;> decide
  rewardHashes := fun _ => by cases summary <;> rfl
  iters := fun _ => by cases summary <;> decide
  first := by
    intro eos hmem
    cases List.mem_singleton.mp hmem
    rfl
  adjusts := by
    intro eos hmem _
    obtain rfl | hmem := List.mem_cons.mp hmem
    · rfl
    · cases List.mem_singleton.mp hmem
      rfl
  sent := ⟨_,Or.inl rfl,by cases summary <;> decide +kernel⟩

theorem ascends_endView : Ascends endView := by
  have hrecords : ∀ h b,endView.tryBlockRecord h=some b → b=shortRecord 3 none none ∨
      b = { shortRecord 4 (some [0]) (some ⟨1,1,0,none,none⟩) with totalIters := 1073 } ∨ b=fifth := by
    intro h b hb
    have hmem : (h,b)∈endView.blockRecords.entries := Lib.mem_of_assoc hb
    rcases hmem with _ | ⟨_,_ | ⟨_,_ | ⟨_,⟨⟩⟩⟩⟩
    · exact Or.inl rfl
    · exact Or.inr (Or.inl rfl)
    · exact Or.inr (Or.inr rfl)
  intro h b prev hb hprev
  obtain rfl | rfl | rfl := hrecords h b hb
  · have hnone : endView.tryBlockRecord (shortRecord 3 none none).prevHash=none := by decide +kernel
    cases hnone.symm.trans hprev
  · have hthird : (endView.tryBlockRecord (shortRecord 4 none none).prevHash).map (·.height)=some 3 := by decide +kernel
    have hheight := (congrArg (Option.map (·.height)) hprev).symm.trans hthird
    show prev.height<4
    exact Nat.lt_of_le_of_lt (Option.some.inj hheight).le (by decide)
  · have hfourth : (endView.tryBlockRecord fifth.prevHash).map (·.height)=some 4 := by decide +kernel
    have hheight := (congrArg (Option.map (·.height)) hprev).symm.trans hfourth
    show prev.height<5
    exact Nat.lt_of_le_of_lt (Option.some.inj hheight).le (by decide)

def valueOf {α : Type} (m : Check α) (otherwise : α) : α := m.toOption.getD otherwise

def fifthMessage : NewPeakTimelord :=
  valueOf (sendPeakToTimelords shortEnv endView fifth fifthBlock [(0,1024),(0,1073)]) genesisMessage

def fifthState : LastState := valueOf ((LastState.init shortEnv).setPeak shortEnv fifthMessage) (.init shortEnv)

def endState (summary : Bool) : LastState := valueOf (fifthState.setSlot shortEnv (fifthEnd summary)) (.init shortEnv)

def emptyState (summary : Bool) : LastState := valueOf ((endState summary).setSlot shortEnv emptyEnd) (.init shortEnv)

def sixthFinished : List FinishedVdf :=
  [⟨.challengeChain,⟨0,49,getDefaultElement⟩,shortProof⟩,⟨.rewardChain,⟨0,49,getDefaultElement⟩,shortProof⟩]

def sixthMessage (summary : Bool) : NewPeakTimelord :=
  (valueOf (checkForNewIp shortEnv (emptyState summary) [unfinishedSixth summary] 49 sixthFinished) none).getD genesisMessage

theorem emptyState_reached (summary : Bool) :
    Run shortEnv endView fifthPeak [fifthEnd summary,emptyEnd] (emptyState summary) := by
  have hrecent : getRecentRewardChallenges shortEnv endView (some fifthPeak.record) = .ok [(0,1024),(0,1073)] := by
    decide +kernel
  have hsent : sendPeakToTimelords shortEnv endView fifthPeak.record fifthPeak.block [(0,1024),(0,1073)] =
      .ok fifthMessage := by
    decide +kernel
  have hpeak : (LastState.init shortEnv).setPeak shortEnv fifthMessage = .ok fifthState := by decide +kernel
  have hend : fifthState.setSlot shortEnv (fifthEnd summary) = .ok (endState summary) := by
    cases summary <;> decide +kernel
  have hempty : (endState summary).setSlot shortEnv emptyEnd = .ok (emptyState summary) := by
    cases summary <;> decide +kernel
  have hfirst : ValidEnd (some fifthPeak.toTimelordPeak) ([] : List EndOfSubSlotBundle).getLast? (fifthEnd summary) := by
    refine ⟨rfl,(fun h => by cases h),?_,false,7,1024,expectedOnPeak_fifth,⟨(fun h => by cases h),?_⟩,?_⟩
    · rintro _ expected ⟨⟩ he
      have hexpected : (expectedIcc shortEnv endView fifth none).map (·.isNone) = .ok false := by decide +kernel
      have hpresent := (congrArg (Except.map (·.isNone)) he).symm.trans hexpected
      exact (Except.ok.inj hpresent).symm
    · exact ⟨rfl,rfl⟩
    · intro _ h
      cases h
  have hsecond : ValidEnd (some fifthPeak.toTimelordPeak) ([]++[fifthEnd summary]).getLast? emptyEnd := by
    refine ⟨rfl,(fun h => by cases h),?_,false,7,1024,expectedOnPeak_fifth,⟨fun _ => rfl,⟨rfl,rfl⟩⟩,?_⟩
    · rintro _ expected ⟨⟩ he
      have hexpected : (expectedIcc shortEnv endView fifth (some (fifthEnd summary))).map (·.isNone) = .ok true := by
        cases summary <;> decide +kernel
      have hpresent := (congrArg (Except.map (·.isNone)) he).symm.trans hexpected
      exact (Except.ok.inj hpresent).symm
    · intro h
      cases h
  exact ((Run.received hrecent hsent (fun h => by cases h) hpeak).slot hfirst hend).slot hsecond hempty

theorem sixth_infused (summary : Bool) :
    Infuses shortEnv (emptyState summary) (unfinishedSixth summary) (sixthMessage summary) := by
  refine ⟨[unfinishedSixth summary],49,sixthFinished,49,?_,?_⟩
  · cases summary <;> decide +kernel
  · cases summary <;> decide +kernel

theorem sixth_sameVdfs (summary : Bool) : SameVdfs (sixthMessage summary) (sixthPeak summary).block :=
  ⟨by cases summary <;> decide +kernel,by cases summary <;> decide +kernel,by cases summary <;> decide +kernel⟩

theorem newPeak_agrees_sixth : ∃ recentRc sent,
    getRecentRewardChallenges shortEnv endView (some (sixthPeak false).record) = .ok recentRc ∧
      sendPeakToTimelords shortEnv endView (sixthPeak false).record (sixthPeak false).block recentRc = .ok sent ∧
      SamePeak shortEnv (sixthMessage false) sent ∧
      ∀ t,(emptyState false).setPeak shortEnv (sixthMessage false) = .ok t →
        ∃ t',(emptyState false).setPeak shortEnv sent = .ok t' ∧ SameState shortEnv t t' :=
  newPeak_agrees (by decide) ascends_endView (emptyState_reached false) (sixth_next false) (sixth_finishes false)
    (sixth_infused false) (sixth_sameVdfs false) (fun _ h => by cases h)

/-- After a summary and an empty sub-slot the timelord takes the summary for still to come. -/
theorem summary_forgotten : Run shortEnv endView fifthPeak [fifthEnd true,emptyEnd] (emptyState true) ∧
      NextBlock fifthPeak [fifthEnd true,emptyEnd] (unfinishedSixth true) (sixthPeak true) ∧
      FinishesSlots fifthPeak [fifthEnd true,emptyEnd] (unfinishedSixth true) (sixthPeak true) ∧
      Infuses shortEnv (emptyState true) (unfinishedSixth true) (sixthMessage true) ∧
      SameVdfs (sixthMessage true) (sixthPeak true).block ∧
      (sixthMessage true).passesSesHeightButNotYetIncluded=true ∧
      (sendPeakToTimelords shortEnv endView (sixthPeak true).record (sixthPeak true).block []).map
        (·.passesSesHeightButNotYetIncluded) = .ok false := by
  refine ⟨emptyState_reached true,sixth_next true,sixth_finishes true,sixth_infused true,sixth_sameVdfs true,?_,?_⟩
  · decide +kernel
  · decide +kernel

end Divergence

end Timelord
end RoseChain
