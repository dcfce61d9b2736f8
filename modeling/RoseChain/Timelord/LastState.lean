import RoseChain.FullNode.FullNodeStore

namespace RoseChain
open ClassgroupElement
variable (E : Env) (V : BlockView)

structure NewPeakTimelord where
  rewardChainBlock : RewardChainBlock
  difficulty : ℕ
  deficit : ℕ
  subSlotIters : ℕ
  subEpochSummary : Option SubEpochSummary
  previousRewardChallenges : List (Bytes32 × ℕ)
  lastChallengeSbOrEosTotalIters : ℕ
  passesSesHeightButNotYetIncluded : Bool

structure NewUnfinishedBlockTimelord where
  rewardChainBlock : RewardChainBlockUnfinished
  difficulty : ℕ
  subSlotIters : ℕ
  subEpochSummary : Option SubEpochSummary
  rcPrev : Bytes32

inductive StateType
  | firstSubSlot
  | peak
  | endOfSubSlot
  deriving DecidableEq

inductive VdfChain
  | challengeChain
  | rewardChain
  | infusedChallengeChain
  deriving DecidableEq

/-- Iterations of the signage point and of the infusion point of a block. -/
def itersFromBlock (signagePointIndex : ℕ) (posSsCcChallengeHash : Bytes32) (proofOfSpace : ProofOfSpace)
    (challengeChainSpVdf : Option VDFInfo) (subSlotIters difficulty : ℕ) : Check (ℕ × ℕ) := do
  let C := E.constants
  let ccSp ← match challengeChainSpVdf with
    | none => do
      assertThat (signagePointIndex=0)
      pure posSsCcChallengeHash
    | some vdf => pure (vdf.output.getHash E)
  let quality ← assertSome (← proofOfSpace.verifyAndGetQualityString E posSsCcChallengeHash ccSp)
  let requiredIters ← calculateIterationsQuality E.toOracles C.difficultyConstantFactor quality proofOfSpace.size
    difficulty ccSp
  return (← calculateSpIters C subSlotIters signagePointIndex,
    ← calculateIpIters C subSlotIters signagePointIndex requiredIters)

/-- What the timelord builds on. -/
structure LastState where
  stateType : StateType
  peak : Option NewPeakTimelord
  subslotEnd : Option EndOfSubSlotBundle
  lastIp : ℕ
  deficit : ℕ
  subEpochSummary : Option SubEpochSummary
  lastWeight : ℕ
  lastHeight : ℕ
  totalIters : ℕ
  lastChallengeSbOrEosTotalIters : ℕ
  lastBlockTotalIters : Option ℕ
  lastPeakChallenge : Bytes32
  difficulty : ℕ
  subSlotIters : ℕ
  rewardChallengeCache : List (Bytes32 × ℕ)
  newEpoch : Bool
  passedSesHeightButNotYetIncluded : Bool
  infusedSes : Bool

namespace LastState

def init : LastState where
  stateType := .firstSubSlot
  peak := none
  subslotEnd := none
  lastIp := 0
  deficit := E.minBlocksPerChallengeBlock
  subEpochSummary := none
  lastWeight := 0
  lastHeight := 0
  totalIters := 0
  lastChallengeSbOrEosTotalIters := 0
  lastBlockTotalIters := none
  lastPeakChallenge := E.genesisChallenge
  difficulty := E.difficultyStarting
  subSlotIters := E.subSlotItersStarting
  rewardChallengeCache := [(E.genesisChallenge,0)]
  newEpoch := false
  passedSesHeightButNotYetIncluded := false
  infusedSes := false

def challengeBlockInfo (b : RewardChainBlock) : ChallengeBlockInfo :=
  ⟨b.proofOfSpace,b.challengeChainSpVdf,b.challengeChainSpSignature,b.challengeChainIpVdf⟩

def getChallengeOfPeak (peak : NewPeakTimelord) : VdfChain → Option Bytes32
  | .challengeChain => some peak.rewardChainBlock.challengeChainIpVdf.challenge
  | .rewardChain => some (E.hashRewardChainBlock peak.rewardChainBlock)
  | .infusedChallengeChain =>
    match peak.rewardChainBlock.infusedChallengeChainIpVdf with
    | some vdf => some vdf.challenge
    | none =>
      if (peak.deficit : ℤ)=E.minBlocksPerChallengeBlock-1 then
        some (E.hashChallengeBlockInfo (challengeBlockInfo peak.rewardChainBlock))
      else none

def getChallengeOfEnd (eos : EndOfSubSlotBundle) : VdfChain → Check (Option Bytes32)
  | .challengeChain => return some (E.hashChallengeChainSubSlot eos.challengeChain)
  | .rewardChain => return some (E.hashRewardChainSubSlot eos.rewardChain)
  | .infusedChallengeChain =>
    if eos.rewardChain.deficit<E.minBlocksPerChallengeBlock then do
      return some (E.hashInfusedChallengeChainSubSlot (← assertSome eos.infusedChallengeChain))
    else return none

def getChallenge (s : LastState) (chain : VdfChain) : Check (Option Bytes32) :=
  match s.stateType with
  | .firstSubSlot => do
    assertThat (s.peak.isNone ∧ s.subslotEnd.isNone)
    return if chain = .infusedChallengeChain then none else some E.genesisChallenge
  | .peak => do return getChallengeOfPeak E (← assertSome s.peak) chain
  | .endOfSubSlot => do getChallengeOfEnd E (← assertSome s.subslotEnd) chain

def getInitialFormOfPeak (peak : NewPeakTimelord) : VdfChain → Option ClassgroupElement
  | .challengeChain => some peak.rewardChainBlock.challengeChainIpVdf.output
  | .rewardChain => some getDefaultElement
  | .infusedChallengeChain =>
    match peak.rewardChainBlock.infusedChallengeChainIpVdf with
    | some vdf => some vdf.output
    | none =>
      if (peak.deficit : ℤ)=E.minBlocksPerChallengeBlock-1 then some getDefaultElement else none

def getInitialForm (s : LastState) (chain : VdfChain) : Check (Option ClassgroupElement) :=
  match s.stateType with
  | .firstSubSlot => return some getDefaultElement
  | .peak => do return getInitialFormOfPeak E (← assertSome s.peak) chain
  | .endOfSubSlot => do
    if chain = .infusedChallengeChain then
      let eos ← assertSome s.subslotEnd
      return if eos.rewardChain.deficit<E.minBlocksPerChallengeBlock then some getDefaultElement else none
    else return some getDefaultElement

/-- Remembers the reward chain challenge of the new state. -/
def remember (s : LastState) : Check LastState := do
  let challenge ← assertSome (← s.getChallenge E .rewardChain)
  let cache := s.rewardChallengeCache++[(challenge,s.totalIters)]
  return { s with rewardChallengeCache := cache.drop (cache.length-2*E.maxSubSlotBlocks) }

/-- `set_state` to a block. -/
def setPeak (s : LastState) (msg : NewPeakTimelord) : Check LastState := do
  let block := msg.rewardChainBlock
  let (_,ipIters) ← itersFromBlock E block.signagePointIndex block.posSsCcChallengeHash block.proofOfSpace
    block.challengeChainSpVdf msg.subSlotIters msg.difficulty
  remember E
    { s with
      stateType := .peak
      peak := some msg
      subslotEnd := none
      lastIp := ipIters
      deficit := msg.deficit
      subEpochSummary := msg.subEpochSummary
      lastWeight := block.weight
      lastHeight := block.height
      totalIters := block.totalIters
      lastPeakChallenge := E.hashRewardChainBlock block
      difficulty := msg.difficulty
      subSlotIters := msg.subSlotIters
      lastBlockTotalIters := if block.isTransactionBlock then some block.totalIters else s.lastBlockTotalIters
      rewardChallengeCache := msg.previousRewardChallenges
      lastChallengeSbOrEosTotalIters := msg.lastChallengeSbOrEosTotalIters
      newEpoch := false
      passedSesHeightButNotYetIncluded :=
        if (block.height+1) % E.subEpochBlocks=0 then true else msg.passesSesHeightButNotYetIncluded }

def slotEnd (s : LastState) : ℤ :=
  if s.peak.isSome then (s.totalIters : ℤ)-s.lastIp+s.subSlotIters else s.totalIters+s.subSlotIters

/-- The iterations of the next sub-slot: a new difficulty comes with new ones. -/
def nextSubSlotIters (s : LastState) (cc : ChallengeChainSubSlot) : Check ℕ :=
  if cc.newDifficulty.isSome then assertSome cc.newSubSlotIters else return s.subSlotIters

/-- `set_state` to the end of a sub-slot. -/
def setSlot (s : LastState) (eos : EndOfSubSlotBundle) : Check LastState := do
  let totalIters ← uint128 s.slotEnd
  let cc := eos.challengeChain
  let subSlotIters ← s.nextSubSlotIters cc
  remember E
    { s with
      stateType := .endOfSubSlot
      totalIters := totalIters
      peak := none
      subslotEnd := some eos
      lastIp := 0
      deficit := eos.rewardChain.deficit
      difficulty := cc.newDifficulty.getD s.difficulty
      subSlotIters := subSlotIters
      newEpoch := cc.newDifficulty.isSome
      infusedSes := cc.subepochSummaryHash.isSome
      passedSesHeightButNotYetIncluded :=
        if cc.subepochSummaryHash.isSome then false else s.passedSesHeightButNotYetIncluded
      lastChallengeSbOrEosTotalIters := totalIters }

def canInfuseBlock (s : LastState) (overflow : Bool) : Bool :=
  if overflow && s.newEpoch then false
  else if s.stateType = .peak then
    let start : ℤ := (s.totalIters : ℤ)-s.lastIp
    decide (s.rewardChallengeCache.countP (fun c => decide ((c.2 : ℤ) > start))<E.maxSubSlotBlocks)
  else true

def justInfusedSubEpochSummary (s : LastState) : Bool := decide (s.stateType = .endOfSubSlot) && s.infusedSes

def getNextSubEpochSummary (s : LastState) : Check (Option SubEpochSummary) := do
  if s.stateType ≠ .peak then return none
  else
    assertThat s.peak.isSome
    if s.passedSesHeightButNotYetIncluded ∧ s.deficit=0 then return s.subEpochSummary
    else return none

end LastState

/-- A finished VDF of the timelord. -/
structure FinishedVdf where
  chain : VdfChain
  info : VDFInfo
  proof : VDFProof

namespace Timelord

def finishedOf (finished : List FinishedVdf) (chain : VdfChain) : Option (VDFInfo × VDFProof) :=
  (finished.filter fun f => decide (f.chain=chain)).getLast?.map fun f => (f.info,f.proof)

/-- The infused challenge chain of the ending slot, with its iterations since its challenge. -/
def iccSubSlot (s : LastState) (icc : Option (VDFInfo × VDFProof)) :
    Check (Option InfusedChallengeChainSubSlot) := do
  match icc with
  | none => return none
  | some (vdf,_) =>
    let itersFromCb ← uint64 (s.slotEnd-s.lastChallengeSbOrEosTotalIters)
    assertThat (itersFromCb ≤ s.subSlotIters)
    return some ⟨⟨vdf.challenge,itersFromCb,vdf.output⟩⟩

/-- The bundle that `_check_for_end_of_subslot` makes of the VDFs finished at the end of the sub-slot. -/
def checkForEndOfSubslot (s : LastState) (finished : List FinishedVdf) : Check (Option EndOfSubSlotBundle) := do
  let chainCount := if (← s.getChallenge E .infusedChallengeChain).isSome then 3 else 2
  if finished.length≠chainCount then return none
  else
    let (ccVdf,ccProof) ← assertSome (finishedOf finished .challengeChain)
    let (rcVdf,rcProof) ← assertSome (finishedOf finished .rewardChain)
    let icc := finishedOf finished .infusedChallengeChain
    if some rcVdf.challenge≠(← s.getChallenge E .rewardChain) then return none
    else
      let iccSubSlot ← iccSubSlot s icc
      let iccHash := iccSubSlot.map E.hashInfusedChallengeChainSubSlot
      assertThat (s.deficit=0 → iccSubSlot.isSome)
      let ses ← s.getNextSubEpochSummary
      let ccSubSlot : ChallengeChainSubSlot :=
        ⟨⟨ccVdf.challenge,ccVdf.numberOfIterations+s.lastIp,ccVdf.output⟩,
          if s.deficit=0 then iccHash else none,ses.map E.hashSubEpochSummary,ses.bind (·.newSubSlotIters),
          ses.bind (·.newDifficulty)⟩
      let deficit := if E.minBlocksPerChallengeBlock > s.deficit ∧ s.deficit > 0 then s.deficit
        else E.minBlocksPerChallengeBlock
      return some ⟨ccSubSlot,iccSubSlot,⟨rcVdf,E.hashChallengeChainSubSlot ccSubSlot,iccHash,deficit⟩,
        ⟨ccProof,icc.map (·.2),rcProof⟩⟩

end Timelord
end RoseChain
