import RoseChain.Timelord.EndOfSubSlot

namespace RoseChain
open FullNodeStore
variable (E : Env) (V : BlockView)

namespace Timelord

/-- Iterations of a block, with those of the current sub-slot. -/
def blockIters (s : LastState) (block : NewUnfinishedBlockTimelord) : Check (ℕ × ℕ) :=
  let r := block.rewardChainBlock
  itersFromBlock E r.signagePointIndex r.posSsCcChallengeHash r.proofOfSpace r.challengeChainSpVdf s.subSlotIters
    s.difficulty

/-- The first of the unfinished blocks infused after so many iterations; one that raises is passed
over. -/
def blockToInfuse (s : LastState) (iteration : ℕ) :
    List NewUnfinishedBlockTimelord → Option (NewUnfinishedBlockTimelord × ℕ)
  | [] => none
  | block::more =>
    match blockIters E s block with
    | .ok (_,ipIters) =>
      if (ipIters : ℤ)-s.lastIp=iteration then some (block,ipIters) else blockToInfuse s iteration more
    | .error _ => blockToInfuse s iteration more

def newDeficit (s : LastState) (overflow : Bool) : Check ℕ :=
  if s.stateType = .firstSubSlot then return E.minBlocksPerChallengeBlock-1
  else if overflow=true ∧ s.deficit=E.minBlocksPerChallengeBlock then
    match s.peak with
    | some _ => do
      assertThat s.subslotEnd.isNone
      return E.minBlocksPerChallengeBlock
    | none => do
      let eos ← assertSome s.subslotEnd
      -- without an infused challenge chain no slot is finished
      return if eos.infusedChallengeChain.isNone then E.minBlocksPerChallengeBlock-1
        else E.minBlocksPerChallengeBlock
  else return s.deficit-1

/-- Whether the new peak is past the height of a summary that is not included yet. -/
def newPassedSes (s : LastState) (height : ℕ) : Bool :=
  if s.justInfusedSubEpochSummary then false
  else if height % E.subEpochBlocks=0 then true
  else s.passedSesHeightButNotYetIncluded

/-- Whether the new block is a transaction block, and its height. -/
def newPlace (s : LastState) (spTotalIters : ℤ) : Check (Bool × ℕ) :=
  if s.stateType = .firstSubSlot then return (true,0)
  else do
    let last ← assertSome s.lastBlockTotalIters
    return (decide ((last : ℤ)<spTotalIters),← uint32 (s.lastHeight+1))

def ipTotalIters (s : LastState) (ipIters : ℕ) : ℤ := (s.totalIters : ℤ)+(ipIters-s.lastIp)

/-- The peak that the timelord makes of a block that it infused; none of the first blocks. -/
def newPeak (s : LastState) (block : NewUnfinishedBlockTimelord) (ipIters : ℕ) (overflow : Bool) (cc rc : VDFInfo)
    (icc : Option VDFInfo) : Check (Option NewPeakTimelord) := do
  let r := block.rewardChainBlock
  let spIters ← calculateSpIters E.constants block.subSlotIters r.signagePointIndex
  let (isTransactionBlock,height) ← newPlace s
    (ipTotalIters s ipIters-ipIters+spIters-(if overflow then block.subSlotIters else 0 : ℕ))
  if height<5 then return none
  else
    let weight ← uint128 (s.lastWeight+block.difficulty)
    let totalIters ← uint128 (ipTotalIters s ipIters)
    let deficit ← newDeficit E s overflow
    let lastChallengeSbOrEos :=
      if deficit+1=E.minBlocksPerChallengeBlock then ipTotalIters s ipIters
      else s.lastChallengeSbOrEosTotalIters
    return some
      { rewardChainBlock := ⟨weight,height,totalIters,r.signagePointIndex,r.posSsCcChallengeHash,r.proofOfSpace,
          r.challengeChainSpVdf,r.challengeChainSpSignature,cc,r.rewardChainSpVdf,r.rewardChainSpSignature,rc,
          icc,isTransactionBlock⟩
        difficulty := block.difficulty
        deficit := ← uint8 deficit
        subSlotIters := block.subSlotIters
        subEpochSummary := if s.justInfusedSubEpochSummary then none else block.subEpochSummary
        previousRewardChallenges := s.rewardChallengeCache
        lastChallengeSbOrEosTotalIters := ← uint128 lastChallengeSbOrEos
        passesSesHeightButNotYetIncluded := newPassedSes E s height }

/-- The new peak of `_check_for_new_ip`, of the VDFs that are finished after so many iterations. -/
def checkForNewIp (s : LastState) (unfinished : List NewUnfinishedBlockTimelord) (iteration : ℕ)
    (finished : List FinishedVdf) : Check (Option NewPeakTimelord) := do
  let chainCount := if (← s.getChallenge E .infusedChallengeChain).isSome then 3 else 2
  if finished.length≠chainCount then return none
  else
    assertThat (unfinished.any fun block => (blockIters E s block).toOption.isSome)
    match blockToInfuse E s iteration unfinished,finishedOf finished .challengeChain,
      finishedOf finished .rewardChain with
    | some (block,ipIters),some (cc,_),some (rc,_) =>
      if some rc.challenge≠(← s.getChallenge E .rewardChain) then return none
      else
        let overflow ← isOverflowBlock E.constants block.rewardChainBlock.signagePointIndex
        if s.canInfuseBlock E overflow=false then return none
        else if s.lastBlockTotalIters.isNone ∧ s.stateType ≠ .firstSubSlot then return none
        else
          newPeak E s block ipIters overflow { cc with numberOfIterations := ipIters } rc
            ((finishedOf finished .infusedChallengeChain).map (·.1))
    | _,_,_ => return none

end Timelord

namespace FullNode

/-- `get_next_difficulty` of the blockchain, without a new slot. -/
def nextDifficulty (curr : BlockRecord) : Check ℕ := do
  if curr.height≤2 then return E.difficultyStarting
  else return (← getNextSubSlotItersAndDifficulty E.constants V false (some curr)).2

/-- Walks back to the last multiple of the sub-epoch length: whether no block since has a summary.
-/
def passedSes (C : ConsensusConstants) : ℕ → BlockRecord → Check Bool
  | 0,_ => .error (.raised .diverged)
  | n+1,curr =>
    if curr.height % C.subEpochBlocks=0 then
      return !(curr.subEpochSummaryIncluded.isSome || decide (curr.height=0))
    else do
      let passed ← passedSes C n (← V.blockRecord curr.prevHash)
      return passed && !curr.subEpochSummaryIncluded.isSome

def passedSesHeight (peak : BlockRecord) : Check Bool :=
  passedSes V E.constants (peak.height+1) peak

/-- What the node sends of its peak; the recent reward challenges are those of the blockchain. -/
def sendPeakToTimelords (peak : BlockRecord) (block : FullBlock) (recentRc : List (Bytes32 × ℕ)) :
    Check NewPeakTimelord := do
  let difficulty ← nextDifficulty E V peak
  let ses ← nextSubEpochSummary E V peak.requiredIters block
  let lastChallengeSbOrEos ← Timelord.lastChallengeSbOrEos E V peak
  let passed ← passedSesHeight E V peak
  return ⟨block.rewardChainBlock,difficulty,peak.deficit,peak.subSlotIters,ses,recentRc,lastChallengeSbOrEos,
    passed⟩

end FullNode
end RoseChain
