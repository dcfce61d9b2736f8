import RoseChain.Consensus.DifficultyAdjustment

namespace RoseChain
variable (E : Env) (V : BlockView)

def FullBlock.headerHash (b : FullBlock) : Bytes32 := E.hashFoliage b.foliage

def headerBlockToSubBlockRecord (requiredIters : ℕ) (block : FullBlock) (subSlotIters : ℕ)
    (overflow : Bool) (deficit prevTransactionBlockHeight : ℕ) (ses : Option SubEpochSummary) :
    BlockRecord :=
  let cbi : ChallengeBlockInfo := ⟨block.rewardChainBlock.proofOfSpace,
    block.rewardChainBlock.challengeChainSpVdf,block.rewardChainBlock.challengeChainSpSignature,
    block.rewardChainBlock.challengeChainIpVdf⟩
  let slots := block.finishedSubSlots
  -- the genesis block counts as first in its sub-slot even without finished sub-slots
  let slotHashes (hashes : List Bytes32) : Option (List Bytes32) :=
    if slots≠[] then some hashes
    else if block.height=0 then some [E.genesisChallenge]
    else none
  { headerHash := block.headerHash E
    prevHash := block.prevHeaderHash
    height := block.height
    weight := block.weight
    totalIters := block.totalIters
    signagePointIndex := block.rewardChainBlock.signagePointIndex
    challengeVdfOutput := block.rewardChainBlock.challengeChainIpVdf.output
    infusedChallengeVdfOutput := block.rewardChainBlock.infusedChallengeChainIpVdf.map (·.output)
    rewardInfusionNewChallenge := E.hashRewardChainBlock block.rewardChainBlock
    challengeBlockInfoHash := E.hashChallengeBlockInfo cbi
    subSlotIters := subSlotIters
    poolPuzzleHash := block.foliage.foliageBlockData.poolTarget.puzzleHash
    farmerPuzzleHash := block.foliage.foliageBlockData.farmerRewardPuzzleHash
    requiredIters := requiredIters
    deficit := deficit
    overflow := overflow
    prevTransactionBlockHeight := prevTransactionBlockHeight
    timestamp := block.foliageTransactionBlock.map (·.timestamp)
    prevTransactionBlockHash := block.foliageTransactionBlock.map (·.prevTransactionBlockHash)
    fees := block.transactionsInfo.map (·.fees)
    rewardClaimsIncorporated := block.transactionsInfo.map (·.rewardClaimsIncorporated)
    finishedChallengeSlotHashes :=
      slotHashes (slots.map fun s => E.hashChallengeChainSubSlot s.challengeChain)
    finishedInfusedChallengeSlotHashes :=
      if slots≠[] then
        some (slots.filterMap fun s => s.infusedChallengeChain.map E.hashInfusedChallengeChainSubSlot)
      else none
    finishedRewardSlotHashes := slotHashes (slots.map fun s => E.hashRewardChainSubSlot s.rewardChain)
    subEpochSummaryIncluded := ses }

/-- Height of the last transaction block at or before a known block, zero if the walk falls off. -/
def prevTransactionBlockHeightFrom : ℕ → Option BlockRecord → Check ℕ
  | _,none => .ok 0
  | 0,some _ => .error (.raised .diverged)
  | n+1,some curr =>
    if curr.isTransactionBlock then .ok curr.height
    else prevTransactionBlockHeightFrom n (V.tryBlockRecord curr.prevHash)

def blockToBlockRecord (requiredIters : ℕ) (block : FullBlock) : Check BlockRecord := do
  let prevB := V.tryBlockRecord block.prevHeaderHash
  assertThat (block.height > 0 → prevB.isSome)
  let (subSlotIters,_) ← getNextSubSlotItersAndDifficulty E.constants V
    (!block.finishedSubSlots.isEmpty) prevB
  let overflow ← isOverflowBlock E.constants block.rewardChainBlock.signagePointIndex
  let deficit ← calculateDeficit E.constants block.height prevB overflow
    block.finishedSubSlots.length
  -- the last finished sub-slot that carries a summary hash decides
  let foundSesHash := (block.finishedSubSlots.filterMap (·.challengeChain.subepochSummaryHash)).getLast?
  let ses ← match foundSesHash with
    | none => pure none
    | some found => do
      let prev ← assertSome prevB
      let first ← index block.finishedSubSlots[0]?
      let ses ← makeSubEpochSummary E.constants V E.toOracles block.height
        (← V.blockRecord prev.prevHash) first.challengeChain.newDifficulty
        first.challengeChain.newSubSlotIters
      assertThat (E.hashSubEpochSummary ses=found)
      pure (some ses)
  let fuel := match prevB with
    | none => 0
    | some p => p.height+1
  let prevTransactionBlockHeight ← prevTransactionBlockHeightFrom V fuel prevB
  return headerBlockToSubBlockRecord E requiredIters block subSlotIters overflow deficit
    prevTransactionBlockHeight ses

end RoseChain
