import RoseChain.Consensus.PotIterations

namespace RoseChain
variable (C : ConsensusConstants) (V : BlockView)

/-- The slow search: back one by one, keeping the blocks in range, in ascending order. -/
def blocksAtHeightFrom (targetHeight maxNumBlocks : ℕ) : ℕ → BlockRecord → Check (List BlockRecord)
  | 0,_ => .error (.raised .diverged)
  | n+1,curr =>
    if curr.height<targetHeight then .ok []
    else do
      let older ←
        if curr.height=0 then pure []
        else do blocksAtHeightFrom targetHeight maxNumBlocks n (← V.blockRecord curr.prevHash)
      return older++(if curr.height<targetHeight+maxNumBlocks then [curr] else [])

def getBlocksAtHeight (prevB : BlockRecord) (targetHeight maxNumBlocks : ℕ) :
    Check (List BlockRecord) :=
  if V.heights.get? prevB.height=some prevB.headerHash then
    (List.range' targetHeight maxNumBlocks).mapM fun h => do
      assertThat (V.containsHeight h)
      V.heightToBlockRecord h
  else blocksAtHeightFrom V targetHeight maxNumBlocks (prevB.height+1) prevB

/-- Steps on to the first fetched block that includes a sub-epoch summary; gives the one before. -/
def lastBlockOfEpoch (fetched : List BlockRecord) : ℕ → ℕ → BlockRecord → BlockRecord → Check BlockRecord
  | 0,_,_,_ => .error (.raised .diverged)
  | n+1,fetchedIndex,currB,nextB =>
    if nextB.subEpochSummaryIncluded.isNone then do
      lastBlockOfEpoch fetched n (fetchedIndex+1) nextB (← index fetched[fetchedIndex]?)
    else .ok currB

def getSecondToLastTransactionBlockInPreviousEpoch (lastB : BlockRecord) : Check BlockRecord := do
  let heightInNextEpoch : ℕ :=
    lastB.height+2*C.maxSubSlotBlocks+C.minBlocksPerChallengeBlock+5
  let heightEpochSurpass ← uint32 (heightInNextEpoch-(← floorMod heightInNextEpoch C.epochBlocks))
  let heightPrevEpochSurpass ← uint32 (heightEpochSurpass-C.epochBlocks)
  assertThat (heightPrevEpochSurpass % C.epochBlocks=0)
  assertThat ((heightInNextEpoch : ℤ)-heightEpochSurpass<5*C.maxSubSlotBlocks)
  if heightPrevEpochSurpass=0 then
    index (← getBlocksAtHeight V lastB 0 1)[0]?
  else
    let target ← uint32 (heightPrevEpochSurpass-C.maxSubSlotBlocks-1)
    let fetched ← getBlocksAtHeight V lastB target
      (3*C.maxSubSlotBlocks+C.minBlocksPerChallengeBlock+3)
    let currB ← index fetched[C.maxSubSlotBlocks]?
    assertThat (currB.height+1=heightPrevEpochSurpass)
    let nextB ← index fetched[C.maxSubSlotBlocks+1]?
    assertThat (nextB.height=heightPrevEpochSurpass)
    let last ← lastBlockOfEpoch fetched (fetched.length+1) (C.maxSubSlotBlocks+1) currB nextB
    let before (b : BlockRecord) : Check BlockRecord := do
      V.lastTransactionBlock (← V.blockRecord b.prevHash)
    if last.isTransactionBlock then before last else before (← before last)

def heightCanBeFirstInEpoch (height : ℕ) : Bool :=
  (height-height % C.subEpochBlocks) % C.epochBlocks == 0

/-- Whether a sub-epoch summary was included since the last multiple of the sub-epoch length. -/
def sesSince (V : BlockView) : ℕ → BlockRecord → Check Bool
  | 0,_ => .error (.raised .diverged)
  | n+1,curr =>
    if curr.subEpochSummaryIncluded.isSome then .ok true
    else if curr.height % C.subEpochBlocks > 0 then do sesSince V n (← V.blockRecord curr.prevHash)
    else .ok false

def canFinishSubAndFullEpoch (height : ℕ) (prevHeaderHash : Bytes32) (deficit : ℕ)
    (blockAtHeightIncludedSes : Bool) : Check (Bool × Bool) := do
  if (height : ℤ)<C.subEpochBlocks-1 then return (false,false)
  if deficit > 0 then return (false,false)
  if blockAtHeightIncludedSes then return (false,false)
  let found ←
    if (height+1) % C.subEpochBlocks > 1 then do
      let curr ← V.blockRecord prevHeaderHash
      sesSince C V (curr.height+1) curr
    else pure false
  if found then return (false,false)
  return (true,heightCanBeFirstInEpoch C (height+1))

/-- The last transaction block at or before the signage point. -/
def lastBlockCurr (signagePointTotalIters : ℕ) (prevB : BlockRecord) : Check BlockRecord :=
  V.walkBack (fun b => decide (b.totalIters ≤ signagePointTotalIters) && b.isTransactionBlock) prevB

def getNextSubSlotIters (prevHeaderHash : Bytes32) (height currSubSlotIters deficit : ℕ)
    (blockAtHeightIncludedSes newSlot : Bool) (signagePointTotalIters : ℕ) (skipEpochCheck : Bool) :
    Check ℕ := do
  let nextHeight ← uint32 (height+1)
  if nextHeight<C.epochBlocks then return ← uint64 C.subSlotItersStarting
  raiseIf (¬ V.containsBlock prevHeaderHash)
  let prevB ← V.blockRecord prevHeaderHash
  let sameEpoch ←
    if skipEpochCheck then pure false
    else do
      let (_,canFinishEpoch) ←
        canFinishSubAndFullEpoch C V height prevHeaderHash deficit blockAtHeightIncludedSes
      pure (!newSlot || !canFinishEpoch)
  if sameEpoch then return currSubSlotIters
  let lastBlockPrev ← getSecondToLastTransactionBlockInPreviousEpoch C V prevB
  let last ← lastBlockCurr V signagePointTotalIters prevB
  let timestamp ← assertSome last.timestamp
  let timestampPrev ← assertSome lastBlockPrev.timestamp
  let precise ← uint64 (← floorDiv (C.subSlotTimeTarget*(last.totalIters-lastBlockPrev.totalIters))
    (timestamp-timestampPrev))
  let maxSsi ← uint64 (C.difficultyChangeMaxFactor*last.subSlotIters)
  let minSsi ← uint64 (← floorDiv last.subSlotIters C.difficultyChangeMaxFactor)
  let precise :=
    if precise ≥ last.subSlotIters then min precise maxSsi
    else max C.numSpsSubSlot (max precise minSsi)
  let newSsi := truncateToSignificantBits precise C.significantBits
  let newSsi ← uint64 (newSsi-(← floorMod newSsi C.numSpsSubSlot))
  assertThat (countSignificantBits newSsi≤C.significantBits)
  return newSsi

def getNextDifficulty (prevHeaderHash : Bytes32) (height currentDifficulty deficit : ℕ)
    (blockAtHeightIncludedSes newSlot : Bool) (signagePointTotalIters : ℕ) (skipEpochCheck : Bool) :
    Check ℕ := do
  let nextHeight ← uint32 (height+1)
  if (nextHeight : ℤ)<C.epochBlocks-3*C.maxSubSlotBlocks then
    return ← uint64 C.difficultyStarting
  raiseIf (¬ V.containsBlock prevHeaderHash)
  let prevB ← V.blockRecord prevHeaderHash
  let sameEpoch ←
    if skipEpochCheck then pure false
    else do
      let (_,canFinishEpoch) ←
        canFinishSubAndFullEpoch C V height prevHeaderHash deficit blockAtHeightIncludedSes
      pure (!newSlot || !canFinishEpoch)
  if sameEpoch then return currentDifficulty
  let lastBlockPrev ← getSecondToLastTransactionBlockInPreviousEpoch C V prevB
  let last ← lastBlockCurr V signagePointTotalIters prevB
  let timestamp ← assertSome last.timestamp
  let timestampPrev ← assertSome lastBlockPrev.timestamp
  let actualEpochTime ← uint64 (timestamp-timestampPrev)
  let oldDifficulty ← uint64 (prevB.weight-(← V.blockRecord prevB.prevHash).weight)
  let precise ← uint64 (← floorDiv ((last.weight-lastBlockPrev.weight)*C.subSlotTimeTarget)
    (C.slotBlocksTarget*actualEpochTime))
  let maxDiff ← uint64 (C.difficultyChangeMaxFactor*oldDifficulty)
  let minDiff ← uint64 (← floorDiv oldDifficulty C.difficultyChangeMaxFactor)
  let precise :=
    if precise ≥ oldDifficulty then min precise maxDiff else max 1 (max precise minDiff)
  let newDifficulty := truncateToSignificantBits precise C.significantBits
  assertThat (countSignificantBits newDifficulty≤C.significantBits)
  uint64 newDifficulty

/-- Sub-slot iterations and difficulty of the block after `prevB`. -/
def getNextSubSlotItersAndDifficulty (isFirstInSubSlot : Bool) (prevB : Option BlockRecord) :
    Check (ℕ × ℕ) := do
  match prevB with
  | none => return (C.subSlotItersStarting,C.difficultyStarting)
  | some prev =>
    let prevDifficulty ←
      if prev.height≠0 then do uint64 (prev.weight-(← V.blockRecord prev.prevHash).weight)
      else uint64 prev.weight
    if prev.subEpochSummaryIncluded.isSome then return (prev.subSlotIters,prevDifficulty)
    let spTotalIters ← prev.spTotalIters C
    let difficulty ← getNextDifficulty C V prev.prevHash prev.height prevDifficulty prev.deficit
      false isFirstInSubSlot spTotalIters false
    let subSlotIters ← getNextSubSlotIters C V prev.prevHash prev.height prev.subSlotIters
      prev.deficit false isFirstInSubSlot spTotalIters false
    return (subSlotIters,difficulty)

/-- Summary to include at a height; the block two before it ends the sub-epoch. -/
def makeSubEpochSummary (O : Oracles) (blocksIncludedHeight : ℕ) (prevPrevBlock : BlockRecord)
    (newDifficulty newSubSlotIters : Option ℕ) : Check SubEpochSummary := do
  assertThat ((prevPrevBlock.height : ℤ)=blocksIncludedHeight-2)
  if (blocksIncludedHeight+C.maxSubSlotBlocks) / C.subEpochBlocks≤1 then
    return ⟨C.genesisChallenge,C.genesisChallenge,0,none,none⟩
  let curr ← V.walkBack (·.subEpochSummaryIncluded.isSome) prevPrevBlock
  let rewardHashes ← assertSome curr.finishedRewardSlotHashes
  let prevSes ← assertSome curr.subEpochSummaryIncluded
  let last ← index rewardHashes.getLast?
  return ⟨O.hashSubEpochSummary prevSes,last,← uint8 (← floorMod curr.height C.subEpochBlocks),
    newDifficulty,newSubSlotIters⟩

end RoseChain
