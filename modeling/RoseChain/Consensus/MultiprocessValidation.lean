import RoseChain.Consensus.Blockchain

namespace RoseChain
open Lib Blockchain

/-- The blocks that the workers get to know, and those that they need in every case. -/
structure RecentBlocks where
  all : Dict Bytes32 BlockRecord
  compressed : Dict Bytes32 BlockRecord

def RecentBlocks.add (recent : RecentBlocks) (r : BlockRecord) : RecentBlocks :=
  ⟨recent.all.set r.headerHash r,recent.compressed.set r.headerHash r⟩

/-- What the processes of the pool are given for a batch; its results come back. -/
structure PoolBatch where
  recent : Dict Bytes32 BlockRecord
  blocks : List FullBlock
  previousGenerators : List (Option BlockGenerator)
  diffSsis : List (ℕ × ℕ)

/-- Where the loop over the blocks stands. -/
structure PreValidation where
  prevB : Option BlockRecord
  recent : RecentBlocks
  diffSsis : List (ℕ × ℕ)

/-- What becomes of one block of the loop. -/
inductive BlockVerdict
  | badProof
  | otherSummary
  | valid (blockRecord : BlockRecord) (difficulty subSlotIters : ℕ)

namespace PreValidate
variable (E : Env)

/-- Back from the block before, until enough sub-slots, transaction blocks and a summary. -/
def scanBack (V : BlockView) (numSubSlotsToLookFor : ℕ) :
    ℕ → BlockRecord → ℕ → ℕ → RecentBlocks → Check RecentBlocks
  | 0,_,_,_,_ => .error (.raised .diverged)
  | n+1,curr,numSubSlotsFound,numBlocksSeen,recent =>
    let wanted := numBlocksSeen<E.numberOfTimestamps ∨ numSubSlotsFound<numSubSlotsToLookFor
    if (curr.subEpochSummaryIncluded.isNone ∨ wanted) ∧ curr.height > 0 then do
      let slots ←
        if curr.firstInSubSlot then do pure (← assertSome curr.finishedChallengeSlotHashes).length
        else pure 0
      let recent := ⟨recent.all.set curr.headerHash curr,
        if wanted then recent.compressed.set curr.headerHash curr else recent.compressed⟩
      let seen := if curr.isTransactionBlock then numBlocksSeen+1 else numBlocksSeen
      scanBack V numSubSlotsToLookFor n (← V.blockRecord curr.prevHash) (numSubSlotsFound+slots) seen recent
    else return recent.add curr

/-- Nothing when the block before the first one is not known. -/
def recentBlocks (V : BlockView) (blocks : List FullBlock) : Check (Option RecentBlocks) := do
  let first ← index blocks[0]?
  if first.height > 0 then
    if V.containsBlock first.prevHeaderHash then
      let curr ← V.blockRecord first.prevHeaderHash
      return some (← scanBack E V (if curr.overflow then 3 else 2) (curr.height+1) curr 0 0 ⟨.empty,.empty⟩)
    else return none
  else return some ⟨.empty,.empty⟩

/-- `l[i]`, where `-1` is the last element. -/
def pyIndex {α : Type} (l : List α) (i : ℤ) : Check α :=
  if 0 ≤ i then index l[i.toNat]? else if 0 ≤ i+l.length then index l[(i+l.length).toNat]?
  else .error (.raised .index)

/-- Whether a summary differs from that of the weight proof. -/
def otherSummary (wpSummaries : Option (List SubEpochSummary)) (block : FullBlock) (r : BlockRecord) :
    Check Bool :=
  match r.subEpochSummaryIncluded,wpSummaries with
  | some ses,some summaries => do
    let idx := (← floorDiv block.height E.subEpochBlocks)-1
    let nextSes ← pyIndex summaries idx
    return decide (E.hashSubEpochSummary ses≠E.hashSubEpochSummary nextSes)
  | _,_ => return false

/-- The previous block of the first block comes from the chain, of every other one from the loop. -/
def previous (V : BlockView) (s : PreValidation) (block : FullBlock) : Check (Option BlockRecord) :=
  if block.height≠0 then do
    assertThat (V.containsBlock block.prevHeaderHash=true)
    match s.prevB with
    | none => return some (← V.blockRecord block.prevHeaderHash)
    | some prev => return some prev
  else return s.prevB

def checkBlock (V : BlockView) (wpSummaries : Option (List SubEpochSummary)) (s : PreValidation)
    (block : FullBlock) : Check BlockVerdict := do
  let prevB ← previous V s block
  let (subSlotIters,difficulty) ← getNextSubSlotItersAndDifficulty E.constants V
    (!block.finishedSubSlots.isEmpty) prevB
  let overflow ← isOverflowBlock E.constants block.rewardChainBlock.signagePointIndex
  let challenge ← getBlockChallenge E ⟨s.recent.all,.empty⟩ block.finishedSubSlots block.prevHeaderHash
    prevB.isNone overflow false
  let ccSpHash := match block.rewardChainBlock.challengeChainSpVdf with
    | none => challenge
    | some vdf => vdf.output.getHash E
  match (← block.rewardChainBlock.proofOfSpace.verifyAndGetQualityString E challenge ccSpHash) with
  | none => return .badProof
  | some qStr =>
    let requiredIters ← calculateIterationsQuality E.toOracles E.difficultyConstantFactor qStr
      block.rewardChainBlock.proofOfSpace.size difficulty ccSpHash
    let blockRec ← blockToBlockRecord E V requiredIters block
    if (← otherSummary E wpSummaries block blockRec) then return .otherSummary
    else return .valid blockRec difficulty subSlotIters

/-- The record leaves the index, and the set of its height. -/
def removeBlockRecord (headerHash : Bytes32) : NodeM Unit := do
  let w ← Eff.get
  let sbr ← Eff.lift (w.chain.view.blockRecord headerHash)
  modifyChain fun c => { c with blockRecords := c.blockRecords.erase headerHash }
  let hashes ← Eff.lift (lookup (w.chain.heightsInCache.get? sbr.height))
  Eff.lift (if hashes.contains headerHash then .ok () else .error (.raised .key))
  modifyChain fun c => { c with heightsInCache := c.heightsInCache.set sbr.height (hashes.erase headerHash) }

/-- After a bad proof: what was not there before and is there now is removed. -/
def undo : List (FullBlock × Bool) → NodeM Unit
  | [] => return ()
  | (block,present)::more => do
    let w ← Eff.get
    if present=false ∧ w.chain.view.containsBlock (block.headerHash E)=true then
      removeBlockRecord (block.headerHash E)
    undo more

def removeTemporary : List (FullBlock × Bool) → NodeM Unit
  | [] => return ()
  | (block,present)::more => do
    if present=false then removeBlockRecord (block.headerHash E)
    removeTemporary more

def nextState (s : PreValidation) (blockRecord seen : BlockRecord) (difficulty subSlotIters : ℕ) :
    PreValidation := ⟨some blockRecord,s.recent.add seen,s.diffSsis++[(difficulty,subSlotIters)]⟩

/-- Each valid block enters the index for the time of the loop, unless it is there. -/
def loop (all : List (FullBlock × Bool)) (wpSummaries : Option (List SubEpochSummary)) :
    List FullBlock → PreValidation → NodeM (Option PreValidation)
  | [],s => return some s
  | block::more,s => do
    let w ← Eff.get
    match (← Eff.lift (checkBlock E w.chain.view wpSummaries s block)) with
    | .badProof =>
      undo E all
      return none
    | .otherSummary => return none
    | .valid blockRec difficulty subSlotIters =>
      match w.chain.view.tryBlockRecord blockRec.headerHash with
      | none =>
        modifyChain (addBlockRecord blockRec)
        loop all wpSummaries more (nextState s blockRec blockRec difficulty subSlotIters)
      | some seen => loop all wpSummaries more (nextState s blockRec seen difficulty subSlotIters)

/-- The blocks of the list before a block, by header hash. -/
def blocksBefore (blockDict : Dict Bytes32 FullBlock) : ℕ → FullBlock → Dict Bytes32 FullBlock →
    Check (Dict Bytes32 FullBlock)
  | 0,_,_ => .error (.raised .diverged)
  | n+1,curr,found =>
    match blockDict.get? curr.prevHeaderHash with
    | none => .ok found
    | some prev => blocksBefore blockDict n prev (found.set (prev.headerHash E) prev)

/-- `except ValueError: return None`. -/
def noneOnValueError {α : Type} (m : NodeM α) : NodeM (Option α) := fun w =>
  match m w with
  | (.ok a,w') => (.ok (some a),w')
  | (.error (.raised .value),w') => (.ok none,w')
  | (.error e,w') => (.error e,w')

/-- The generators of the blocks of a batch; a `ValueError` gives nothing. -/
def batchGenerators (blockDict : Dict Bytes32 FullBlock) : List FullBlock →
    NodeM (Option (List (Option BlockGenerator)))
  | [] => return some []
  | block::more => do
    let prevBlocksDict ← Eff.lift (blocksBefore E blockDict (blockDict.size+1) block .empty)
    match (← noneOnValueError (getBlockGenerator block.body (some block.height) prevBlocksDict)) with
    | none => return none
    | some g => return (← batchGenerators blockDict more).map (g :: ·)

def poolBatches (blockDict : Dict Bytes32 FullBlock) (s : PreValidation) :
    List (List (FullBlock × (ℕ × ℕ))) → NodeM (Option (List PoolBatch))
  | [] => return some []
  | batch::more => do
    let blocks := batch.map Prod.fst
    let recent := if blocks.any fun b => decide (b.finishedSubSlots.length > 0) then s.recent.all
      else s.recent.compressed
    match (← batchGenerators E blockDict blocks) with
    | none => return none
    | some generators =>
      return (← poolBatches blockDict s more).map (⟨recent,blocks,generators,batch.map Prod.snd⟩ :: ·)

/-- Pieces of `batch_size`, the last one may be shorter. -/
def inBatches {α : Type} (batchSize : ℕ) (l : List α) : Check (List (List α)) :=
  if batchSize=0 then .error (.raised .value)
  else .ok ((List.range ((l.length+batchSize-1) / batchSize)).map fun i =>
    (l.drop (i*batchSize)).take batchSize)

end PreValidate

variable (E : Env)
open PreValidate

/-- Checks the proofs of space in order, then has the processes of the pool validate the headers. -/
def preValidateBlocksMultiprocessing (blocks : List FullBlock) (batchSize : ℕ)
    (wpSummaries : Option (List SubEpochSummary)) (pool : List PoolBatch → Check (List PreValidationResult)) :
    NodeM (Option (List PreValidationResult)) := do
  let w ← Eff.get
  match (← Eff.lift (recentBlocks E w.chain.view blocks)) with
  | none => return some [⟨some .invalidPrevBlockHash,none,none⟩]
  | some recent =>
    let all := blocks.map fun b => (b,w.chain.view.containsBlock (b.headerHash E))
    match (← loop E all wpSummaries blocks ⟨none,recent,[]⟩) with
    | none => return none
    | some s =>
      removeTemporary E all
      let blockDict := blocks.foldl (fun d b => d.set (b.headerHash E) b) Dict.empty
      let batches ← Eff.lift (inBatches batchSize (blocks.zip s.diffSsis))
      match (← poolBatches E blockDict s batches) with
      | none => return none
      | some batches =>
        await
        return some (← Eff.lift (pool batches))

end RoseChain
