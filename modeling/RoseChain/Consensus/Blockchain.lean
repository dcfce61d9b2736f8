import RoseChain.Consensus.BlockBodyValidation
import RoseChain.Consensus.BlockHeaderValidation

namespace RoseChain
open Lib
variable (E : Env)

inductive ReceiveBlockResult
  | newPeak | addedAsOrphan | invalidBlock | alreadyHaveBlock | disconnectedBlock
  deriving DecidableEq

structure PreValidationResult where
  error : Option Err
  requiredIters : Option ℕ
  npcResult : Option NPCResult

def PreValidationResult.accepted (r : PreValidationResult) : Check (ℕ × Option NPCResult) := do
  assertThat r.error.isNone
  return (← assertSome r.requiredIters,r.npcResult)

/-- An error code becomes a value, an exception goes on. -/
def codeOf {α : Type} (m : NodeM α) : NodeM (Except Err α) := fun w =>
  match m w with
  | (.ok a,w') => (.ok (.ok a),w')
  | (.error (.invalid e),w') => (.ok (.error e),w')
  | (.error (.raised e),w') => (.error (.raised e),w')

/-- `except ValueError: return code`. -/
def onValueError {α : Type} (code : Err) (m : NodeM α) : NodeM α := fun w =>
  match m w with
  | (.error (.raised .value),w') => (.error (.invalid code),w')
  | r => r

/-- `except BaseException: handler; raise`. -/
def onException {α : Type} (handler : NodeM Unit) (m : NodeM α) : NodeM α := fun w =>
  match m w with
  | (.ok a,w') => (.ok a,w')
  | (.error e,w') => (.error e,(handler w').2)

/-- The filter of a transaction block covers its additions, rewards and removals. -/
def getBlockHeader (block : FullBlock) (txAdditionCoins : List Coin) (removalsNames : List Bytes32) :
    Check HeaderBlock := do
  let rewards ← block.getIncludedRewardCoins
  let items :=
    if block.isTransactionBlock then filterItems (txAdditionCoins++rewards) removalsNames else []
  return ⟨block.finishedSubSlots,block.rewardChainBlock,block.challengeChainSpProof,
    block.challengeChainIpProof,block.rewardChainSpProof,block.rewardChainIpProof,
    block.infusedChallengeChainIpProof,block.foliage,block.foliageTransactionBlock,
    E.bip158 items,block.transactionsInfo⟩

namespace Blockchain

def getPeak (c : Chain) : Check (Option BlockRecord) :=
  match c.peakHeight with
  | none => .ok none
  | some h => some <$> c.view.heightToBlockRecord h

def addBlockRecord (b : BlockRecord) (c : Chain) : Chain :=
  { c with
    blockRecords := c.blockRecords.set b.headerHash b
    heightsInCache := c.heightsInCache.set b.height
      (((c.heightsInCache.get? b.height).getD []).insert b.headerHash) }

def generatorArg (refBlock : FullBlock) : Check GeneratorArg := do
  match refBlock.transactionsGenerator with
  | none => .error (.raised .value)
  | some generator => return ⟨refBlock.height,generator⟩

def mainChainBlock (refHeight : ℕ) : NodeM FullBlock := do
  let w ← Eff.get
  let headerHash ← Eff.lift (w.chain.view.heightToHash refHeight)
  Eff.lift (assertSome (← BlockStore.getFullBlock headerHash))

/-- The ancestors that are among the additional blocks, and the hash before them. -/
def additionalAncestors (additionalBlocks : Dict Bytes32 FullBlock) :
    ℕ → Bytes32 → Option ℕ → Dict ℕ FullBlock → Check (Dict ℕ FullBlock × Bytes32)
  | 0,_,_,_ => .error (.raised .diverged)
  | n+1,prevHeaderHash,height,found =>
    match additionalBlocks.get? prevHeaderHash with
    | none => .ok (found,prevHeaderHash)
    | some prev => do
      -- the first block may be unfinished and then has no height
      assertThat (∀ h,height=some h → h=prev.height+1)
      additionalAncestors additionalBlocks n prev.prevHeaderHash (some prev.height)
        (found.set prev.height prev)

def reorgChain (fork : ℤ) : ℕ → FullBlock → Dict ℕ FullBlock → NodeM (Dict ℕ FullBlock)
  | 0,_,_ => raise .diverged
  | n+1,curr,found => do
    let found := found.set curr.height curr
    if (curr.height : ℤ) > fork ∧ curr.height > 0 then
      let prev ← Eff.lift (assertSome (← BlockStore.getFullBlock curr.prevHeaderHash))
      reorgChain fork n prev found
    else return found

def sideBranchBlocks (block : BlockBody) (height : Option ℕ)
    (additionalBlocks : Dict Bytes32 FullBlock) : NodeM (Dict ℕ FullBlock) := do
  let (found,prevHeaderHash) ← Eff.lift (additionalAncestors additionalBlocks
    (additionalBlocks.size+1) block.prevHeaderHash height Dict.empty)
  let w ← Eff.get
  match (← Eff.lift (getPeak w.chain)) with
  | none => return found
  | some peak =>
    if w.chain.view.containsBlock prevHeaderHash then
      let prevBlockRecord ← BlockStore.getBlockRecord prevHeaderHash
      let prevBlock ← BlockStore.getFullBlock prevHeaderHash
      let prevBlock ← Eff.lift (assertSome prevBlock)
      let prevBlockRecord ← Eff.lift (assertSome prevBlockRecord)
      let fork ← Eff.lift (findForkPointInChain w.chain.view peak prevBlockRecord)
      reorgChain fork (prevBlock.height+1) prevBlock found
    else return found

/-- The generator of a referenced block, from the side branch or the main chain. -/
def generatorArgAt (branch : Dict ℕ FullBlock) (refHeight : ℕ) : NodeM GeneratorArg := do
  match branch.get? refHeight with
  | some refBlock => Eff.lift (generatorArg refBlock)
  | none => Eff.lift (generatorArg (← mainChainBlock refHeight))

/-- Looks up the generators that a block refers to by height, among its own ancestors. -/
def getBlockGenerator (block : BlockBody) (height : Option ℕ)
    (additionalBlocks : Dict Bytes32 FullBlock) : NodeM (Option BlockGenerator) := do
  let refList := block.transactionsGeneratorRefList
  match block.transactionsGenerator with
  | none =>
    Eff.lift (assertThat (refList.length=0))
    return none
  | some generator =>
    if refList=[] then return some ⟨generator,[]⟩
    let w ← Eff.get
    let onMainChain ← Eff.lift do
      match w.chain.view.tryBlockRecord block.prevHeaderHash with
      | none => return false
      | some prev => return decide ((← w.chain.view.heightToHash prev.height)=block.prevHeaderHash)
    let branch ←
      if onMainChain then pure Dict.empty else sideBranchBlocks block height additionalBlocks
    return some ⟨generator,← refList.mapM (generatorArgAt branch)⟩

def blockGenerator (block : FullBlock) : NodeM (Option BlockGenerator) :=
  getBlockGenerator block.body (some block.height) Dict.empty

def getTxRemovalsAndAdditions (block : FullBlock) (npcResult : Option NPCResult) :
    NodeM (List Bytes32 × List Coin) := do
  if block.isTransactionBlock ∧ block.transactionsGenerator.isSome then
    let npcResult ← match npcResult with
      | some r => pure r
      | none => do
        let generator ← Eff.lift (assertSome (← blockGenerator block))
        pure (getNamePuzzleConditions E generator E.maxBlockCostClvm false)
    Eff.lift (txRemovalsAndAdditions npcResult.npcList)
  else return ([],[])

/-- Whether a hash is the one at the fork height of the main chain. -/
def atFork (V : BlockView) (forkHeight : ℤ) (curr : Bytes32) : Check Bool :=
  if forkHeight<0 then .ok false
  else do return decide (curr=(← V.heightToHash forkHeight.toNat))

/-- The blocks from a new tip down to above the fork, the newest first. -/
def blocksToAdd (forkHeight : ℤ) : ℕ → Bytes32 → NodeM (List (FullBlock × BlockRecord))
  | 0,_ => raise .diverged
  | n+1,curr => do
    let w ← Eff.get
    if (← Eff.lift (atFork w.chain.view forkHeight curr)) then return []
    let fullBlock ← BlockStore.getFullBlock curr
    let blockRecord ← BlockStore.getBlockRecord curr
    let fullBlock ← Eff.lift (assertSome fullBlock)
    let blockRecord ← Eff.lift (assertSome blockRecord)
    if fullBlock.height=0 then return [(fullBlock,blockRecord)]
    return (fullBlock,blockRecord)::(← blocksToAdd forkHeight n blockRecord.prevHash)

/-- Applies one block of the new branch to the coin store. -/
def applyBlock (tip : Bytes32) (npcResult : Option NPCResult) (b : FullBlock × BlockRecord) :
    NodeM Unit := do
  if b.2.isTransactionBlock then
    let (removals,additions) ← getTxRemovalsAndAdditions E b.1
      (if b.2.headerHash=tip then npcResult else none)
    CoinStore.newBlock E b.1 additions removals

/-- What a change of the peak gives: fork height, height of the new peak, and the records to add. -/
abbrev PeakChange := Option ℕ × Option ℕ × List BlockRecord

def genesisPeak (blockRecord : BlockRecord) (npcResult : Option NPCResult) : NodeM PeakChange := do
  let block ← Eff.lift (assertSome (← BlockStore.getFullBlock blockRecord.headerHash))
  let (removals,additions) ← Eff.lift (match npcResult with
    | some r => txRemovalsAndAdditions r.npcList
    | none => pure ([],[]))
  CoinStore.newBlock E block additions removals
  BlockStore.setPeak blockRecord.headerHash
  return (some 0,some 0,[blockRecord])

def reorgForkHeight (V : BlockView) (blockRecord peak : BlockRecord) (forkPointWithPeak : Option ℕ) :
    Check ℤ :=
  if blockRecord.prevHash=peak.headerHash then .ok peak.height
  else match forkPointWithPeak with
    | some f => .ok f
    | none => findForkPointInChain V blockRecord peak

/-- A reorg rolls the coin store back, a plain extension does not. -/
def rollbackForReorg (blockRecord peak : BlockRecord) (forkHeight : ℤ) : NodeM Unit :=
  if blockRecord.prevHash≠peak.headerHash then CoinStore.rollbackToBlock E forkHeight else pure ()

/-- The coin store leaves the old branch and follows the new one. -/
def heavierPeak (blockRecord peak : BlockRecord) (forkPointWithPeak : Option ℕ)
    (npcResult : Option NPCResult) : NodeM PeakChange := do
  let w ← Eff.get
  let forkHeight ← Eff.lift (reorgForkHeight w.chain.view blockRecord peak forkPointWithPeak)
  rollbackForReorg E blockRecord peak forkHeight
  modifyChain fun c => { c with
    subEpochSummaries := c.subEpochSummaries.filter fun h _ => decide ((h : ℤ)≤forkHeight) }
  let blocks ← blocksToAdd forkHeight (blockRecord.height+2) blockRecord.headerHash
  blocks.reverse.forM (applyBlock E blockRecord.headerHash npcResult)
  BlockStore.setPeak blockRecord.headerHash
  return (some (max forkHeight 0).toNat,some blockRecord.height,blocks.reverse.map Prod.snd)

/-- Whether a new block becomes the peak: the first genesis block does, or a heavier block. -/
def reconsiderPeak (blockRecord : BlockRecord) (genesis : Bool) (forkPointWithPeak : Option ℕ)
    (npcResult : Option NPCResult) : NodeM PeakChange := do
  let w ← Eff.get
  let peak ← Eff.lift (getPeak w.chain)
  if genesis then
    if peak.isNone then genesisPeak E blockRecord npcResult else return (none,none,[])
  else
    let peak ← Eff.lift (assertSome peak)
    if blockRecord.weight > peak.weight then heavierPeak E blockRecord peak forkPointWithPeak npcResult
    else return (none,none,[])

/-- A record enters the index of the main chain at its height. -/
def indexRecord (c : Chain) (r : BlockRecord) : Chain :=
  { c with
    heightToHash := c.heightToHash.set r.height r.headerHash
    subEpochSummaries := match r.subEpochSummaryIncluded with
      | some ses => c.subEpochSummaries.set r.height ses
      | none => c.subEpochSummaries }

def indexRecords (records : List BlockRecord) (c : Chain) : Chain := records.foldl indexRecord c

/-- The database transaction of a new block, and the memory update after it. -/
def storeBlock (block : FullBlock) (blockRecord : BlockRecord) (forkPointWithPeak : Option ℕ)
    (npcResult : Option NPCResult) : NodeM (Option ℕ) := do
  beginTransaction
  BlockStore.addFullBlock (block.headerHash E) block blockRecord
  let (forkHeight,peakHeight,records) ←
    reconsiderPeak E blockRecord (block.height=0) forkPointWithPeak npcResult
  commitTransaction
  modifyChain fun c =>
    let c := indexRecords records (addBlockRecord blockRecord c)
    { c with peakHeight := peakHeight.or c.peakHeight }
  return forkHeight

/-- An exception undoes the transaction and drops the block from the block cache. -/
def addBlock (block : FullBlock) (blockRecord : BlockRecord) (forkPointWithPeak : Option ℕ)
    (npcResult : Option NPCResult) : NodeM (Option ℕ) :=
  onException (do BlockStore.rollbackCacheBlock (block.headerHash E); rollbackTransaction)
    (storeBlock E block blockRecord forkPointWithPeak npcResult)

/-- Runs the generator of a received transaction block. -/
def runGenerator (block : FullBlock) : NodeM (Option NPCResult) := do
  if block.isTransactionBlock ∧ block.transactionsGenerator.isSome then
    let generator ← onValueError .generatorRefHasNoGenerator (blockGenerator block)
    let generator ← Eff.lift (assertSome generator)
    let info ← Eff.lift (assertSome block.transactionsInfo)
    return some (getNamePuzzleConditions E generator (declaredCostLimit E info) false)
  else return none

/-- Header validation within `receive_block`: required iterations and the result of the generator. -/
def validateHeader (block : FullBlock) : NodeM (ℕ × Option NPCResult) := do
  let w ← Eff.get
  let V := w.chain.view
  let prevB ← Eff.lift
    (if block.height=0 then pure none else some <$> V.blockRecord block.prevHeaderHash)
  let (subSlotIters,difficulty) ← Eff.lift (getNextSubSlotItersAndDifficulty
    E.constants V (!block.finishedSubSlots.isEmpty) prevB)
  let npcResult ← runGenerator E block
  let (removals,additions) ← Eff.lift (match npcResult with
    | some r => txRemovalsAndAdditions r.npcList
    | none => pure ([],[]))
  let header ← Eff.lift (getBlockHeader E block additions removals)
  let requiredIters ← Eff.lift
    (validateFinishedHeaderBlock E V header false difficulty subSlotIters true)
  return (requiredIters,npcResult)

/-- Everything before the transaction: the block's record and its generator's result. -/
def validateBlock (block : FullBlock) (preValidationResult : Option PreValidationResult)
    (forkPointWithPeak : Option ℕ) : NodeM (BlockRecord × Option NPCResult) := do
  let (requiredIters,npcResult) ← match preValidationResult with
    | none => validateHeader E block
    | some r => Eff.lift r.accepted
  let w ← Eff.get
  let peak ← Eff.lift (getPeak w.chain)
  let _ ← validateBlockBody E w.chain.view peak block.body block.height npcResult forkPointWithPeak
    (blockGenerator)
  let blockRecord ← Eff.lift (blockToBlockRecord E w.chain.view requiredIters block)
  return (blockRecord,npcResult)

/-- Whether the height does not follow that of the previous block. -/
def hasWrongHeight (V : BlockView) (block : FullBlock) : Check Bool :=
  if block.height=0 then .ok false
  else do return decide ((← V.blockRecord block.prevHeaderHash).height+1≠block.height)

/-- The rest of `receive_block`, for a new block that is connected. -/
def validateAndAdd (block : FullBlock) (preValidationResult : Option PreValidationResult)
    (forkPointWithPeak : Option ℕ) : NodeM (ReceiveBlockResult × Option Err × Option ℕ) := do
  match (← codeOf (validateBlock E block preValidationResult forkPointWithPeak)) with
  | .error code => return (.invalidBlock,some code,none)
  | .ok (blockRecord,npcResult) =>
    match (← addBlock E block blockRecord forkPointWithPeak npcResult) with
    | some forkHeight => return (.newPeak,none,some forkHeight)
    | none => return (.addedAsOrphan,none,none)

/-- Adds a block to the block chain, whether or not it becomes the peak. -/
def receiveBlock (block : FullBlock) (preValidationResult : Option PreValidationResult)
    (forkPointWithPeak : Option ℕ) : NodeM (ReceiveBlockResult × Option Err × Option ℕ) := do
  let w ← Eff.get
  let V := w.chain.view
  let genesis := block.height=0
  if V.containsBlock (block.headerHash E) then return (.alreadyHaveBlock,none,none)
  if ¬ V.containsBlock block.prevHeaderHash ∧ ¬ genesis then
    return (.disconnectedBlock,some .invalidPrevBlockHash,none)
  if (← Eff.lift (hasWrongHeight V block)) then return (.invalidBlock,some .invalidHeight,none)
  validateAndAdd E block preValidationResult forkPointWithPeak

def loadChainFromStore (t : Tables) : Check Chain := do
  let (heightToHash,subEpochSummaries) ← BlockStore.getPeakHeightDicts t
  let (blockRecords,peak) := BlockStore.getBlockRecordsCloseToPeak t E.blocksCacheSize
  let chain : Chain := ⟨Dict.empty,Dict.empty,heightToHash,subEpochSummaries,none⟩
  let chain := blockRecords.foldl (fun c b => addBlockRecord b.2 c) chain
  if blockRecords.length=0 then
    assertThat peak.isNone
    return chain
  let peak ← assertSome peak
  let record ← chain.view.blockRecord peak
  assertThat (heightToHash.size=record.height+1)
  return { chain with peakHeight := some record.height }

end Blockchain
end RoseChain
