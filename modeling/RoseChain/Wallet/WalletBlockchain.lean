import RoseChain.Consensus.Blockchain

namespace RoseChain
open Lib

structure CoinSpend where
  coin : Coin
  puzzleReveal : SerializedProgram
  solution : SerializedProgram
  deriving DecidableEq

/-- What the wallet keeps of a block. -/
structure HeaderBlockRecord where
  header : HeaderBlock
  additions : List Coin
  removals : List Coin
  deriving DecidableEq

/-- The tables of the wallet's block store; `peak` is the row marked as the peak. -/
structure WalletTables where
  headerBlocks : Dict Bytes32 HeaderBlockRecord
  blockRecords : Dict Bytes32 BlockRecord
  additionalCoinSpends : Dict Bytes32 (List CoinSpend)
  peak : Option Bytes32

/-- What the block chain tells the wallet. -/
inductive WalletEvent
  | newTransactionBlock (removals additions : List Coin) (block : BlockRecord)
      (additionalCoinSpends : List CoinSpend)
  | reorgRollback (height : ℤ)

/-- The block chain of the wallet; the cache of the rows of the store is left out. -/
structure WalletState where
  db : WalletTables
  chain : Chain
  events : List WalletEvent

abbrev WalletM := Eff WalletState Fail

namespace HeaderBlock

def headerHash (E : Env) (b : HeaderBlock) : Bytes32 := E.hashFoliage b.foliage
def prevHeaderHash (b : HeaderBlock) : Bytes32 := b.foliage.prevBlockHash
def height (b : HeaderBlock) : ℕ := b.rewardChainBlock.height
def isTransactionBlock (b : HeaderBlock) : Bool := b.foliageTransactionBlock.isSome

/-- The header as `block_to_block_record` reads it, which takes full blocks as well. -/
def block (b : HeaderBlock) : FullBlock where
  finishedSubSlots := b.finishedSubSlots
  rewardChainBlock := b.rewardChainBlock
  challengeChainSpProof := b.challengeChainSpProof
  challengeChainIpProof := b.challengeChainIpProof
  rewardChainSpProof := b.rewardChainSpProof
  rewardChainIpProof := b.rewardChainIpProof
  infusedChallengeChainIpProof := b.infusedChallengeChainIpProof
  foliage := b.foliage
  foliageTransactionBlock := b.foliageTransactionBlock
  transactionsInfo := b.transactionsInfo
  transactionsGenerator := none
  transactionsGeneratorRefList := []

end HeaderBlock

def onChain {α : Type} (f : Eff Chain Fail α) : WalletM α := fun s =>
  let (r,chain) := f s.chain
  (r,{ s with chain })

def emit (e : WalletEvent) : WalletM Unit := Eff.modify fun s => { s with events := s.events++[e] }

namespace WalletBlockStore

/-- Both rows are replaced, and the new one is not the peak. -/
def addBlockRecord (E : Env) (block : HeaderBlockRecord) (record : BlockRecord) (spends : List CoinSpend)
    (t : WalletTables) : WalletTables :=
  let hash := block.header.headerHash E
  { t with
    headerBlocks := t.headerBlocks.set hash block
    blockRecords := t.blockRecords.set hash record
    additionalCoinSpends :=
      if spends.length > 0 then t.additionalCoinSpends.set hash spends else t.additionalCoinSpends
    peak := t.peak.filter (· ≠ hash) }

end WalletBlockStore

namespace WalletBlockchain
open Blockchain
variable (E : Env)

def removeBlockRecord (headerHash : Bytes32) : Eff Chain Fail Unit := do
  let c ← Eff.get
  let sbr ← Eff.lift (lookup (c.blockRecords.get? headerHash))
  Eff.modify fun c => { c with blockRecords := c.blockRecords.erase headerHash }
  let hashes ← Eff.lift (lookup (c.heightsInCache.get? sbr.height))
  Eff.lift (assertThat (hashes.contains headerHash))
  Eff.modify fun c => { c with heightsInCache := c.heightsInCache.set sbr.height (hashes.erase headerHash) }

/-- `del` on the records in memory. -/
def delBlockRecord (headerHash : Bytes32) : Eff Chain Fail Unit := do
  let c ← Eff.get
  let _ ← Eff.lift (lookup (c.blockRecords.get? headerHash))
  Eff.modify fun c => { c with blockRecords := c.blockRecords.erase headerHash }

/-- From a height down, as long as there is something at a height. -/
def cleanFrom (height : ℕ) : Eff Chain Fail Unit := do
  let c ← Eff.get
  match c.heightsInCache.get? height with
  | none => return ()
  | some blocksToRemove =>
    blocksToRemove.forM delBlockRecord
    Eff.modify fun c => { c with heightsInCache := c.heightsInCache.erase height }
    match height with
    | 0 => return ()
    | h+1 => cleanFrom h

def cleanBlockRecord (height : ℤ) : Eff Chain Fail Unit := do
  if height<0 then return () else cleanFrom height.toNat

/-- From the new block back to the fork, the newest first; back to height zero where there is none. -/
def blocksToAdd (s : WalletState) (forkH : ℤ) (newHash : Bytes32) (spends : List CoinSpend) :
    ℕ → Bytes32 → Check (List (HeaderBlockRecord × BlockRecord × List CoinSpend))
  | 0,_ => .error (.raised .diverged)
  | n+1,curr => do
    if (← atFork s.chain.view forkH curr) then return []
    let spends' := if curr=newHash then spends else (s.db.additionalCoinSpends.get? curr).getD []
    let block ← assertSome (s.db.headerBlocks.get? curr)
    let record ← assertSome (s.db.blockRecords.get? curr)
    if block.header.height=0 then return [(block,record,spends')]
    else return (block,record,spends')::(← blocksToAdd s forkH newHash spends n record.prevHash)

def applyBlock (b : HeaderBlockRecord × BlockRecord × List CoinSpend) : WalletM Unit := do
  let record := b.2.1
  onChain (Eff.modify fun c => { c with heightToHash := c.heightToHash.set record.height record.headerHash })
  if record.isTransactionBlock then emit (.newTransactionBlock b.1.removals b.1.additions record b.2.2)

def genesisPeak (record : BlockRecord) : WalletM (Option ℕ × List BlockRecord) := do
  let s ← Eff.get
  let block ← Eff.lift (assertSome (s.db.headerBlocks.get? record.headerHash))
  onChain (Eff.modify fun c => { c with heightToHash := c.heightToHash.set 0 (block.header.headerHash E) })
  Eff.lift (assertThat (block.additions.length=0 ∧ block.removals.length=0))
  emit (.newTransactionBlock block.removals block.additions record [])
  onChain (Eff.modify fun c => { c with peakHeight := some 0 })
  return (some 0,[record])

/-- Where the chain of a heavier block leaves the main chain: as the caller says, or searched for. -/
def forkHeight (V : BlockView) (record peak : BlockRecord) : Option ℕ → Check ℤ
  | some f => .ok f
  | none => findForkPointInChain V record peak

def rollbackToFork (record peak : BlockRecord) (forkH : ℤ) : WalletM Unit :=
  if record.prevHash≠peak.headerHash then emit (.reorgRollback forkH) else return ()

/-- A heavier block: roll back unless it follows the peak, apply the blocks since the fork, move the peak. -/
def heavierPeak (record peak : BlockRecord) (forkH : ℤ) (spends : List CoinSpend) :
    WalletM (Option ℕ × List BlockRecord) := do
  rollbackToFork record peak forkH
  onChain (Eff.modify fun c =>
    { c with subEpochSummaries := c.subEpochSummaries.filter fun height _ => decide ((height : ℤ)≤forkH) })
  let s ← Eff.get
  let blocks ← Eff.lift (blocksToAdd s forkH record.headerHash spends (record.height+2) record.headerHash)
  blocks.reverse.forM applyBlock
  Eff.modify fun s => { s with db := { s.db with peak := some record.headerHash } }
  onChain (Eff.modify fun c => { c with peakHeight := some record.height })
  return (if forkH<0 then none else some forkH.toNat,blocks.reverse.map (·.2.1))

def reconsiderPeak (record : BlockRecord) (genesis : Bool) (forkPointWithPeak : Option ℕ)
    (spends : List CoinSpend) : WalletM (Option ℕ × List BlockRecord) := do
  let s ← Eff.get
  let peak ← Eff.lift (getPeak s.chain)
  if genesis then
    match peak with
    | none => genesisPeak E record
    | some _ => return (none,[])
  else do
    let peak ← Eff.lift (assertSome peak)
    if record.weight > peak.weight then do
      let forkH ← Eff.lift (forkHeight s.chain.view record peak forkPointWithPeak)
      heavierPeak record peak forkH spends
    else return (none,[])

/-- The database transaction of `receive_block`. -/
def storeBlock (block : HeaderBlockRecord) (record : BlockRecord) (forkPointWithPeak : Option ℕ)
    (spends : List CoinSpend) : WalletM (Option ℕ) := do
  Eff.modify fun s => { s with db := WalletBlockStore.addBlockRecord E block record spends s.db }
  onChain (Eff.modify (addBlockRecord record))
  onChain (cleanBlockRecord (record.height-E.blocksCacheSize))
  let (forkHeight,recordsToAdd) ←
    reconsiderPeak E record (decide (block.header.height=0)) forkPointWithPeak spends
  onChain (Eff.modify fun c => { c with
    subEpochSummaries := recordsToAdd.foldl (fun d r => match r.subEpochSummaryIncluded with
      | some ses => d.set r.height ses
      | none => d) c.subEpochSummaries })
  return forkHeight

/-- `except BaseException`: the database is rolled back, and the record and the heights are put back. -/
def rollingBack (hash : Bytes32) (m : WalletM (Option ℕ)) : WalletM (Option ℕ) := fun s =>
  match m s with
  | (.ok a,s') => (.ok a,s')
  | (.error e,s') =>
    (.error e,{ s' with
      db := s.db
      chain := { (removeBlockRecord hash s'.chain).2 with heightToHash := s.chain.heightToHash } })

/-- Header validation: here, by a trusted peer up to the VDFs, or beforehand. -/
def validateHeader (V : BlockView) (block : HeaderBlock) (pre : Option PreValidationResult) (trusted : Bool) :
    Check ℕ := do
  let prevB ← if block.height=0 then pure none else some <$> V.blockRecord block.prevHeaderHash
  let (subSlotIters,difficulty) ← getNextSubSlotItersAndDifficulty E.constants V
    (!block.finishedSubSlots.isEmpty) prevB
  if trusted then
    validateUnfinishedHeaderBlock E V block.unfinished false difficulty subSlotIters false true true
  else match pre with
    | none => validateFinishedHeaderBlock E V block false difficulty subSlotIters true
    | some r =>
      match r.error with
      | some e => .error (.invalid e)
      | none => assertSome r.requiredIters

abbrev WalletAnswer := ReceiveBlockResult × Option Err × Option ℕ

def receiveBlock (block : HeaderBlockRecord) (pre : Option PreValidationResult) (trusted : Bool)
    (forkPointWithPeak : Option ℕ) (spends : List CoinSpend) : WalletM WalletAnswer := do
  let s ← Eff.get
  let V := s.chain.view
  if V.containsBlock (block.header.headerHash E) then return (.alreadyHaveBlock,none,none)
  else if ¬ V.containsBlock block.header.prevHeaderHash ∧ block.header.height≠0 then
    return (.disconnectedBlock,some .invalidPrevBlockHash,none)
  else
    match validateHeader E V block.header pre trusted with
    | .error (.invalid e) => return (.invalidBlock,some e,none)
    | .error (.raised e) => Eff.fail (.raised e)
    | .ok requiredIters =>
      let record ← Eff.lift (blockToBlockRecord E V requiredIters block.header.block)
      match (← rollingBack record.headerHash (storeBlock E block record forkPointWithPeak spends)) with
      | some forkHeight => return (.newPeak,none,some forkHeight)
      | none => return (.addedAsOrphan,none,none)

def start : WalletState :=
  ⟨⟨Dict.empty,Dict.empty,Dict.empty,none⟩,⟨Dict.empty,Dict.empty,Dict.empty,Dict.empty,none⟩,[]⟩

end WalletBlockchain
end RoseChain
