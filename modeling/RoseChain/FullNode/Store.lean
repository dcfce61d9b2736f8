import RoseChain.Consensus.FullBlockToBlockRecord
import RoseChain.Lib.Effect
import RoseChain.Util.LruCache

namespace RoseChain
open Lib

/-- A row of `full_blocks`; the header hash is the key. -/
structure FullBlockRow where
  height : ℕ
  isBlock : Bool
  isFullyCompactified : Bool
  block : FullBlock

/-- A row of `block_records`; the header hash is the key. -/
structure BlockRecordRow where
  prevHash : Bytes32
  height : ℕ
  block : BlockRecord
  subEpochSummary : Option SubEpochSummary
  isPeak : Bool
  isBlock : Bool

def FullBlockRow.of (block : FullBlock) : FullBlockRow :=
  ⟨block.height,block.isTransactionBlock,block.isFullyCompactified,block⟩

def BlockRecordRow.of (block : FullBlock) (record : BlockRecord) : BlockRecordRow :=
  ⟨block.prevHeaderHash,block.height,record,record.subEpochSummaryIncluded,false,block.isTransactionBlock⟩

structure Tables where
  fullBlocks : Dict Bytes32 FullBlockRow
  blockRecords : Dict Bytes32 BlockRecordRow
  coinRecord : Dict Bytes32 CoinRecord

/-- The index of the block chain that is kept in memory. -/
structure Chain where
  blockRecords : Dict Bytes32 BlockRecord
  heightsInCache : Dict ℕ (List Bytes32)
  heightToHash : Dict ℕ Bytes32
  subEpochSummaries : Dict ℕ SubEpochSummary
  peakHeight : Option ℕ

def Chain.view (c : Chain) : BlockView := ⟨c.blockRecords,c.heightToHash⟩

/-- State of the node: the database, its caches, and the block chain in memory. -/
structure World where
  db : Tables
  /-- What a rollback restores, while a transaction is open. -/
  saved : Option Tables
  blockCache : LRUCache Bytes32 FullBlock
  coinRecordCache : LRUCache Bytes32 CoinRecord
  chain : Chain
  /-- After so many more awaits, this is raised. -/
  interrupt : Option (ℕ × PyErr)

abbrev NodeM := Eff World Fail

def raise {α : Type} (e : PyErr) : NodeM α := Eff.fail (.raised e)

/-- A point where the task may be cancelled or the database may fail. -/
def await : NodeM Unit := fun w =>
  match w.interrupt with
  | none => (.ok (),w)
  | some (0,e) => (.error (.raised e),{ w with interrupt := none })
  | some (n+1,e) => (.ok (),{ w with interrupt := some (n,e) })

/-- A statement that writes, or raises; outside of a transaction it opens one. -/
def executeCheck (f : Tables → Check Tables) : NodeM Unit := do
  await
  let w ← Eff.get
  let db ← Eff.lift (f w.db)
  Eff.modify fun w => { w with db := db,saved := w.saved.or (some w.db) }
  await

def execute (f : Tables → Tables) : NodeM Unit := executeCheck fun t => .ok (f t)

def fetch {α : Type} (q : Tables → α) : NodeM α := do
  await
  let w ← Eff.get
  await
  return q w.db

def beginTransaction : NodeM Unit := execute id

def rollbackTransaction : NodeM Unit :=
  Eff.modify fun w => { w with db := w.saved.getD w.db,saved := none }

/-- Once the database has committed nothing can fail any more. -/
def commitTransaction : NodeM Unit := do
  await
  Eff.modify fun w => { w with saved := none }

def modifyCoinCache (f : LRUCache Bytes32 CoinRecord → LRUCache Bytes32 CoinRecord) : NodeM Unit :=
  Eff.modify fun w => { w with coinRecordCache := f w.coinRecordCache }

def modifyBlockCache (f : LRUCache Bytes32 FullBlock → LRUCache Bytes32 FullBlock) : NodeM Unit :=
  Eff.modify fun w => { w with blockCache := f w.blockCache }

def modifyChain (f : Chain → Chain) : NodeM Unit := Eff.modify fun w => { w with chain := f w.chain }

variable (E : Env)

namespace BlockStore

def addFullBlock (headerHash : Bytes32) (block : FullBlock) (blockRecord : BlockRecord) :
    NodeM Unit := do
  modifyBlockCache (·.put headerHash block)
  execute fun t => { t with fullBlocks := t.fullBlocks.set headerHash (.of block) }
  execute fun t => { t with blockRecords := t.blockRecords.set headerHash (.of block blockRecord) }

def rollbackCacheBlock (headerHash : Bytes32) : NodeM Unit :=
  modifyBlockCache fun c =>
    match c.remove headerHash with
    | .ok c' => c'
    | .error _ => c

def getFullBlock (headerHash : Bytes32) : NodeM (Option FullBlock) := do
  let w ← Eff.get
  modifyBlockCache fun c => (c.get headerHash).2
  match (w.blockCache.get headerHash).1 with
  | some cached => return some cached
  | none =>
    match (← fetch (·.fullBlocks.get? headerHash)) with
    | none => return none
    | some row =>
      modifyBlockCache (·.put headerHash row.block)
      return some row.block

def getBlockRecord (headerHash : Bytes32) : NodeM (Option BlockRecord) := do
  return (← fetch (·.blockRecords.get? headerHash)).map (·.block)

def setPeak (headerHash : Bytes32) : NodeM Unit := do
  execute fun t =>
    { t with blockRecords := t.blockRecords.mapVals fun _ r => { r with isPeak := false } }
  execute fun t =>
    { t with blockRecords := t.blockRecords.mapVals fun h r =>
        if h=headerHash then { r with isPeak := true } else r }

def peakRow (t : Tables) : Option (Bytes32 × BlockRecordRow) := t.blockRecords.entries.find? (·.2.isPeak)

/-- From a row back to height zero, filling in hashes and sub-epoch summaries by height. -/
def heightDicts (t : Tables) : ℕ → Bytes32 → ℕ → Dict ℕ Bytes32 × Dict ℕ SubEpochSummary →
    Check (Dict ℕ Bytes32 × Dict ℕ SubEpochSummary)
  | 0,_,_,_ => .error (.raised .diverged)
  | n+1,headerHash,height,(hashes,summaries) => do
    let row := t.blockRecords.get? headerHash
    let hashes := hashes.set height headerHash
    let summaries := match row.bind (·.subEpochSummary) with
      | some ses => summaries.set height ses
      | none => summaries
    if height=0 then return (hashes,summaries)
    let prev := (← lookup row).prevHash
    heightDicts t n prev (← lookup (t.blockRecords.get? prev)).height (hashes,summaries)

def getPeakHeightDicts (t : Tables) : Check (Dict ℕ Bytes32 × Dict ℕ SubEpochSummary) :=
  match peakRow t with
  | none => .ok (Dict.empty,Dict.empty)
  | some (peak,row) => heightDicts t (row.height+1) peak row.height (Dict.empty,Dict.empty)

/-- The records not more than so many heights below the peak, and the peak's header hash. -/
def getBlockRecordsCloseToPeak (t : Tables) (blocksN : ℕ) :
    List (Bytes32 × BlockRecord) × Option Bytes32 :=
  match peakRow t with
  | none => ([],none)
  | some (peak,row) =>
    ((t.blockRecords.entries.filter fun e => decide ((e.2.height : ℤ) ≥ row.height-blocksN)).map
      fun e => (e.1,e.2.block),some peak)

end BlockStore

namespace CoinStore

def getCoinRecord (coinName : Bytes32) : NodeM (Option CoinRecord) := do
  let w ← Eff.get
  modifyCoinCache fun c => (c.get coinName).2
  match (w.coinRecordCache.get coinName).1 with
  | some cached => return some cached
  | none =>
    match (← fetch (·.coinRecord.get? coinName)) with
    | none => return none
    | some record =>
      modifyCoinCache (·.put (E.coinName record.coin) record)
      return some record

/-- `INSERT` raises on a name that is in the table, `INSERT OR REPLACE` does not. -/
def insertCoin (name : Bytes32) (record : CoinRecord) (allowReplace : Bool) (t : Tables) :
    Check Tables :=
  if (t.coinRecord.get? name).isSome ∧ ¬ allowReplace then .error (.raised .integrity)
  else .ok { t with coinRecord := t.coinRecord.set name record }

def addCoinRecord (record : CoinRecord) (allowReplace : Bool) : NodeM Unit := do
  let name := E.coinName record.coin
  modifyCoinCache (·.erase name)
  executeCheck (insertCoin name record allowReplace)

/-- A coin that a block makes enters the store unspent. -/
def addNewCoin (height timestamp : ℕ) (coinbase : Bool) (coin : Coin) : NodeM Unit :=
  addCoinRecord E ⟨coin,height,0,false,coinbase,timestamp⟩ false

def setSpent (coinName : Bytes32) (index : ℕ) : NodeM ℕ := do
  match (← getCoinRecord E coinName) with
  | none => raise .value
  | some current =>
    Eff.lift (assertThat (current.spent=false))
    addCoinRecord E { current with spentBlockIndex := index,spent := true } true
    return current.coin.amount

def setSpentAll (index : ℕ) : List Bytes32 → NodeM ℕ
  | [] => return 0
  | name::more => do
    let amount ← setSpent E name index
    return amount+(← setSpentAll index more)

def newBlock (block : FullBlock) (txAdditions : List Coin) (txRemovals : List Bytes32) :
    NodeM Unit := do
  match block.foliageTransactionBlock with
  | none => return ()
  | some ftb =>
    txAdditions.forM (addNewCoin E block.height ftb.timestamp false)
    let includedRewardCoins ← Eff.lift block.getIncludedRewardCoins
    Eff.lift (assertThat (if block.height=0 then includedRewardCoins.length=0
      else includedRewardCoins.length ≥ 2))
    includedRewardCoins.forM (addNewCoin E block.height ftb.timestamp true)
    let totalAmountSpent ← setSpentAll E block.height txRemovals
    Eff.lift (assertThat ((txAdditions.map (·.amount)).sum≤totalAmountSpent))

/-- The cache after a rollback: records spent later are unspent, records confirmed later are gone. -/
def rollbackCache (blockIndex : ℤ) (cache : LRUCache Bytes32 CoinRecord) :
    Check (LRUCache Bytes32 CoinRecord) := do
  let unspent := cache.cache.values.foldl (fun c r =>
    if (r.spentBlockIndex : ℤ) > blockIndex then
      c.put (E.coinName r.coin) { r with spentBlockIndex := 0,spent := false }
    else c) cache
  let deleteQueue := (cache.cache.entries.filter fun e =>
    decide ((e.2.confirmedBlockIndex : ℤ) > blockIndex)).map Prod.fst
  deleteQueue.foldlM (fun c name => c.remove name) unspent

/-- The record after everything above an index is undone. -/
def rolledBack (blockIndex : ℤ) (r : CoinRecord) : CoinRecord :=
  if (r.spentBlockIndex : ℤ) > blockIndex then { r with spentBlockIndex := 0,spent := false } else r

def rollbackToBlock (blockIndex : ℤ) : NodeM Unit := do
  let w ← Eff.get
  let cache ← Eff.lift (rollbackCache E blockIndex w.coinRecordCache)
  modifyCoinCache fun _ => cache
  execute fun t =>
    { t with coinRecord :=
        t.coinRecord.filter fun _ r => decide ((r.confirmedBlockIndex : ℤ)≤blockIndex) }
  execute fun t => { t with coinRecord := t.coinRecord.mapVals fun _ r => rolledBack blockIndex r }

end CoinStore
end RoseChain
