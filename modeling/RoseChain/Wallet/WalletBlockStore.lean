import RoseChain.Lib.Effect
import RoseChain.Util.LruCache
import RoseChain.Util.Streamable

namespace RoseChain.WalletDb
open Lib Streamable

-- the streamable classes of what is stored, by the types of their fields
namespace Classes

def bytes32 : FieldType := .sizedBytes 32
def g1Element : FieldType := .sizeHint .g1Element
def g2Element : FieldType := .sizeHint .g2Element

def classgroupElement : List FieldType := [.sizedBytes 100]

def vdfInfo : List FieldType := [bytes32,.int .uint64,.streamable classgroupElement]

def vdfProof : List FieldType := [.int .uint8,.bytes,.bool]

def proofOfSpace : List FieldType := [bytes32,.optional g1Element,.optional bytes32,g1Element,.int .uint8,.bytes]

def challengeChainSubSlot : List FieldType :=
  [.streamable vdfInfo,.optional bytes32,.optional bytes32,.optional (.int .uint64),.optional (.int .uint64)]

def infusedChallengeChainSubSlot : List FieldType := [.streamable vdfInfo]

def rewardChainSubSlot : List FieldType := [.streamable vdfInfo,bytes32,.optional bytes32,.int .uint8]

def subSlotProofs : List FieldType := [.streamable vdfProof,.optional (.streamable vdfProof),.streamable vdfProof]

def endOfSubSlotBundle : List FieldType :=
  [.streamable challengeChainSubSlot,.optional (.streamable infusedChallengeChainSubSlot),
    .streamable rewardChainSubSlot,.streamable subSlotProofs]

def rewardChainBlock : List FieldType :=
  [.int .uint128,.int .uint32,.int .uint128,.int .uint8,bytes32,.streamable proofOfSpace,
    .optional (.streamable vdfInfo),g2Element,.streamable vdfInfo,.optional (.streamable vdfInfo),g2Element,
    .streamable vdfInfo,.optional (.streamable vdfInfo),.bool]

def poolTarget : List FieldType := [bytes32,.int .uint32]

def foliageBlockData : List FieldType := [bytes32,.streamable poolTarget,.optional g2Element,bytes32,bytes32]

def foliage : List FieldType :=
  [bytes32,bytes32,.streamable foliageBlockData,g2Element,.optional bytes32,.optional g2Element]

def foliageTransactionBlock : List FieldType := [bytes32,.int .uint64,bytes32,bytes32,bytes32,bytes32]

def coin : List FieldType := [bytes32,bytes32,.int .uint64]

def transactionsInfo : List FieldType :=
  [bytes32,bytes32,g2Element,.int .uint64,.int .uint64,.list (.streamable coin)]

def headerBlock : List FieldType :=
  [.list (.streamable endOfSubSlotBundle),.streamable rewardChainBlock,.optional (.streamable vdfProof),
    .streamable vdfProof,.optional (.streamable vdfProof),.streamable vdfProof,.optional (.streamable vdfProof),
    .streamable foliage,.optional (.streamable foliageTransactionBlock),.bytes,.optional (.streamable transactionsInfo)]

/-- A header with the additions and the removals of its block. -/
def headerBlockRecord : List FieldType :=
  [.streamable headerBlock,.list (.streamable coin),.list (.streamable coin)]

def subEpochSummary : List FieldType :=
  [bytes32,bytes32,.int .uint8,.optional (.int .uint64),.optional (.int .uint64)]

def blockRecordFields : List FieldType :=
  [bytes32,bytes32,.int .uint32,.int .uint128,.int .uint128,.int .uint8,.streamable classgroupElement,
    .optional (.streamable classgroupElement),bytes32,bytes32,.int .uint64,bytes32,bytes32,.int .uint64,
    .int .uint8,.bool,.int .uint32,.optional (.int .uint64),.optional bytes32,.optional (.int .uint64),
    .optional (.list (.streamable coin)),.optional (.list bytes32),.optional (.list bytes32),
    .optional (.list bytes32)]

def blockRecord : List FieldType := blockRecordFields++[.optional (.streamable subEpochSummary)]

end Classes

abbrev Hash : Type := {b : Bytes // b.length=32}

def lastValue {X : External} {t : FieldType} : (ts : List FieldType) → FieldType.Values X (ts++[t]) → t.Value X
  | [],(x,_) => x
  | _::ts,(_,xs) => lastValue ts xs

namespace Classes
variable (X : External)

abbrev HeaderBlock : Type := FieldType.Values X headerBlock
abbrev HeaderBlockRecord : Type := FieldType.Values X headerBlockRecord
abbrev BlockRecord : Type := FieldType.Values X blockRecord
abbrev SubEpochSummary : Type := FieldType.Values X subEpochSummary
abbrev Foliage : Type := FieldType.Values X foliage

variable {X}

def HeaderBlock.foliage : Classes.HeaderBlock X → Classes.Foliage X
  | (_,_,_,_,_,_,_,foliage,_) => foliage

def HeaderBlock.prevHeaderHash (h : Classes.HeaderBlock X) : Hash :=
  match h.foliage with
  | (prevBlockHash,_) => prevBlockHash

def HeaderBlock.height : Classes.HeaderBlock X → ℕ
  | (_,(_,height,_),_) => height.val.toNat

def HeaderBlockRecord.header : Classes.HeaderBlockRecord X → Classes.HeaderBlock X
  | (header,_) => header

def BlockRecord.subEpochSummaryIncluded (r : Classes.BlockRecord X) : Option (Classes.SubEpochSummary X) :=
  lastValue blockRecordFields r

end Classes

/-- A row of `header_blocks`, its hash apart. -/
structure HeaderRow where
  height : ℕ
  block : Bytes

/-- A row of `block_records`, its hash apart. -/
structure RecordRow where
  prevHash : Hash
  height : ℕ
  block : Bytes
  subEpochSummary : Option Bytes
  isPeak : Bool

/-- A cached `None` is a key whose row has changed. -/
structure WalletBlockStore (X : External) where
  headerBlocks : Dict Hash HeaderRow
  blockRecords : Dict Hash RecordRow
  blockCache : LRUCache Hash (Option (Classes.HeaderBlockRecord X))

/-- `INSERT OR REPLACE`: a row that is replaced goes to the end. -/
def insertOrReplace {V : Type} (table : Dict Hash V) (key : Hash) (row : V) : Dict Hash V := (table.erase key).set key row

/-- `for row in rows: ret[key] = decode(row)`, where a row may give nothing. -/
def collect {V W : Type} (decode : V → Check (Option W)) (rows : List (Hash × V)) : Check (Dict Hash W) :=
  rows.foldlM (fun ret e => do
    match ← decode e.2 with
    | some w => return ret.set e.1 w
    | none => return ret) Dict.empty

namespace WalletBlockStore
variable {X : External} (getHash : Classes.Foliage X → Hash)

abbrev StoreM (X : External) := Eff (WalletBlockStore X) Fail

def create : WalletBlockStore X := ⟨.empty,.empty,LRUCache.new 1000⟩

def headerHash (r : Classes.HeaderBlockRecord X) : Hash := getHash r.header.foliage

/-- `block_cache.get`, where a key that is not there gives `None` too. -/
def cacheGet (key : Hash) : StoreM X (Option (Classes.HeaderBlockRecord X)) := do
  let s ← Eff.get
  Eff.modify fun s => { s with blockCache := (s.blockCache.get key).2 }
  return (s.blockCache.get key).1.join

def cachePut (key : Hash) (value : Option (Classes.HeaderBlockRecord X)) : StoreM X Unit :=
  Eff.modify fun s => { s with blockCache := s.blockCache.put key value }

def encodeSummary (r : Classes.BlockRecord X) : Check (Option Bytes) :=
  match r.subEpochSummaryIncluded with
  | none => .ok none
  | some ses => do return some (← toBytes X Classes.subEpochSummary ses)

def addBlockRecord (headerBlockRecord : Classes.HeaderBlockRecord X) (blockRecord : Classes.BlockRecord X) : StoreM X Unit := do
  let key := headerHash getHash headerBlockRecord
  let cached ← cacheGet key
  -- the cache takes values from reading only
  if cached.isSome then cachePut key none
  let block ← Eff.lift (toBytes X Classes.headerBlockRecord headerBlockRecord)
  Eff.modify fun s => { s with
    headerBlocks := insertOrReplace s.headerBlocks key ⟨headerBlockRecord.header.height,block⟩ }
  let record ← Eff.lift (toBytes X Classes.blockRecord blockRecord)
  let summary ← Eff.lift (encodeSummary blockRecord)
  Eff.modify fun s => { s with
    blockRecords := insertOrReplace s.blockRecords key
      ⟨headerBlockRecord.header.prevHeaderHash,headerBlockRecord.header.height,record,summary,false⟩ }

def getHeaderBlockRecord (key : Hash) : StoreM X (Option (Classes.HeaderBlockRecord X)) := do
  let cached ← cacheGet key
  match cached with
  | some hbr => return some hbr
  | none =>
    let s ← Eff.get
    match s.headerBlocks.get? key with
    | none => return none
    | some row =>
      let hbr ← Eff.lift (fromBytes X Classes.headerBlockRecord row.block)
      cachePut (headerHash getHash hbr) (some hbr)
      return some hbr

/-- `set_peak`: no other row is the peak any more. -/
def setPeak (key : Hash) (s : WalletBlockStore X) : WalletBlockStore X :=
  { s with blockRecords := s.blockRecords.mapVals fun k row => { row with isPeak := decide (k=key) } }

variable (s : WalletBlockStore X)

def getHeaderBlockAt (heights : List ℕ) : Check (List (Classes.HeaderBlock X)) :=
  if heights.length=0 then return []
  else (s.headerBlocks.entries.filter fun e => decide (e.2.height∈heights)).mapM fun e =>
    fromBytes X Classes.headerBlock e.2.block

def getBlockRecord (key : Hash) : Check (Option (Classes.BlockRecord X)) :=
  match s.blockRecords.get? key with
  | none => return none
  | some row => do return some (← fromBytes X Classes.blockRecord row.block)

def getHeaderBlocksInRange (start stop : ℤ) : Check (Dict Hash (Classes.HeaderBlock X)) :=
  collect (fun row => do return some (← fromBytes X Classes.headerBlock row.block))
    (s.headerBlocks.entries.filter fun e => decide (start≤e.2.height ∧ (e.2.height : ℤ) ≤ stop))

def getBlockRecordsInRange (start stop : ℤ) : Check (Dict Hash (Classes.BlockRecord X)) :=
  collect (fun row => do return some (← fromBytes X Classes.blockRecord row.block))
    (s.blockRecords.entries.filter fun e => decide (start≤e.2.height ∧ (e.2.height : ℤ) ≤ stop))

def decodeSummary (row : RecordRow) : Check (Option (Classes.SubEpochSummary X)) :=
  match row.subEpochSummary with
  | none => .ok none
  | some b => do return some (← fromBytes X Classes.subEpochSummary b)

/-- The loop of `get_peak_heights_dicts`; one that ends goes through no row twice. -/
def walkHeights (rows : Dict Hash RecordRow) (hashToSummary : Dict Hash (Classes.SubEpochSummary X)) :
    ℕ → Hash → Dict ℕ Hash → Dict ℕ (Classes.SubEpochSummary X) → Check (Dict ℕ Hash × Dict ℕ (Classes.SubEpochSummary X))
  | 0,_,_,_ => .error (.raised .diverged)
  | n+1,curr,heightToHash,subEpochSummaries => do
    let row ← lookup (rows.get? curr)
    let heightToHash := heightToHash.set row.height curr
    let subEpochSummaries :=
      match hashToSummary.get? curr with
      | some ses => subEpochSummaries.set row.height ses
      | none => subEpochSummaries
    if row.height=0 then return (heightToHash,subEpochSummaries)
    else walkHeights rows hashToSummary n row.prevHash heightToHash subEpochSummaries

def getPeakHeightsDicts : Check (Dict ℕ Hash × Dict ℕ (Classes.SubEpochSummary X)) :=
  match s.blockRecords.entries.find? fun e => e.2.isPeak with
  | none => return (.empty,.empty)
  | some (peak,row) => do
    let hashToSummary ← collect decodeSummary s.blockRecords.entries
    walkHeights s.blockRecords hashToSummary (row.height+s.blockRecords.size+1) peak .empty .empty

end WalletBlockStore
end RoseChain.WalletDb
