import RoseChain.Consensus.BlockCache
import RoseChain.FullNode.ChallengeSegments
import RoseChain.FullNode.RecentChain
import RoseChain.FullNode.ReplaceProof
import RoseChain.FullNode.SyncForkPoint
import RoseChain.Lib.Answers

namespace RoseChain
open Lib

structure WeightProof where
  subEpochs : List SubEpochData
  subEpochSegments : List SubEpochChallengeSegment
  recentChainData : List HeaderBlock
  deriving DecidableEq

/-- A node that serves weight proofs: its blocks, the last proof, and the segments so far, by the hash of the
block that ends their sub-epoch. -/
structure ProofNode where
  world : World
  tip : Option Bytes32
  proof : Option WeightProof
  subEpochSegments : Dict Bytes32 (List SubEpochChallengeSegment)
  sesChallengeCache : LRUCache Bytes32 (List SubEpochChallengeSegment)

abbrev ProofM := Eff ProofNode Fail

def ProofNode.empty (blockCacheSize coinCacheSize : ℕ) : ProofNode :=
  ⟨World.empty blockCacheSize coinCacheSize,none,none,Dict.empty,.new 50⟩

def inWorld {α : Type} (m : NodeM α) : ProofM α := Eff.within ProofNode.world (fun w n => { n with world := w }) m

def foundOrValueError {α : Type} : Option α → Check α
  | some a => .ok a
  | none => .error (.raised .value)

namespace BlockStore

def getBlocksByHash (headerHashes : List Bytes32) : NodeM (List FullBlock) := do
  if headerHashes=[] then return []
  let rows ← fetch fun t => t.fullBlocks.entries.filter fun e => decide (e.1∈headerHashes)
  let allBlocks ← rows.foldlM (fun (d : Dict Bytes32 FullBlock) e => do
    modifyBlockCache (·.put e.1 e.2.block)
    return d.set e.1 e.2.block) Dict.empty
  Eff.lift (headerHashes.mapM fun hh => foundOrValueError (allBlocks.get? hh))

def getBlockRecordsByHash (headerHashes : List Bytes32) : NodeM (List BlockRecord) := do
  if headerHashes=[] then return []
  let rows ← fetch fun t => t.blockRecords.entries.filter fun e => decide (e.1∈headerHashes)
  let allBlocks := rows.foldl (fun (d : Dict Bytes32 BlockRecord) e => d.set e.2.block.headerHash e.2.block) Dict.empty
  Eff.lift (headerHashes.mapM fun hh => foundOrValueError (allBlocks.get? hh))

end BlockStore

namespace Blockchain
variable (E : Env)

def heightToHash (height : ℕ) : NodeM Bytes32 := do
  let w ← Eff.get
  Eff.lift (w.chain.view.heightToHash height)

def getBlockRecordsInRange (start stop : ℤ) : NodeM (Dict Bytes32 BlockRecord) := do
  let rows ← fetch fun t => BlockStore.getBlockRecordsInRange t start stop
  return rows.foldl (fun d e => d.set e.1 e.2) Dict.empty

/-- `range(start, stop + 1)`. -/
def heightsBetween (start stop : ℤ) : List ℤ := (List.range (stop+1-start).toNat).map fun (i : ℕ) => start+i

def hashAt (V : BlockView) (height : ℤ) : Check (Option Bytes32) := do
  return V.heights.get? (← uint32 height)

def cachedBlock (headerHash : Bytes32) : NodeM (Option FullBlock) := do
  let w ← Eff.get
  modifyBlockCache fun c => (c.get headerHash).2
  return (w.blockCache.get headerHash).1

/-- A block that is not the one at its height is in a fork. -/
def addHeader (d : Dict Bytes32 HeaderBlock) (block : FullBlock) : NodeM (Dict Bytes32 HeaderBlock) := do
  let hash ← heightToHash block.height
  if hash≠block.headerHash E then raise .value
  else
    let header ← Eff.lift (getBlockHeader E block [] [])
    return d.set (header.headerHash E) header

/-- `get_header_blocks_in_range` with `tx_filter=False`. -/
def getHeaderBlocksInRange (start stop : ℤ) : NodeM (Dict Bytes32 HeaderBlock) := do
  let w ← Eff.get
  let hashes ← Eff.lift ((heightsBetween start stop).mapM (hashAt w.chain.view))
  let found ← (hashes.filterMap id).mapM fun hash => do return (hash,← cachedBlock hash)
  let blocksOnDisk ← BlockStore.getBlocksByHash ((found.filter (·.2.isNone)).map (·.1))
  (found.filterMap (·.2)++blocksOnDisk).foldlM (addHeader E) Dict.empty

def recordsAtFrom : List ℕ → (hashes : List Bytes32) → NodeM (List BlockRecord)
  | [],hashes => BlockStore.getBlockRecordsByHash hashes
  | height::more,hashes => do
    let hashes := hashes++[← heightToHash height]
    if hashes.length > 900 then
      let res ← BlockStore.getBlockRecordsByHash hashes
      return res++(← recordsAtFrom more [])
    else recordsAtFrom more hashes

def getBlockRecordsAt (heights : List ℕ) : NodeM (List BlockRecord) := recordsAtFrom heights []

end Blockchain

namespace WeightProof
open Blockchain
variable (E : Env)

/-- The records below a block, read again where the last ones are used up. -/
def renewed (renew : Bool) (currRec : BlockRecord) (blocks : Dict Bytes32 BlockRecord) : NodeM (Dict Bytes32 BlockRecord) :=
  if renew then getBlockRecordsInRange (currRec.height-50) currRec.height else return blocks

def prevTwoSlots : ℕ → (slot : ℕ) → (currRec : BlockRecord) → (blocks : Dict Bytes32 BlockRecord) → (stop : ℕ) → NodeM ℕ
  | 0,_,_,_,_ => raise .diverged
  | n+1,slot,currRec,blocks,stop => do
    if slot<2 ∧ currRec.height > 0 then
      let slot := if currRec.firstInSubSlot then slot+1 else slot
      let renew : Bool := decide ((stop : ℤ)-currRec.height=50-1)
      let blocks ← renewed renew currRec blocks
      let stop := if renew then currRec.height else stop
      let currRec ← Eff.lift (lookup (blocks.get? (← heightToHash (currRec.height-1))))
      prevTwoSlots n slot currRec blocks stop
    else return currRec.height

def getPrevTwoSlotsHeight (seStart : BlockRecord) : NodeM ℕ := do
  let blocks ← getBlockRecordsInRange (seStart.height-50) seStart.height
  prevTwoSlots (seStart.height+1) 0 seStart blocks seStart.height

def segmentView (sesBlock seStart : BlockRecord) : NodeM SegmentView := do
  let startHeight ← getPrevTwoSlotsHeight seStart
  let blocks ← getBlockRecordsInRange startHeight (sesBlock.height+E.maxSubSlotBlocks)
  let headerBlocks ← getHeaderBlocksInRange E startHeight (sesBlock.height+E.maxSubSlotBlocks)
  let w ← Eff.get
  return ⟨w.chain.view.heightToHash,headerBlocks,blocks⟩

/-- `__create_sub_epoch_segments`; a block that is missing raises, so that no answer is `None`. -/
def createSubEpochSegments (sesBlock seStart : BlockRecord) (subEpochN : ℕ) : NodeM (List SubEpochChallengeSegment) := do
  let V ← segmentView E sesBlock seStart
  Eff.lift do
    let curr ← V.headerBlock seStart.headerHash
    segmentsFrom E V sesBlock.height subEpochN (sesBlock.height+1) curr seStart.height true

def getSubEpochChallengeSegments (sesBlockHash : Bytes32) : ProofM (Option (List SubEpochChallengeSegment)) := do
  let n ← Eff.get
  Eff.modify fun n => { n with sesChallengeCache := (n.sesChallengeCache.get sesBlockHash).2 }
  match (n.sesChallengeCache.get sesBlockHash).1 with
  | some cached => return some cached
  | none =>
    match n.subEpochSegments.get? sesBlockHash with
    | none => return none
    | some challengeSegments =>
      Eff.modify fun n => { n with sesChallengeCache := n.sesChallengeCache.put sesBlockHash challengeSegments }
      return some challengeSegments

def persistSubEpochChallengeSegments (sesBlockHash : Bytes32) (segments : List SubEpochChallengeSegment) : ProofM Unit :=
  Eff.modify fun n => { n with subEpochSegments := n.subEpochSegments.set sesBlockHash segments }

def segmentsOfSubEpoch (sesBlock prevSesBlock : BlockRecord) (subEpochN : ℕ) : ProofM (List SubEpochChallengeSegment) := do
  match (← getSubEpochChallengeSegments sesBlock.headerHash) with
  | some segments => return segments
  | none =>
    let segments ← inWorld (createSubEpochSegments E sesBlock prevSesBlock subEpochN)
    persistSubEpochChallengeSegments sesBlock.headerHash segments
    return segments

/-- The header and the record at a height, out of dictionaries. -/
def blockOfRange (V : BlockView) (headers : Dict Bytes32 HeaderBlock) (blocks : Dict Bytes32 BlockRecord) (height : ℕ) :
    Check (HeaderBlock × BlockRecord) := do
  let headerBlock ← lookup (headers.get? (← V.heightToHash height))
  return (headerBlock,← lookup (blocks.get? (headerBlock.headerHash E)))

/-- `_get_recent_chain`. -/
def recentChain (tipHeight : ℕ) : NodeM (List HeaderBlock) := do
  let w ← Eff.get
  let minHeight : ℤ := match lastButOneSes (getSesHeights w.chain) tipHeight with
    | some sesHeight => sesHeight-1
    | none => 0
  let headers ← getHeaderBlocksInRange E minHeight tipHeight
  let blocks ← getBlockRecordsInRange minHeight tipHeight
  Eff.lift (collectRecent (blockOfRange E w.chain.view headers blocks) tipHeight 0 [])

def subEpochDataUpTo (c : Chain) (tipHeight : ℕ) : (summaryHeights : List ℕ) → Check (List SubEpochData)
  | [] => .ok []
  | sesHeight::more => do
    if sesHeight > tipHeight then return []
    else return createSubEpochData (← getSes c sesHeight)::(← subEpochDataUpTo c tipHeight more)

def getSeedForProof (c : Chain) (summaryHeights : List ℕ) (tipHeight : ℕ) : Check Bytes32 := do
  let sesHeight ← assertSome (lastButOneSes summaryHeights tipHeight)
  return E.hashSubEpochSummary (← getSes c sesHeight)

/-- The loop of `_create_proof_of_weight` over the summaries, with the blocks that include them. -/
def segmentsUpTo (tipHeight : ℕ) (weightToCheck : Option (List ℕ)) :
    (subEpochN sampleN : ℕ) → (prevSesBlock : BlockRecord) → List (ℕ × BlockRecord) →
      ProofM (Option (List SubEpochChallengeSegment))
  | _,_,_,[] => return some []
  | subEpochN,sampleN,prevSesBlock,(sesHeight,sesBlock)::more => do
    if sesHeight > tipHeight ∨ sampleN ≥ MAX_SAMPLES then return some []
    else if sesBlock.subEpochSummaryIncluded.isNone then return none
    else if (← Eff.lift (sampleSubEpoch prevSesBlock.weight sesBlock.weight weightToCheck)) then
      let segments ← segmentsOfSubEpoch E sesBlock prevSesBlock subEpochN
      return (← segmentsUpTo tipHeight weightToCheck (subEpochN+1) (sampleN+1) sesBlock more).map (segments ++ ·)
    else segmentsUpTo tipHeight weightToCheck (subEpochN+1) sampleN sesBlock more

/-- What `_get_weights_for_sampling` draws, from the seed, the weight of the tip and the recent chain. -/
abbrev WeightsForSampling := Bytes32 → ℕ → List HeaderBlock → Check (Option (List ℕ))

variable (weightProofRecentBlocks : ℕ) (getWeightsForSampling : WeightsForSampling)

def createProofOfWeight (tip : Bytes32) : ProofM (Option WeightProof) := do
  let n ← Eff.get
  match n.world.chain.view.tryBlockRecord tip with
  | none => return none
  | some tipRec =>
    let recent ← inWorld (recentChain E tipRec.height)
    let summaryHeights := getSesHeights n.world.chain
    match (← inWorld (do getBlockRecordFromDb (← heightToHash 0))) with
    | none => return none
    | some prevSesBlock =>
      let subEpochData ← Eff.lift (subEpochDataUpTo n.world.chain tipRec.height summaryHeights)
      let seed ← Eff.lift (getSeedForProof E n.world.chain summaryHeights tipRec.height)
      let weightToCheck ← Eff.lift (getWeightsForSampling seed tipRec.weight recent)
      let sesBlocks ← inWorld (getBlockRecordsAt summaryHeights)
      match (← segmentsUpTo E tipRec.height weightToCheck 0 0 prevSesBlock (summaryHeights.zip sesBlocks)) with
      | none => return none
      | some segments => return some ⟨subEpochData,segments,recent⟩

def keptProof (tip : Bytes32) : Option WeightProof → Check (Option WeightProof)
  | none => .ok none
  | some wp => do
    let last ← index wp.recentChainData.getLast?
    return if last.headerHash E=tip then some wp else none

def getProofOfWeight (tip : Bytes32) : ProofM (Option WeightProof) := do
  let n ← Eff.get
  match n.world.chain.view.tryBlockRecord tip with
  | none => return none
  | some tipRec =>
    if tipRec.height<weightProofRecentBlocks then return none
    else match (← Eff.lift (keptProof E tip n.proof)) with
      | some wp => return some wp
      | none =>
        match (← createProofOfWeight E getWeightsForSampling tip) with
        | none => return none
        | some wp =>
          Eff.modify fun n => { n with proof := some wp,tip := some tip }
          return some wp

end WeightProof
end RoseChain
