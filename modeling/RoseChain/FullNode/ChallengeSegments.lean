import RoseChain.Wallet.WalletBlockchain

namespace RoseChain
open Lib

/-- The VDFs of a block or of a sub-slot's end; what a kind of entry lacks is left out. -/
structure SubSlotData where
  proofOfSpace : Option ProofOfSpace := none
  ccSignagePoint : Option VDFProof := none
  ccInfusionPoint : Option VDFProof := none
  iccInfusionPoint : Option VDFProof := none
  ccSpVdfInfo : Option VDFInfo := none
  signagePointIndex : Option ℕ := none
  ccSlotEnd : Option VDFProof := none
  iccSlotEnd : Option VDFProof := none
  ccSlotEndInfo : Option VDFInfo := none
  iccSlotEndInfo : Option VDFInfo := none
  ccIpVdfInfo : Option VDFInfo := none
  iccIpVdfInfo : Option VDFInfo := none
  totalIters : Option ℕ := none
  deriving DecidableEq

/-- The VDFs around one challenge block of a sub-epoch. -/
structure SubEpochChallengeSegment where
  subEpochN : ℕ
  subSlots : List SubSlotData
  rcSlotEndInfo : Option VDFInfo
  deriving DecidableEq

namespace HeaderBlock

def totalIters (b : HeaderBlock) : ℕ := b.rewardChainBlock.totalIters
def firstInSubSlot (b : HeaderBlock) : Bool := decide (b.finishedSubSlots.length > 0)

end HeaderBlock

/-- What segments are made from: the hashes by height, and headers and records by hash. -/
structure SegmentView where
  heightToHash : ℕ → Check Bytes32
  headerBlocks : Dict Bytes32 HeaderBlock
  blocks : Dict Bytes32 BlockRecord

namespace SegmentView
variable (V : SegmentView)

/-- `BlockCache(blocks)`. -/
def blockCache : BlockView := ⟨V.blocks,Dict.empty⟩

def block (headerHash : Bytes32) : Check BlockRecord := V.blockCache.blockRecord headerHash

def headerBlock (headerHash : Bytes32) : Check HeaderBlock := lookup (V.headerBlocks.get? headerHash)

def headerAt (height : ℕ) : Check HeaderBlock := do V.headerBlock (← V.heightToHash height)

end SegmentView

namespace WeightProof

def handleFinishedSlots (endOfSlot : EndOfSubSlotBundle) (iccEndOfSlotInfo : Option VDFInfo) : SubSlotData where
  ccSlotEnd := some endOfSlot.proofs.challengeChainSlotProof
  iccSlotEnd := endOfSlot.proofs.infusedChallengeChainSlotProof
  ccSlotEndInfo := some endOfSlot.challengeChain.challengeChainEndOfSlotVdf
  iccSlotEndInfo := iccEndOfSlotInfo

def finishedSlotsData (finishedSubSlots : List EndOfSubSlotBundle) : List SubSlotData :=
  finishedSubSlots.map fun subSlot =>
    handleFinishedSlots subSlot (subSlot.infusedChallengeChain.map (·.infusedChallengeChainEndOfSlotVdf))

/-- A VDF that is not normalized counts from the block before. -/
def vdfInfoFrom (proof : VDFProof) (vdf : VDFInfo) (iters : ℕ) : VDFInfo :=
  if proof.normalizedToIdentity then vdf else { vdf with numberOfIterations := iters }

def handleEndOfSlot (subSlot : EndOfSubSlotBundle) (eosVdfIters : ℕ) : Check SubSlotData := do
  let icc ← assertSome subSlot.infusedChallengeChain
  let iccProof ← assertSome subSlot.proofs.infusedChallengeChainSlotProof
  let ccProof := subSlot.proofs.challengeChainSlotProof
  return {
    ccSlotEnd := some ccProof
    iccSlotEnd := some iccProof
    ccSlotEndInfo := some (vdfInfoFrom ccProof subSlot.challengeChain.challengeChainEndOfSlotVdf eosVdfIters)
    iccSlotEndInfo := some (vdfInfoFrom iccProof icc.infusedChallengeChainEndOfSlotVdf eosVdfIters) }

def blueBoxedEndOfSlot (subSlot : EndOfSubSlotBundle) : Bool :=
  subSlot.proofs.challengeChainSlotProof.normalizedToIdentity &&
    subSlot.proofs.infusedChallengeChainSlotProof.all (·.normalizedToIdentity)

variable (E : Env) (V : SegmentView)

/-- `cc_vdf_iters` of the signage point of a block. -/
def ccVdfIters (headerBlock : HeaderBlock) (blockRec : BlockRecord) : Check ℕ := do
  let prev ← if headerBlock.height=0 then pure none else do pure (some (← V.block headerBlock.prevHeaderHash))
  let spTotalIters ← blockRec.spTotalIters E.constants
  let spIters ← blockRec.spIters E.constants
  return (← getSignagePointVdfInfo E V.blockCache headerBlock.finishedSubSlots blockRec.overflow prev spTotalIters
    spIters).spVdfIters

def challengeBlockVdfs (headerBlock : HeaderBlock) (blockRec : BlockRecord) : Check SubSlotData := do
  let iters ← ccVdfIters E V headerBlock blockRec
  let ccSpInfo ← match headerBlock.rewardChainBlock.challengeChainSpVdf with
    | none => pure none
    | some vdf => do
      let proof ← assertSome headerBlock.challengeChainSpProof
      pure (some (vdfInfoFrom proof vdf iters))
  return {
    proofOfSpace := some headerBlock.rewardChainBlock.proofOfSpace
    ccSignagePoint := headerBlock.challengeChainSpProof
    ccInfusionPoint := some headerBlock.challengeChainIpProof
    ccSpVdfInfo := ccSpInfo
    signagePointIndex := some headerBlock.rewardChainBlock.signagePointIndex
    ccIpVdfInfo := some headerBlock.rewardChainBlock.challengeChainIpVdf
    iccIpVdfInfo := headerBlock.rewardChainBlock.infusedChallengeChainIpVdf
    totalIters := some blockRec.totalIters }

def handleBlockVdfs (curr : HeaderBlock) : Check SubSlotData := do
  let blockRecord ← V.block (curr.headerHash E)
  let iccIpInfo ← match curr.infusedChallengeChainIpProof with
    | none => pure none
    | some _ => do pure (some (← assertSome curr.rewardChainBlock.infusedChallengeChainIpVdf))
  let ccSpInfo ← match curr.challengeChainSpProof with
    | none => pure none
    | some proof => do
      let vdf ← assertSome curr.rewardChainBlock.challengeChainSpVdf
      if proof.normalizedToIdentity then pure (some vdf)
      else do pure (some (vdfInfoFrom proof vdf (← ccVdfIters E V curr blockRecord)))
  return {
    ccSignagePoint := curr.challengeChainSpProof
    ccInfusionPoint := some curr.challengeChainIpProof
    iccInfusionPoint := curr.infusedChallengeChainIpProof
    ccSpVdfInfo := ccSpInfo
    signagePointIndex := some curr.rewardChainBlock.signagePointIndex
    ccIpVdfInfo := some curr.rewardChainBlock.challengeChainIpVdf
    iccIpVdfInfo := iccIpInfo
    totalIters := some curr.totalIters }

def firstRcEndOfSlotVdf (headerBlock : HeaderBlock) : Check VDFInfo := do
  let curr ← V.blockCache.walkBack (fun b => decide (b.height=0) || b.subEpochSummaryIncluded.isSome)
    (← V.block (headerBlock.headerHash E))
  let header ← V.headerBlock curr.headerHash
  return (← index header.finishedSubSlots.getLast?).rewardChain.endOfSlotVdf

/-- Back over the blocks with the last two finished sub-slots. -/
def twoSlotsBack : ℕ → (subSlotsNum : ℤ) → BlockRecord → Check BlockRecord
  | 0,_,_ => .error (.raised .diverged)
  | n+1,subSlotsNum,curr =>
    if subSlotsNum > 0 ∧ curr.height > 0 then do
      let found := (curr.finishedChallengeSlotHashes.getD []).length
      twoSlotsBack n (subSlotsNum-found) (← V.block curr.prevHash)
    else .ok curr

/-- Where the first sub-slot of a segment starts, and the end of slot before the sub-epoch. -/
def firstSubSlotStart (headerBlock : HeaderBlock) (firstInSubEpoch : Bool) : Check (BlockRecord × Option VDFInfo) := do
  let curr ← V.block (headerBlock.headerHash E)
  if firstInSubEpoch ∧ curr.height > 0 then
    let start ← V.blockCache.walkBack (·.subEpochSummaryIncluded.isSome) curr
    return (start,some (← firstRcEndOfSlotVdf E V headerBlock))
  else if curr.overflow ∧ curr.firstInSubSlot then return (← twoSlotsBack V (curr.height+1) 2 curr,none)
  else return (← V.blockCache.walkBack (fun b => b.firstInSubSlot || decide (b.height=0)) curr,none)

/-- The blocks up to a height; those of a sub-slot whose end is normalized are left out. -/
def subSlotsUpTo (height : ℕ) : ℕ → HeaderBlock → (subSlotsData tmpSubSlotsData : List SubSlotData) →
    Check (List SubSlotData)
  | 0,_,_,_ => .error (.raised .diverged)
  | n+1,curr,subSlotsData,tmpSubSlotsData =>
    if curr.height<height then do
      let (subSlotsData,tmpSubSlotsData) := match curr.finishedSubSlots with
        | [] => (subSlotsData,tmpSubSlotsData)
        | first::_ => (subSlotsData++(if blueBoxedEndOfSlot first then [] else tmpSubSlotsData) ++
            finishedSlotsData curr.finishedSubSlots,[])
      let ssd : SubSlotData := {
        signagePointIndex := some curr.rewardChainBlock.signagePointIndex
        ccIpVdfInfo := some curr.rewardChainBlock.challengeChainIpVdf
        iccIpVdfInfo := curr.rewardChainBlock.infusedChallengeChainIpVdf
        totalIters := some curr.totalIters }
      let next ← V.headerAt (← uint32 (curr.height+1))
      subSlotsUpTo height n next subSlotsData (tmpSubSlotsData++[ssd])
    else return subSlotsData++tmpSubSlotsData

def firstSubSlotVdfs (headerBlock : HeaderBlock) (firstInSubEpoch : Bool) :
    Check (List SubSlotData × Option VDFInfo) := do
  let (start,firstRcEndOfSlotVdf) ← firstSubSlotStart E V headerBlock firstInSubEpoch
  let curr ← V.headerBlock start.headerHash
  let subSlotsData ← subSlotsUpTo V headerBlock.height (headerBlock.height+1) curr [] []
  return (subSlotsData++finishedSlotsData headerBlock.finishedSubSlots,firstRcEndOfSlotVdf)

/-- The end of one of the finished sub-slots of a block; the first of them counts from the block before. -/
def endOfSlotData (prevHeaderHash : Bytes32) (idx : ℕ) (subSlot : EndOfSubSlotBundle) : Check SubSlotData := do
  let prevRec ← V.block prevHeaderHash
  let eosVdfIters ←
    if idx=0 then do uint64 (prevRec.subSlotIters-(← prevRec.ipIters E.constants))
    else pure prevRec.subSlotIters
  handleEndOfSlot subSlot eosVdfIters

/-- From a block up to the next challenge block; gives its height. -/
def slotEndFrom : ℕ → HeaderBlock → (subSlotsData tmpSubSlotsData : List SubSlotData) → Check (List SubSlotData × ℕ)
  | 0,_,_,_ => .error (.raised .diverged)
  | n+1,curr,subSlotsData,tmpSubSlotsData => do
    if (← V.block (curr.headerHash E)).isChallengeBlock E.constants then
      return (subSlotsData++tmpSubSlotsData,curr.height)
    else
      let ended ← (curr.finishedSubSlots.zipIdx).mapM fun s => endOfSlotData E V curr.prevHeaderHash s.2 s.1
      let (subSlotsData,tmpSubSlotsData) :=
        if curr.firstInSubSlot then (subSlotsData++tmpSubSlotsData++ended,[])
        else (subSlotsData,tmpSubSlotsData)
      let ssd ← handleBlockVdfs E V curr
      let next ← V.headerAt (← uint32 (curr.height+1))
      slotEndFrom n next subSlotsData (tmpSubSlotsData++[ssd])

/-- A walk that visits more headers than there are goes in circles. -/
def slotEndVdf (startHeight : ℕ) : Check (List SubSlotData × ℕ) := do
  slotEndFrom E V (V.headerBlocks.size+1) (← V.headerAt startHeight) [] []

/-- The segment of a challenge block, and the height of the next challenge block. -/
def createChallengeSegment (headerBlock : HeaderBlock) (subEpochN : ℕ) (firstSegmentInSubEpoch : Bool) :
    Check (SubEpochChallengeSegment × ℕ) := do
  let (firstSubSlots,firstRcEndOfSlotVdf) ← firstSubSlotVdfs E V headerBlock firstSegmentInSubEpoch
  let ssd ← challengeBlockVdfs E V headerBlock (← V.block (headerBlock.headerHash E))
  let (slotEndSubSlots,endHeight) ← slotEndVdf E V (← uint32 (headerBlock.height+1))
  let rcSlotEndInfo := if firstSegmentInSubEpoch ∧ subEpochN≠0 then firstRcEndOfSlotVdf else none
  return (⟨subEpochN,firstSubSlots++ssd::slotEndSubSlots,rcSlotEndInfo⟩,endHeight)

/-- The loop of `__create_sub_epoch_segments`. -/
def segmentsFrom (sesHeight subEpochN : ℕ) : ℕ → HeaderBlock → (height : ℕ) → (first : Bool) →
    Check (List SubEpochChallengeSegment)
  | 0,_,_,_ => .error (.raised .diverged)
  | n+1,curr,height,first =>
    if curr.height<sesHeight then do
      if (← V.block (curr.headerHash E)).isChallengeBlock E.constants then
        let (seg,height) ← createChallengeSegment E V curr subEpochN first
        return seg::(← segmentsFrom sesHeight subEpochN n (← V.headerAt height) height false)
      else segmentsFrom sesHeight subEpochN n (← V.headerAt (height+1)) (height+1) first
    else return []

end WeightProof
end RoseChain
