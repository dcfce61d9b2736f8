import RoseChain.Consensus.BlockHeaderValidation

namespace RoseChain
open Lib ClassgroupElement
variable (E : Env) (V : BlockView)

/-- Whether a new difficulty was included since the last multiple of the sub-epoch length. -/
def adjustedSince (C : ConsensusConstants) : ℕ → BlockRecord → Check Bool
  | 0,_ => .error (.raised .diverged)
  | n+1,curr => do
    let adjusted := (curr.subEpochSummaryIncluded.bind (·.newDifficulty)).isSome
    if curr.height % C.subEpochBlocks > 0 then
      return adjusted || (← adjustedSince C n (← V.blockRecord curr.prevHash))
    else return adjusted

/-- Whether the block two after `prevB` can start an epoch, if its sub-epoch can be finished soon.
-/
def canFinishEpochSoon (C : ConsensusConstants) (prevB : BlockRecord) : Check Bool :=
  if heightCanBeFirstInEpoch C (prevB.height+2) then
    if (prevB.height+2) % C.subEpochBlocks > 1 then do
      return !(← adjustedSince V C (prevB.height+1) prevB)
    else return true
  else return heightCanBeFirstInEpoch C (prevB.height+C.maxSubSlotBlocks+2)

/-- `next_sub_epoch_summary` of a full block, when the sub-epoch can be finished soon. -/
def nextSubEpochSummary (requiredIters : ℕ) (block : FullBlock) : Check (Option SubEpochSummary) := do
  let C := E.constants
  match V.tryBlockRecord block.prevHeaderHash with
  | none => return none
  | some prevB =>
    let firstSlot := block.finishedSubSlots.head?.map (·.challengeChain)
    if prevB.height=0 then return none
    else if (firstSlot.bind (·.newDifficulty)).isSome then return none
    else
      let index := block.rewardChainBlock.signagePointIndex
      let (subSlotIters,_) ← getNextSubSlotItersAndDifficulty C V
        (decide (block.finishedSubSlots.length > 0)) (some prevB)
      let overflow ← isOverflowBlock C index
      if (firstSlot.bind (·.subepochSummaryHash)).isSome then return none
      else if ← canFinishEpochSoon V C prevB then
        let spIters ← calculateSpIters C subSlotIters index
        let ipIters ← calculateIpIters C subSlotIters index requiredIters
        let before ← V.blockRecord prevB.prevHash
        let difficulty ← uint64 (prevB.weight-before.weight)
        let spTotalIters ← uint128 (block.totalIters-ipIters+spIters-(if overflow then subSlotIters else 0 : ℕ))
        let nextDifficulty ← getNextDifficulty C V block.prevHeaderHash (prevB.height+1) difficulty 0 false true
          spTotalIters true
        let nextSubSlotIters ← getNextSubSlotIters C V block.prevHeaderHash (prevB.height+1) subSlotIters 0
          false true spTotalIters true
        return some (← makeSubEpochSummary C V E.toOracles (prevB.height+2) prevB (some nextDifficulty)
          (some nextSubSlotIters))
      else return some (← makeSubEpochSummary C V E.toOracles (prevB.height+2) prevB none none)

/-- The sub-slots the node keeps with their total iterations, and what waits for one; an infusion
point is of type `ι`. -/
structure FullNodeStore (ι : Type) where
  finishedSubSlots : List (Option EndOfSubSlotBundle × ℕ)
  futureEosCache : Dict Bytes32 (List EndOfSubSlotBundle)
  futureIpCache : Dict Bytes32 (List ι)

/-- What the VDFs of the current sub-slot start from, and how long they run. -/
structure SlotEnd where
  rcChallenge : Bytes32
  ccStart : ClassgroupElement
  iccStart : Option ClassgroupElement
  icc : Option (Bytes32 × ℕ)
  iters : ℕ

namespace FullNodeStore
variable {ι : Type}

def ccAfter (slot : Option EndOfSubSlotBundle) : Bytes32 :=
  match slot with
  | some s => E.hashChallengeChainSubSlot s.challengeChain
  | none => E.genesisChallenge

def rcAfter (slot : Option EndOfSubSlotBundle) : Bytes32 :=
  match slot with
  | some s => E.hashRewardChainSubSlot s.rewardChain
  | none => E.genesisChallenge

/-- The infused chain goes on only where the last slot had one that did not just finish. -/
def iccAfter (slot : Option EndOfSubSlotBundle) : Option Bytes32 :=
  match slot with
  | some s =>
    if s.rewardChain.deficit≠E.minBlocksPerChallengeBlock then
      s.infusedChallengeChain.map E.hashInfusedChallengeChainSubSlot
    else none
  | none => none

/-- The infused challenge chain that a peak is on, and the iterations since its challenge. -/
def iccOfPeak (peak : BlockRecord) (totalIters : ℕ) : Check (Option (Bytes32 × ℕ)) := do
  let C := E.constants
  if peak.deficit<C.minBlocksPerChallengeBlock then
    let curr ← V.walkBack (fun b => b.isChallengeBlock C || b.firstInSubSlot) peak
    if curr.isChallengeBlock C then
      return some (curr.challengeBlockInfoHash,← uint64 (totalIters-curr.totalIters))
    else
      let hashes ← assertSome curr.finishedInfusedChallengeSlotHashes
      return some (← index hashes.getLast?,peak.subSlotIters)
  else return none

def iccStartOfPeak (peak : BlockRecord) : Option ClassgroupElement :=
  if peak.deficit=E.minBlocksPerChallengeBlock then none
  else if peak.isChallengeBlock E.constants then some getDefaultElement
  else peak.infusedChallengeVdfOutput

/-- The summary is looked at only where the peak can finish a sub-epoch. -/
def sesAgrees (peak : BlockRecord) (block : FullBlock) (eos : EndOfSubSlotBundle) : Check Bool := do
  let (canFinishSe,_) ← canFinishSubAndFullEpoch E.constants V peak.height peak.prevHash peak.deficit
    peak.subEpochSummaryIncluded.isSome
  if canFinishSe then
    let ses ← nextSubEpochSummary E V peak.requiredIters block
    return decide (eos.challengeChain.subepochSummaryHash=ses.map E.hashSubEpochSummary)
  else return true

def challengeVdfsValid (eos : EndOfSubSlotBundle) (ccChallenge : Bytes32) (subSlotIters : ℕ) (slot : SlotEnd) :
    Bool :=
  let cc := eos.challengeChain.challengeChainEndOfSlotVdf
  let rc := eos.rewardChain.endOfSlotVdf
  decide (cc=⟨ccChallenge,subSlotIters,cc.output⟩) &&
    eos.proofs.challengeChainSlotProof.isValidFrom E slot.ccStart ⟨ccChallenge,slot.iters,cc.output⟩ cc &&
    eos.proofs.rewardChainSlotProof.isValid E getDefaultElement rc (some ⟨slot.rcChallenge,slot.iters,rc.output⟩)

def infusedVdfValid (eos : EndOfSubSlotBundle) (slot : SlotEnd) : Check Bool :=
  match slot.icc with
  | some (challenge,iters) => do
    let start ← assertSome slot.iccStart
    let icc ← assertSome eos.infusedChallengeChain
    let proof ← assertSome eos.proofs.infusedChallengeChainSlotProof
    let vdf := icc.infusedChallengeChainEndOfSlotVdf
    return decide (vdf=⟨challenge,iters,vdf.output⟩) &&
      proof.isValidFrom E start ⟨challenge,slot.iters,vdf.output⟩ vdf
  | none => return eos.infusedChallengeChain.isNone && eos.proofs.infusedChallengeChainSlotProof.isNone

/-- The VDFs of a bundle that ends the current sub-slot; with them valid, it is added. -/
def finishSlot (s : FullNodeStore ι) (eos : EndOfSubSlotBundle) (ccChallenge : Bytes32)
    (subSlotIters totalIters : ℕ) (slot : SlotEnd) : Check (Option (List ι) × FullNodeStore ι) := do
  if challengeVdfsValid E eos ccChallenge subSlotIters slot then
    if ← infusedVdfValid E eos slot then
      return (some ((s.futureIpCache.get? (E.hashRewardChainSubSlot eos.rewardChain)).getD []),
        { s with finishedSubSlots := s.finishedSubSlots++[(some eos,totalIters)] })
    else return (none,s)
  else return (none,s)

/-- A bundle for a reward chain that the node has not seen yet. -/
def cacheEos (s : FullNodeStore ι) (eos : EndOfSubSlotBundle) : FullNodeStore ι :=
  let challenge := eos.rewardChain.endOfSlotVdf.challenge
  { s with futureEosCache :=
      s.futureEosCache.set challenge ((s.futureEosCache.get? challenge).getD []++[eos]) }

def slotIters (peak : Option (BlockRecord × FullBlock)) : ℕ :=
  match peak with
  | some (peak,_) => peak.subSlotIters
  | none => E.subSlotItersStarting

/-- The peak, where it is in the slot that starts at `lastIters`. -/
def peakIn (peak : Option (BlockRecord × FullBlock)) (lastIters : ℕ) : Option (BlockRecord × FullBlock) :=
  peak.filter fun p => decide (p.1.totalIters > lastIters)

def newFinishedSubSlot (s : FullNodeStore ι) (eos : EndOfSubSlotBundle)
    (peak : Option (BlockRecord × FullBlock)) : Check (Option (List ι) × FullNodeStore ι) := do
  let (lastSlot,lastIters) ← assertSome s.finishedSubSlots.getLast?
  if s.finishedSubSlots.any fun slot => decide (slot.1=some eos) then return (some [],s)
  else if eos.challengeChain.challengeChainEndOfSlotVdf.challenge≠ccAfter E lastSlot then return (none,s)
  else
    let totalIters ← uint128 (lastIters+slotIters E peak)
    match peakIn peak lastIters with
    | some (peak,block) =>
      let iters ← uint64 (totalIters-peak.totalIters)
      if peak.rewardInfusionNewChallenge≠eos.rewardChain.endOfSlotVdf.challenge then
        return (none,s.cacheEos eos)
      else
        let icc ← iccOfPeak E V peak totalIters
        if ← sesAgrees E V peak block eos then
          finishSlot E s eos (ccAfter E lastSlot) peak.subSlotIters totalIters
            ⟨peak.rewardInfusionNewChallenge,peak.challengeVdfOutput,iccStartOfPeak E peak,icc,iters⟩
        else return (none,s)
    | none =>
      finishSlot E s eos (ccAfter E lastSlot) (slotIters E peak) totalIters
        ⟨rcAfter E lastSlot,getDefaultElement,some getDefaultElement,
          (iccAfter E lastSlot).map (·,slotIters E peak),slotIters E peak⟩

def initializeGenesisSubSlot (s : FullNodeStore ι) : FullNodeStore ι :=
  { s with finishedSubSlots := [(none,0)] }

/-- The sub-slots of the signage point and of the infusion of a new peak. -/
def peakSlots (peak : BlockRecord) (spSubSlot ipSubSlot : Option EndOfSubSlotBundle) :
    Check (List (Option EndOfSubSlotBundle × ℕ)) := do
  match ipSubSlot with
  | none => return [(none,0)]
  | some _ =>
    let prevTotalIters ← peak.spSubSlotTotalIters E.constants
    let totalIters ← peak.ipSubSlotTotalIters E.constants
    if spSubSlot.isSome ∨ prevTotalIters=0 then do
      assertThat (peak.overflow ∨ prevTotalIters≠0)
      return [(spSubSlot,prevTotalIters),(ipSubSlot,totalIters)]
    else return [(ipSubSlot,totalIters)]

/-- Tries the bundles that waited for the peak, up to the first one that is added. -/
def addWaiting (peak : Option (BlockRecord × FullBlock)) :
    FullNodeStore ι → List EndOfSubSlotBundle → Check (FullNodeStore ι)
  | s,[] => return s
  | s,eos::more => do
    let (added,s) ← newFinishedSubSlot E V s eos peak
    if added.isSome then return s else addWaiting peak s more

/-- `new_peak`, without its signage points. -/
def newPeak (s : FullNodeStore ι) (peak : BlockRecord) (block : FullBlock)
    (spSubSlot ipSubSlot : Option EndOfSubSlotBundle) : Check (FullNodeStore ι) := do
  let slots ← peakSlots E peak spSubSlot ipSubSlot
  let s ← addWaiting E V (some (peak,block)) { s with finishedSubSlots := slots }
    ((s.futureEosCache.get? peak.rewardInfusionNewChallenge).getD [])
  return { s with
    futureEosCache := s.futureEosCache.erase peak.rewardInfusionNewChallenge
    futureIpCache := s.futureIpCache.erase peak.rewardInfusionNewChallenge }

end FullNodeStore
end RoseChain
