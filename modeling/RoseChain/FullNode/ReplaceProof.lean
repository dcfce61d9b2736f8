import RoseChain.Consensus.Blockchain

namespace RoseChain
open Lib
variable (E : Env)

inductive CompressibleVDFField
  | ccEosVdf | iccEosVdf | ccSpVdf | ccIpVdf
  deriving DecidableEq

namespace BlockStore

def getFullBlocksAt (heights : List ℕ) (t : Tables) : List FullBlock :=
  (t.fullBlocks.entries.filter fun e => decide (e.2.height∈heights)).map (·.2.block)

end BlockStore

namespace Blockchain

def getBlockRecordFromDb (headerHash : Bytes32) : NodeM (Option BlockRecord) := do
  let w ← Eff.get
  match w.chain.blockRecords.get? headerHash with
  | some r => return some r
  | none => BlockStore.getBlockRecord headerHash

end Blockchain

namespace FullNode

/-- The first sub-slot that a VDF belongs to gets other proofs. -/
def replaceSlotProof (belongs : EndOfSubSlotBundle → Bool) (put : SubSlotProofs → SubSlotProofs) :
    List EndOfSubSlotBundle → Option (List EndOfSubSlotBundle)
  | [] => none
  | s::more =>
    if belongs s then some ({ s with proofs := put s.proofs } :: more)
    else (replaceSlotProof belongs put more).map (s :: ·)

/-- The block with the compact proof, if the VDF is one of the block's own. -/
def compacted (vdfInfo : VDFInfo) (vdfProof : VDFProof) (block : FullBlock) :
    CompressibleVDFField → Check (Option FullBlock)
  | .ccEosVdf =>
    let slots := replaceSlotProof (fun s => decide (s.challengeChain.challengeChainEndOfSlotVdf=vdfInfo))
      (fun p => { p with challengeChainSlotProof := vdfProof }) block.finishedSubSlots
    .ok (slots.map fun slots => { block with finishedSubSlots := slots })
  | .iccEosVdf =>
    let slots := replaceSlotProof
      (fun s => s.infusedChallengeChain.any fun i => decide (i.infusedChallengeChainEndOfSlotVdf=vdfInfo))
      (fun p => { p with infusedChallengeChainSlotProof := some vdfProof }) block.finishedSubSlots
    .ok (slots.map fun slots => { block with finishedSubSlots := slots })
  | .ccSpVdf =>
    if block.rewardChainBlock.challengeChainSpVdf=some vdfInfo then do
      assertThat block.challengeChainSpProof.isSome
      return some { block with challengeChainSpProof := some vdfProof }
    else .ok none
  | .ccIpVdf =>
    if block.rewardChainBlock.challengeChainIpVdf=vdfInfo then
      .ok (some { block with challengeChainIpProof := vdfProof })
    else .ok none

/-- The first part of `_replace_proof`: the stored blocks that the index names at the height. -/
def replaceProofFind (height : ℕ) : NodeM (List FullBlock) := do
  let fullBlocks ← fetch (BlockStore.getFullBlocksAt [height])
  Eff.lift (assertThat (fullBlocks.length > 0))
  let w ← Eff.get
  let expectedHeaderHash ← Eff.lift (w.chain.view.heightToHash height)
  return fullBlocks.filter fun b => decide (b.headerHash E=expectedHeaderHash)

/-- The second part, for one block: what is to be written. -/
def replaceProofMake (vdfInfo : VDFInfo) (vdfProof : VDFProof) (fieldVdf : CompressibleVDFField)
    (block : FullBlock) : NodeM (Option (FullBlock × BlockRecord)) := do
  let blockRecord ← Eff.lift (assertSome (← Blockchain.getBlockRecordFromDb (block.headerHash E)))
  let newBlock ← Eff.lift (compacted vdfInfo vdfProof block fieldVdf)
  return newBlock.map fun b => (b,blockRecord)

def replaceProofWrite (newBlock : FullBlock) (blockRecord : BlockRecord) : NodeM Unit := do
  BlockStore.addFullBlock (newBlock.headerHash E) newBlock blockRecord
  commitTransaction

end FullNode
end RoseChain
