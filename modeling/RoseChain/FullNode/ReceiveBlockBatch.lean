import RoseChain.Consensus.PreValidationFrame

namespace RoseChain
open Lib Blockchain
variable (E : Env)

namespace FullNode

/-- The blocks from the first one on that the chain does not know. -/
def blocksToValidate (V : BlockView) (allBlocks : List FullBlock) : List FullBlock :=
  allBlocks.dropWhile fun block => V.containsBlock (block.headerHash E)

/-- Whether a result reports an error; the results are read in the order of the blocks. -/
def anyError : List FullBlock → List PreValidationResult → Check Bool
  | [],_ => return false
  | _::more,results => do
    let result ← index results[0]?
    if result.error.isSome then return true else anyError more results.tail

/-- Where the loop over the blocks of a batch stands. -/
structure BatchProgress where
  advancedPeak : Bool
  forkHeight : Option ℕ

/-- The segments of a sub-epoch go to a table that nothing here reads; it may raise. -/
def createPrevSubEpochSegments (weightProofHandler : Option (World → Check Unit)) (block : FullBlock) :
    NodeM Unit := do
  let w ← Eff.get
  let blockRecord ← Eff.lift (w.chain.view.blockRecord (block.headerHash E))
  match weightProofHandler with
  | none => return ()
  | some handler => if blockRecord.subEpochSummaryIncluded.isSome then Eff.lift (handler w)

/-- The blocks one after another; the fork point of the caller is for those before the first new peak. -/
def receiveAll (weightProofHandler : Option (World → Check Unit)) (forkPoint : Option ℕ) :
    List FullBlock → List PreValidationResult → BatchProgress → NodeM (Bool × Bool × Option ℕ)
  | [],_,p => return (true,p.advancedPeak,p.forkHeight)
  | block::more,results,p => do
    let preValidation ← Eff.lift (index results[0]?)
    Eff.lift (assertThat (preValidation.requiredIters.isSome=true))
    let (result,_,forkHeight) ← receiveBlock E block (some preValidation)
      (if p.advancedPeak then none else forkPoint)
    if result = .invalidBlock ∨ result = .disconnectedBlock then return (false,p.advancedPeak,forkHeight)
    createPrevSubEpochSegments E weightProofHandler block
    receiveAll weightProofHandler forkPoint more results.tail
      ⟨p.advancedPeak || decide (result = .newPeak),forkHeight⟩

/-- Receives the unknown blocks: whether all are good, whether the peak is new, and the fork height. -/
def receiveBlockBatch (allBlocks : List FullBlock) (forkPoint : Option ℕ)
    (wpSummaries : Option (List SubEpochSummary)) (pool : List PoolBatch → Check (List PreValidationResult))
    (weightProofHandler : Option (World → Check Unit)) : NodeM (Bool × Bool × Option ℕ) := do
  let w ← Eff.get
  let blocks := blocksToValidate E w.chain.view allBlocks
  if blocks.length=0 then return (true,false,some 0)
  match (← preValidateBlocksMultiprocessing E blocks 4 wpSummaries pool) with
  | none => return (false,false,none)
  | some results =>
    if (← Eff.lift (anyError blocks results)) then return (false,false,some 0)
    receiveAll E weightProofHandler forkPoint blocks results ⟨false,some 0⟩

end FullNode
end RoseChain
