import Mathlib.Data.PNat.Notation
import RoseChain.Consensus.Constants

namespace RoseChain
variable (E : Env)

structure SubEpochData where
  rewardChainHash : Bytes32
  numBlocksOverflow : ℕ
  newSubSlotIters : Option ℕ
  newDifficulty : Option ℕ
  deriving DecidableEq

namespace WeightProof

def MAX_SAMPLES : ℕ := 20

def createSubEpochData (ses : SubEpochSummary) : SubEpochData :=
  ⟨ses.rewardChainHash,ses.numBlocksOverflow,ses.newSubSlotIters,ses.newDifficulty⟩

/-- `_sample_sub_epoch`: the scan of the sorted weights. -/
def scanWeights (startOfEpochWeight endOfEpochWeight : ℕ) : List ℕ → Bool
  | [] => false
  | weight::more =>
    if weight > endOfEpochWeight then false
    else if startOfEpochWeight<weight ∧ weight<endOfEpochWeight then true
    else scanWeights startOfEpochWeight endOfEpochWeight more

def sampleSubEpoch (startOfEpochWeight endOfEpochWeight : ℕ) (weightToCheck : Option (List ℕ)) :
    Check Bool :=
  match weightToCheck with
  | none => return true
  | some weights => do
    if (← index weights.getLast?)<startOfEpochWeight then return false
    else if (← index weights.head?) > endOfEpochWeight then return false
    else return scanWeights startOfEpochWeight endOfEpochWeight weights

def upTo (tipHeight : ℕ) (sesBlocks : List BlockRecord) : List BlockRecord :=
  sesBlocks.takeWhile fun b => b.height≤tipHeight

/-- `get_sub_epoch_data`, of the blocks that include the summaries. -/
def getSubEpochData (tipHeight : ℕ) (sesBlocks : List BlockRecord) : List SubEpochData :=
  (upTo tipHeight sesBlocks).filterMap fun b => b.subEpochSummaryIncluded.map createSubEpochData

/-- The sub-epochs that `_create_proof_of_weight` includes segments for. -/
def sampledByProver (weightToCheck : Option (List ℕ)) :
    (subEpochN sampleN prevSesWeight : ℕ) → List BlockRecord → Check (Option (List ℕ))
  | _,_,_,[] => return some []
  | subEpochN,sampleN,prevSesWeight,sesBlock::more => do
    if sampleN ≥ MAX_SAMPLES then return some []
    else if sesBlock.subEpochSummaryIncluded.isNone then return none
    else if (← sampleSubEpoch prevSesWeight sesBlock.weight weightToCheck) then
      return (← sampledByProver weightToCheck (subEpochN+1) (sampleN+1) sesBlock.weight more).map
        (subEpochN :: ·)
    else sampledByProver weightToCheck (subEpochN+1) sampleN sesBlock.weight more

def segmentsOf (count : ℕ → ℕ+) (sampled : List ℕ) : List ℕ :=
  sampled.flatMap fun n => List.replicate (count n) n

/-- `_map_sub_epoch_summaries` from an index on: the summaries, the total weight and the weights at which
the sub-epochs start. -/
def mapSubEpochSummariesFrom (subBlocksForSe : ℕ) :
    (first : Bool) → (totalWeight : ℕ) → (sesHash : Bytes32) → (currDifficulty : ℕ) →
    List SubEpochData → Check (List SubEpochSummary × ℕ × List ℕ)
  | _,totalWeight,_,currDifficulty,[] => do
    return ([],totalWeight,[← uint128 (totalWeight+currDifficulty)])
  | _,totalWeight,sesHash,currDifficulty,[data] => do
    let ses : SubEpochSummary := ⟨sesHash,data.rewardChainHash,data.numBlocksOverflow,data.newDifficulty,
      data.newSubSlotIters⟩
    let (summaries,total,weights) ← mapSubEpochSummariesFrom subBlocksForSe false totalWeight
      (E.hashSubEpochSummary ses) (data.newDifficulty.getD currDifficulty) []
    return (ses::summaries,total,weights)
  | first,totalWeight,sesHash,currDifficulty,data::next::more => do
    let ses : SubEpochSummary := ⟨sesHash,data.rewardChainHash,data.numBlocksOverflow,data.newDifficulty,
      data.newSubSlotIters⟩
    let delta := if first then 0 else data.numBlocksOverflow
    let start ← uint128 (totalWeight+currDifficulty)
    let added ← uint128 (currDifficulty*((subBlocksForSe : ℤ)+next.numBlocksOverflow-delta))
    let (summaries,total,weights) ← mapSubEpochSummariesFrom subBlocksForSe false (totalWeight+added)
      (E.hashSubEpochSummary ses) (data.newDifficulty.getD currDifficulty) (next::more)
    return (ses::summaries,total,start::weights)

def mapSubEpochSummaries (subBlocksForSe : ℕ) (sesHash : Bytes32) (subEpochData : List SubEpochData)
    (currDifficulty : ℕ) : Check (List SubEpochSummary × ℕ × List ℕ) :=
  mapSubEpochSummariesFrom E subBlocksForSe true 0 sesHash currDifficulty subEpochData

/-- The block before the last but one summary has the weight of the sub-epochs. -/
def validateSummariesWeight (subBlocksForSe subEpochDataWeight : ℕ) (summaries : List SubEpochSummary)
    (recentChainData : List HeaderBlock) : Check Bool := do
  let last ← index summaries.getLast?
  let sesEndHeight : ℤ := (summaries.length-1)*subBlocksForSe+last.numBlocksOverflow-1
  let curr := recentChainData.filter fun block => decide ((block.rewardChainBlock.height : ℤ)=sesEndHeight)
  match curr.getLast? with
  | none => return false
  | some curr => return decide (curr.rewardChainBlock.weight=subEpochDataWeight)

/-- The sub-epochs that `validate_sub_epoch_sampling` wants to see, `n` of them found before. -/
def sampledByVerifier (weightToCheck : Option (List ℕ)) :
    (idx n start : ℕ) → List ℕ → Check (List ℕ)
  | _,_,_,[] => return []
  | idx,n,start,weight::more => do
    if (← sampleSubEpoch start weight weightToCheck) then
      if n+1=MAX_SAMPLES then return [idx]
      else return idx::(← sampledByVerifier weightToCheck (idx+1) (n+1) weight more)
    else sampledByVerifier weightToCheck (idx+1) n weight more

/-- What is left of the sampled sub-epochs; a segment counts where its sub-epoch is new. -/
def withoutSegments : (currSubEpochN : ℤ) → List ℕ → List ℕ → List ℕ
  | _,sampled,[] => sampled
  | currSubEpochN,sampled,subEpochN::more =>
    withoutSegments subEpochN
      (if currSubEpochN<subEpochN then sampled.filter (· ≠ subEpochN) else sampled) more

def validateSubEpochSampling (weightToCheck : Option (List ℕ)) (subEpochWeightList : List ℕ)
    (segments : List ℕ) : Check Bool := do
  match subEpochWeightList with
  | [] => return true
  | start::weights =>
    let sampled ← sampledByVerifier weightToCheck 0 0 start weights
    return (withoutSegments (-1) sampled segments).isEmpty

/-- The sampling step of the verifier on the prover's own proof for the tip, where there is one. -/
def sampleProof (genesis : BlockRecord) (sesBlocks : List BlockRecord) (tipHeight : ℕ)
    (weightToCheck : Option (List ℕ)) (count : ℕ → ℕ+) : Check (Option Bool) := do
  match ← sampledByProver weightToCheck 0 0 genesis.weight (upTo tipHeight sesBlocks) with
  | none => return none
  | some sampled =>
    let (_,_,weights) ← mapSubEpochSummaries E E.subEpochBlocks E.genesisChallenge
      (getSubEpochData tipHeight sesBlocks) E.difficultyStarting
    return some (← validateSubEpochSampling weightToCheck weights (segmentsOf count sampled))

end WeightProof
end RoseChain
