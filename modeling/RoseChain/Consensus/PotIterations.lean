import RoseChain.Consensus.View

namespace RoseChain
variable (C : ConsensusConstants)

def isOverflowBlock (signagePointIndex : ℕ) : Check Bool := do
  raiseIf (signagePointIndex ≥ C.numSpsSubSlot)
  return decide ((signagePointIndex : ℤ) ≥ C.numSpsSubSlot-C.numSpIntervalsExtra)

def calculateSpIntervalIters (subSlotIters : ℕ) : Check ℕ := do
  let r ← floorMod subSlotIters C.numSpsSubSlot
  assertThat (r=0)
  uint64 (← floorDiv subSlotIters C.numSpsSubSlot)

def calculateSpIters (subSlotIters signagePointIndex : ℕ) : Check ℕ := do
  raiseIf (signagePointIndex ≥ C.numSpsSubSlot)
  let interval ← calculateSpIntervalIters C subSlotIters
  uint64 (interval*signagePointIndex)

def calculateIpIters (subSlotIters signagePointIndex requiredIters : ℕ) : Check ℕ := do
  let spIters ← calculateSpIters C subSlotIters signagePointIndex
  let spIntervalIters ← calculateSpIntervalIters C subSlotIters
  let r ← floorMod spIters spIntervalIters
  raiseIf (r≠0 ∨ spIters ≥ subSlotIters)
  raiseIf (requiredIters ≥ spIntervalIters ∨ requiredIters=0)
  uint64 (← floorMod (spIters+C.numSpIntervalsExtra*spIntervalIters+requiredIters) subSlotIters)

def expectedPlotSize (k : ℕ) : ℕ := (2*k+1)*2^(k-1)

/-- Difficulty times a random number below one, divided by the size of the plot. -/
def calculateIterationsQuality (O : Oracles) (difficultyConstantFactor : ℕ) (qualityString : Bytes32)
    (size difficulty : ℕ) (ccSpOutputHash : Bytes32) : Check ℕ := do
  let spQualityString := O.stdHash (bytes32 qualityString++bytes32 ccSpOutputHash)
  let iters ← uint64 (difficulty*difficultyConstantFactor*spQualityString.toNat /
    (2^256*expectedPlotSize size) : ℕ)
  return max iters 1

namespace BlockRecord
variable (b : BlockRecord)

def isChallengeBlock : Bool := decide ((b.deficit : ℤ)=C.minBlocksPerChallengeBlock-1)

def spIters : Check ℕ := calculateSpIters C b.subSlotIters b.signagePointIndex

def ipIters : Check ℕ := calculateIpIters C b.subSlotIters b.signagePointIndex b.requiredIters

def spSubSlotTotalIters : Check ℕ := do
  let ip ← b.ipIters C
  uint128 (if b.overflow then b.totalIters-ip-b.subSlotIters else b.totalIters-ip)

def ipSubSlotTotalIters : Check ℕ := do uint128 (b.totalIters-(← b.ipIters C))

def spTotalIters : Check ℕ := do return (← b.spSubSlotTotalIters C)+(← b.spIters C)

end BlockRecord

def calculateDeficit (height : ℕ) (prevB : Option BlockRecord) (overflow : Bool)
    (numFinishedSubSlots : ℕ) : Check ℕ := do
  if height=0 then uint8 (C.minBlocksPerChallengeBlock-1)
  else
    let prev ← assertSome prevB
    if prev.deficit=C.minBlocksPerChallengeBlock then
      if overflow then
        if numFinishedSubSlots > 0 then uint8 (prev.deficit-1)
        else uint8 prev.deficit
      else uint8 (prev.deficit-1)
    else if prev.deficit=0 then
      if numFinishedSubSlots=0 then uint8 0
      else if numFinishedSubSlots=1 then
        if overflow then uint8 C.minBlocksPerChallengeBlock
        else uint8 (C.minBlocksPerChallengeBlock-1)
      else uint8 (C.minBlocksPerChallengeBlock-1)
    else uint8 (prev.deficit-1)

def bitLength (n : ℕ) : ℕ := if n=0 then 0 else n.log2+1

def truncateToSignificantBits (inputX : ℤ) (numSignificantBits : ℕ) : ℤ :=
  let x := inputX.natAbs
  if numSignificantBits > bitLength x then x
  else
    let lower := bitLength x-numSignificantBits
    let mask := 2^bitLength x-1-(2^lower-1)
    if inputX<0 then -((x &&& mask : ℕ) : ℤ) else (x &&& mask : ℕ)

def countSignificantBits (inputX : ℤ) : ℕ :=
  let size := bitLength inputX.natAbs
  match (List.range size).find? fun i => inputX.testBit i with
  | some i => size-i
  | none => 0

end RoseChain
