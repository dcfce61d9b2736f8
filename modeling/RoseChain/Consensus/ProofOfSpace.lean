import RoseChain.Consensus.PotIterations

namespace RoseChain
variable (E : Env)

def ClassgroupElement.getHash (e : ClassgroupElement) : Bytes32 := E.stdHash e.data

def VDFProof.isValid (p : VDFProof) (inputEl : ClassgroupElement) (info : VDFInfo)
    (targetVdfInfo : Option VDFInfo) : Bool :=
  targetVdfInfo.all (fun t => decide (info=t)) && decide (p.witnessType+1≤E.maxVdfWitnessSize) &&
    E.verifyVdf info.challenge inputEl.data (info.output.data++p.witness) info.numberOfIterations
      p.witnessType

/-- A proof from the stored point, or from the start of the slot when it is normalized. -/
def VDFProof.isValidFrom (p : VDFProof) (inputEl : ClassgroupElement) (info full : VDFInfo) : Bool :=
  if p.normalizedToIdentity then p.isValid E ClassgroupElement.getDefaultElement full none
  else p.isValid E inputEl info none

namespace ProofOfSpace

def getPlotId (p : ProofOfSpace) : Check Bytes32 := do
  assertThat (p.poolPublicKey.isNone ∨ p.poolContractPuzzleHash.isNone)
  match p.poolPublicKey with
  | some pk => return E.stdHash (pk++p.plotPublicKey)
  | none => do
    let ph ← assertSome p.poolContractPuzzleHash
    return E.stdHash (bytes32 ph++p.plotPublicKey)

def calculatePlotFilterInput (plotId challengeHash signagePoint : Bytes32) : Bytes32 :=
  E.stdHash (bytes32 plotId++bytes32 challengeHash++bytes32 signagePoint)

def passesPlotFilter (plotId challengeHash signagePoint : Bytes32) : Bool :=
  (calculatePlotFilterInput E plotId challengeHash signagePoint).toNat /
    2^(256-E.numberZeroBitsPlotFilter) == 0

def verifyAndGetQualityString (p : ProofOfSpace) (originalChallengeHash signagePoint : Bytes32) :
    Check (Option Bytes32) := do
  if p.poolPublicKey.isNone ∧ p.poolContractPuzzleHash.isNone then return none
  if p.poolPublicKey.isSome ∧ p.poolContractPuzzleHash.isSome then return none
  if p.size<E.minPlotSize then return none
  if p.size > E.maxPlotSize then return none
  let plotId ← p.getPlotId E
  let newChallenge :=
    E.stdHash (bytes32 (calculatePlotFilterInput E plotId originalChallengeHash signagePoint))
  if newChallenge≠p.challenge then return none
  if ¬ passesPlotFilter E plotId originalChallengeHash signagePoint then return none
  return E.validateProof plotId p.size p.challenge p.proof

end ProofOfSpace
end RoseChain
