import RoseChain.Consensus.BlockHeaderValidation

namespace RoseChain
open ClassgroupElement

/-- A header and what it is validated with. -/
structure HeaderCall where
  header : UnfinishedHeaderBlock
  checkFilter : Bool
  expectedDifficulty : ℕ
  expectedSubSlotIters : ℕ
  skipOverflowLastSsValidation : Bool
  skipVdfIsValid : Bool
  checkSubEpochSummary : Bool

/-- What is known of the header from check 2 on. -/
structure HeaderPlace where
  overflow : Bool
  skip : Bool
  height : ℕ
  canFinishSe : Bool
  canFinishEpoch : Bool

namespace HeaderCall
variable (E : Env) (V : BlockView) (c : HeaderCall)

def run : Check ℕ :=
  validateUnfinishedHeaderBlock E V c.header c.checkFilter c.expectedDifficulty c.expectedSubSlotIters
    c.skipOverflowLastSsValidation c.skipVdfIsValid c.checkSubEpochSummary

def prevB : Option BlockRecord := V.tryBlockRecord c.header.foliage.prevBlockHash

def numSlots (overflow skip : Bool) : ℕ :=
  if skip ∧ overflow then c.header.finishedSubSlots.length+1 else c.header.finishedSubSlots.length

def newSubSlot (overflow skip : Bool) : Bool := decide (c.numSlots overflow skip > 0)

def skipSlots (overflow : Bool) : Check Bool :=
  if c.skipOverflowLastSsValidation ∧ overflow then do
    pure (!(← finalEosIsAlreadyIncluded V c.header.finishedSubSlots c.header.foliage.prevBlockHash
      c.header.rewardChainBlock.totalIters c.expectedSubSlotIters))
  else pure c.skipOverflowLastSsValidation

/-- Height of the header, and whether a sub-epoch and an epoch can be finished at it. -/
def position (overflow skip : Bool) : Check (ℕ × Bool × Bool) :=
  match c.prevB V with
  | none => do
    assertThat (c.expectedDifficulty=E.difficultyStarting)
    assertThat (c.expectedSubSlotIters=E.subSlotItersStarting)
    pure (0,false,false)
  | some prev => do
    let height ← uint32 (prev.height+1)
    if c.newSubSlot overflow skip then
      let (se,epoch) ← canFinishSubAndFullEpoch E.constants V prev.height prev.prevHash prev.deficit
        prev.subEpochSummaryIncluded.isSome
      pure (height,se,epoch)
    else pure (height,false,false)

/-- Check 1. -/
def place : Check HeaderPlace := do
  reject ((c.prevB V).isNone ∧ c.header.foliage.prevBlockHash≠E.genesisChallenge) .invalidPrevBlockHash
  let overflow ← isOverflowBlock E.constants c.header.rewardChainBlock.signagePointIndex
  let skip ← c.skipSlots V overflow
  let (height,se,epoch) ← c.position E V overflow skip
  return ⟨overflow,skip,height,se,epoch⟩

variable (x : HeaderPlace)

/-- Check 2. -/
def slotLoop : Check (Option Bytes32) :=
  if c.newSubSlot x.overflow x.skip ∧ ¬ x.skip then
    validateFinishedSubSlots E V (c.prevB V) x.canFinishEpoch c.expectedDifficulty c.expectedSubSlotIters
      c.skipVdfIsValid none none c.header.finishedSubSlots
  else pure none

/-- Check 3. -/
def summary (sesHash : Option Bytes32) : Check Unit :=
  if c.newSubSlot x.overflow x.skip ∧ ¬ x.skip then
    validateSubEpochSummary E V (c.prevB V) x.height (c.newSubSlot x.overflow x.skip) x.canFinishSe x.canFinishEpoch
      c.expectedDifficulty c.expectedSubSlotIters c.checkSubEpochSummary sesHash
  else pure ()

/-- Check 4. -/
def blockCount : Check Unit :=
  match c.prevB V with
  | none => pure ()
  | some prev =>
    if ¬ c.newSubSlot x.overflow x.skip then do
      let n ← blocksInSubSlot V (prev.height+1) prev
      reject (2+n > E.maxSubSlotBlocks) .tooManyBlocks
    else pure ()

def ccSpHash (challenge : Bytes32) : Bytes32 :=
  match c.header.rewardChainBlock.challengeChainSpVdf with
  | none => challenge
  | some vdf => vdf.output.getHash E

/-- Checks 5 to 7; gives the hash of the signage point and the required iterations. -/
def space : Check (Bytes32 × ℕ) := do
  let rcb := c.header.rewardChainBlock
  let challenge ← getBlockChallenge E V c.header.finishedSubSlots c.header.foliage.prevBlockHash (c.prevB V).isNone
    x.overflow x.skip
  reject (challenge≠rcb.posSsCcChallengeHash) .invalidCcChallenge
  let quality ← rcb.proofOfSpace.verifyAndGetQualityString E challenge (c.ccSpHash E challenge)
  let qStr ← match quality with
    | none => .error (.invalid .invalidPospace)
    | some q => pure q
  reject (rcb.signagePointIndex ≥ E.numSpsSubSlot) .invalidSpIndex
  let requiredIters ← calculateIterationsQuality E.toOracles E.difficultyConstantFactor qStr
    rcb.proofOfSpace.size c.expectedDifficulty (c.ccSpHash E challenge)
  reject (requiredIters ≥ (← calculateSpIntervalIters E.constants c.expectedSubSlotIters))
    .invalidRequiredIters
  return (c.ccSpHash E challenge,requiredIters)

/-- Checks 8 to 10; gives the iterations of the signage point, in the sub-slot and in all. -/
def iters (requiredIters : ℕ) : Check (ℕ × ℕ) := do
  let C := E.constants
  let rcb := c.header.rewardChainBlock
  reject (decide (rcb.signagePointIndex=0)≠rcb.challengeChainSpVdf.isNone) .invalidSpIndex
  reject (decide (rcb.signagePointIndex=0)≠rcb.rewardChainSpVdf.isNone) .invalidSpIndex
  let spIters ← calculateSpIters C c.expectedSubSlotIters rcb.signagePointIndex
  let ipIters ← calculateIpIters C c.expectedSubSlotIters rcb.signagePointIndex requiredIters
  assertThat (rcb.challengeChainSpVdf.isNone → ¬ x.overflow)
  reject (x.overflow ∧ x.canFinishEpoch ∧ c.numSlots x.overflow x.skip<2) .noOverflowsInFirstSubSlotNewEpoch
  let totalIters ← expectedTotalIters E (c.prevB V) (c.numSlots x.overflow x.skip) c.expectedSubSlotIters ipIters
  reject (totalIters≠rcb.totalIters) .invalidTotalIters
  let spTotalIters ← uint128 (totalIters-ipIters+spIters -
    (if x.overflow then c.expectedSubSlotIters else 0 : ℕ))
  return (spIters,spTotalIters)

def spSlots : List EndOfSubSlotBundle :=
  if x.overflow ∧ x.skip then c.header.finishedSubSlots++[dummySubSlot] else c.header.finishedSubSlots

/-- Checks 11 to 14. -/
def signagePoint (ccSpHash : Bytes32) (spIters spTotalIters : ℕ) : Check Unit := do
  let rcb := c.header.rewardChainBlock
  let info ← getSignagePointVdfInfo E V (c.spSlots x) x.overflow (c.prevB V) spTotalIters spIters
  let rcSpHash ← validateRcSp E V c.header (c.prevB V) (c.newSubSlot x.overflow x.skip) info spIters c.skipVdfIsValid
  let plotKey := rcb.proofOfSpace.plotPublicKey
  reject (¬ E.verify plotKey (bytes32 rcSpHash) rcb.rewardChainSpSignature) .invalidRcSignature
  validateCcSp E c.header info spIters c.skipVdfIsValid
  reject (¬ E.verify plotKey (bytes32 ccSpHash) rcb.challengeChainSpSignature) .invalidCcSignature

/-- Checks 16 and 17. -/
def signatures : Check Unit := do
  let plotKey := c.header.rewardChainBlock.proofOfSpace.plotPublicKey
  reject (¬ E.verify plotKey (bytes32 (E.hashFoliageBlockData c.header.foliage.foliageBlockData))
    c.header.foliage.foliageBlockDataSignature) .invalidPlotSignature
  match c.header.foliage.foliageTransactionBlockHash with
  | none => pure ()
  | some hash =>
    reject (¬ (← verifyOptional E plotKey (bytes32 hash)
      c.header.foliage.foliageTransactionBlockSignature)) .invalidPlotSignature

/-- Checks 15 to 26. -/
def foliage (spTotalIters : ℕ) : Check Unit := do
  let rcb := c.header.rewardChainBlock
  validateIsTransactionBlock V (c.prevB V) c.header.foliage spTotalIters
  c.signatures E
  let data := c.header.foliage.foliageBlockData
  reject (E.hashRewardChainBlockUnfinished rcb≠data.unfinishedRewardBlockHash) .invalidUrsbHash
  reject (data.poolTarget.maxHeight≠0 ∧ data.poolTarget.maxHeight<x.height) .oldPoolTarget
  validatePoolTarget E (c.prevB V).isNone rcb.proofOfSpace data
  validateFoliage E V (c.prevB V) c.header c.checkFilter

/-- From check 8 on. -/
def rest (p : Bytes32 × ℕ) : Check ℕ := do
  let q ← c.iters E V x p.2
  c.signagePoint E V x p.1 q.1 q.2
  c.foliage E V x q.2
  return p.2

theorem run_eq : c.run E V=(do
    let x ← c.place E V
    let sesHash ← c.slotLoop E V x
    c.summary E V x sesHash
    c.blockCount E V x
    let p ← c.space E V x
    c.rest E V x p) := by
  unfold run validateUnfinishedHeaderBlock place
  conv => rhs; simp only [bind_assoc,pure_bind]
  extract_lets -underBinder C rcb prevHash prevB genesisBlock
  refine bind_congr fun _ => bind_congr fun overflow => ?_
  -- each join point of the definition is what comes after its checks
  extract_lets -underBinder jp
  have hjp : ∀ skip,jp skip=(do
      let p ← c.position E V overflow skip
      let x : HeaderPlace := ⟨overflow,skip,p.1,p.2.1,p.2.2⟩
      let sesHash ← c.slotLoop E V x
      c.summary E V x sesHash
      c.blockCount E V x
      let q ← c.space E V x
      c.rest E V x q) := by
    intro skip
    dsimp -zeta only [jp]
    extract_lets -underBinder finished newSubSlot jp'
    have hjp' : ∀ p,jp' p=(do
        let x : HeaderPlace := ⟨overflow,skip,p.1,p.2.1,p.2.2⟩
        let sesHash ← c.slotLoop E V x
        c.summary E V x sesHash
        c.blockCount E V x
        let q ← c.space E V x
        c.rest E V x q) := by
      rintro ⟨height,se,epoch⟩
      dsimp -zeta only [jp']
      extract_lets -underBinder jp1 x
      have hjp1 : ∀ u,jp1 u=(do
          c.summary E V x u
          c.blockCount E V x
          let q ← c.space E V x
          c.rest E V x q) := by
        intro u
        dsimp -zeta only [jp1]
        extract_lets -underBinder jp2
        have hjp2 : ∀ u,jp2 u=(do
            c.blockCount E V x
            let q ← c.space E V x
            c.rest E V x q) := by
          intro u
          dsimp -zeta only [jp2]
          extract_lets -underBinder jp3
          have hjp3 : ∀ u,jp3 u=(do
              let q ← c.space E V x
              c.rest E V x q) := by
            intro u
            dsimp -zeta only [jp3]
            unfold space
            conv => rhs; simp only [bind_assoc]
            refine bind_congr fun challenge => bind_congr fun _ => ?_
            extract_lets -underBinder sp
            refine bind_congr fun quality => ?_
            extract_lets -underBinder jp4
            have hjp4 : ∀ q,jp4 q=(do
                reject (rcb.signagePointIndex ≥ E.numSpsSubSlot) .invalidSpIndex
                let requiredIters ← calculateIterationsQuality E.toOracles E.difficultyConstantFactor q
                  rcb.proofOfSpace.size c.expectedDifficulty sp
                let interval ← calculateSpIntervalIters E.constants c.expectedSubSlotIters
                reject (requiredIters ≥ interval) .invalidRequiredIters
                c.rest E V x (sp,requiredIters)) := by
              intro q
              dsimp -zeta only [jp4]
              refine bind_congr fun _ => bind_congr fun requiredIters => bind_congr fun _ => bind_congr fun _ => ?_
              unfold rest iters signagePoint foliage signatures
              conv => rhs; simp only [bind_assoc,pure_bind]
              refine bind_congr fun _ => bind_congr fun _ => bind_congr fun spIters => bind_congr fun ipIters =>
                bind_congr fun _ => bind_congr fun _ => bind_congr fun total => bind_congr fun _ =>
                bind_congr fun spTotal => ?_
              extract_lets -underBinder subSlots
              refine bind_congr fun info => bind_congr fun rcSp => ?_
              extract_lets -underBinder plotKey
              refine bind_congr fun _ => bind_congr fun _ => bind_congr fun _ => bind_congr fun _ => ?_
              extract_lets -underBinder data
              refine bind_congr fun _ => ?_
              extract_lets -underBinder jp5
              cases header_hash : c.header.foliage.foliageTransactionBlockHash with
              | none => rfl
              | some hash =>
                dsimp only
                simp only [bind_assoc]
                rfl
            clear_value jp4
            cases quality with
            | none => rfl
            | some q =>
              simp only [bind_assoc,pure_bind]
              exact hjp4 q
          clear_value jp3
          unfold blockCount
          change _=(match prevB with | none => _ | some prev => _) >>= _
          cases prevB with
          | none => exact hjp3 ()
          | some prev =>
            dsimp only
            change (if ¬ newSubSlot then _ else _)=(if ¬ newSubSlot then _ else _) >>= _
            split_ifs
            · exact hjp3 ()
            · simp only [bind_assoc,hjp3]
        clear_value jp2
        unfold summary
        change (if newSubSlot ∧ ¬ skip then _ else _)=(if newSubSlot ∧ ¬ skip then _ else _) >>= _
        split_ifs
        · simp only [hjp2]
          rfl
        · exact hjp2 ()
      clear_value jp1
      unfold slotLoop
      change (if newSubSlot ∧ ¬ skip then _ else _)=(if newSubSlot ∧ ¬ skip then _ else _) >>= _
      split_ifs
      · simp only [hjp1]
        rfl
      · exact hjp1 none
    clear_value jp'
    unfold position
    change _=(match prevB with | none => _ | some prev => _) >>= _
    cases prevB with
    | none =>
      simp only [bind_assoc,pure_bind,hjp']
    | some prev =>
      dsimp only
      simp only [bind_assoc]
      refine bind_congr fun height => ?_
      change (if newSubSlot then _ else _)=(if newSubSlot then _ else _) >>= _
      split_ifs
      · simp only [bind_assoc,pure_bind,hjp']
        rfl
      · exact hjp' _
  clear_value jp
  unfold skipSlots
  split_ifs
  · simp only [bind_assoc,pure_bind,hjp]
    rfl
  · exact hjp _

end HeaderCall

namespace SubSlot
variable (E : Env) (V : BlockView) (prevB : Option BlockRecord) (previousSlot : Option EndOfSubSlotBundle)
  (canFinishEpoch : Bool) (expectedDifficulty expectedSubSlotIters : ℕ) (skipVdfIsValid : Bool)
  (sesHash : Option Bytes32) (subSlot : EndOfSubSlotBundle)

/-- Checks 2a to 2c. -/
def challenge : Check Unit :=
  let challengeHash := subSlot.challengeChain.challengeChainEndOfSlotVdf.challenge
  match previousSlot,prevB with
  | none,none => reject (challengeHash≠E.genesisChallenge) .invalidPrevChallengeSlotHash
  | none,some prev => do
    let curr ← V.walkBack (·.firstInSubSlot) prev
    let hashes ← assertSome curr.finishedChallengeSlotHashes
    reject ((← index hashes.getLast?)≠challengeHash) .invalidPrevChallengeSlotHash
  | some previous,_ =>
    reject (E.hashChallengeChainSubSlot previous.challengeChain≠challengeHash) .invalidPrevChallengeSlotHash

/-- The summary hash found so far, with the one of the sub-slot. -/
def summaryHash : Check (Option Bytes32) :=
  if subSlot.challengeChain.subepochSummaryHash.isSome then do
    assertThat sesHash.isNone
    pure subSlot.challengeChain.subepochSummaryHash
  else pure sesHash

/-- Checks 2l to 2o. -/
def changes : Check Unit := do
  let cc := subSlot.challengeChain
  reject (previousSlot.isSome ∧ cc.subepochSummaryHash.isSome) .invalidSubEpochSummaryHash
  if canFinishEpoch ∧ cc.subepochSummaryHash.isSome then
    reject (cc.newSubSlotIters≠some expectedSubSlotIters) .invalidNewSubSlotIters
    reject (cc.newDifficulty≠some expectedDifficulty) .invalidNewDifficulty
  else
    reject cc.newSubSlotIters.isSome .invalidNewSubSlotIters
    reject cc.newDifficulty.isSome .invalidNewDifficulty
  reject (E.hashChallengeChainSubSlot cc≠subSlot.rewardChain.challengeChainSubSlotHash) .invalidChallengeSlotHashRc

/-- Where the reward chain starts, for how long both chains run, and from which element. -/
def chains : Check (Bytes32 × ℕ × ClassgroupElement) :=
  match previousSlot,prevB with
  | none,none => pure (E.genesisChallenge,expectedSubSlotIters,getDefaultElement)
  | none,some prev => do
    pure (prev.rewardInfusionNewChallenge,← uint64 (prev.subSlotIters-(← prev.ipIters E.constants)),
      prev.challengeVdfOutput)
  | some previous,_ =>
    pure (E.hashRewardChainSubSlot previous.rewardChain,expectedSubSlotIters,getDefaultElement)

/-- Checks 2p to 2t. -/
def vdfs (t : Bytes32 × ℕ × ClassgroupElement) : Check Unit := do
  let cc := subSlot.challengeChain
  let rc := subSlot.rewardChain
  let challengeHash := cc.challengeChainEndOfSlotVdf.challenge
  reject (¬ skipVdfIsValid ∧ ¬ subSlot.proofs.rewardChainSlotProof.isValid E getDefaultElement
    rc.endOfSlotVdf (some ⟨t.1,t.2.1,rc.endOfSlotVdf.output⟩)) .invalidRcEosVdf
  let ccVdf := cc.challengeChainEndOfSlotVdf
  let ccIters := match previousSlot,prevB with
    | _,none => E.subSlotItersStarting
    | none,some prev => prev.subSlotIters
    | some _,some _ => expectedSubSlotIters
  reject (ccVdf≠⟨challengeHash,ccIters,ccVdf.output⟩) .invalidCcEosVdf
  reject (¬ skipVdfIsValid ∧ ¬ subSlot.proofs.challengeChainSlotProof.isValidFrom E t.2.2
    ⟨challengeHash,t.2.1,ccVdf.output⟩ ccVdf) .invalidCcEosVdf
  match prevB with
  | none => reject (rc.deficit≠E.minBlocksPerChallengeBlock) .invalidDeficit
  | some prev =>
    if prev.deficit=0 then reject (rc.deficit≠E.minBlocksPerChallengeBlock) .invalidDeficit
    else reject (rc.deficit≠prev.deficit) .invalidDeficit

theorem validateFinishedSubSlot_eq :
    validateFinishedSubSlot E V prevB previousSlot canFinishEpoch expectedDifficulty expectedSubSlotIters
      skipVdfIsValid sesHash subSlot=(do
    challenge E V prevB previousSlot subSlot
    validateIcc E V prevB previousSlot subSlot skipVdfIsValid
    let found ← summaryHash sesHash subSlot
    changes E previousSlot canFinishEpoch expectedDifficulty expectedSubSlotIters subSlot
    let t ← chains E prevB previousSlot expectedSubSlotIters
    vdfs E prevB previousSlot expectedSubSlotIters skipVdfIsValid subSlot t
    return found) := by
  unfold validateFinishedSubSlot challenge summaryHash changes chains vdfs
  cases previousSlot <;> cases prevB <;> dsimp only <;> split_ifs <;> simp only [bind_assoc,pure_bind]

end SubSlot

theorem isNone_of_validateIcc {E : Env} {V : BlockView} {prev : BlockRecord} {previous : Option EndOfSubSlotBundle}
    {eos : EndOfSubSlotBundle} {skip : Bool} {expected : Option IccExpectation}
    (he : expectedIcc E V prev previous = .ok expected) (h : validateIcc E V (some prev) previous eos skip = .ok ()) :
    eos.infusedChallengeChain.isNone=expected.isNone := by
  unfold validateIcc at h
  dsimp only at h
  rw [bind_of_ok he] at h
  obtain ⟨_,hpresent,-⟩ := bind_ok.mp h
  exact assertThat_eq_ok.mp hpresent

end RoseChain
