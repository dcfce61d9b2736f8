import RoseChain.Consensus.DifficultyAdjustment
import RoseChain.Consensus.GetBlockChallenge

namespace RoseChain
open ClassgroupElement
variable (E : Env) (V : BlockView)

/-- Challenge, committed and proved iterations, and input of an infused challenge chain slot. -/
structure IccExpectation where
  challengeHash : Bytes32
  itersCommitted : ℕ
  itersProof : ℕ
  vdfInput : Option ClassgroupElement

/-- The infused challenge chain slot that must be there, if any. -/
def expectedIcc (prevB : BlockRecord) (previousSlot : Option EndOfSubSlotBundle) :
    Check (Option IccExpectation) := do
  let C := E.constants
  if prevB.deficit ≥ C.minBlocksPerChallengeBlock then return none
  match previousSlot with
  | none =>
    -- the first sub-slot after the previous block, which has a challenge chain infused
    let curr ← V.walkBack (fun b => b.isChallengeBlock C || b.firstInSubSlot) prevB
    let (challenge,committed) ←
      if curr.isChallengeBlock C then do
        pure (curr.challengeBlockInfoHash,← uint64 (prevB.subSlotIters-(← curr.ipIters C)))
      else do
        let hashes ← assertSome curr.finishedInfusedChallengeSlotHashes
        pure (← index hashes.getLast?,prevB.subSlotIters)
    let proof ← uint64 (prevB.subSlotIters-(← prevB.ipIters C))
    let input :=
      if prevB.isChallengeBlock C then some getDefaultElement else prevB.infusedChallengeVdfOutput
    return some ⟨challenge,committed,proof,input⟩
  | some finished =>
    if finished.rewardChain.deficit<C.minBlocksPerChallengeBlock then
      let icc ← assertSome finished.infusedChallengeChain
      return some ⟨E.hashInfusedChallengeChainSubSlot icc,prevB.subSlotIters,prevB.subSlotIters,
        some getDefaultElement⟩
    else return none

/-- Checks 2d to 2k: the infused challenge chain of one finished sub-slot. -/
def validateIcc (prevB : Option BlockRecord) (previousSlot : Option EndOfSubSlotBundle)
    (subSlot : EndOfSubSlotBundle) (skipVdfIsValid : Bool) : Check Unit := do
  match prevB with
  | none => reject subSlot.infusedChallengeChain.isSome .shouldNotHaveIcc
  | some prev =>
    let expected ← expectedIcc E V prev previousSlot
    assertThat (subSlot.infusedChallengeChain.isNone=expected.isNone)
    match subSlot.infusedChallengeChain with
    | some icc =>
      let e ← assertSome expected
      let input ← assertSome e.vdfInput
      let proof ← assertSome subSlot.proofs.infusedChallengeChainSlotProof
      let vdf := icc.infusedChallengeChainEndOfSlotVdf
      reject (vdf≠⟨e.challengeHash,e.itersCommitted,vdf.output⟩) .invalidIccEosVdf
      reject (¬ skipVdfIsValid ∧
        ¬ proof.isValidFrom E input ⟨e.challengeHash,e.itersProof,vdf.output⟩ vdf) .invalidIccEosVdf
      let hash := some (E.hashInfusedChallengeChainSubSlot icc)
      if subSlot.rewardChain.deficit=E.minBlocksPerChallengeBlock then
        reject (hash≠subSlot.challengeChain.infusedChallengeChainSubSlotHash) .invalidIccHashCc
      else reject subSlot.challengeChain.infusedChallengeChainSubSlotHash.isSome .invalidIccHashCc
      reject (hash≠subSlot.rewardChain.infusedChallengeChainSubSlotHash) .invalidIccHashRc
    | none =>
      reject subSlot.challengeChain.infusedChallengeChainSubSlotHash.isSome .invalidIccHashCc
      reject subSlot.rewardChain.infusedChallengeChainSubSlotHash.isSome .invalidIccHashRc

/-- Checks 2a to 2t for one finished sub-slot; carries the sub-epoch summary hash found so far. -/
def validateFinishedSubSlot (prevB : Option BlockRecord) (previousSlot : Option EndOfSubSlotBundle)
    (canFinishEpoch : Bool) (expectedDifficulty expectedSubSlotIters : ℕ) (skipVdfIsValid : Bool)
    (sesHash : Option Bytes32) (subSlot : EndOfSubSlotBundle) : Check (Option Bytes32) := do
  let C := E.constants
  let cc := subSlot.challengeChain
  let rc := subSlot.rewardChain
  let challengeHash := cc.challengeChainEndOfSlotVdf.challenge
  match previousSlot,prevB with
  | none,none => reject (challengeHash≠E.genesisChallenge) .invalidPrevChallengeSlotHash
  | none,some prev => do
    let curr ← V.walkBack (·.firstInSubSlot) prev
    let hashes ← assertSome curr.finishedChallengeSlotHashes
    reject ((← index hashes.getLast?)≠challengeHash) .invalidPrevChallengeSlotHash
  | some previous,_ =>
    reject (E.hashChallengeChainSubSlot previous.challengeChain≠challengeHash)
      .invalidPrevChallengeSlotHash
  validateIcc E V prevB previousSlot subSlot skipVdfIsValid
  let sesHash ←
    if cc.subepochSummaryHash.isSome then do
      assertThat sesHash.isNone
      pure cc.subepochSummaryHash
    else pure sesHash
  reject (previousSlot.isSome ∧ cc.subepochSummaryHash.isSome) .invalidSubEpochSummaryHash
  if canFinishEpoch ∧ cc.subepochSummaryHash.isSome then
    reject (cc.newSubSlotIters≠some expectedSubSlotIters) .invalidNewSubSlotIters
    reject (cc.newDifficulty≠some expectedDifficulty) .invalidNewDifficulty
  else
    reject cc.newSubSlotIters.isSome .invalidNewSubSlotIters
    reject cc.newDifficulty.isSome .invalidNewDifficulty
  reject (E.hashChallengeChainSubSlot cc≠rc.challengeChainSubSlotHash) .invalidChallengeSlotHashRc
  -- where the reward chain starts, for how long both chains run, and from which element
  let (rcChallenge,eosVdfIters,ccStart) ← match previousSlot,prevB with
    | none,none => pure (E.genesisChallenge,expectedSubSlotIters,getDefaultElement)
    | none,some prev => do
      pure (prev.rewardInfusionNewChallenge,← uint64 (prev.subSlotIters-(← prev.ipIters C)),
        prev.challengeVdfOutput)
    | some previous,_ =>
      pure (E.hashRewardChainSubSlot previous.rewardChain,expectedSubSlotIters,getDefaultElement)
  reject (¬ skipVdfIsValid ∧ ¬ subSlot.proofs.rewardChainSlotProof.isValid E getDefaultElement
    rc.endOfSlotVdf (some ⟨rcChallenge,eosVdfIters,rc.endOfSlotVdf.output⟩)) .invalidRcEosVdf
  let ccVdf := cc.challengeChainEndOfSlotVdf
  let ccIters := match previousSlot,prevB with
    | _,none => E.subSlotItersStarting
    | none,some prev => prev.subSlotIters
    | some _,some _ => expectedSubSlotIters
  reject (ccVdf≠⟨challengeHash,ccIters,ccVdf.output⟩) .invalidCcEosVdf
  reject (¬ skipVdfIsValid ∧ ¬ subSlot.proofs.challengeChainSlotProof.isValidFrom E ccStart
    ⟨challengeHash,eosVdfIters,ccVdf.output⟩ ccVdf) .invalidCcEosVdf
  match prevB with
  | none => reject (rc.deficit≠E.minBlocksPerChallengeBlock) .invalidDeficit
  | some prev =>
    if prev.deficit=0 then reject (rc.deficit≠E.minBlocksPerChallengeBlock) .invalidDeficit
    else reject (rc.deficit≠prev.deficit) .invalidDeficit
  return sesHash

def validateFinishedSubSlots (prevB : Option BlockRecord) (canFinishEpoch : Bool)
    (expectedDifficulty expectedSubSlotIters : ℕ) (skipVdfIsValid : Bool) :
    Option EndOfSubSlotBundle → Option Bytes32 → List EndOfSubSlotBundle → Check (Option Bytes32)
  | _,sesHash,[] => .ok sesHash
  | previous,sesHash,subSlot::more => do
    let sesHash ← validateFinishedSubSlot E V prevB previous canFinishEpoch expectedDifficulty
      expectedSubSlotIters skipVdfIsValid sesHash subSlot
    validateFinishedSubSlots prevB canFinishEpoch expectedDifficulty expectedSubSlotIters
      skipVdfIsValid (some subSlot) sesHash more

/-- Check 3: a summary is included exactly when a sub-epoch can be finished. -/
def validateSubEpochSummary (prevB : Option BlockRecord) (height : ℕ) (newSubSlot canFinishSe
    canFinishEpoch : Bool) (expectedDifficulty expectedSubSlotIters : ℕ)
    (checkSubEpochSummary : Bool) (sesHash : Option Bytes32) : Check Unit := do
  match sesHash,prevB with
  | some _,none => .error (.invalid .invalidSubEpochSummaryHash)
  | some hash,some prev =>
    reject (¬ newSubSlot ∨ ¬ canFinishSe) .invalidSubEpochSummaryHash
    if checkSubEpochSummary then
      let expected ← makeSubEpochSummary E.constants V E.toOracles height
        (← V.blockRecord prev.prevHash) (if canFinishEpoch then some expectedDifficulty else none)
        (if canFinishEpoch then some expectedSubSlotIters else none)
      reject (E.hashSubEpochSummary expected≠hash) .invalidSubEpochSummary
  | none,some _ =>
    reject (newSubSlot ∧ (canFinishSe ∨ canFinishEpoch)) .invalidSubEpochSummary
  | none,none => return ()

/-- Blocks back to the first one in the sub-slot, that one left out. -/
def blocksInSubSlot : ℕ → BlockRecord → Check ℕ
  | 0,_ => .error (.raised .diverged)
  | n+1,curr =>
    if curr.firstInSubSlot then .ok 0
    else do return (← blocksInSubSlot n (← V.blockRecord curr.prevHash))+1

/-- Check 10: the total iterations that the block must have. -/
def expectedTotalIters (prevB : Option BlockRecord) (finishedSubSlotsSincePrev : ℕ)
    (expectedSubSlotIters ipIters : ℕ) : Check ℕ := do
  let base ← match prevB with
    | none => uint128 (expectedSubSlotIters*finishedSubSlotsSincePrev : ℕ)
    | some prev =>
      if finishedSubSlotsSincePrev > 0 then do
        let rest ← uint128 (prev.totalIters+prev.subSlotIters-(← prev.ipIters E.constants))
        uint128 (rest+expectedSubSlotIters*(finishedSubSlotsSincePrev-1))
      else do uint128 (prev.totalIters-(← prev.ipIters E.constants))
  uint128 (base+ipIters)

/-- A sub-slot to stand for the one that is not finished yet. -/
def dummySubSlot : EndOfSubSlotBundle :=
  let vdf : VDFInfo := ⟨zeros32,1,getDefaultElement⟩
  let proof : VDFProof := ⟨0,[],false⟩
  ⟨⟨vdf,none,none,none,none⟩,none,⟨vdf,zeros32,none,0⟩,⟨proof,none,proof⟩⟩

/-- Check 11: the reward chain signage point; gives its hash. -/
def validateRcSp (header : UnfinishedHeaderBlock) (prevB : Option BlockRecord) (newSubSlot : Bool)
    (info : SignagePointVdfInfo) (spIters : ℕ) (skipVdfIsValid : Bool) : Check Bytes32 := do
  if spIters≠0 then
    let vdf ← assertSome header.rewardChainBlock.rewardChainSpVdf
    let proof ← assertSome header.rewardChainSpProof
    reject (¬ skipVdfIsValid ∧ ¬ proof.isValid E getDefaultElement vdf
      (some ⟨info.rcVdfChallenge,info.spVdfIters,vdf.output⟩)) .invalidRcSpVdf
    return vdf.output.getHash E
  else
    reject header.rewardChainBlock.rewardChainSpVdf.isSome .invalidRcSpVdf
    if newSubSlot then
      return E.hashRewardChainSubSlot (← index header.finishedSubSlots.getLast?).rewardChain
    else
      match prevB with
      | none => return E.genesisChallenge
      | some prev =>
        let curr ← V.walkBack (·.firstInSubSlot) prev
        index (← assertSome curr.finishedRewardSlotHashes).getLast?

/-- Check 13: the challenge chain signage point. -/
def validateCcSp (header : UnfinishedHeaderBlock) (info : SignagePointVdfInfo) (spIters : ℕ)
    (skipVdfIsValid : Bool) : Check Unit := do
  if spIters≠0 then
    let vdf ← assertSome header.rewardChainBlock.challengeChainSpVdf
    let proof ← assertSome header.challengeChainSpProof
    reject (vdf≠⟨info.ccVdfChallenge,spIters,vdf.output⟩) .invalidCcSpVdf
    reject (¬ skipVdfIsValid ∧ ¬ proof.isValidFrom E info.ccVdfInput
      ⟨info.ccVdfChallenge,info.spVdfIters,vdf.output⟩ vdf) .invalidCcSpVdf
  else reject header.rewardChainBlock.challengeChainSpVdf.isSome .invalidCcSpVdf

/-- Check 15: a transaction block has its signage point past the last one's infusion. -/
def validateIsTransactionBlock (prevB : Option BlockRecord) (foliage : Foliage)
    (spTotalIters : ℕ) : Check Unit := do
  match prevB with
  | none => reject foliage.foliageTransactionBlockHash.isNone .invalidIsTransactionBlock
  | some prev =>
    let curr ← V.lastTransactionBlock prev
    let past := decide (spTotalIters > curr.totalIters)
    reject (past≠foliage.foliageTransactionBlockHash.isSome) .invalidIsTransactionBlock
    reject (past≠foliage.foliageTransactionBlockSignature.isSome) .invalidIsTransactionBlock

/-- `AugSchemeMPL.verify` of an optional signature; a missing one raises. -/
def verifyOptional (key : G1Element) (message : Bytes) (signature : Option G2Element) : Check Bool := do
  return E.verify key message (← assertSome signature)

/-- Checks 20a to 20c: where the pool reward may go. -/
def validatePoolTarget (genesisBlock : Bool) (pos : ProofOfSpace) (data : FoliageBlockData) :
    Check Unit := do
  if genesisBlock then
    reject (data.poolTarget.puzzleHash≠E.genesisPreFarmPoolPuzzleHash) .invalidPrefarm
    reject (data.farmerRewardPuzzleHash≠E.genesisPreFarmFarmerPuzzleHash) .invalidPrefarm
  else
    let target := bytes32 data.poolTarget.puzzleHash++uint32Bytes data.poolTarget.maxHeight
    -- a target signed with the plot key is good as well
    let byPlotKey := verifyOptional E pos.plotPublicKey (bytes32 (E.stdHash target)) data.poolSignature
    match pos.poolPublicKey with
    | some pk =>
      assertThat pos.poolContractPuzzleHash.isNone
      if ¬ (← verifyOptional E pk target data.poolSignature) then
        reject (¬ (← byPlotKey)) .invalidPoolSignature
    | none =>
      let contract ← assertSome pos.poolContractPuzzleHash
      if data.poolTarget.puzzleHash≠contract then
        reject (¬ (← byPlotKey)) .invalidPoolTarget

/-- Checks 22 to 26: the foliage transaction block. -/
def validateFoliage (prevB : Option BlockRecord) (header : UnfinishedHeaderBlock)
    (checkFilter : Bool) : Check Unit := do
  let foliage := header.foliage
  reject (foliage.foliageTransactionBlockHash.isSome≠header.foliageTransactionBlock.isSome)
    .invalidFoliageBlockPresence
  reject (foliage.foliageTransactionBlockSignature.isSome≠header.foliageTransactionBlock.isSome)
    .invalidFoliageBlockPresence
  match header.foliageTransactionBlock with
  | none => return ()
  | some ftb =>
    reject (some (E.hashFoliageTransactionBlock ftb)≠foliage.foliageTransactionBlockHash)
      .invalidFoliageBlockHash
    match prevB with
    | none => reject (ftb.prevTransactionBlockHash≠E.genesisChallenge) .invalidPrevBlockHash
    | some prev =>
      let curr ← V.lastTransactionBlock prev
      reject (ftb.prevTransactionBlockHash≠curr.headerHash) .invalidPrevBlockHash
    reject (checkFilter ∧ ftb.filterHash≠E.stdHash header.transactionsFilter)
      .invalidTransactionsFilterHash
    reject (ftb.timestamp > E.now+E.maxFutureTime) .timestampTooFarInFuture
    match prevB with
    | none => return ()
    | some _ =>
      let prevTransactionB ← V.blockRecord ftb.prevTransactionBlockHash
      let timestamp ← assertSome prevTransactionB.timestamp
      reject (ftb.timestamp≤timestamp) .timestampTooFarInPast

def validateUnfinishedHeaderBlock (header : UnfinishedHeaderBlock) (checkFilter : Bool)
    (expectedDifficulty expectedSubSlotIters : ℕ) (skipOverflowLastSsValidation skipVdfIsValid
    checkSubEpochSummary : Bool) : Check ℕ := do
  let C := E.constants
  let rcb := header.rewardChainBlock
  let prevHash := header.foliage.prevBlockHash
  -- 1. the previous block
  let prevB := V.tryBlockRecord prevHash
  let genesisBlock := prevB.isNone
  reject (genesisBlock ∧ prevHash≠E.genesisChallenge) .invalidPrevBlockHash
  let overflow ← isOverflowBlock C rcb.signagePointIndex
  let skip ←
    if skipOverflowLastSsValidation ∧ overflow then do
      pure (!(← finalEosIsAlreadyIncluded V header.finishedSubSlots prevHash rcb.totalIters
        expectedSubSlotIters))
    else pure skipOverflowLastSsValidation
  let finishedSubSlotsSincePrev :=
    if skip ∧ overflow then header.finishedSubSlots.length+1 else header.finishedSubSlots.length
  let newSubSlot := decide (finishedSubSlotsSincePrev > 0)
  let (height,canFinishSe,canFinishEpoch) ← match prevB with
    | none => do
      assertThat (expectedDifficulty=E.difficultyStarting)
      assertThat (expectedSubSlotIters=E.subSlotItersStarting)
      pure (0,false,false)
    | some prev => do
      let height ← uint32 (prev.height+1)
      if newSubSlot then
        let (se,epoch) ← canFinishSubAndFullEpoch C V prev.height prev.prevHash prev.deficit
          prev.subEpochSummaryIncluded.isSome
        pure (height,se,epoch)
      else pure (height,false,false)
  -- 2. the sub-slots finished since the previous block
  let sesHash ←
    if newSubSlot ∧ ¬ skip then
      validateFinishedSubSlots E V prevB canFinishEpoch expectedDifficulty expectedSubSlotIters
        skipVdfIsValid none none header.finishedSubSlots
    else pure none
  -- 3. the sub-epoch summary
  if newSubSlot ∧ ¬ skip then
    validateSubEpochSummary E V prevB height newSubSlot canFinishSe canFinishEpoch
      expectedDifficulty expectedSubSlotIters checkSubEpochSummary sesHash
  -- 4. the number of blocks in the sub-slot
  match prevB with
  | none => pure ()
  | some prev =>
    if ¬ newSubSlot then
      let numBlocks := 2+(← blocksInSubSlot V (prev.height+1) prev)
      reject (numBlocks > E.maxSubSlotBlocks) .tooManyBlocks
  let challenge ← getBlockChallenge E V header.finishedSubSlots prevHash genesisBlock overflow skip
  -- 5. the proof of space
  reject (challenge≠rcb.posSsCcChallengeHash) .invalidCcChallenge
  let ccSpHash := match rcb.challengeChainSpVdf with
    | none => challenge
    | some vdf => vdf.output.getHash E
  let qStr ← match (← rcb.proofOfSpace.verifyAndGetQualityString E challenge ccSpHash) with
    | none => .error (.invalid .invalidPospace)
    | some q => pure q
  -- 6. and 7. the signage point index and the required iterations
  reject (rcb.signagePointIndex ≥ E.numSpsSubSlot) .invalidSpIndex
  let requiredIters ← calculateIterationsQuality E.toOracles E.difficultyConstantFactor qStr
    rcb.proofOfSpace.size expectedDifficulty ccSpHash
  reject (requiredIters ≥ (← calculateSpIntervalIters C expectedSubSlotIters)) .invalidRequiredIters
  -- 8. the first signage point has no VDF
  reject (decide (rcb.signagePointIndex=0)≠rcb.challengeChainSpVdf.isNone) .invalidSpIndex
  reject (decide (rcb.signagePointIndex=0)≠rcb.rewardChainSpVdf.isNone) .invalidSpIndex
  let spIters ← calculateSpIters C expectedSubSlotIters rcb.signagePointIndex
  let ipIters ← calculateIpIters C expectedSubSlotIters rcb.signagePointIndex requiredIters
  assertThat (rcb.challengeChainSpVdf.isNone → ¬ overflow)
  -- 9. no overflow in the first sub-slot of an epoch
  reject (overflow ∧ canFinishEpoch ∧ finishedSubSlotsSincePrev<2)
    .noOverflowsInFirstSubSlotNewEpoch
  -- 10. the total iterations
  let totalIters ← expectedTotalIters E prevB finishedSubSlotsSincePrev expectedSubSlotIters ipIters
  reject (totalIters≠rcb.totalIters) .invalidTotalIters
  let spTotalIters ← uint128 (totalIters-ipIters+spIters -
    (if overflow then expectedSubSlotIters else 0 : ℕ))
  let subSlots :=
    if overflow ∧ skip then header.finishedSubSlots++[dummySubSlot] else header.finishedSubSlots
  let info ← getSignagePointVdfInfo E V subSlots overflow prevB spTotalIters spIters
  -- 11. to 14. the signage points and their signatures
  let rcSpHash ← validateRcSp E V header prevB newSubSlot info spIters skipVdfIsValid
  let plotKey := rcb.proofOfSpace.plotPublicKey
  reject (¬ E.verify plotKey (bytes32 rcSpHash) rcb.rewardChainSpSignature) .invalidRcSignature
  validateCcSp E header info spIters skipVdfIsValid
  reject (¬ E.verify plotKey (bytes32 ccSpHash) rcb.challengeChainSpSignature) .invalidCcSignature
  validateIsTransactionBlock V prevB header.foliage spTotalIters
  -- 16. and 17. the foliage signatures
  let data := header.foliage.foliageBlockData
  reject (¬ E.verify plotKey (bytes32 (E.hashFoliageBlockData data))
    header.foliage.foliageBlockDataSignature) .invalidPlotSignature
  match header.foliage.foliageTransactionBlockHash with
  | none => pure ()
  | some hash =>
    reject (¬ (← verifyOptional E plotKey (bytes32 hash)
      header.foliage.foliageTransactionBlockSignature)) .invalidPlotSignature
  -- 18. and 19. the unfinished reward block and the pool target
  reject (E.hashRewardChainBlockUnfinished rcb≠data.unfinishedRewardBlockHash) .invalidUrsbHash
  reject (data.poolTarget.maxHeight≠0 ∧ data.poolTarget.maxHeight<height) .oldPoolTarget
  validatePoolTarget E genesisBlock rcb.proofOfSpace data
  validateFoliage E V prevB header checkFilter
  return requiredIters

def HeaderBlock.unfinished (h : HeaderBlock) : UnfinishedHeaderBlock :=
  ⟨h.finishedSubSlots,h.rewardChainBlock.getUnfinished,h.challengeChainSpProof,
    h.rewardChainSpProof,h.foliage,h.foliageTransactionBlock,h.transactionsFilter⟩

/-- Check 31: the infused challenge chain at the infusion point. -/
def validateIccIp (header : HeaderBlock) (prev : BlockRecord) (ipVdfIters : ℕ) : Check Unit := do
  let C := E.constants
  let rcb := header.rewardChainBlock
  let overflow ← isOverflowBlock C rcb.signagePointIndex
  let deficit ← calculateDeficit C rcb.height (some prev) overflow header.finishedSubSlots.length
  match rcb.infusedChallengeChainIpVdf with
  | none => reject ((deficit : ℤ)<C.minBlocksPerChallengeBlock-1) .invalidIccVdf
  | some vdf =>
    let proof ← assertSome header.infusedChallengeChainIpProof
    reject ((deficit : ℤ) ≥ C.minBlocksPerChallengeBlock-1) .invalidIccVdf
    let (challenge,input) ← match header.finishedSubSlots.getLast? with
      | some last => do
        let icc ← assertSome last.infusedChallengeChain
        pure (E.hashInfusedChallengeChainSubSlot icc,some getDefaultElement)
      | none => do
        let input :=
          if prev.isChallengeBlock C then some getDefaultElement else prev.infusedChallengeVdfOutput
        let curr ← V.walkBack
          (fun b => b.finishedInfusedChallengeSlotHashes.isSome || b.isChallengeBlock C) prev
        if curr.isChallengeBlock C then pure (curr.challengeBlockInfoHash,input)
        else do
          let hashes ← assertSome curr.finishedInfusedChallengeSlotHashes
          pure (← index hashes.getLast?,input)
    match input with
    | none => .error (.invalid .invalidIccVdf)
    | some element =>
      reject (¬ proof.isValid E element vdf (some ⟨challenge,ipVdfIters,vdf.output⟩)) .invalidIccVdf

/-- Checks 29 and 30: the challenge and reward chains at the infusion point. -/
def validateIp (header : HeaderBlock) (prevB : Option BlockRecord) (ipIters : ℕ) : Check ℕ := do
  let rcb := header.rewardChainBlock
  let (rcChallenge,ipVdfIters,ccInput,ccChallenge) ←
    match header.finishedSubSlots.getLast?,prevB with
    | some last,_ =>
      pure (E.hashRewardChainSubSlot last.rewardChain,ipIters,getDefaultElement,
        E.hashChallengeChainSubSlot last.challengeChain)
    | none,none => pure (E.genesisChallenge,ipIters,getDefaultElement,E.genesisChallenge)
    | none,some prev => do
      let iters ← uint64 (rcb.totalIters-prev.totalIters)
      let curr ← V.walkBack (·.finishedChallengeSlotHashes.isSome) prev
      let hashes ← assertSome curr.finishedChallengeSlotHashes
      pure (prev.rewardInfusionNewChallenge,iters,prev.challengeVdfOutput,← index hashes.getLast?)
  let ccVdf := rcb.challengeChainIpVdf
  reject (ccVdf≠⟨ccChallenge,ipIters,ccVdf.output⟩) .invalidCcIpVdf
  reject (¬ header.challengeChainIpProof.isValidFrom E ccInput
    ⟨ccChallenge,ipVdfIters,ccVdf.output⟩ ccVdf) .invalidCcIpVdf
  let rcVdf := rcb.rewardChainIpVdf
  reject (¬ header.rewardChainIpProof.isValid E getDefaultElement rcVdf
    (some ⟨rcChallenge,ipVdfIters,rcVdf.output⟩)) .invalidRcIpVdf
  return ipVdfIters

def validateFinishedHeaderBlock (header : HeaderBlock) (checkFilter : Bool)
    (expectedDifficulty expectedSubSlotIters : ℕ) (checkSubEpochSummary : Bool) : Check ℕ := do
  let rcb := header.rewardChainBlock
  let requiredIters ← validateUnfinishedHeaderBlock E V header.unfinished checkFilter
    expectedDifficulty expectedSubSlotIters false false checkSubEpochSummary
  let prevB ← if rcb.height=0 then pure none else some <$> V.blockRecord header.foliage.prevBlockHash
  let ipIters ← calculateIpIters E.constants expectedSubSlotIters rcb.signagePointIndex
    requiredIters
  -- 27. and 28. height and weight
  match prevB with
  | some prev =>
    reject (rcb.height≠prev.height+1) .invalidHeight
    reject (rcb.weight≠prev.weight+expectedDifficulty) .invalidWeight
  | none =>
    reject (rcb.weight≠E.difficultyStarting) .invalidWeight
    reject (header.foliage.prevBlockHash≠E.genesisChallenge) .invalidPrevBlockHash
  let ipVdfIters ← validateIp E V header prevB ipIters
  match prevB with
  | some prev => validateIccIp E V header prev ipVdfIters
  | none => reject header.infusedChallengeChainIpProof.isSome .invalidIccVdf
  -- 32. and 33. the reward block
  reject (header.foliage.rewardBlockHash≠E.hashRewardChainBlock rcb) .invalidRewardBlockHash
  reject (header.foliage.foliageTransactionBlockHash.isSome≠rcb.isTransactionBlock)
    .invalidFoliageBlockPresence
  return requiredIters

end RoseChain
