import RoseChain.Types.Basic

namespace RoseChain

abbrev G1Element := Bytes
abbrev G2Element := Bytes

structure ClassgroupElement where
  data : Bytes
  deriving DecidableEq

/-- `b"\x08"` padded to 100 bytes. -/
def ClassgroupElement.getDefaultElement : ClassgroupElement := ⟨8::List.replicate 99 0⟩

structure VDFInfo where
  challenge : Bytes32
  numberOfIterations : ℕ
  output : ClassgroupElement
  deriving DecidableEq

structure VDFProof where
  witnessType : ℕ
  witness : Bytes
  normalizedToIdentity : Bool
  deriving DecidableEq

structure ChallengeChainSubSlot where
  challengeChainEndOfSlotVdf : VDFInfo
  infusedChallengeChainSubSlotHash : Option Bytes32
  subepochSummaryHash : Option Bytes32
  newSubSlotIters : Option ℕ
  newDifficulty : Option ℕ
  deriving DecidableEq

structure InfusedChallengeChainSubSlot where
  infusedChallengeChainEndOfSlotVdf : VDFInfo
  deriving DecidableEq

structure RewardChainSubSlot where
  endOfSlotVdf : VDFInfo
  challengeChainSubSlotHash : Bytes32
  infusedChallengeChainSubSlotHash : Option Bytes32
  deficit : ℕ
  deriving DecidableEq

structure SubSlotProofs where
  challengeChainSlotProof : VDFProof
  infusedChallengeChainSlotProof : Option VDFProof
  rewardChainSlotProof : VDFProof
  deriving DecidableEq

structure EndOfSubSlotBundle where
  challengeChain : ChallengeChainSubSlot
  infusedChallengeChain : Option InfusedChallengeChainSubSlot
  rewardChain : RewardChainSubSlot
  proofs : SubSlotProofs
  deriving DecidableEq

structure ProofOfSpace where
  challenge : Bytes32
  poolPublicKey : Option G1Element
  poolContractPuzzleHash : Option Bytes32
  plotPublicKey : G1Element
  size : ℕ
  proof : Bytes
  deriving DecidableEq

structure ChallengeBlockInfo where
  proofOfSpace : ProofOfSpace
  challengeChainSpVdf : Option VDFInfo
  challengeChainSpSignature : G2Element
  challengeChainIpVdf : VDFInfo
  deriving DecidableEq

structure RewardChainBlockUnfinished where
  totalIters : ℕ
  signagePointIndex : ℕ
  posSsCcChallengeHash : Bytes32
  proofOfSpace : ProofOfSpace
  challengeChainSpVdf : Option VDFInfo
  challengeChainSpSignature : G2Element
  rewardChainSpVdf : Option VDFInfo
  rewardChainSpSignature : G2Element
  deriving DecidableEq

structure RewardChainBlock where
  weight : ℕ
  height : ℕ
  totalIters : ℕ
  signagePointIndex : ℕ
  posSsCcChallengeHash : Bytes32
  proofOfSpace : ProofOfSpace
  challengeChainSpVdf : Option VDFInfo
  challengeChainSpSignature : G2Element
  challengeChainIpVdf : VDFInfo
  rewardChainSpVdf : Option VDFInfo
  rewardChainSpSignature : G2Element
  rewardChainIpVdf : VDFInfo
  infusedChallengeChainIpVdf : Option VDFInfo
  isTransactionBlock : Bool
  deriving DecidableEq

def RewardChainBlock.getUnfinished (b : RewardChainBlock) : RewardChainBlockUnfinished :=
  ⟨b.totalIters,b.signagePointIndex,b.posSsCcChallengeHash,b.proofOfSpace,
    b.challengeChainSpVdf,b.challengeChainSpSignature,b.rewardChainSpVdf,
    b.rewardChainSpSignature⟩

structure PoolTarget where
  puzzleHash : Bytes32
  maxHeight : ℕ
  deriving DecidableEq

structure TransactionsInfo where
  generatorRoot : Bytes32
  generatorRefsRoot : Bytes32
  aggregatedSignature : G2Element
  fees : ℕ
  cost : ℕ
  rewardClaimsIncorporated : List Coin
  deriving DecidableEq

structure FoliageTransactionBlock where
  prevTransactionBlockHash : Bytes32
  timestamp : ℕ
  filterHash : Bytes32
  additionsRoot : Bytes32
  removalsRoot : Bytes32
  transactionsInfoHash : Bytes32
  deriving DecidableEq

structure FoliageBlockData where
  unfinishedRewardBlockHash : Bytes32
  poolTarget : PoolTarget
  poolSignature : Option G2Element
  farmerRewardPuzzleHash : Bytes32
  extensionData : Bytes32
  deriving DecidableEq

structure Foliage where
  prevBlockHash : Bytes32
  rewardBlockHash : Bytes32
  foliageBlockData : FoliageBlockData
  foliageBlockDataSignature : G2Element
  foliageTransactionBlockHash : Option Bytes32
  foliageTransactionBlockSignature : Option G2Element
  deriving DecidableEq

structure SubEpochSummary where
  prevSubepochSummaryHash : Bytes32
  rewardChainHash : Bytes32
  numBlocksOverflow : ℕ
  newDifficulty : Option ℕ
  newSubSlotIters : Option ℕ
  deriving DecidableEq

/-- The serialized bytes of a program. -/
abbrev SerializedProgram := Bytes

structure GeneratorArg where
  blockHeight : ℕ
  generator : SerializedProgram
  deriving DecidableEq

structure BlockGenerator where
  program : SerializedProgram
  generatorArgs : List GeneratorArg
  deriving DecidableEq

def BlockGenerator.blockHeightList (g : BlockGenerator) : List ℕ := g.generatorArgs.map (·.blockHeight)

def BlockGenerator.generatorRefs (g : BlockGenerator) : List SerializedProgram :=
  g.generatorArgs.map (·.generator)

structure UnfinishedHeaderBlock where
  finishedSubSlots : List EndOfSubSlotBundle
  rewardChainBlock : RewardChainBlockUnfinished
  challengeChainSpProof : Option VDFProof
  rewardChainSpProof : Option VDFProof
  foliage : Foliage
  foliageTransactionBlock : Option FoliageTransactionBlock
  transactionsFilter : Bytes
  deriving DecidableEq

structure HeaderBlock where
  finishedSubSlots : List EndOfSubSlotBundle
  rewardChainBlock : RewardChainBlock
  challengeChainSpProof : Option VDFProof
  challengeChainIpProof : VDFProof
  rewardChainSpProof : Option VDFProof
  rewardChainIpProof : VDFProof
  infusedChallengeChainIpProof : Option VDFProof
  foliage : Foliage
  foliageTransactionBlock : Option FoliageTransactionBlock
  transactionsFilter : Bytes
  transactionsInfo : Option TransactionsInfo
  deriving DecidableEq

structure UnfinishedBlock where
  finishedSubSlots : List EndOfSubSlotBundle
  rewardChainBlock : RewardChainBlockUnfinished
  challengeChainSpProof : Option VDFProof
  rewardChainSpProof : Option VDFProof
  foliage : Foliage
  foliageTransactionBlock : Option FoliageTransactionBlock
  transactionsInfo : Option TransactionsInfo
  transactionsGenerator : Option SerializedProgram
  transactionsGeneratorRefList : List ℕ
  deriving DecidableEq

structure FullBlock where
  finishedSubSlots : List EndOfSubSlotBundle
  rewardChainBlock : RewardChainBlock
  challengeChainSpProof : Option VDFProof
  challengeChainIpProof : VDFProof
  rewardChainSpProof : Option VDFProof
  rewardChainIpProof : VDFProof
  infusedChallengeChainIpProof : Option VDFProof
  foliage : Foliage
  foliageTransactionBlock : Option FoliageTransactionBlock
  transactionsInfo : Option TransactionsInfo
  transactionsGenerator : Option SerializedProgram
  transactionsGeneratorRefList : List ℕ
  deriving DecidableEq

namespace FullBlock

def prevHeaderHash (b : FullBlock) : Bytes32 := b.foliage.prevBlockHash
def height (b : FullBlock) : ℕ := b.rewardChainBlock.height
def weight (b : FullBlock) : ℕ := b.rewardChainBlock.weight
def totalIters (b : FullBlock) : ℕ := b.rewardChainBlock.totalIters

def isTransactionBlock (b : FullBlock) : Bool := b.foliageTransactionBlock.isSome

/-- The set of claimed reward coins; callers that are no transaction block get none. -/
def getIncludedRewardCoins (b : FullBlock) : Check (List Coin) :=
  if b.isTransactionBlock then do
    let info ← assertSome b.transactionsInfo
    return info.rewardClaimsIncorporated.dedup
  else return []

def isFullyCompactified (b : FullBlock) : Bool :=
  let compact (p : VDFProof) : Bool := p.witnessType == 0 && p.normalizedToIdentity
  b.finishedSubSlots.all (fun s => compact s.proofs.challengeChainSlotProof &&
      s.proofs.infusedChallengeChainSlotProof.all compact) &&
    b.challengeChainSpProof.all compact && compact b.challengeChainIpProof

end FullBlock

/-- What is kept in memory about a block. -/
structure BlockRecord where
  headerHash : Bytes32
  prevHash : Bytes32
  height : ℕ
  weight : ℕ
  totalIters : ℕ
  signagePointIndex : ℕ
  challengeVdfOutput : ClassgroupElement
  infusedChallengeVdfOutput : Option ClassgroupElement
  rewardInfusionNewChallenge : Bytes32
  challengeBlockInfoHash : Bytes32
  subSlotIters : ℕ
  poolPuzzleHash : Bytes32
  farmerPuzzleHash : Bytes32
  requiredIters : ℕ
  deficit : ℕ
  overflow : Bool
  prevTransactionBlockHeight : ℕ
  timestamp : Option ℕ
  prevTransactionBlockHash : Option Bytes32
  fees : Option ℕ
  rewardClaimsIncorporated : Option (List Coin)
  finishedChallengeSlotHashes : Option (List Bytes32)
  finishedInfusedChallengeSlotHashes : Option (List Bytes32)
  finishedRewardSlotHashes : Option (List Bytes32)
  subEpochSummaryIncluded : Option SubEpochSummary
  deriving DecidableEq

namespace BlockRecord

def isTransactionBlock (b : BlockRecord) : Bool := b.timestamp.isSome

def firstInSubSlot (b : BlockRecord) : Bool := b.finishedChallengeSlotHashes.isSome

end BlockRecord
end RoseChain
