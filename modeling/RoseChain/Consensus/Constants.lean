import RoseChain.Types.Condition

namespace RoseChain

/-- The constants of a network. -/
structure ConsensusConstants where
  slotBlocksTarget : ℕ
  minBlocksPerChallengeBlock : ℕ
  maxSubSlotBlocks : ℕ
  numSpsSubSlot : ℕ
  subSlotItersStarting : ℕ
  difficultyConstantFactor : ℕ
  difficultyStarting : ℕ
  difficultyChangeMaxFactor : ℕ
  subEpochBlocks : ℕ
  epochBlocks : ℕ
  significantBits : ℕ
  numberZeroBitsPlotFilter : ℕ
  minPlotSize : ℕ
  maxPlotSize : ℕ
  subSlotTimeTarget : ℕ
  numSpIntervalsExtra : ℕ
  maxFutureTime : ℕ
  numberOfTimestamps : ℕ
  genesisChallenge : Bytes32
  aggSigMeAdditionalData : Bytes
  genesisPreFarmPoolPuzzleHash : Bytes32
  genesisPreFarmFarmerPuzzleHash : Bytes32
  maxVdfWitnessSize : ℕ
  mempoolBlockBuffer : ℕ
  maxCoinAmount : ℕ
  maxBlockCostClvm : ℕ
  costPerByte : ℕ
  initialFreezeEndTimestamp : ℕ
  blocksCacheSize : ℕ
  maxGeneratorRefListSize : ℕ

/-- What the program takes from hashing, serialisation and cryptography; any functions will do. -/
structure Oracles where
  stdHash : Bytes → Bytes32
  coinName : Coin → Bytes32
  hashTransactionsInfo : TransactionsInfo → Bytes32
  hashFoliageTransactionBlock : FoliageTransactionBlock → Bytes32
  hashFoliage : Foliage → Bytes32
  hashFoliageBlockData : FoliageBlockData → Bytes32
  hashRewardChainBlock : RewardChainBlock → Bytes32
  hashRewardChainBlockUnfinished : RewardChainBlockUnfinished → Bytes32
  hashChallengeChainSubSlot : ChallengeChainSubSlot → Bytes32
  hashInfusedChallengeChainSubSlot : InfusedChallengeChainSubSlot → Bytes32
  hashRewardChainSubSlot : RewardChainSubSlot → Bytes32
  hashChallengeBlockInfo : ChallengeBlockInfo → Bytes32
  hashSubEpochSummary : SubEpochSummary → Bytes32
  /-- Runs the generator program, in strict mode or not; an exception gives `none`. -/
  runGenerator : Bool → ℤ → SerializedProgram → List SerializedProgram → Option (ℕ × SExp)
  g1FromBytes : Bytes → Option G1Element
  aggregateVerify : List G1Element → List Bytes → G2Element → Bool
  /-- `AugSchemeMPL.verify`. -/
  verify : G1Element → Bytes → G2Element → Bool
  /-- The encoded BIP158 filter of a list of items. -/
  bip158 : List Bytes → Bytes
  /-- Challenge, input, output with witness, iterations and witness type of a VDF. -/
  verifyVdf : Bytes32 → Bytes → Bytes → ℕ → ℕ → Bool
  /-- Quality string of a proof for a plot id, a plot size and a challenge. -/
  validateProof : Bytes32 → ℕ → Bytes32 → Bytes → Option Bytes32
  /-- `int(time.time())`. -/
  now : ℕ

structure Env extends constants : ConsensusConstants,Oracles

/-- A small network to evaluate on: every check of a signature or a proof passes. -/
def tinyEnv : Env where
  slotBlocksTarget := 32
  minBlocksPerChallengeBlock := 16
  maxSubSlotBlocks := 128
  numSpsSubSlot := 64
  subSlotItersStarting := 1024
  difficultyConstantFactor := 1
  difficultyStarting := 7
  difficultyChangeMaxFactor := 3
  subEpochBlocks := 384
  epochBlocks := 4608
  significantBits := 8
  numberZeroBitsPlotFilter := 9
  minPlotSize := 32
  maxPlotSize := 50
  subSlotTimeTarget := 600
  numSpIntervalsExtra := 3
  maxFutureTime := 300
  numberOfTimestamps := 11
  genesisChallenge := 1
  aggSigMeAdditionalData := []
  genesisPreFarmPoolPuzzleHash := 0
  genesisPreFarmFarmerPuzzleHash := 0
  maxVdfWitnessSize := 64
  mempoolBlockBuffer := 50
  maxCoinAmount := 2^64-1
  maxBlockCostClvm := 11000000000
  costPerByte := 12000
  initialFreezeEndTimestamp := 0
  blocksCacheSize := 4608
  maxGeneratorRefListSize := 512
  stdHash _ := 0
  coinName c := c.parentCoinInfo+2^100
  hashTransactionsInfo _ := 0
  hashFoliageTransactionBlock _ := 0
  hashFoliage f := f.foliageBlockData.extensionData
  hashFoliageBlockData _ := 0
  hashRewardChainBlock _ := 0
  hashRewardChainBlockUnfinished _ := 0
  hashChallengeChainSubSlot _ := 0
  hashInfusedChallengeChainSubSlot _ := 0
  hashRewardChainSubSlot _ := 0
  hashChallengeBlockInfo _ := 0
  hashSubEpochSummary _ := 0
  runGenerator _ _ _ _ := none
  g1FromBytes := some
  aggregateVerify _ _ _ := true
  verify _ _ _ := true
  bip158 _ := []
  verifyVdf _ _ _ _ _ := true
  validateProof _ _ _ _ := some 0
  now := 0

end RoseChain
