import RoseChain.Consensus.BlockBodyValidation
import RoseChain.Consensus.BlockHeaderValidation

namespace RoseChain
variable (E : Env) (V : BlockView)

/-- Whether a block of a signage point is a transaction block, and with it the last one before. -/
def getPrevTransactionBlock (curr : BlockRecord) (totalItersSp : ℕ) : Check (Bool × BlockRecord) := do
  let last ← V.lastTransactionBlock curr
  if totalItersSp > last.totalIters then return (true,last) else return (false,curr)

/-- What the farmer's keys sign. -/
structure Signer where
  getPlotSignature : Bytes32 → G1Element → G2Element
  getPoolSignature : PoolTarget → Option G1Element → Option G2Element

/-- The loop of `create_foliage` over the blocks before the last transaction block. -/
def claimsBefore (C : ConsensusConstants) : ℕ → BlockRecord → List Coin → Check (List Coin)
  | 0,_,_ => .error (.raised .diverged)
  | n+1,curr,claims =>
    if curr.isTransactionBlock then .ok claims
    else do claimsBefore C n (← V.blockRecord curr.prevHash) (claims++rewardCoins C curr 0)

/-- The reward claims of a transaction block after `prevBlock`. -/
def rewardClaimsIncorporated (prevBlock prevTransactionBlock : BlockRecord) : Check (List Coin) := do
  let C := E.constants
  let curr ← V.lastTransactionBlock prevBlock
  let fees ← assertSome curr.fees
  let _ ← uint64 (calculateBaseFarmerReward curr.height+fees)
  assertThat (curr.headerHash=prevTransactionBlock.headerHash)
  if curr.height > 0 then
    let older ← V.blockRecord curr.prevHash
    claimsBefore V C (older.height+1) older (rewardCoins C curr fees)
  else return rewardCoins C curr fees

def feesAndCost (blockGenerator : Option BlockGenerator) (additions removals : List Coin) : Check (ℕ × ℕ) :=
  match blockGenerator with
  | none => return (0,0)
  | some generator => do
    let cost ← calculateCostOfProgram E generator.program
      (getNamePuzzleConditions E generator E.maxBlockCostClvm true)
    let fees ← uint64 ((removals.map (·.amount)).sum-(additions.map (·.amount)).sum)
    return (fees,cost)

def generatorHashes (blockGenerator : Option BlockGenerator) : Bytes32 × Bytes32 :=
  match blockGenerator with
  | none => (zeros32,ones32)
  | some generator =>
    (E.stdHash generator.program,
      if generator.blockHeightList=[] then ones32
      else E.stdHash (generator.blockHeightList.flatMap uint32Bytes))

/-- The transaction part of a foliage, with the claims among the additions. -/
def transactionFoliage (blockGenerator : Option BlockGenerator) (aggregateSig : G2Element)
    (additions removals claims : List Coin) (prevTransactionBlockHash : Bytes32) (timestamp : ℕ) :
    Check (FoliageTransactionBlock × TransactionsInfo) := do
  let (fees,cost) ← feesAndCost E blockGenerator additions removals
  let txAdditions := additions++claims
  let txRemovals := removals.map E.coinName
  let additionsRoot ← additionsRootOf E txAdditions
  let removalsRoot ← removalsRootOf E txRemovals
  let (generatorHash,generatorRefsHash) := generatorHashes E blockGenerator
  let info : TransactionsInfo := ⟨generatorHash,generatorRefsHash,aggregateSig,fees,cost,claims⟩
  return (⟨prevTransactionBlockHash,timestamp,E.stdHash (E.bip158 (filterItems txAdditions txRemovals)),
    additionsRoot,removalsRoot,E.hashTransactionsInfo info⟩,info)

/-- What a foliage is created from, other than the previous block. -/
structure FoliageInput where
  rewardBlockUnfinished : RewardChainBlockUnfinished
  blockGenerator : Option BlockGenerator
  aggregateSig : G2Element
  additions : List Coin
  removals : List Coin
  totalItersSp : ℕ
  timestamp : ℕ
  farmerRewardPuzzleHash : Bytes32
  poolTarget : PoolTarget
  signer : Signer
  extensionData : Bytes32

/-- The transaction part at the signage point, where the block is to be a transaction block. -/
def createTransactionFoliage (i : FoliageInput) (prevBlock : Option BlockRecord) :
    Check (Option (FoliageTransactionBlock × TransactionsInfo)) :=
  match prevBlock with
  | none => some <$> transactionFoliage E i.blockGenerator i.aggregateSig i.additions i.removals [] E.genesisChallenge
      i.timestamp
  | some prev => do
    let (isTransactionBlock,prevTransactionBlock) ← getPrevTransactionBlock V prev i.totalItersSp
    if isTransactionBlock then
      let claims ← rewardClaimsIncorporated E V prev prevTransactionBlock
      some <$> transactionFoliage E i.blockGenerator i.aggregateSig i.additions i.removals claims
        prevTransactionBlock.headerHash i.timestamp
    else return none

def createFoliage (i : FoliageInput) (prevBlock : Option BlockRecord) :
    Check (Foliage × Option FoliageTransactionBlock × Option TransactionsInfo) := do
  let _ ← uint32 ((prevBlock.map fun b => b.height+1).getD 0 : ℕ)
  let pos := i.rewardBlockUnfinished.proofOfSpace
  let rewardHash := E.hashRewardChainBlockUnfinished i.rewardBlockUnfinished
  let made ← createTransactionFoliage E V i prevBlock
  let data : FoliageBlockData := ⟨rewardHash,i.poolTarget,i.signer.getPoolSignature i.poolTarget pos.poolPublicKey,
    i.farmerRewardPuzzleHash,i.extensionData⟩
  let hash := made.map fun m => E.hashFoliageTransactionBlock m.1
  return (⟨(prevBlock.map (·.headerHash)).getD E.genesisChallenge,rewardHash,data,
      i.signer.getPlotSignature (E.hashFoliageBlockData data) pos.plotPublicKey,hash,
      hash.map fun h => i.signer.getPlotSignature h pos.plotPublicKey⟩,
    made.map (·.1),made.map (·.2))

/-- What the infusion adds. -/
structure Infusion where
  ccIpVdf : VDFInfo
  ccIpProof : VDFProof
  rcIpVdf : VDFInfo
  rcIpProof : VDFProof
  iccIpVdf : Option VDFInfo
  iccIpProof : Option VDFProof
  finishedSubSlots : List EndOfSubSlotBundle
  totalItersSp : ℕ
  difficulty : ℕ

/-- The full block, with the hash of its reward block in the foliage. -/
def finishBlock (unfinished : UnfinishedBlock) (i : Infusion) (isTransactionBlock : Bool) (weight height : ℕ) :
    FullBlock :=
  let r := unfinished.rewardChainBlock
  let rewardChainBlock : RewardChainBlock := ⟨weight,height,r.totalIters,r.signagePointIndex,
    r.posSsCcChallengeHash,r.proofOfSpace,r.challengeChainSpVdf,r.challengeChainSpSignature,i.ccIpVdf,
    r.rewardChainSpVdf,r.rewardChainSpSignature,i.rcIpVdf,i.iccIpVdf,isTransactionBlock⟩
  ⟨i.finishedSubSlots,rewardChainBlock,unfinished.challengeChainSpProof,i.ccIpProof,unfinished.rewardChainSpProof,
    i.rcIpProof,i.iccIpProof,{ unfinished.foliage with rewardBlockHash := E.hashRewardChainBlock rewardChainBlock },
    unfinished.foliageTransactionBlock,unfinished.transactionsInfo,unfinished.transactionsGenerator,
    unfinished.transactionsGeneratorRefList⟩

/-- Drops the transaction part of a block that came too late for it. -/
def withoutTransactions (u : UnfinishedBlock) : UnfinishedBlock :=
  { u with
    foliage := { u.foliage with foliageTransactionBlockHash := none,foliageTransactionBlockSignature := none }
    foliageTransactionBlock := none
    transactionsInfo := none
    transactionsGenerator := none
    transactionsGeneratorRefList := [] }

def unfinishedBlockToFullBlock (unfinished : UnfinishedBlock) (i : Infusion) (prevBlock : Option BlockRecord) :
    Check FullBlock :=
  match prevBlock with
  | none => do return finishBlock E unfinished i true (← uint128 i.difficulty) 0
  | some prev => do
    let (isTransactionBlock,_) ← getPrevTransactionBlock V prev i.totalItersSp
    let weight ← uint128 (prev.weight+i.difficulty)
    let height ← uint32 (prev.height+1)
    let kept := if isTransactionBlock then unfinished else withoutTransactions unfinished
    assertThat (kept.foliage.foliageTransactionBlockHash.isNone=kept.foliage.foliageTransactionBlockSignature.isNone)
    return finishBlock E { kept with foliage := { kept.foliage with prevBlockHash := prev.headerHash } } i
      isTransactionBlock weight height

end RoseChain
