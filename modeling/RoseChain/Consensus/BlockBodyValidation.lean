import RoseChain.Consensus.BlockRewards
import RoseChain.Consensus.ForkPoint
import RoseChain.FullNode.MempoolCheckConditions
import RoseChain.FullNode.Store
import RoseChain.Util.MerkleSet

namespace RoseChain
open Lib
variable (E : Env) (V : BlockView)

/-- What the body checks read of a full or an unfinished block. -/
structure BlockBody where
  prevHeaderHash : Bytes32
  foliageTransactionBlockHash : Option Bytes32
  foliageTransactionBlock : Option FoliageTransactionBlock
  transactionsInfo : Option TransactionsInfo
  transactionsGenerator : Option SerializedProgram
  transactionsGeneratorRefList : List ℕ

def FullBlock.body (b : FullBlock) : BlockBody :=
  ⟨b.prevHeaderHash,b.foliage.foliageTransactionBlockHash,b.foliageTransactionBlock,
    b.transactionsInfo,b.transactionsGenerator,b.transactionsGeneratorRefList⟩

/-- Check 1: a block that is no transaction block carries no data. -/
def validateNoBody (block : BlockBody) : Check Unit := do
  reject (block.foliageTransactionBlock.isSome ∨ block.transactionsInfo.isSome ∨
    block.transactionsGenerator.isSome) .notBlockButHasData
  let prevTb ← V.lastTransactionBlock (← V.blockRecord block.prevHeaderHash)
  let timestamp ← assertSome prevTb.timestamp
  reject (timestamp > E.initialFreezeEndTimestamp ∧ block.transactionsGeneratorRefList.length > 0)
    .notBlockButHasData

/-- The rewards of the blocks before a transaction block, back to the one before it. -/
def rewardsBefore (C : ConsensusConstants) (V : BlockView) : ℕ → BlockRecord → Check (List Coin)
  | 0,_ => .error (.raised .diverged)
  | n+1,currB =>
    if currB.isTransactionBlock then .ok []
    else do
      let older ← rewardsBefore C V n (← V.blockRecord currB.prevHash)
      return rewardCoins C currB 0++older

/-- The coins that a transaction block at a positive height must claim. -/
def expectedRewardCoins (prevTransactionBlock : BlockRecord) : Check (List Coin) := do
  let fees ← assertSome prevTransactionBlock.fees
  let _ ← uint64 (calculateBaseFarmerReward prevTransactionBlock.height+fees)
  let own := rewardCoins E.constants prevTransactionBlock fees
  if prevTransactionBlock.height > 0 then
    let curr ← V.blockRecord prevTransactionBlock.prevHash
    return own++(← rewardsBefore E.constants V (curr.height+1) curr)
  else return own

/-- Check 5: the claims are the expected coins, after the freeze each only once. -/
def validateRewardClaims (height : ℕ) (ftb : FoliageTransactionBlock) (info : TransactionsInfo) :
    Check (List Coin × ℕ) := do
  let (expected,prevTransactionBlockHeight) ←
    if height > 0 then do
      let prevTransactionBlock ← V.blockRecord ftb.prevTransactionBlockHash
      let coins ← expectedRewardCoins E V prevTransactionBlock
      pure (coins.dedup,prevTransactionBlock.height)
    else pure ([],0)
  reject (¬ (info.rewardClaimsIncorporated ⊆ expected ∧ expected ⊆ info.rewardClaimsIncorporated))
    .invalidRewardCoins
  reject (ftb.timestamp > E.initialFreezeEndTimestamp ∧
    info.rewardClaimsIncorporated.length≠expected.length) .invalidRewardCoins
  return (expected,prevTransactionBlockHeight)

/-- Checks 6 to 8c: the freeze, and the roots of the generator and of its references. -/
def validateGenerator (height : ℕ) (block : BlockBody) (ftb : FoliageTransactionBlock)
    (info : TransactionsInfo) : Check Unit := do
  reject (ftb.timestamp≤E.initialFreezeEndTimestamp ∧ block.transactionsGenerator.isSome)
    .initialTransactionFreeze
  match block.transactionsGenerator with
  | some generator => reject (E.stdHash generator≠info.generatorRoot) .invalidTransactionsGeneratorHash
  | none => reject (info.generatorRoot≠zeros32) .invalidTransactionsGeneratorHash
  let refs := block.transactionsGeneratorRefList
  if refs=[] then
    reject (info.generatorRefsRoot≠ones32) .invalidTransactionsGeneratorRefsRoot
  else
    reject block.transactionsGenerator.isNone .invalidTransactionsGeneratorRefsRoot
    reject (info.generatorRefsRoot≠E.stdHash (refs.flatMap uint32Bytes))
      .invalidTransactionsGeneratorRefsRoot
    reject (refs.length > E.maxGeneratorRefListSize) .tooManyGeneratorRefs
    reject (refs.any fun index => decide (index ≥ height)) .futureGeneratorRefs

/-- What the generator of a block yields; empty for a block without one. -/
structure BodyResult where
  npcList : List NPC
  removals : List Bytes32
  additions : List Coin
  coinAnnouncementNames : List Bytes32
  puzzleAnnouncementNames : List Bytes32

/-- Checks 7 to 9: cost, errors of the run, and the declared cost. -/
def validateCost (block : BlockBody) (info : TransactionsInfo) (npcResult : Option NPCResult) :
    Check BodyResult := do
  let (result,cost) ← match block.transactionsGenerator with
    | some generator => do
      let npcResult ← assertSome npcResult
      let cost ← calculateCostOfProgram E generator npcResult
      reject (cost > E.maxBlockCostClvm) .blockCostExceedsMax
      match npcResult.error with
      | some e => .error (.invalid e)
      | none => do
        let npcList := npcResult.npcList
        let additions ← additionsForNpc npcList
        let coinNames ← coinAnnouncementsNamesForNpc E npcList
        let puzzleNames ← puzzleAnnouncementsNamesForNpc E npcList
        let result : BodyResult :=
          ⟨npcList,npcList.map (·.coinName),additions,coinNames,puzzleNames⟩
        pure (result,cost)
    | none => do
      assertThat npcResult.isNone
      pure (⟨[],[],[],[],[]⟩,0)
  reject (info.cost≠cost) .invalidBlockCost
  return result

/-- Items of the filter: puzzle hashes of the additions, then names of the removals. -/
def filterItems (additions : List Coin) (removals : List Bytes32) : List Bytes :=
  additions.map (fun c => bytes32 c.puzzleHash)++removals.map bytes32

/-- Checks 10 to 13: amounts, roots, filter, and no duplicate outputs. -/
def validateAdditionsAndRemovals (ftb : FoliageTransactionBlock) (allAdditions : List Coin)
    (removals : List Bytes32) : Check Unit := do
  reject (allAdditions.any fun coin => decide (coin.amount > E.maxCoinAmount))
    .coinAmountExceedsMaximum
  validateBlockMerkleRoots E ftb.additionsRoot ftb.removalsRoot allAdditions removals
  reject (E.stdHash (E.bip158 (filterItems allAdditions removals))≠ftb.filterHash)
    .invalidTransactionsFilterHash
  reject (¬ (allAdditions.map E.coinName).Nodup) .duplicateOutput

/-- A coin made since the fork, and where. -/
structure ForkAddition where
  coin : Coin
  confirmedHeight : ℕ
  confirmedTimestamp : ℕ

/-- What the blocks since the fork added and removed. -/
structure SinceFork where
  additions : Dict Bytes32 ForkAddition
  removals : List Bytes32

def SinceFork.empty : SinceFork := ⟨Dict.empty,[]⟩

def SinceFork.addRemoval (s : SinceFork) (name : Bytes32) : Check SinceFork := do
  assertThat (name∉s.removals)
  return { s with removals := name::s.removals }

def SinceFork.addAddition (curr : FullBlock) (s : SinceFork) (coin : Coin) : Check SinceFork := do
  assertThat ¬ s.additions.contains (E.coinName coin)
  let ftb ← assertSome curr.foliageTransactionBlock
  return { s with additions := s.additions.set (E.coinName coin) ⟨coin,curr.height,ftb.timestamp⟩ }

/-- One block of the fork: its transactions, then its reward coins. -/
def SinceFork.addBlock (curr : FullBlock) (removals : List Bytes32) (additions : List Coin)
    (s : SinceFork) : Check SinceFork := do
  let s ← removals.foldlM SinceFork.addRemoval s
  let s ← additions.foldlM (SinceFork.addAddition E curr) s
  (← curr.getIncludedRewardCoins).foldlM (SinceFork.addAddition E curr) s

abbrev GetBlockGenerator := FullBlock → NodeM (Option BlockGenerator)

/-- Limit for running a block's generator: what the block declares, at most the maximum. -/
def declaredCostLimit (info : TransactionsInfo) : ℕ := min E.maxBlockCostClvm info.cost

def forkEffects (getBlockGenerator : GetBlockGenerator) (curr : FullBlock) :
    NodeM (List Bytes32 × List Coin) := do
  match curr.transactionsGenerator with
  | none => return ([],[])
  | some _ =>
    let generator ← Eff.lift (assertSome (← getBlockGenerator curr))
    let info ← Eff.lift (assertSome curr.transactionsInfo)
    let npcResult := getNamePuzzleConditions E generator (declaredCostLimit E info) false
    Eff.lift (txRemovalsAndAdditions npcResult.npcList)

def reorgBlocks (forkH : ℤ) : ℕ → FullBlock → Dict ℕ FullBlock → NodeM (Dict ℕ FullBlock)
  | 0,_,_ => raise .diverged
  | n+1,curr,blocks =>
    if (curr.height : ℤ) > forkH ∧ curr.height≠0 then do
      let prev ← Eff.lift (assertSome (← BlockStore.getFullBlock curr.prevHeaderHash))
      reorgBlocks forkH n prev (blocks.set prev.height prev)
    else return blocks

/-- From the previous block back to the fork, the newest first. -/
def collectSinceFork (getBlockGenerator : GetBlockGenerator) (forkH : ℤ) (blocks : Dict ℕ FullBlock) :
    ℕ → FullBlock → SinceFork → NodeM SinceFork
  | 0,_,_ => raise .diverged
  | n+1,curr,s =>
    if (curr.height : ℤ) > forkH then do
      let (removals,additions) ← forkEffects E getBlockGenerator curr
      let s ← Eff.lift (s.addBlock E curr removals additions)
      if curr.height=0 then return s
      let next ← Eff.lift (lookup (blocks.get? (curr.height-1)))
      collectSinceFork getBlockGenerator forkH blocks n next s
    else return s

/-- Additions and removals of the block's ancestors above the fork. -/
def sinceFork (getBlockGenerator : GetBlockGenerator) (prevHeaderHash : Bytes32) (height : ℕ)
    (forkH : ℤ) : NodeM SinceFork := do
  if height=0 then return SinceFork.empty
  let prevBlock ← Eff.lift (assertSome (← BlockStore.getFullBlock prevHeaderHash))
  let blocks ← reorgBlocks forkH (prevBlock.height+1) prevBlock Dict.empty
  if forkH ≠ -1 then Eff.lift (assertThat ((blocks.size : ℤ)=height-forkH-1))
  collectSinceFork E getBlockGenerator forkH blocks (prevBlock.height+1) prevBlock SinceFork.empty

/-- Last block in common between the peak's chain and the block's. -/
def forkHeight (peak : Option BlockRecord) (height : ℕ) (prevHeaderHash : Bytes32)
    (forkPointWithPeak : Option ℕ) : Check ℤ :=
  match peak with
  | none => .ok (-1)
  | some peak =>
    if height=0 then .ok (-1)
    else match forkPointWithPeak with
      | some f => .ok f
      | none => do findForkPointInChain V peak (← V.blockRecord prevHeaderHash)

/-- Check 15 for one removal: the record of the coin it spends. -/
def removalCoinRecord (height timestamp : ℕ) (allAdditions : List Coin) (forkH : ℤ) (s : SinceFork)
    (rem : Bytes32) : NodeM CoinRecord := do
  match allAdditions.reverse.find? fun c => E.coinName c=rem with
  | some coin => return ⟨coin,height,height,true,false,timestamp⟩
  | none =>
    let unspent ← CoinStore.getCoinRecord E rem
    Eff.lift do
      let record ← match unspent.filter fun u => (u.confirmedBlockIndex : ℤ)≤forkH with
        | some u => do
          -- in the current chain since before the fork
          reject (u.spent=true ∧ (u.spentBlockIndex : ℤ)≤forkH) .doubleSpend
          pure u
        | none =>
          -- not in the heaviest chain, so it must be in the fork
          match s.additions.get? rem with
          | none => .error (.invalid .unknownUnspent)
          | some a => pure ⟨a.coin,a.confirmedHeight,0,false,false,a.confirmedTimestamp⟩
      reject (rem∈s.removals) .doubleSpendInFork
      return record

def removalCoinRecords (height timestamp : ℕ) (allAdditions : List Coin) (forkH : ℤ)
    (s : SinceFork) : List Bytes32 → Dict Bytes32 CoinRecord → NodeM (Dict Bytes32 CoinRecord)
  | [],records => return records
  | rem::more,records => do
    let record ← removalCoinRecord E height timestamp allAdditions forkH s rem
    removalCoinRecords height timestamp allAdditions forkH s more
      (records.set (E.coinName record.coin) record)

/-- Checks 14 and 15: the removals are distinct, they exist and are unspent. -/
def validateRemovals (peak : Option BlockRecord) (prevHeaderHash : Bytes32) (height timestamp : ℕ)
    (allAdditions : List Coin) (removals : List Bytes32) (forkPointWithPeak : Option ℕ)
    (getBlockGenerator : GetBlockGenerator) : NodeM (Dict Bytes32 CoinRecord) := do
  Eff.lift (reject (¬ removals.Nodup) .doubleSpend)
  let forkH ← Eff.lift (forkHeight V peak height prevHeaderHash forkPointWithPeak)
  let since ← sinceFork E getBlockGenerator prevHeaderHash height forkH
  removalCoinRecords E height timestamp allAdditions forkH since removals Dict.empty

def assertFeeSum (npcList : List NPC) : Check ℕ :=
  (npcList.flatMap (·.conditionsFor .reserveFee)).foldlM (fun sum cvp => do
    let fee := intFromBytes (← index cvp.vars[0]?)
    reject (fee<0) .reserveFeeConditionFailed
    uint128 (sum+fee)) 0

/-- Checks 16 to 19: nothing is minted, and the fees are as asserted and as declared. -/
def validateFees (height : ℕ) (info : TransactionsInfo) (result : BodyResult)
    (records : Dict Bytes32 CoinRecord) : Check Unit := do
  let removed := (records.values.map (·.coin.amount)).sum
  let added := (result.additions.map (·.amount)).sum
  reject (removed<added) .mintingCoin
  let fees := removed-added
  let sum ← assertFeeSum result.npcList
  reject (fees<sum) .reserveFeeConditionFailed
  reject (fees+calculateBaseFarmerReward height > E.maxCoinAmount) .coinAmountExceedsMaximum
  reject (info.fees≠fees) .invalidBlockFeeAmount

/-- Checks 20 and 21: puzzle hashes, and the conditions of every spend. -/
def validateConditions (prevTransactionBlockHeight timestamp : ℕ) (result : BodyResult)
    (records : Dict Bytes32 CoinRecord) : Check (List (G1Element × Bytes)) := do
  let puzzles : Dict Bytes32 Bytes32 :=
    result.npcList.foldl (fun d npc => d.set npc.coinName npc.puzzleHash) Dict.empty
  records.values.forM fun unspent => do
    let puzzleHash ← lookup (puzzles.get? (E.coinName unspent.coin))
    reject (unspent.coin.puzzleHash≠puzzleHash) .wrongPuzzleHash
  let pairs ← result.npcList.mapM fun npc => do
    let unspent ← lookup (records.get? npc.coinName)
    mempoolCheckConditionsDict E unspent result.coinAnnouncementNames result.puzzleAnnouncementNames
      npc.conditionDict prevTransactionBlockHeight timestamp
    pkmPairsForConditionsDict E npc E.aggSigMeAdditionalData
  return pairs.flatten

/-- Check 22: the signature over all messages. -/
def validateAggregateSignature (info : TransactionsInfo) (pairs : List (G1Element × Bytes)) :
    Check Unit :=
  reject (¬ E.aggregateVerify (pairs.map (·.1)) (pairs.map (·.2)) info.aggregatedSignature)
    .badAggregateSignature

/-- Validates the transactions and body of a block whose header is valid. -/
def validateBlockBody (peak : Option BlockRecord) (block : BlockBody) (height : ℕ)
    (npcResult : Option NPCResult) (forkPointWithPeak : Option ℕ)
    (getBlockGenerator : GetBlockGenerator) : NodeM (Option NPCResult) := do
  if block.foliageTransactionBlockHash.isNone then
    Eff.lift (validateNoBody E V block)
    return none
  -- 2. to 4. the body is there and is what the foliage says
  match block.foliageTransactionBlock,block.transactionsInfo with
  | some ftb,some info =>
    Eff.lift (reject (ftb.transactionsInfoHash≠E.hashTransactionsInfo info)
      .invalidTransactionsInfoHash)
    Eff.lift (reject (block.foliageTransactionBlockHash≠some (E.hashFoliageTransactionBlock ftb))
      .invalidFoliageBlockHash)
    let (coinbaseAdditions,prevTransactionBlockHeight) ←
      Eff.lift (validateRewardClaims E V height ftb info)
    Eff.lift (validateGenerator E height block ftb info)
    let result ← Eff.lift (validateCost E block info npcResult)
    let allAdditions := result.additions++coinbaseAdditions
    Eff.lift (validateAdditionsAndRemovals E ftb allAdditions result.removals)
    let records ← validateRemovals E V peak block.prevHeaderHash height ftb.timestamp allAdditions
      result.removals forkPointWithPeak getBlockGenerator
    Eff.lift (validateFees E height info result records)
    let pairs ← Eff.lift (validateConditions E prevTransactionBlockHeight ftb.timestamp result records)
    Eff.lift (validateAggregateSignature E info pairs)
    return npcResult
  | _,_ => Eff.fail (.invalid .isTransactionBlockButNoData)

end RoseChain
