import RoseChain.FullNode.Mempool

namespace RoseChain
open Lib

inductive MempoolInclusionStatus
  | success | pending | failed
  deriving DecidableEq

structure MempoolManager where
  peak : Option BlockRecord
  mempool : Mempool
  /-- Bundles that may become valid. -/
  potentialTxs : Dict Bytes32 MempoolItem
  potentialCacheCost : ℤ
  potentialCacheMaxTotalCost : ℤ

/-- The coin store at the time of a call. -/
abbrev CoinReader := Bytes32 → Option CoinRecord

/-- Cost, inclusion status and error code. -/
abbrev SpendbundleAnswer := Option ℕ × MempoolInclusionStatus × Option Err

abbrev ManagerM := Eff MempoolManager Fail

/-- An operation of the pool, run on the pool of the manager. -/
def onMempool {α : Type} (f : MempoolM α) : ManagerM α := fun s =>
  let (r,mempool) := f s.mempool
  (r,{ s with mempool })

namespace MempoolManager
variable (E : Env)

def nonzeroFeeMinimumFpc : ℚ := 5

def minFeeIncrease : ℤ := 10000

def mempoolMaxTotalCost : ℕ := E.maxBlockCostClvm*E.mempoolBlockBuffer

def limit : ℕ := E.maxBlockCostClvm / 2

def new : MempoolManager :=
  ⟨none,Mempool.new (mempoolMaxTotalCost E),Dict.empty,0,E.maxBlockCostClvm*5⟩

/-- Amounts and names of what a bundle creates; gives the sum of the amounts. -/
def checkAdditions (additions : List Coin) : Check ℕ := do
  let additionAmount ← additions.foldlM (fun amount coin => do
    reject (coin.amount > E.maxCoinAmount) .coinAmountExceedsMaximum
    uint64 (amount+coin.amount : ℕ)) 0
  reject (¬ (additions.map E.coinName).Nodup) .duplicateOutput
  return additionAmount

/-- The record of a coin to be spent: a coin of the bundle itself, or one of the coin store. -/
def removalRecord (getCoinRecord : CoinReader) (peak : BlockRecord) (additions : List Coin) (name : Bytes32) :
    Check CoinRecord :=
  match additions.reverse.find? fun c => E.coinName c=name,getCoinRecord name with
  | some coin,_ => do
    let timestamp ← assertSome peak.timestamp
    return ⟨coin,← uint32 (peak.height+1),0,false,false,← uint64 (timestamp+1)⟩
  | none,some record => .ok record
  | none,none => .error (.invalid .unknownUnspent)

/-- The records of all the coins to be spent, and the sum of their amounts. -/
def removalRecords (getCoinRecord : CoinReader) (peak : BlockRecord) (additions : List Coin)
    (removalNames : List Bytes32) : Check (Dict Bytes32 CoinRecord × ℕ) :=
  removalNames.foldlM (fun (records,amount) name => do
    let record ← removalRecord E getCoinRecord peak additions name
    let amount ← uint64 (amount+record.coin.amount : ℕ)
    return (records.set name record,amount)) (Dict.empty,0)

/-- What the bundle leaves as fee, at least what its conditions reserve. -/
def checkFees (npcList : List NPC) (removalAmount additionAmount : ℕ) : Check ℕ := do
  reject (additionAmount > removalAmount) .mintingCoin
  let fees ← uint64 (removalAmount-additionAmount)
  let assertFeeSum ← (npcList.flatMap fun npc => npc.conditionsFor .reserveFee).foldlM (fun sum cvp => do
    let fee := intFromBytes (← index cvp.vars[0]?)
    reject (fee<0) .reserveFeeConditionFailed
    return sum+fee) 0
  reject ((fees : ℤ)<assertFeeSum) .reserveFeeConditionFailed
  return fees

/-- In a full pool the fee must be better than what would have to go. -/
def checkCapacity (m : Mempool) (cost : ℕ) (feesPerCost : ℚ) : Check Unit := do
  if m.atFullCapacity cost then
    reject (feesPerCost<nonzeroFeeMinimumFpc) .invalidFeeTooCloseToZero
    reject (feesPerCost≤(← m.getMinFeeRate cost)) .invalidFeeLowFee

def checkRemovals (m : Mempool) (removals : Dict Bytes32 CoinRecord) : Option Err × List Coin :=
  if removals.values.any (·.spent) then (some .doubleSpend,[])
  else
    let conflicts := (removals.values.map (·.coin)).filter fun removal => m.removals.contains (E.coinName removal)
    if conflicts.length > 0 then (some .mempoolConflict,conflicts) else (none,[])

def conflictingPoolItems (m : Mempool) (conflicts : List Coin) : Check (Dict Bytes32 MempoolItem) :=
  conflicts.foldlM (fun items conflicting => do
    let sb ← lookup (m.removals.get? (E.coinName conflicting))
    return items.set sb.name sb) Dict.empty

def canReplace (conflictingItems : Dict Bytes32 MempoolItem) (removals : Dict Bytes32 CoinRecord) (fees : ℕ)
    (feesPerCost : ℚ) : Check Bool := do
  let items := conflictingItems.values
  -- all coins spent in the conflicting items must also be spent in the new item
  if items.any fun item => item.removals.any fun coin => !removals.contains (E.coinName coin) then return false
  let conflictingFees := (items.map (·.fee)).sum
  let conflictingCost := (items.map (·.cost)).sum
  if conflictingCost=0 then .error (.raised .zeroDivision)
  else if feesPerCost≤trueDiv conflictingFees conflictingCost then return false
  else return decide ((fees : ℤ)-conflictingFees ≥ minFeeIncrease)

/-- Puzzle hashes and conditions of the spends; gives the keys and messages to be signed. -/
def checkSpends (peak : BlockRecord) (npcList : List NPC) (records : Dict Bytes32 CoinRecord)
    (validateSignature : Bool) : Check (List (G1Element × Bytes)) := do
  let coinAnnouncements ← coinAnnouncementsNamesForNpc E npcList
  let puzzleAnnouncements ← puzzleAnnouncementsNamesForNpc E npcList
  let pairs ← npcList.mapM fun npc => do
    let coinRecord ← lookup (records.get? npc.coinName)
    reject (npc.puzzleHash≠coinRecord.coin.puzzleHash) .wrongPuzzleHash
    let chialispHeight := if peak.isTransactionBlock then peak.height else peak.prevTransactionBlockHeight
    let timestamp ← assertSome peak.timestamp
    mempoolCheckConditionsDict E coinRecord coinAnnouncements puzzleAnnouncements npc.conditionDict chialispHeight
      timestamp
    if validateSignature then pkmPairsForConditionsDict E npc E.aggSigMeAdditionalData else return []
  return pairs.flatten

/-- Pops until the cost of what is kept fits; it is the bound that gets smaller. -/
def trimPotential : ℕ → ManagerM Unit
  | 0 => Eff.fail (.raised .diverged)
  | n+1 => do
    let s ← Eff.get
    if s.potentialCacheCost > s.potentialCacheMaxTotalCost then do
      let (firstIn,item) ← Eff.lift (index s.potentialTxs.entries.head?)
      Eff.modify fun s => { s with
        potentialCacheMaxTotalCost := s.potentialCacheMaxTotalCost-item.cost
        potentialTxs := s.potentialTxs.erase firstIn }
      trimPotential n

def addToPotentialTxSet (item : MempoolItem) : ManagerM Unit := do
  let s ← Eff.get
  if ¬ s.potentialTxs.contains item.spendBundleName then do
    Eff.modify fun s => { s with
      potentialTxs := s.potentialTxs.set item.spendBundleName item
      potentialCacheCost := s.potentialCacheCost+item.cost }
    trimPotential (s.potentialTxs.size+2)

/-- `return None, MempoolInclusionStatus.FAILED, e`. -/
def failing (f : ManagerM SpendbundleAnswer) : ManagerM SpendbundleAnswer := fun s =>
  match f s with
  | (.error (.invalid e),s') => (.ok (none,.failed,some e),s')
  | r => r

/-- The last steps: the signature, the conflicting items out, the new item in. -/
def replaceConflicts (item : MempoolItem) (conflicting : Dict Bytes32 MempoolItem) (additions : List Coin)
    (removalCoinDict : Dict Bytes32 Coin) (pairs : List (G1Element × Bytes)) (validateSignature : Bool) :
    ManagerM SpendbundleAnswer := do
  Eff.lift (reject (validateSignature ∧ ¬ E.aggregateVerify (pairs.map (·.1)) (pairs.map (·.2))
    item.spendBundle.aggregatedSignature) .badAggregateSignature)
  onMempool (conflicting.values.forM (Mempool.removeFromPool E))
  onMempool (Mempool.addToPool E item additions removalCoinDict)
  return (some item.cost,.success,none)

/-- Once the conflicts are known: replace them and check the spends, or keep the item for later. -/
def tryReplace (item : MempoolItem) (peak : BlockRecord) (additions : List Coin) (records : Dict Bytes32 CoinRecord)
    (validateSignature : Bool) (failReason : Option Err) (conflicting : Dict Bytes32 MempoolItem) :
    ManagerM SpendbundleAnswer := do
  let accepted ← Eff.lift (if failReason.isSome then canReplace E conflicting records item.fee item.feePerCost
    else return true)
  if ¬ accepted then do
    addToPotentialTxSet item
    return (some item.cost,.pending,some .mempoolConflict)
  else
    match checkSpends E peak item.npcResult.npcList records validateSignature with
    | .error (.invalid e) =>
      if e = .assertHeightAbsoluteFailed ∨ e = .assertHeightRelativeFailed then do
        addToPotentialTxSet item
        return (some item.cost,.pending,some e)
      else Eff.fail (.invalid e)
    | .error (.raised e) => Eff.fail (.raised e)
    | .ok pairs =>
      replaceConflicts E item conflicting additions (records.mapTo (·.coin)) pairs validateSignature

/-- The item against the pool and the chain: it is kept for later, turned down, or it enters. -/
def tryItem (item : MempoolItem) (peak : BlockRecord) (additions : List Coin) (records : Dict Bytes32 CoinRecord)
    (validateSignature : Bool) : ManagerM SpendbundleAnswer := do
  let s ← Eff.get
  let (failReason,conflicts) := checkRemovals E s.mempool records
  match failReason with
  | some .doubleSpend => Eff.fail (.invalid .doubleSpend)
  | _ =>
    let conflicting ← Eff.lift (conflictingPoolItems E s.mempool conflicts)
    tryReplace E item peak additions records validateSignature failReason conflicting

/-- The bundle by itself: cost, amounts, names and fees. -/
def addSpendbundle (newSpend : SpendBundle) (npcResult : NPCResult) (spendName : Bytes32) (validateSignature : Bool)
    (program : Option SerializedProgram) (getCoinRecord : CoinReader) : ManagerM SpendbundleAnswer := failing do
  let s ← Eff.get
  match s.peak with
  | none => return (none,.failed,some .mempoolNotInitialized)
  | some peak =>
    let npcList := npcResult.npcList
    let program := program.getD newSpend.simpleSolutionGenerator
    let cost ← Eff.lift (calculateCostOfProgram E program npcResult)
    Eff.lift (reject (cost > limit E) .blockCostExceedsMax)
    match npcResult.error with
    | some e => Eff.fail (.invalid e)
    | none =>
      let removalNames := npcList.map (·.coinName)
      let additions ← Eff.lift (additionsForNpc npcList)
      let additionAmount ← Eff.lift (checkAdditions E additions)
      Eff.lift (reject (¬ removalNames.Nodup) .doubleSpend)
      if s.mempool.spends.contains spendName then return (some cost,.success,none)
      else
        let (records,removalAmount) ← Eff.lift (removalRecords E getCoinRecord peak additions removalNames)
        let removals := records.values.map (·.coin)
        let fees ← Eff.lift (checkFees npcList removalAmount additionAmount)
        if h : cost=0 then Eff.fail (.invalid .unknown)
        else
          Eff.lift (checkCapacity s.mempool cost (trueDiv fees cost))
          tryItem E ⟨newSpend,fees,npcResult,cost,spendName,additions,removals,program,h⟩ peak additions
            records validateSignature

end MempoolManager
end RoseChain
