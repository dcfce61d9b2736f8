import RoseChain.FullNode.MempoolCheckConditions
import RoseChain.Lib.Effect
import RoseChain.Lib.Index

namespace RoseChain
open Lib

def roundHalfEven (x : ℚ) : ℤ :=
  let down := x.floor
  let rest := x-down
  if rest<1 / 2 then down
  else if rest > 1 / 2 then down+1
  else if down % 2=0 then down
  else down+1

/-- `a / b` of two integers: the nearest number with 53 binary digits. -/
def trueDiv (a b : ℕ) : ℚ :=
  let x : ℚ := a / b
  let shift : ℤ := 53-(a.log2-b.log2)
  -- one digit less where the quotient has a digit more than the logarithms say
  let shift := if x*2^shift<2^53 then shift else shift-1
  roundHalfEven (x*2^shift) / 2^shift

/-- A spend bundle: what its puzzles create, what it spends, and its generator. -/
structure SpendBundle where
  additions : List Coin
  removals : List Coin
  aggregatedSignature : G2Element
  /-- `simple_solution_generator(self).program`. -/
  simpleSolutionGenerator : SerializedProgram
  deriving DecidableEq

structure MempoolItem where
  spendBundle : SpendBundle
  fee : ℕ
  npcResult : NPCResult
  cost : ℕ
  spendBundleName : Bytes32
  additions : List Coin
  removals : List Coin
  program : SerializedProgram
  /-- Otherwise there is no fee per cost. -/
  cost_ne_zero : cost≠0
  deriving DecidableEq

namespace MempoolItem

def feePerCost (item : MempoolItem) : ℚ := trueDiv item.fee item.cost

def name (item : MempoolItem) : Bytes32 := item.spendBundleName

/-- Names of the coins that leave the indexes together with the item. -/
def spent (E : Env) (item : MempoolItem) : List Bytes32 := item.spendBundle.removals.map E.coinName

def created (E : Env) (item : MempoolItem) : List Bytes32 := item.spendBundle.additions.map E.coinName

end MempoolItem

structure Mempool where
  spends : Dict Bytes32 MempoolItem
  sortedSpends : Dict ℚ (Dict Bytes32 MempoolItem)
  additions : Dict Bytes32 MempoolItem
  removals : Dict Bytes32 MempoolItem
  maxSizeInCost : ℕ
  totalMempoolCost : ℤ

def Mempool.new (maxSizeInCost : ℕ) : Mempool :=
  ⟨Dict.empty,Dict.empty,Dict.empty,Dict.empty,maxSizeInCost,0⟩

/-- Entries of a `SortedDict` in the order of their keys. -/
def sortedItems {V : Type} (d : Dict ℚ V) : List (ℚ × V) := d.entries.mergeSort fun a b => a.1≤b.1

abbrev MempoolM := Eff Mempool Fail

namespace Mempool
variable (E : Env)

def atFullCapacity (m : Mempool) (cost : ℕ) : Bool := decide (m.totalMempoolCost+cost > m.maxSizeInCost)

/-- Leaves out one item after the other, the cheapest first, until a cost fits. -/
def minFeeRateFrom (maxSizeInCost cost : ℕ) : ℤ → List (ℚ × MempoolItem) → Check ℚ
  | _,[] => .error (.raised .value)
  | currentCost,(feePerCost,item)::more =>
    if currentCost-item.cost+cost ≤ maxSizeInCost then .ok feePerCost
    else minFeeRateFrom maxSizeInCost cost (currentCost-item.cost) more

def getMinFeeRate (m : Mempool) (cost : ℕ) : Check ℚ :=
  if m.atFullCapacity cost then
    minFeeRateFrom m.maxSizeInCost cost m.totalMempoolCost
      ((sortedItems m.sortedSpends).flatMap fun e => e.2.values.map fun item => (e.1,item))
  else .ok 0

def delRemoval (name : Bytes32) : MempoolM Unit := do
  let m ← Eff.get
  let _ ← Eff.lift (lookup (m.removals.get? name))
  Eff.modify fun m => { m with removals := m.removals.erase name }

def delAddition (name : Bytes32) : MempoolM Unit := do
  let m ← Eff.get
  let _ ← Eff.lift (lookup (m.additions.get? name))
  Eff.modify fun m => { m with additions := m.additions.erase name }

def removeFromPool (item : MempoolItem) : MempoolM Unit := do
  item.spendBundle.removals.forM fun rem => delRemoval (E.coinName rem)
  item.spendBundle.additions.forM fun add => delAddition (E.coinName add)
  let m ← Eff.get
  let _ ← Eff.lift (lookup (m.spends.get? item.name))
  Eff.modify fun m => { m with spends := m.spends.erase item.name }
  let dic ← Eff.lift (lookup (m.sortedSpends.get? item.feePerCost))
  let _ ← Eff.lift (lookup (dic.get? item.name))
  Eff.modify fun m =>
    { m with sortedSpends := dropFromBucket m.sortedSpends item.feePerCost dic item.name }
  Eff.modify fun m => { m with totalMempoolCost := m.totalMempoolCost-item.cost }
  let m ← Eff.get
  Eff.lift (assertThat (m.totalMempoolCost ≥ 0))

/-- Kicks out items, those with the least fee per cost first, until a cost fits. -/
def makeRoom (cost : ℕ) : ℕ → MempoolM Unit
  | 0 => Eff.fail (.raised .diverged)
  | n+1 => do
    let m ← Eff.get
    if m.atFullCapacity cost then do
      let (_,val) ← Eff.lift (index (sortedItems m.sortedSpends).head?)
      let toRemove ← Eff.lift (index val.values.head?)
      removeFromPool E toRemove
      makeRoom cost n

def addToPool (item : MempoolItem) (additions : List Coin) (removalsDic : Dict Bytes32 Coin) : MempoolM Unit := do
  let m ← Eff.get
  makeRoom E item.cost (m.spends.size+1)
  Eff.modify fun m => { m with
    spends := m.spends.set item.name item
    sortedSpends := addToBucket m.sortedSpends item.feePerCost item.name item
    additions := m.additions.setAll (additions.map E.coinName) item
    removals := m.removals.setAll removalsDic.keys item
    totalMempoolCost := m.totalMempoolCost+item.cost }

end Mempool
end RoseChain
