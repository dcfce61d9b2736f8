import RoseChain.Wallet.PoolWallet

namespace RoseChain
open Lib

def infiniteCost : ℕ := 2^63-1

abbrev PrivateKey := Bytes

/-- What comes from the CLVM and from the signature scheme. -/
structure CcPrograms where
  /-- Cost and result of a puzzle on a solution, unless the evaluation fails. -/
  evaluate : SExp → SExp → Option (ℕ × SExp)
  curry : SExp → List SExp → SExp
  ccMod : SExp
  puzzleForPk : G1Element → SExp
  genesisCoinIdForGenesisCoinChecker : SExp → Check (Option Bytes)
  /-- `AugSchemeMPL.sign` with the synthetic key of a private key. -/
  signSynthetic : PrivateKey → Bytes → G2Element
  aggregate : List G2Element → G2Element
  nullSignature : G2Element

namespace SExp

/-- `Program.to` of a list. -/
def ofList : List SExp → SExp
  | [] => .atom []
  | s::l => .pair s (ofList l)

def ofInt (z : ℤ) : SExp := .atom (intToBytes z)

def ofBytes32 (h : Bytes32) : SExp := .atom (bytes32 h)

variable (E : Env)

/-- `get_tree_hash()`. -/
def treeHash : SExp → Bytes32
  | .atom b => E.stdHash (1::b)
  | .pair left right => E.stdHash (2::(bytes32 (treeHash left)++bytes32 (treeHash right)))

end SExp

def makeCreateCoinCondition (puzzleHash : Bytes32) (amount : ℕ) : SExp :=
  .ofList [.atom [ConditionOpcode.createCoin.value],.ofBytes32 puzzleHash,.ofInt amount]

def makeReserveFeeCondition (fee : ℕ) : SExp := .ofList [.atom [ConditionOpcode.reserveFee.value],.ofInt fee]

def puzzleForConditions (conditions : SExp) : SExp := .pair (.atom [1]) conditions

def solutionForDelegatedPuzzle (delegatedPuzzle solution : SExp) : SExp :=
  .ofList [.atom [],delegatedPuzzle,solution]

def solutionForConditions (conditions : SExp) : SExp :=
  solutionForDelegatedPuzzle (puzzleForConditions conditions) (.ofInt 0)

/-- An amount and who gets it. -/
abbrev Primary := ℕ × Bytes32

def conditionList (primaries : List Primary) (fee : ℕ) : List SExp :=
  primaries.map (fun p => makeCreateCoinCondition p.2 p.1) ++
    if fee≠0 then [makeReserveFeeCondition fee] else []

/-- `make_solution` of the standard wallet, with the arguments that a coloured transaction gives. -/
def makeSolution (primaries : List Primary) (fee : ℕ) : SExp :=
  solutionForConditions (.ofList (conditionList primaries fee))

structure SpendableCC where
  coin : Coin
  genesisCoinId : Option Bytes
  innerPuzzle : SExp
  lineageProof : SExp
  deriving DecidableEq

/-- A coin spend before its programs are serialized. -/
structure ProgramSpend where
  coin : Coin
  puzzleReveal : SExp
  solution : SExp
  deriving DecidableEq

structure ProgramBundle where
  coinSpends : List ProgramSpend
  aggregatedSignature : G2Element
  deriving DecidableEq

variable (E : Env) (P : CcPrograms)

def runWithCost (maxCost : ℕ) (puzzle solution : SExp) : Option SExp :=
  (P.evaluate puzzle solution).bind fun r => if r.1 ≤ maxCost then some r.2 else none

/-- The conditions of a run, unless it fails or they do not parse. -/
def conditionsForSolution (puzzle solution : SExp) (maxCost : ℕ) : Option (List ConditionWithArgs) :=
  (runWithCost P maxCost puzzle solution).bind parseSexpToConditions

def ccPuzzleForInnerPuzzle (modCode genesisCoinChecker innerPuzzle : SExp) : SExp :=
  P.curry modCode [.ofBytes32 (modCode.treeHash E),genesisCoinChecker,innerPuzzle]

def runningSums : ℤ → List ℤ → List ℤ
  | _,[] => []
  | subtotal,delta::deltas => subtotal::runningSums (subtotal+delta) deltas

def subtotalsForDeltas (deltas : List ℤ) : Check (List ℤ) :=
  let subtotals := runningSums 0 deltas
  match subtotals.min? with
  | none => .error (.raised .value)
  | some subtotalOffset => .ok (subtotals.map (· - subtotalOffset))

def coinAsList (c : Coin) : SExp := .ofList [.ofBytes32 c.parentCoinInfo,.ofBytes32 c.puzzleHash,.ofInt c.amount]

def bundleForSpendableCcList (spendableCc : SpendableCC) : SExp :=
  .pair (coinAsList spendableCc.coin) spendableCc.lineageProof

/-- What the inner puzzle of a coin creates, read off a run. -/
def outputAmount (innerPuzzle innerSolution : SExp) : Check ℤ :=
  match conditionsForSolution P innerPuzzle innerSolution infiniteCost with
  | none => .ok 0
  | some conditions => do
    let amounts ← (((conditionsByOpcode conditions).get? .createCoin).getD []).mapM fun cvp => do
      return intFromBytes (← index cvp.vars[1]?)
    return amounts.sum

def ringSpend (modCode genesisCoinChecker : SExp) (spendableCcList : List SpendableCC) (innerSolutions : List SExp)
    (subtotals : List ℤ) (i : ℕ) : Check ProgramSpend := do
  let bundles := spendableCcList.map bundleForSpendableCcList
  let n := spendableCcList.length
  let ccSpendInfo ← index spendableCcList[i]?
  let puzzleReveal := ccPuzzleForInnerPuzzle E P modCode genesisCoinChecker ccSpendInfo.innerPuzzle
  let prevBundle ← index bundles[(i+n-1) % n]?
  let myBundle ← index bundles[i]?
  let nextBundle ← index bundles[(i+1) % n]?
  let solution := [← index innerSolutions[i]?,prevBundle,myBundle,nextBundle,.ofInt (← index subtotals[i]?)]
  return ⟨ccSpendInfo.coin,puzzleReveal,.ofList solution⟩

def aggregateSigs (sigs : List G2Element) : G2Element := if sigs=[] then P.nullSignature else P.aggregate sigs

def spendBundleForSpendableCcs (modCode genesisCoinChecker : SExp) (spendableCcList : List SpendableCC)
    (innerSolutions : List SExp) (sigs : List G2Element) : Check ProgramBundle := do
  raiseIf (innerSolutions.length≠spendableCcList.length)
  let outputAmounts ← (spendableCcList.zip innerSolutions).mapM fun c => outputAmount P c.1.innerPuzzle c.2
  let deltas := List.zipWith (fun (c : SpendableCC) out => (c.coin.amount : ℤ)-out) spendableCcList outputAmounts
  let subtotals ← subtotalsForDeltas deltas
  raiseIf (deltas.sum≠0)
  let coinSpends ← (List.range spendableCcList.length).mapM
    (ringSpend E P modCode genesisCoinChecker spendableCcList innerSolutions subtotals)
  return ⟨coinSpends,aggregateSigs P sigs⟩

/-- `coin_spend.additions()`. -/
def ProgramSpend.additions (spend : ProgramSpend) : Check (List Coin) :=
  match conditionsForSolution P spend.puzzleReveal spend.solution infiniteCost with
  | none => .ok []
  | some conditions => createdOutputsForConditionsDict
      ⟨E.coinName spend.coin,spend.coin.puzzleHash,(conditionsByOpcode conditions).entries⟩

def ProgramBundle.additions (bundle : ProgramBundle) : Check (List Coin) := do
  return (← bundle.coinSpends.mapM (·.additions E P)).flatten

def ProgramBundle.removals (bundle : ProgramBundle) : List Coin := bundle.coinSpends.map (·.coin)

end RoseChain
