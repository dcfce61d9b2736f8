import RoseChain.Wallet.WalletPoolStore

namespace RoseChain
open Lib

structure PoolState where
  version : ℕ
  state : ℕ
  targetPuzzleHash : Bytes32
  ownerPubkey : G1Element
  poolUrl : Option Bytes
  relativeLockHeight : ℕ
  deriving DecidableEq

/-- What comes from the CLVM, from the codec of pool states and from the puzzles. -/
structure PoolPrograms where
  fromBytes : SerializedProgram → Check SExp
  /-- What a puzzle returns for a solution, unless the evaluation fails. -/
  run : SerializedProgram → SerializedProgram → Option SExp
  poolStateFromBytes : Bytes → Check PoolState
  launcherIdToP2PuzzleHash : Bytes32 → ℤ → Bytes32 → Bytes32
  poolStateToInnerPuzzle : PoolState → Bytes32 → Bytes32 → ℤ → Bytes32 → SExp
  singletonLauncherHash : Bytes32

namespace SExp

/-- A pair where an atom is needed fails the evaluation. -/
def asInt : SExp → Check ℤ
  | .atom b => .ok (intFromBytes b)
  | .pair _ _ => .error (.raised .value)

/-- The values of a list that ends in nil; any other end fails the evaluation. -/
def asIter : SExp → Option (List SExp)
  | .atom [] => some []
  | .atom (_::_) => none
  | .pair first rest => (asIter rest).map (first :: ·)

/-- The elements of `as_python` for a pair: a list, or a tuple of two when it ends in an atom other than nil. -/
def pythonElements : SExp → List SExp
  | .atom _ => []
  | .pair first (.atom []) => [first]
  | .pair first (.atom b) => [first,.atom b]
  | .pair first rest => first::pythonElements rest

/-- `len(as_python())`. -/
def pythonLength : SExp → ℕ
  | .atom b => b.length
  | .pair first rest => (pythonElements (.pair first rest)).length

end SExp

def parseSexpToCondition (sexp : SExp) : Option ConditionWithArgs :=
  match sexp.asAtomList with
  | [] => none
  | opcode::vars => some ⟨(ConditionOpcode.ofBytes opcode).getD .unknown,vars⟩

def parseSexpToConditions (sexp : SExp) : Option (List ConditionWithArgs) := do
  (← sexp.asIter).mapM parseSexpToCondition

variable (E : Env) (P : PoolPrograms)

/-- `coin_spend.additions()`. -/
def CoinSpend.additions (spend : CoinSpend) : Check (List Coin) :=
  match (P.run spend.puzzleReveal spend.solution).bind parseSexpToConditions with
  | none => .ok []
  | some conditions => createdOutputsForConditionsDict
      ⟨E.coinName spend.coin,spend.coin.puzzleHash,(conditionsByOpcode conditions).entries⟩

def getMostRecentSingletonCoinFromCoinSpend (spend : CoinSpend) : Check (Option Coin) := do
  return (← spend.additions E P).find? fun coin => decide (coin.amount % 2=1)

/-- `for key, value in …`: two bytes unpack into two numbers. -/
def keyValue (sexp : SExp) : Check (Option (SExp × SExp)) :=
  match sexp with
  | .atom b => if b.length=2 then .ok none else .error (.raised .value)
  | .pair first rest =>
    match (SExp.pair first rest).pythonElements with
    | [key,value] => .ok (some (key,value))
    | _ => .error (.raised .value)

/-- Looks for the first value under `b"p"`; a value that is no bytes is a type error, which is caught. -/
def stateUnderKey : List SExp → Check (Option PoolState)
  | [] => .ok none
  | e::more => do
    match (← keyValue e) with
    | none => stateUnderKey more
    | some (key,value) =>
      if key = .atom [112] then
        match value with
        | .atom b => some <$> P.poolStateFromBytes b
        | .pair _ _ => .ok none
      else stateUnderKey more

/-- The numbers of an atom do not unpack, which is caught. -/
def poolStateFromExtraData (extraData : SExp) : Check (Option PoolState) := stateUnderKey P extraData.pythonElements

def solutionToExtraData (fullSpend : CoinSpend) : Check (Option PoolState) := do
  let fullSolution ← P.fromBytes fullSpend.solution
  let inner ← (← (← fullSolution.rest).rest).first
  if fullSpend.coin.puzzleHash=P.singletonLauncherHash then poolStateFromExtraData P inner
  else
    let numArgs := inner.pythonLength
    assertThat (numArgs=2 ∨ numArgs=3)
    if numArgs=2 then
      if (← (← (← inner.rest).first).asInt)≠0 then return none
      else poolStateFromExtraData P (← inner.first)
    else if (← (← inner.first).asInt)=0 then return none
    else poolStateFromExtraData P (← (← inner.rest).first)

/-- Seconds and puzzle hash under `b"t"` and `b"h"`, the last of each. -/
def delayedUnderKeys : List SExp → Option ℤ × Option Bytes32 → Check (Option ℤ × Option Bytes32)
  | [],found => .ok found
  | e::more,(seconds,puzzleHash) => do
    match (← keyValue e) with
    | none => delayedUnderKeys more (seconds,puzzleHash)
    | some (key,value) =>
      if key = .atom [116] then delayedUnderKeys more (some (← value.asInt),puzzleHash)
      else if key = .atom [104] then
        match value with
        | .atom b =>
          raiseIf (b.length≠32)
          delayedUnderKeys more (seconds,some (toBytes32 b))
        | .pair _ _ => .error (.raised .value)
      else delayedUnderKeys more (seconds,puzzleHash)

def getDelayedPuzInfoFromLauncherSpend (coinsol : CoinSpend) : Check (ℤ × Bytes32) := do
  let fullSolution ← P.fromBytes coinsol.solution
  let extraData ← (← (← fullSolution.rest).rest).first
  let (seconds,puzzleHash) ← delayedUnderKeys extraData.pythonElements (none,none)
  return (← assertSome seconds,← assertSome puzzleHash)

structure PoolWalletInfo where
  current : PoolState
  target : Option PoolState
  launcherCoin : Coin
  launcherId : Bytes32
  p2SingletonPuzzleHash : Bytes32
  currentInner : SExp
  tipSingletonCoinId : Bytes32
  singletonBlockHeight : ℕ
  deriving DecidableEq

structure PoolWallet where
  store : WalletPoolStore
  targetState : Option PoolState

namespace PoolWallet
variable (walletId : ℕ)

def history (w : PoolWallet) : List Transition := w.store.getSpendsForWallet walletId

def getTip (w : PoolWallet) : Check Transition := index (w.history walletId).getLast?

/-- The last state that a spend announces, of the spends from the last one back. Before the first spend the index wraps
around, until it is out of range. -/
def lastAnnounced : List Transition → Check (PoolState × ℕ)
  | [] => .error (.raised .index)
  | e::earlier => do
    match (← solutionToExtraData P e.2) with
    | some state => return (state,e.1)
    | none => lastAnnounced earlier

def getCurrentState (w : PoolWallet) : Check PoolWalletInfo := do
  let history := w.history walletId
  let launcher ← assertSome history.head?
  let (delayedSeconds,delayedPuzhash) ← getDelayedPuzInfoFromLauncherSpend P launcher.2
  let tipSingletonCoin ← getMostRecentSingletonCoinFromCoinSpend E P (← w.getTip walletId).2
  let launcherId := E.coinName launcher.2.coin
  let tipSingletonCoin ← assertSome tipSingletonCoin
  let (extraData,lastSingletonSpendHeight) ← lastAnnounced P history.reverse
  return {
    current := extraData
    target := w.targetState
    launcherCoin := launcher.2.coin
    launcherId := launcherId
    p2SingletonPuzzleHash := P.launcherIdToP2PuzzleHash launcherId delayedSeconds delayedPuzhash
    currentInner := P.poolStateToInnerPuzzle extraData launcherId E.genesisChallenge delayedSeconds delayedPuzhash
    tipSingletonCoinId := E.coinName tipSingletonCoin
    singletonBlockHeight := lastSingletonSpendHeight }

/-- Writes the current state to the pool configuration, a file that is not followed here. -/
def updatePoolConfig (w : PoolWallet) : Check Unit := do
  let _ ← getCurrentState E P walletId w
  return ()

/-- Once the target is the state last announced, there is no target any more. -/
def resetTarget (targetState : Option PoolState) : List Transition → Check (Option PoolState)
  | [] => .ok targetState
  | e::earlier => do
    match (← solutionToExtraData P e.2) with
    | none => resetTarget targetState earlier
    | some latestState => return if targetState=some latestState then none else targetState

/-- `{cs.coin.name(): cs for cs in block_spends}`. -/
def coinNameToSpend (blockSpends : List CoinSpend) : Dict Bytes32 CoinSpend :=
  blockSpends.foldl (fun d cs => d.set (E.coinName cs.coin) cs) Dict.empty

/-- Follows the singleton from its tip; each turn takes a spend out of the dictionary. -/
def followTip (blockHeight : ℕ) : ℕ → Dict Bytes32 CoinSpend → CoinSpend → PoolWallet → Check PoolWallet
  | 0,_,_,_ => .error (.raised .diverged)
  | n+1,spends,tipSpend,w => do
    let tipCoin ← assertSome (← getMostRecentSingletonCoinFromCoinSpend E P tipSpend)
    match spends.get? (E.coinName tipCoin) with
    | none => return w
    | some spend =>
      let store ← w.store.addSpend E walletId spend blockHeight
      let w := { w with store := store }
      let tip ← w.getTip walletId
      let targetState ← resetTarget P w.targetState (w.history walletId).reverse
      followTip blockHeight n (spends.erase (E.coinName tipCoin)) tip.2 { w with targetState := targetState }

def applyStateTransitions (blockSpends : List CoinSpend) (blockHeight : ℕ) (w : PoolWallet) : Check PoolWallet := do
  let spends := coinNameToSpend E blockSpends
  let tip ← w.getTip walletId
  assertThat (blockHeight ≥ tip.1)
  let w ← followTip E P walletId blockHeight (spends.size+1) spends tip.2 w
  updatePoolConfig E P walletId w
  return w

/-- What `rewind` tries: whether the wallet is to be removed, and the wallet. -/
def tryRewind (blockHeight : ℤ) (w : PoolWallet) : Check (Bool × PoolWallet) := do
  let prevState ← getCurrentState E P walletId w
  let w' : PoolWallet := { w with store := w.store.rollback blockHeight walletId }
  if (w.history walletId).head?.any fun e => decide ((e.1 : ℤ) > blockHeight) then return (true,w')
  else
    if (← getCurrentState E P walletId w')≠prevState then updatePoolConfig E P walletId w'
    return (false,w')

/-- An exception is logged, and the wallet stays rolled back, unless its state could not be told before. -/
def rewind (blockHeight : ℤ) (w : PoolWallet) : Bool × PoolWallet :=
  match tryRewind E P walletId blockHeight w with
  | .ok answer => answer
  | .error _ =>
    match getCurrentState E P walletId w with
    | .ok _ => (false,{ w with store := w.store.rollback blockHeight walletId })
    | .error _ => (false,w)

def create (launcherCoinId : Bytes32) (blockSpends : List CoinSpend) (blockHeight : ℕ) (store : WalletPoolStore) :
    Check PoolWallet := do
  let launcherSpend ← assertSome (blockSpends.reverse.find? fun spend => decide (E.coinName spend.coin=launcherCoinId))
  let store ← store.addSpend E walletId launcherSpend blockHeight
  let w : PoolWallet := { store := store,targetState := none }
  updatePoolConfig E P walletId w
  return w

end PoolWallet

end RoseChain
