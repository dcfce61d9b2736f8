import RoseChain.Wallet.WalletBlockchain

namespace RoseChain
open Lib

/-- A spend of the singleton and the height of its block. -/
abbrev Transition := ℕ × CoinSpend

/-- The cache by wallet, and the rows by transition index and wallet. -/
structure WalletPoolStore where
  stateTransitionsCache : Dict ℕ (List Transition)
  poolStateTransitions : Dict (ℕ × ℕ) Transition

namespace WalletPoolStore
variable (E : Env)

def getSpendsForWallet (walletId : ℕ) (s : WalletPoolStore) : List Transition :=
  (s.stateTransitionsCache.get? walletId).getD []

def append (walletId : ℕ) (entry : Transition) (s : WalletPoolStore) : WalletPoolStore where
  stateTransitionsCache := s.stateTransitionsCache.set walletId (s.getSpendsForWallet walletId++[entry])
  poolStateTransitions := s.poolStateTransitions.set ((s.getSpendsForWallet walletId).length,walletId) entry

/-- A wallet that is not in the cache enters it with no entries. -/
def enter (walletId : ℕ) (s : WalletPoolStore) : WalletPoolStore :=
  match s.stateTransitionsCache.get? walletId with
  | some _ => s
  | none => { s with stateTransitionsCache := s.stateTransitionsCache.set walletId [] }

def addSpend (walletId : ℕ) (spend : CoinSpend) (height : ℕ) (s : WalletPoolStore) : Check WalletPoolStore := do
  let s := s.enter walletId
  let allStateTransitions := s.getSpendsForWallet walletId
  if (height,spend)∈allStateTransitions then return s
  else
    match allStateTransitions.getLast? with
    | none => return s.append walletId (height,spend)
    | some last =>
      -- the height cannot go down, and the new spend has to extend
      raiseIf (height<last.1)
      raiseIf (spend.coin.parentCoinInfo≠E.coinName last.2.coin)
      return s.append walletId (height,spend)

def rebuildCache (s : WalletPoolStore) : WalletPoolStore :=
  let rows := s.poolStateTransitions.entries.insertionSort fun a b => a.1.1≤b.1.1
  { s with stateTransitionsCache := rows.foldl (fun cache row =>
      cache.set row.1.2 ((cache.get? row.1.2).getD []++[row.2])) Dict.empty }

/-- Drops the entries from the first one above the height on, and all rows above it. -/
def rollback (height : ℤ) (walletId : ℕ) (s : WalletPoolStore) : WalletPoolStore where
  stateTransitionsCache := s.stateTransitionsCache.mapVals fun id items =>
    if id=walletId then items.takeWhile fun e => decide ((e.1 : ℤ)≤height) else items
  poolStateTransitions := s.poolStateTransitions.filter fun key row =>
    !decide ((row.1 : ℤ) > height ∧ key.2=walletId)

end WalletPoolStore

end RoseChain
