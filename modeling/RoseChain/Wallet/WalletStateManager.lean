import RoseChain.Wallet.PoolWallet
import RoseChain.Wallet.WalletCoinStore
import RoseChain.Wallet.WalletTransactionStore

namespace RoseChain
open Lib

/-- A wallet of the manager, where its type matters to a rollback. -/
inductive ManagedWallet
  | pooling (targetState : Option PoolState)
  | other (type : WalletType)

structure WalletStateManager where
  coinStore : WalletCoinStore
  txStore : WalletTransactionStore
  poolStore : WalletPoolStore
  wallets : Dict ℕ ManagedWallet
  /-- The wallets that have a callback. -/
  newPeakCallbacks : Dict ℕ Unit
  usersWallets : List ℕ

/-- A coin of a block that some wallet is interested in. -/
structure AddedCoin where
  coin : Coin
  coinbase : Bool
  feeReward : Bool
  walletId : ℕ
  walletType : WalletType
  /-- Its puzzle hash is one of the puzzle store, and not only of interest. -/
  derived : Bool
  /-- The clock when a record is made of it. -/
  now : ℕ

/-- What a wallet does with a transaction block. -/
structure WalletBlock where
  height : ℕ
  additions : List AddedCoin
  removals : List Coin

namespace WalletStateManager
variable (E : Env)

def start : WalletStateManager where
  coinStore := .create E .empty
  txStore := .create .empty
  poolStore := ⟨.empty,.empty⟩
  wallets := Dict.empty.set 1 (.other .standardWallet)
  newPeakCallbacks := .empty
  usersWallets := [1]

def incomingRecord (c : AddedCoin) (height : ℕ) (type : TransactionType) : TransactionRecord where
  confirmedAtHeight := height
  createdAtTime := c.now
  toPuzzleHash := c.coin.puzzleHash
  amount := c.coin.amount
  feeAmount := 0
  confirmed := true
  sent := 0
  spendBundle := none
  additions := [c.coin]
  removals := []
  walletId := c.walletId
  sentTo := []
  tradeId := none
  type := type
  name := E.coinName c.coin

/-- Makes a record of a reward or of a payment, or confirms the transactions that the coin is change of. -/
def recordTransaction (c : AddedCoin) (height : ℕ) (allOutgoing : List TransactionRecord)
    (s : WalletTransactionStore) : WalletTransactionStore :=
  if c.coinbase ∨ c.feeReward then
    s.addTransactionRecord (incomingRecord E c height (if c.coinbase then .coinbaseReward else .feeReward))
  else
    let records := allOutgoing.flatMap fun record =>
      (record.additions.filter fun add => decide (E.coinName add=E.coinName c.coin)).map fun _ => record
    if 0 < records.length then
      (records.filter fun record => decide (record.confirmed=false)).foldl
        (fun s record => s.setConfirmed record.name height) s
    else if c.coin.amount > 0 then s.addTransactionRecord (incomingRecord E c height .incomingTx)
    else s

def addedCoinRecord (c : AddedCoin) (height : ℕ) : WalletCoinRecord :=
  ⟨c.coin,height,0,false,c.coinbase || c.feeReward,c.walletType,c.walletId⟩

def coinAdded (height : ℕ) (allOutgoingTx : Dict ℕ (List TransactionRecord)) (m : WalletStateManager) (c : AddedCoin) :
    WalletStateManager :=
  { m with
    txStore := recordTransaction E c height ((allOutgoingTx.get? c.walletId).getD []) m.txStore
    coinStore := m.coinStore.addCoinRecord E (addedCoinRecord c height) }

/-- The outgoing transactions are read before the first coin is added. -/
def coinsOfInterestAdded (m : WalletStateManager) (additions : List AddedCoin) (height : ℕ) : WalletStateManager :=
  let allOutgoingTx := (additions.filter (·.derived)).foldl (fun d c =>
    d.set c.walletId (m.txStore.getAllTransactionsForWallet c.walletId .outgoingTx)) Dict.empty
  additions.foldl (coinAdded E height allOutgoingTx) m

/-- Confirms the unconfirmed transactions that spend a coin. -/
def confirmRemoval (height : ℕ) (allUnconfirmed : List TransactionRecord) (s : WalletTransactionStore) (coin : Coin) :
    WalletTransactionStore :=
  (allUnconfirmed.flatMap fun record =>
    (record.removals.filter fun rem => decide (E.coinName rem=E.coinName coin)).map fun _ => record).foldl
      (fun s record => s.setConfirmed record.name height) s

def removeCoin (height : ℕ) (s : WalletCoinStore) (coin : Coin) : Check WalletCoinStore :=
  match s.getCoinRecord (E.coinName coin) with
  | none => .ok s
  | some _ => do return (← s.setSpent E (E.coinName coin) height).2

def coinRemoved (height : ℕ) (allUnconfirmed : List TransactionRecord) (m : WalletStateManager) (coin : Coin) :
    Check WalletStateManager := do
  let coinStore ← removeCoin E height m.coinStore coin
  return { m with coinStore := coinStore,txStore := confirmRemoval E height allUnconfirmed m.txStore coin }

/-- The unconfirmed transactions are read before the first coin is removed. -/
def coinsOfInterestRemoved (m : WalletStateManager) (coins : List Coin) (height : ℕ) : Check WalletStateManager :=
  coins.foldlM (coinRemoved E height m.txStore.getAllUnconfirmed) m

def newTransactionBlockCallback (m : WalletStateManager) (b : WalletBlock) : Check WalletStateManager :=
  coinsOfInterestRemoved E (coinsOfInterestAdded E m b.additions b.height) b.removals b.height

/-- Types of transactions that are sent again after a reorg. -/
def sentAgain (type : TransactionType) : Bool :=
  decide (type = .outgoingTx ∨ type = .outgoingTrade ∨ type = .incomingTrade)

variable (P : PoolPrograms)

/-- Rolls a pool wallet back; the wallets that are to be removed are collected. -/
def rewindWallet (height : ℤ) (acc : List ℕ × WalletPoolStore) : ℕ × ManagedWallet → List ℕ × WalletPoolStore
  | (id,.pooling targetState) =>
    let answer := PoolWallet.rewind E P id height ⟨acc.2,targetState⟩
    (if answer.1 then acc.1++[id] else acc.1,answer.2.store)
  | (_,.other _) => acc

def rewindWallets (height : ℤ) (wallets : Dict ℕ ManagedWallet) (store : WalletPoolStore) :
    List ℕ × WalletPoolStore := wallets.entries.foldl (rewindWallet E P height) ([],store)

def removeWallet (m : WalletStateManager) (walletId : ℕ) : Check WalletStateManager := do
  let _ ← lookup (m.wallets.get? walletId)
  let _ ← lookup (m.newPeakCallbacks.get? walletId)
  return { m with
    usersWallets := m.usersWallets.filter fun id => decide (id≠walletId)
    wallets := m.wallets.erase walletId
    newPeakCallbacks := m.newPeakCallbacks.erase walletId }

def reorgRollback (m : WalletStateManager) (height : ℤ) : Check WalletStateManager := do
  let coinStore ← m.coinStore.rollbackToBlock E height
  let reorged := m.txStore.getTransactionAbove height
  let txStore ← m.txStore.rollbackToBlock height
  let txStore := (reorged.filter fun r => sentAgain r.type).foldl WalletTransactionStore.txReorged txStore
  let (removeIds,poolStore) := rewindWallets E P height m.wallets m.poolStore
  removeIds.foldlM removeWallet { m with coinStore := coinStore,txStore := txStore,poolStore := poolStore }

def addNewWallet (m : WalletStateManager) (walletId : ℕ) (wallet : ManagedWallet) : WalletStateManager :=
  { m with
    wallets := m.wallets.set walletId wallet
    newPeakCallbacks := match wallet with
      | .pooling _ => m.newPeakCallbacks.set walletId ()
      | .other _ => m.newPeakCallbacks
    usersWallets := m.usersWallets++[walletId] }

def reopen (m : WalletStateManager) : WalletStateManager :=
  { m with
    coinStore := .create E m.coinStore.coinRecord
    txStore := .create m.txStore.transactionRecord
    poolStore := m.poolStore.rebuildCache }

/-- What happens to the wallets between two reorgs. -/
inductive Event
  | newTransactionBlock (b : WalletBlock)
  | addTransaction (record : TransactionRecord)
  | addNewWallet (walletId : ℕ) (wallet : ManagedWallet)
  /-- Pool wallets follow spends of a block. -/
  | poolTransitions (poolStore : WalletPoolStore)
  | reopen

def perform (m : WalletStateManager) : Event → Check WalletStateManager
  | .newTransactionBlock b => newTransactionBlockCallback E m b
  | .addTransaction record => .ok { m with txStore := m.txStore.addTransactionRecord record }
  | .addNewWallet walletId wallet => .ok (addNewWallet m walletId wallet)
  | .poolTransitions poolStore => .ok { m with poolStore := poolStore }
  | .reopen => .ok (reopen E m)

end WalletStateManager
end RoseChain
