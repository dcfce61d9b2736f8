import RoseChain.FullNode.Mempool

namespace RoseChain
open Lib

inductive TransactionType
  | incomingTx | outgoingTx | coinbaseReward | feeReward | incomingTrade | outgoingTrade
  deriving DecidableEq

structure TransactionRecord where
  confirmedAtHeight : ℕ
  createdAtTime : ℕ
  toPuzzleHash : Bytes32
  amount : ℕ
  feeAmount : ℕ
  confirmed : Bool
  sent : ℕ
  spendBundle : Option SpendBundle
  additions : List Coin
  removals : List Coin
  walletId : ℕ
  /-- Peers, their answers and errors. -/
  sentTo : List (Bytes × ℕ × Option Bytes)
  tradeId : Option Bytes32
  type : TransactionType
  name : Bytes32
  deriving DecidableEq

abbrev TransactionsByName := Dict Bytes32 TransactionRecord

/-- The table, all its records in memory, and the unconfirmed ones by wallet. -/
structure WalletTransactionStore where
  transactionRecord : TransactionsByName
  txRecordCache : TransactionsByName
  unconfirmedForWallet : Dict ℕ TransactionsByName

namespace WalletTransactionStore

/-- The unconfirmed records of a wallet after a record of it is stored; a wallet without an entry gets one. -/
def updateUnconfirmed (cache : Dict ℕ TransactionsByName) (record : TransactionRecord) : Dict ℕ TransactionsByName :=
  let unconfirmed := (cache.get? record.walletId).getD .empty
  cache.set record.walletId
    (if record.confirmed then unconfirmed.erase record.name else unconfirmed.set record.name record)

def addTransactionRecord (s : WalletTransactionStore) (record : TransactionRecord) : WalletTransactionStore where
  transactionRecord := s.transactionRecord.set record.name record
  txRecordCache := s.txRecordCache.set record.name record
  unconfirmedForWallet := updateUnconfirmed s.unconfirmedForWallet record

/-- A wallet enters with its first record, confirmed or not. -/
def enterUnconfirmed (cache : Dict ℕ TransactionsByName) (record : TransactionRecord) : Dict ℕ TransactionsByName :=
  let unconfirmed := (cache.get? record.walletId).getD .empty
  cache.set record.walletId (if record.confirmed then unconfirmed else unconfirmed.set record.name record)

def rebuildTxCache (s : WalletTransactionStore) : WalletTransactionStore where
  transactionRecord := s.transactionRecord
  txRecordCache := s.transactionRecord.values.foldl (fun cache r => cache.set r.name r) .empty
  unconfirmedForWallet := s.transactionRecord.values.foldl enterUnconfirmed .empty

def create (transactionRecord : TransactionsByName) : WalletTransactionStore :=
  rebuildTxCache ⟨transactionRecord,.empty,.empty⟩

def getTransactionRecord (s : WalletTransactionStore) (txId : Bytes32) : Option TransactionRecord :=
  match s.txRecordCache.get? txId with
  | some r => some r
  | none => s.transactionRecord.get? txId

def setConfirmed (s : WalletTransactionStore) (txId : Bytes32) (height : ℕ) : WalletTransactionStore :=
  match getTransactionRecord s txId with
  | none => s
  | some current =>
    addTransactionRecord s { current with confirmedAtHeight := height,confirmed := true,tradeId := none }

/-- The record of a transaction that is to be sent again. -/
def reorged (record : TransactionRecord) : TransactionRecord :=
  { record with confirmedAtHeight := 0,confirmed := false,sent := 0,sentTo := [],tradeId := none }

def txReorged (s : WalletTransactionStore) (record : TransactionRecord) : WalletTransactionStore :=
  addTransactionRecord s (reorged record)

def getAllUnconfirmed (s : WalletTransactionStore) : List TransactionRecord :=
  s.transactionRecord.values.filter fun r => decide (r.confirmed=false)

def getUnconfirmedForWallet (s : WalletTransactionStore) (walletId : ℕ) : List TransactionRecord :=
  match s.unconfirmedForWallet.get? walletId with
  | some records => records.values
  | none => []

def getAllTransactionsForWallet (s : WalletTransactionStore) (walletId : ℕ) (type : TransactionType) :
    List TransactionRecord :=
  s.transactionRecord.values.filter fun r => decide (r.walletId=walletId ∧ r.type=type)

def getTransactionAbove (s : WalletTransactionStore) (height : ℤ) : List TransactionRecord :=
  s.transactionRecord.values.filter fun r => decide ((r.confirmedAtHeight : ℤ) > height)

def popRecord (s : WalletTransactionStore) (r : TransactionRecord) : Check WalletTransactionStore := do
  let _ ← lookup (s.txRecordCache.get? r.name)
  return { s with txRecordCache := s.txRecordCache.erase r.name }

def rollbackToBlock (s : WalletTransactionStore) (height : ℤ) : Check WalletTransactionStore := do
  let toDelete := s.txRecordCache.values.filter fun r => decide ((r.confirmedAtHeight : ℤ) > height)
  let popped ← toDelete.foldlM popRecord s
  return { popped with
    transactionRecord := popped.transactionRecord.filter fun _ r => decide ((r.confirmedAtHeight : ℤ)≤height) }

end WalletTransactionStore
end RoseChain
