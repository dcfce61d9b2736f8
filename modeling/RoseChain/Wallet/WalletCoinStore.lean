import RoseChain.Consensus.Constants

namespace RoseChain
open Lib

inductive WalletType
  | standardWallet | rateLimited | atomicSwap | authorizedPayee | multiSig | custody | colouredCoin
  | recoverable | distributedId | poolingWallet
  deriving DecidableEq

structure WalletCoinRecord where
  coin : Coin
  confirmedBlockHeight : ℕ
  spentBlockHeight : ℕ
  spent : Bool
  coinbase : Bool
  walletType : WalletType
  walletId : ℤ
  deriving DecidableEq

abbrev CoinsByName := Dict Bytes32 WalletCoinRecord

/-- The table, all its records in memory, and the unspent ones by wallet. -/
structure WalletCoinStore where
  coinRecord : CoinsByName
  coinRecordCache : CoinsByName
  unspentCoinWalletCache : Dict ℤ CoinsByName

namespace WalletCoinStore

variable (E : Env)

def putUnspent (cache : Dict ℤ CoinsByName) (name : Bytes32) (r : WalletCoinRecord) : Dict ℤ CoinsByName :=
  cache.set r.walletId (((cache.get? r.walletId).getD .empty).set name r)

/-- A wallet keeps its entry when the last coin leaves. -/
def popUnspent (cache : Dict ℤ CoinsByName) (name : Bytes32) (r : WalletCoinRecord) : Dict ℤ CoinsByName :=
  match cache.get? r.walletId with
  | none => cache
  | some coins =>
    if (coins.get? name).isSome then cache.set r.walletId (coins.erase name) else cache

def cacheRow (s : WalletCoinStore) (r : WalletCoinRecord) : WalletCoinStore :=
  { s with
    coinRecordCache := s.coinRecordCache.set (E.coinName r.coin) r
    unspentCoinWalletCache :=
      if r.spent=false then putUnspent s.unspentCoinWalletCache (E.coinName r.coin) r
      else s.unspentCoinWalletCache }

def rebuildWalletCache (s : WalletCoinStore) : WalletCoinStore :=
  s.coinRecord.values.foldl (cacheRow E) { s with coinRecordCache := .empty,unspentCoinWalletCache := .empty }

def create (coinRecord : CoinsByName) : WalletCoinStore := rebuildWalletCache E ⟨coinRecord,.empty,.empty⟩

def addCoinRecord (s : WalletCoinStore) (record : WalletCoinRecord) : WalletCoinStore :=
  let name := E.coinName record.coin
  { coinRecord := s.coinRecord.set name record
    coinRecordCache := s.coinRecordCache.set name record
    unspentCoinWalletCache :=
      if record.spent then popUnspent s.unspentCoinWalletCache name record
      else putUnspent s.unspentCoinWalletCache name record }

def getCoinRecord (s : WalletCoinStore) (coinName : Bytes32) : Option WalletCoinRecord :=
  match s.coinRecordCache.get? coinName with
  | some r => some r
  | none => s.coinRecord.get? coinName

def setSpent (s : WalletCoinStore) (coinName : Bytes32) (height : ℕ) :
    Check (WalletCoinRecord × WalletCoinStore) := do
  let current ← assertSome (getCoinRecord s coinName)
  let spent := { current with spentBlockHeight := height,spent := true }
  return (spent,addCoinRecord E s spent)

/-- The record after everything above a height is undone. -/
def rolledBack (height : ℤ) (r : WalletCoinRecord) : WalletCoinRecord :=
  if (r.spentBlockHeight : ℤ) > height then { r with spentBlockHeight := 0,spent := false } else r

/-- Unspends a record that was spent above the height; its wallet must have an entry. -/
def unspendRecord (height : ℤ) (s : WalletCoinStore) (r : WalletCoinRecord) : Check WalletCoinStore :=
  if (r.spentBlockHeight : ℤ) > height then do
    let newRecord := rolledBack height r
    let coins ← lookup (s.unspentCoinWalletCache.get? r.walletId)
    return { s with
      coinRecordCache := s.coinRecordCache.set (E.coinName r.coin) newRecord
      unspentCoinWalletCache :=
        s.unspentCoinWalletCache.set r.walletId (coins.set (E.coinName r.coin) newRecord) }
  else return s

def deleteRecord (s : WalletCoinStore) (r : WalletCoinRecord) : Check WalletCoinStore := do
  let _ ← lookup (s.coinRecordCache.get? (E.coinName r.coin))
  return { s with
    coinRecordCache := s.coinRecordCache.erase (E.coinName r.coin)
    unspentCoinWalletCache := popUnspent s.unspentCoinWalletCache (E.coinName r.coin) r }

def rollbackToBlock (s : WalletCoinStore) (height : ℤ) : Check WalletCoinStore := do
  let unspent ← s.coinRecordCache.values.foldlM (unspendRecord E height) s
  let deleteQueue := s.coinRecordCache.values.filter fun r => decide ((r.confirmedBlockHeight : ℤ) > height)
  let deleted ← deleteQueue.foldlM (deleteRecord E) unspent
  return { deleted with
    coinRecord := (deleted.coinRecord.filter fun _ r =>
      decide ((r.confirmedBlockHeight : ℤ)≤height)).mapVals fun _ r => rolledBack height r }

/-- What is asked of the store. -/
inductive Op
  | addCoinRecord (record : WalletCoinRecord)
  | setSpent (coinName : Bytes32) (height : ℕ)
  | rebuildWalletCache
  | rollbackToBlock (height : ℤ)

def perform (s : WalletCoinStore) : Op → Check WalletCoinStore
  | .addCoinRecord record => .ok (addCoinRecord E s record)
  | .setSpent coinName height => do return (← setSpent E s coinName height).2
  | .rebuildWalletCache => .ok (rebuildWalletCache E s)
  | .rollbackToBlock height => rollbackToBlock E s height

end WalletCoinStore
end RoseChain
