import RoseChain.Consensus.Constants

namespace RoseChain
open Lib

inductive TradeStatus
  | pendingAccept | pendingConfirm | pendingCancel | canceled | confirmed | failed
  deriving DecidableEq

structure TradeRecord where
  confirmedAtIndex : ℕ
  acceptedAtTime : Option ℕ
  createdAtTime : ℕ
  myOffer : Bool
  sent : ℕ
  additions : List Coin
  removals : List Coin
  tradeId : Bytes32
  status : TradeStatus
  deriving DecidableEq

/-- The rows by their primary key. -/
structure TradeStore where
  tradeRecords : Dict Bytes32 TradeRecord
  keyed : ∀ {tradeId record},tradeRecords.get? tradeId=some record → record.tradeId=tradeId

namespace TradeStore

def addTradeRecord (record : TradeRecord) (s : TradeStore) : TradeStore where
  tradeRecords := s.tradeRecords.set record.tradeId record
  keyed := by
    intro tradeId r h
    rw [Dict.get?_set] at h
    split_ifs at h with heq
    · rw [← Option.some.inj h,heq]
    · exact s.keyed h

def getTradeRecord (tradeId : Bytes32) (s : TradeStore) : Option TradeRecord := s.tradeRecords.get? tradeId

def setStatus (tradeId : Bytes32) (status : TradeStatus) (index : ℕ) (s : TradeStore) : TradeStore :=
  match s.getTradeRecord tradeId with
  | none => s
  | some current => s.addTradeRecord
      { current with
        confirmedAtIndex := if index≠0 then index else current.confirmedAtIndex
        status := status }

def getAllTrades (s : TradeStore) : List TradeRecord := s.tradeRecords.values

end TradeStore

namespace TradeManager

/-- The first trade that is not canceled and has the coin. -/
def getTradeByCoin (allTrades : List TradeRecord) (coin : Coin) : Option TradeRecord :=
  allTrades.find? fun trade =>
    decide (trade.status ≠ .canceled) && (decide (coin∈trade.removals) || decide (coin∈trade.additions))

/-- How often the trades have been read, names in `checked`, and the store. -/
structure Farming where
  reads : ℕ
  checked : List Bytes32
  tradeStore : TradeStore

variable (E : Env)

def settleTrade (removalDict additionDict : List Bytes32) (height : ℕ) (trade : TradeRecord) (s : TradeStore) : TradeStore :=
  let failed := trade.removals.any (fun c => !removalDict.contains (E.coinName c)) ||
    trade.additions.any (fun c => !additionDict.contains (E.coinName c))
  if ¬ failed then s.setStatus trade.tradeId .confirmed height
  else if trade.status = .pendingCancel then s.setStatus trade.tradeId .canceled 0
  else if trade.status = .pendingConfirm then s.setStatus trade.tradeId .failed 0
  else s

/-- One round of the loop. `rowOrder` tells in which order a query without one returns its rows, read by read. -/
def farmCoin (rowOrder : ℕ → List TradeRecord → List TradeRecord) (removalDict additionDict : List Bytes32) (height : ℕ)
    (z : Farming) (coin : Coin) : Farming :=
  if z.checked.contains (E.coinName coin) then z
  else
    match getTradeByCoin (rowOrder z.reads z.tradeStore.getAllTrades) coin with
    | none => { z with reads := z.reads+1 }
    | some trade =>
      -- an added coin of the trade puts the coin itself into `checked`
      { reads := z.reads+1
        checked := trade.removals.map E.coinName++trade.additions.map (fun _ => E.coinName coin)++z.checked
        tradeStore := settleTrade E removalDict additionDict height trade z.tradeStore }

def coinsOfInterestFarmed (rowOrder : ℕ → List TradeRecord → List TradeRecord) (removals additions : List Coin)
    (height : ℕ) (s : TradeStore) : TradeStore :=
  ((removals++additions).foldl
    (farmCoin E rowOrder (removals.map E.coinName) (additions.map E.coinName) height) ⟨0,[],s⟩).tradeStore

end TradeManager

end RoseChain
