import Mathlib.Algebra.BigOperators.Group.Finset.Basic
import Mathlib.Algebra.Order.BigOperators.Group.Finset
import Mathlib.Data.Finset.Dedup
import Mathlib.Data.List.Sort
import RoseChain.FullNode.MempoolRuns
import RoseChain.Wallet.TradeManager
import RoseChain.Wallet.WalletCoinCaches
import RoseChain.Wallet.WalletPuzzleStore
import RoseChain.Wallet.WalletTransactionStore

namespace RoseChain
open Lib

/-- The order in which a set is gone through. -/
structure SetOrder (α : Type) where
  list : Finset α → List α
  nodup : ∀ s,(list s).Nodup
  mem : ∀ s a,a∈list s ↔ a∈s

/-- A trade with the bundle that was offered and the one that was sent for it. -/
structure TradeOffer where
  status : TradeStatus
  spendBundle : SpendBundle
  txSpendBundle : Option SpendBundle

/-- What the selection reads: the peak, the stores, and the trades in the order of their rows. -/
structure CoinSource where
  peak : Option BlockRecord
  coinStore : WalletCoinStore
  txStore : WalletTransactionStore
  puzzleStore : WalletPuzzleStore
  trades : List TradeOffer

namespace WalletCoinStore

def getUnspentCoinsForWallet (s : WalletCoinStore) (walletId : ℕ) : Finset WalletCoinRecord :=
  match s.unspentCoinWalletCache.get? walletId with
  | some walletCoins => walletCoins.values.toFinset
  | none => ∅

end WalletCoinStore

def WalletPuzzleStore.walletInfoForPuzzleHash (s : WalletPuzzleStore) (puzzleHash : Bytes32) : Option (ℕ × WalletType) :=
  (s.derivationPaths.find? fun row => decide (row.puzzleHash=puzzleHash)).map fun row => (row.walletId,row.walletType)

namespace CoinSource
variable (E : Env) (s : CoinSource)

def getOffersWithStatus (status : TradeStatus) : List TradeOffer := s.trades.filter fun t => decide (t.status=status)

def getLockedCoinsInSpendBundle (bundle : SpendBundle) : CoinsByName :=
  bundle.removals.foldl (fun result coin =>
    match s.coinStore.getCoinRecord (E.coinName coin) with
    | none => result
    | some coinRecord => result.set (E.coinName coinRecord.coin) coinRecord) .empty

def getLockedCoins (walletId : Option ℤ) : CoinsByName :=
  let allPending := s.getOffersWithStatus .pendingAccept++s.getOffersWithStatus .pendingConfirm ++
    s.getOffersWithStatus .pendingCancel
  allPending.foldl (fun result tradeOffer =>
    let locked := s.getLockedCoinsInSpendBundle E (tradeOffer.txSpendBundle.getD tradeOffer.spendBundle)
    locked.entries.foldl (fun result e =>
      if walletId=none ∨ walletId=some e.2.walletId then result.set e.1 e.2 else result) result) .empty

def doesCoinBelongToWallet (coin : Coin) (walletId : ℕ) : Bool :=
  match s.puzzleStore.walletInfoForPuzzleHash coin.puzzleHash with
  | none => false
  | some (coinWalletId,_) => decide (walletId=coinWalletId)

def unconfirmedRemovalsForWallet (walletId : ℕ) : Dict Bytes32 Coin :=
  ((s.txStore.getUnconfirmedForWallet walletId).flatMap (·.removals)).foldl
    (fun removals coin => removals.set (E.coinName coin) coin) .empty

def removalDict (walletId : ℕ) : Dict Bytes32 Coin :=
  ((s.txStore.getUnconfirmedForWallet walletId).flatMap (·.removals)).foldl
    (fun removals coin => if s.doesCoinBelongToWallet coin walletId then removals.set (E.coinName coin) coin else removals)
    .empty

def getSpendableCoinsForWallet (walletId : ℕ) (records : Option (Finset WalletCoinRecord)) : Finset WalletCoinRecord :=
  match s.peak with
  | none => ∅
  | some _ =>
    (records.getD (s.coinStore.getUnspentCoinsForWallet walletId)).filter fun record =>
      (s.getLockedCoins E none).contains (E.coinName record.coin)=false ∧
        (s.removalDict E walletId).contains (E.coinName record.coin)=false

def getConfirmedSpendableBalanceForWallet (order : SetOrder WalletCoinRecord) (walletId : ℕ)
    (unspentRecords : Option (Finset WalletCoinRecord)) : Check ℕ :=
  (order.list (s.getSpendableCoinsForWallet E walletId unspentRecords)).foldlM
    (fun spendableAmount record => uint128 (spendableAmount+record.coin.amount)) 0

/-- The loop of `select_coins`. -/
def useCoins (amount : ℤ) (unconfirmedRemovals : Dict Bytes32 Coin) (exclude : List Coin) :
    List WalletCoinRecord → ℕ × Finset Coin → ℕ × Finset Coin
  | [],z => z
  | coinrecord::unspent,(sumValue,usedCoins) =>
    if (sumValue : ℤ) ≥ amount ∧ usedCoins.card > 0 then (sumValue,usedCoins)
    else if unconfirmedRemovals.contains (E.coinName coinrecord.coin) then
      useCoins amount unconfirmedRemovals exclude unspent (sumValue,usedCoins)
    else if coinrecord.coin∈exclude then useCoins amount unconfirmedRemovals exclude unspent (sumValue,usedCoins)
    else useCoins amount unconfirmedRemovals exclude unspent
      (sumValue+coinrecord.coin.amount,insert coinrecord.coin usedCoins)

/-- Two sets are gone through, one for the balance and one for the selection. -/
def selectCoins (balanceOrder order : SetOrder WalletCoinRecord) (walletId : ℕ) (amount : ℤ) (exclude : Option (List Coin)) :
    Check (Finset Coin) := do
  let spendableAmount ← s.getConfirmedSpendableBalanceForWallet E balanceOrder walletId none
  raiseIf (amount > spendableAmount)
  let unspent := (order.list (s.getSpendableCoinsForWallet E walletId none)).insertionSort
    fun r r' => r.coin.amount ≥ r'.coin.amount
  let (sumValue,usedCoins) := useCoins E amount (s.unconfirmedRemovalsForWallet E walletId) (exclude.getD []) unspent (0,∅)
  raiseIf ((sumValue : ℤ)<amount)
  return usedCoins

end CoinSource
theorem foldlM_invariant {α β : Type} {f : β → α → Check β} {P : β → Prop}
    (hstep : ∀ b a b',P b → f b a = .ok b' → P b') {l : List α} {b b' : β} (hb : P b) (h : l.foldlM f b = .ok b') :
    P b' := by
  induction l generalizing b with
  | nil =>
    obtain rfl := Except.ok.inj h
    exact hb
  | cons a l ih =>
    rw [List.foldlM_cons] at h
    obtain ⟨b₁,h₁,h⟩ := bind_ok.mp h
    exact ih (hstep b a b₁ hb h₁) h

namespace WalletCoinStore
variable (E : Env)

/-- The unspent coins of a wallet are kept under their names. -/
def NamedUnspent (s : WalletCoinStore) : Prop :=
  ∀ w n r,unspentOf s.unspentCoinWalletCache w n=some r → E.coinName r.coin=n

variable {E} {s s' : WalletCoinStore} {r : WalletCoinRecord}

theorem NamedUnspent.put (h : NamedUnspent E s)
    (hs' : s'.unspentCoinWalletCache=putUnspent s.unspentCoinWalletCache (E.coinName r.coin) r) : NamedUnspent E s' := by
  intro w n q hq
  rw [hs',unspentOf_put] at hq
  split_ifs at hq with hsame
  · rw [← Option.some.inj hq,hsame.2]
  · exact h w n q hq

theorem NamedUnspent.pop (h : NamedUnspent E s)
    (hs' : s'.unspentCoinWalletCache=popUnspent s.unspentCoinWalletCache (E.coinName r.coin) r) : NamedUnspent E s' := by
  intro w n q hq
  rw [hs',unspentOf_pop] at hq
  split_ifs at hq
  exact h w n q hq

theorem NamedUnspent.addCoinRecord (h : NamedUnspent E s) (r : WalletCoinRecord) : NamedUnspent E (addCoinRecord E s r) := by
  cases hspent : r.spent with
  | true => exact h.pop (r := r) (by simp [WalletCoinStore.addCoinRecord,hspent])
  | false => exact h.put (r := r) (by simp [WalletCoinStore.addCoinRecord,hspent])

theorem namedUnspent_rebuild (s : WalletCoinStore) : NamedUnspent E (rebuildWalletCache E s) := by
  unfold rebuildWalletCache
  apply List.foldlRecOn (motive := NamedUnspent E)
  · intro w n r hr
    cases hr
  · intro s h r _
    cases hspent : r.spent with
    | true =>
      intro w n q hq
      simp only [cacheRow,hspent,Bool.true_eq_false,if_false] at hq
      exact h w n q hq
    | false => exact h.put (r := r) (by simp [cacheRow,hspent])

theorem NamedUnspent.unspendRecord {height : ℤ} (h : NamedUnspent E s) (hs' : unspendRecord E height s r = .ok s') :
    NamedUnspent E s' := by
  unfold WalletCoinStore.unspendRecord at hs'
  split_ifs at hs'
  · obtain ⟨coins,hcoins,hs'⟩ := bind_ok.mp hs'
    rw [lookup_eq_ok] at hcoins
    apply h.put (r := rolledBack height r)
    rw [← Except.ok.inj hs']
    simp [putUnspent,hcoins]
  · rw [← Except.ok.inj hs']
    exact h

theorem NamedUnspent.deleteRecord (h : NamedUnspent E s) (hs' : deleteRecord E s r = .ok s') : NamedUnspent E s' := by
  obtain ⟨_,_,hs'⟩ := bind_ok.mp hs'
  apply h.pop (r := r)
  rw [← Except.ok.inj hs']

theorem NamedUnspent.perform {op : Op} (h : NamedUnspent E s) (hs' : perform E s op = .ok s') : NamedUnspent E s' := by
  cases op with
  | addCoinRecord record =>
    rw [← Except.ok.inj hs']
    exact h.addCoinRecord record
  | setSpent coinName height =>
    obtain ⟨p,hp,hs'⟩ := bind_ok.mp hs'
    obtain ⟨current,_,hp⟩ := bind_ok.mp hp
    rw [← Except.ok.inj hs',← Except.ok.inj hp]
    exact h.addCoinRecord _
  | rebuildWalletCache =>
    rw [← Except.ok.inj hs']
    exact namedUnspent_rebuild s
  | rollbackToBlock height =>
    obtain ⟨unspent,hunspent,hs'⟩ := bind_ok.mp hs'
    obtain ⟨deleted,hdeleted,hs'⟩ := bind_ok.mp hs'
    have hu := foldlM_invariant (fun _ _ _ hb hf => NamedUnspent.unspendRecord hb hf) h hunspent
    have hd := foldlM_invariant (fun _ _ _ hb hf => NamedUnspent.deleteRecord hb hf) hu hdeleted
    rw [← Except.ok.inj hs']
    exact hd

theorem namedUnspent_of_run {table : CoinsByName} {ops : List Op}
    (h : ops.foldlM (WalletCoinStore.perform E) (create E table) = .ok s) : NamedUnspent E s :=
  foldlM_invariant (fun _ _ _ hb hf => NamedUnspent.perform hb hf) (namedUnspent_rebuild _) h

theorem NamedUnspent.coin_injOn (h : NamedUnspent E s) (walletId : ℕ) :
    Set.InjOn (·.coin) (s.getUnspentCoinsForWallet walletId : Set WalletCoinRecord) := by
  unfold getUnspentCoinsForWallet
  cases hcoins : s.unspentCoinWalletCache.get? walletId with
  | none => simp
  | some walletCoins =>
    have hnamed : ∀ n r,walletCoins.get? n=some r → E.coinName r.coin=n := by
      intro n r hr
      apply h walletId n r
      rw [unspentOf,hcoins]
      exact hr
    intro r hr q hq hsame
    simp only [Finset.mem_coe,List.mem_toFinset,walletCoins.mem_values hnamed] at hr hq
    simp only [hsame,hq,Option.some.injEq] at hr
    exact hr.symm

end WalletCoinStore

namespace CoinSource
variable (E : Env) (s : CoinSource)

def allowedCoins (walletId : ℕ) (exclude : Option (List Coin)) : Finset Coin :=
  ((s.getSpendableCoinsForWallet E walletId none).image (·.coin)).filter fun coin =>
    (s.unconfirmedRemovalsForWallet E walletId).contains (E.coinName coin)=false ∧ coin∉exclude.getD []

/-- Without its smallest coin, a selection is not enough. -/
def Minimal (amount : ℤ) (coins : Finset Coin) : Prop :=
  ∀ c∈coins,(∀ d∈coins,c.amount≤d.amount) → ((∑ d∈coins.erase c,d.amount : ℕ) : ℤ)<amount

/-- What the loop has used before the rest of the list. -/
structure Used (amount : ℤ) (unspent : List WalletCoinRecord) (z : ℕ × Finset Coin) : Prop where
  sum : z.1 = ∑ c∈z.2,c.amount
  apart : ∀ r∈unspent,r.coin∉z.2
  above : ∀ r∈unspent,∀ c∈z.2,r.coin.amount ≤ c.amount
  minimal : 0<amount → Minimal amount z.2
  few : amount≤0 → z.2.card≤1

variable {E s} {amount : ℤ} {unconfirmedRemovals : Dict Bytes32 Coin} {exclude : List Coin} {r : WalletCoinRecord}
  {unspent : List WalletCoinRecord} {z : ℕ × Finset Coin}

theorem Used.start (amount : ℤ) (unspent : List WalletCoinRecord) : Used amount unspent (0,∅) where
  sum := by simp
  apart := by simp
  above := by simp
  minimal := by simp [Minimal]
  few := by simp

theorem Used.skip (h : Used amount (r::unspent) z) : Used amount unspent z where
  sum := h.sum
  apart := fun q hq => h.apart q (List.mem_cons_of_mem r hq)
  above := fun q hq => h.above q (List.mem_cons_of_mem r hq)
  minimal := h.minimal
  few := h.few

theorem Used.use (h : Used amount (r::unspent) z) (hsorted : ∀ q∈unspent,q.coin.amount ≤ r.coin.amount)
    (hdistinct : ∀ q∈unspent,q.coin≠r.coin) (hshort : ¬ ((z.1 : ℤ) ≥ amount ∧ z.2.card > 0)) :
    Used amount unspent (z.1+r.coin.amount,insert r.coin z.2) := by
  have hnew : r.coin∉z.2 := h.apart r List.mem_cons_self
  have hbelow := h.above r List.mem_cons_self
  constructor
  · simp only [Finset.sum_insert hnew,h.sum,add_comm]
  · intro q hq
    simp only [Finset.mem_insert,not_or]
    exact ⟨hdistinct q hq,h.skip.apart q hq⟩
  · intro q hq c hc
    obtain rfl | hc := Finset.mem_insert.mp hc
    · exact hsorted q hq
    · exact h.skip.above q hq c hc
  · intro hpos c hc hsmallest
    -- the last coin is a smallest one, so the others sum up to what was there before it
    have hle : c.amount ≤ r.coin.amount := hsmallest r.coin (Finset.mem_insert_self _ _)
    have hge : r.coin.amount ≤ c.amount := by
      obtain rfl | hc := Finset.mem_insert.mp hc
      · exact le_rfl
      · exact hbelow c hc
    have herase : c.amount + ∑ d∈(insert r.coin z.2).erase c,d.amount=r.coin.amount+z.1 := by
      rw [Finset.add_sum_erase _ (·.amount) hc,Finset.sum_insert hnew,h.sum]
    have hlt : (z.1 : ℤ)<amount := by
      by_contra hge
      apply hshort
      refine ⟨by omega,Finset.card_pos.mpr (Finset.nonempty_iff_ne_empty.mpr fun hnil => ?_)⟩
      have hzero := h.sum
      simp only [hnil,Finset.sum_empty] at hzero
      omega
    change ((∑ d∈(insert r.coin z.2).erase c,d.amount : ℕ) : ℤ)<amount
    omega
  · intro hnonpos
    have hnone : z.2.card=0 := by
      by_contra hsome
      exact hshort ⟨by omega,by omega⟩
    simp [Finset.card_eq_zero.mp hnone]

variable (unconfirmedRemovals exclude) in
theorem useCoins_spec (hsorted : unspent.Pairwise fun r q => q.coin.amount ≤ r.coin.amount)
    (hdistinct : unspent.Pairwise fun r q => q.coin≠r.coin) (h : Used amount unspent z) :
    let z' := useCoins E amount unconfirmedRemovals exclude unspent z
    Used amount [] z' ∧ z.2 ⊆ z'.2 ∧
      (∀ c∈z'.2,c∈z.2 ∨ ∃ r∈unspent,r.coin=c ∧ unconfirmedRemovals.contains (E.coinName c)=false ∧
        c∉exclude) ∧
      ((z'.1 : ℤ)<amount → ∀ r∈unspent,unconfirmedRemovals.contains (E.coinName r.coin)=false →
        r.coin∉exclude → r.coin∈z'.2) := by
  induction unspent generalizing z with
  | nil => exact ⟨h,Finset.Subset.refl _,fun c hc => Or.inl hc,by simp⟩
  | cons r unspent ih =>
    obtain ⟨hhead,hsorted⟩ := List.pairwise_cons.mp hsorted
    obtain ⟨hother,hdistinct⟩ := List.pairwise_cons.mp hdistinct
    intro z'
    by_cases hstop : (z.1 : ℤ) ≥ amount ∧ z.2.card > 0
    · have hz' : z'=z := by simp [z',useCoins,hstop]
      rw [hz']
      refine ⟨⟨h.sum,by simp,by simp,h.minimal,h.few⟩,Finset.Subset.refl _,fun c hc => Or.inl hc,?_⟩
      intro hlt
      exact absurd hstop.1 (by omega)
    by_cases hskip : unconfirmedRemovals.contains (E.coinName r.coin)=true ∨ r.coin∈exclude
    · have hz' : z'=useCoins E amount unconfirmedRemovals exclude unspent z := by
        simp only [z',useCoins,if_neg hstop]
        obtain hremoved | hexcluded := hskip
        · rw [if_pos hremoved]
        · rw [if_pos hexcluded,ite_self]
      obtain ⟨hused,hmore,hfrom,hall⟩ := ih hsorted hdistinct h.skip
      rw [hz']
      refine ⟨hused,hmore,?_,?_⟩
      · intro c hc
        obtain hold | ⟨q,hq,hrest⟩ := hfrom c hc
        · exact Or.inl hold
        · exact Or.inr ⟨q,List.mem_cons_of_mem r hq,hrest⟩
      · intro hlt q hq hremoved hexcluded
        obtain rfl | hq := List.mem_cons.mp hq
        · simp [hremoved,hexcluded] at hskip
        · exact hall hlt q hq hremoved hexcluded
    · simp only [not_or,Bool.not_eq_true] at hskip
      have hz' : z'=useCoins E amount unconfirmedRemovals exclude unspent
          (z.1+r.coin.amount,insert r.coin z.2) := by
        simp only [z',useCoins,if_neg hstop,hskip.1,Bool.false_eq_true,if_false,if_neg hskip.2]
      obtain ⟨hused,hmore,hfrom,hall⟩ := ih hsorted hdistinct (h.use hhead hother hstop)
      rw [hz']
      refine ⟨hused,(Finset.subset_insert _ _).trans hmore,?_,?_⟩
      · intro c hc
        obtain hold | ⟨q,hq,hrest⟩ := hfrom c hc
        · obtain rfl | hold := Finset.mem_insert.mp hold
          · exact Or.inr ⟨r,List.mem_cons_self,rfl,hskip⟩
          · exact Or.inl hold
        · exact Or.inr ⟨q,List.mem_cons_of_mem r hq,hrest⟩
      · intro hlt q hq hremoved hexcluded
        obtain rfl | hq := List.mem_cons.mp hq
        · exact hmore (Finset.mem_insert_self _ _)
        · exact hall hlt q hq hremoved hexcluded

end CoinSource

namespace CoinSource
variable {E : Env} {s : CoinSource}

theorem spendable_subset (walletId : ℕ) :
    s.getSpendableCoinsForWallet E walletId none ⊆ s.coinStore.getUnspentCoinsForWallet walletId := by
  unfold getSpendableCoinsForWallet
  cases s.peak with
  | none => simp
  | some _ => simp

theorem foldlM_uint128 (records : List WalletCoinRecord) (total balance : ℕ) (htotal : total<2^128) :
    records.foldlM (fun spendableAmount record => uint128 ((spendableAmount : ℕ)+record.coin.amount)) total =
      Except.ok balance ↔ balance=total+(records.map (·.coin.amount)).sum ∧ balance<2^128 := by
  induction records generalizing total with
  | nil =>
    simp only [List.foldlM_nil,List.map_nil,List.sum_nil,Nat.add_zero]
    constructor
    · intro h
      obtain rfl := Except.ok.inj h
      exact ⟨rfl,htotal⟩
    · intro ⟨h,_⟩
      rw [h]
      rfl
  | cons record records ih =>
    rw [List.foldlM_cons,bind_ok]
    simp only [List.map_cons,List.sum_cons]
    constructor
    · intro ⟨next,hnext,hrest⟩
      obtain ⟨hsum,hlt⟩ := uint_eq_ok.mp hnext
      rw [ih next hlt] at hrest
      omega
    · intro ⟨hsum,hlt⟩
      refine ⟨total+record.coin.amount,uint_eq_ok.mpr ⟨by simp,by omega⟩,?_⟩
      rw [ih _ (by omega)]
      omega

theorem spendableBalance_eq_ok (order : SetOrder WalletCoinRecord) (walletId balance : ℕ) :
    s.getConfirmedSpendableBalanceForWallet E order walletId none = .ok balance ↔
      balance = ∑ r∈s.getSpendableCoinsForWallet E walletId none,r.coin.amount ∧ balance<2^128 := by
  unfold getConfirmedSpendableBalanceForWallet
  rw [foldlM_uint128 _ 0 balance (by norm_num),Nat.zero_add]
  have hset : (order.list (s.getSpendableCoinsForWallet E walletId none)).toFinset =
      s.getSpendableCoinsForWallet E walletId none := by
    ext r
    simp [order.mem]
  rw [← List.sum_toFinset _ (order.nodup _),hset]

/-- The coins that were found, spendable and free, are enough, and for a positive amount all of them are needed. -/
structure Selected (E : Env) (s : CoinSource) (walletId : ℕ) (amount : ℤ) (exclude : Option (List Coin))
    (coins : Finset Coin) : Prop where
  spendable : ∀ c∈coins,∃ r∈s.getSpendableCoinsForWallet E walletId none,r.coin=c
  notExcluded : ∀ c∈coins,c∉exclude.getD []
  notRemoved : ∀ c∈coins,(s.unconfirmedRemovalsForWallet E walletId).contains (E.coinName c)=false
  enough : amount≤(∑ c∈coins,c.amount : ℕ)
  minimal : 0<amount → Minimal amount coins
  few : amount≤0 → coins.card≤1

def picked (E : Env) (s : CoinSource) (order : SetOrder WalletCoinRecord) (walletId : ℕ) (amount : ℤ)
    (exclude : Option (List Coin)) : ℕ × Finset Coin :=
  useCoins E amount (s.unconfirmedRemovalsForWallet E walletId) (exclude.getD [])
    ((order.list (s.getSpendableCoinsForWallet E walletId none)).insertionSort fun r r' => r.coin.amount ≥ r'.coin.amount)
    (0,∅)

variable (order balanceOrder : SetOrder WalletCoinRecord) (walletId : ℕ) (amount : ℤ) (exclude : Option (List Coin))

theorem picked_spec (hinj : Set.InjOn (·.coin) (s.getSpendableCoinsForWallet E walletId none : Set WalletCoinRecord)) :
    Used amount [] (s.picked E order walletId amount exclude) ∧
      (s.picked E order walletId amount exclude).2 ⊆ s.allowedCoins E walletId exclude ∧
      (((s.picked E order walletId amount exclude).1 : ℤ)<amount →
        s.allowedCoins E walletId exclude ⊆ (s.picked E order walletId amount exclude).2) := by
  set spendable := s.getSpendableCoinsForWallet E walletId none with hspendable
  have hperm := List.perm_insertionSort (fun r r' : WalletCoinRecord => r.coin.amount ≥ r'.coin.amount) (order.list spendable)
  have hmem (r : WalletCoinRecord) : r∈(order.list spendable).insertionSort
      (fun r r' => r.coin.amount ≥ r'.coin.amount) ↔ r∈spendable := by rw [hperm.mem_iff,order.mem]
  have hsorted := List.pairwise_insertionSort (fun r r' : WalletCoinRecord => r.coin.amount ≥ r'.coin.amount)
    (order.list spendable)
  have hdistinct : ((order.list spendable).insertionSort fun r r' => r.coin.amount ≥ r'.coin.amount).Pairwise
      fun r q => q.coin≠r.coin := by
    have hnodup := hperm.nodup_iff.mpr (order.nodup spendable)
    apply hnodup.imp_of_mem
    intro r q hr hq hne hsame
    exact hne (hinj ((hmem r).mp hr) ((hmem q).mp hq) hsame.symm)
  obtain ⟨hused,-,hfrom,hall⟩ := useCoins_spec (s.unconfirmedRemovalsForWallet E walletId) (exclude.getD []) hsorted
    hdistinct (Used.start amount _)
  refine ⟨hused,?_,?_⟩
  · intro c hc
    obtain hnone | ⟨r,hr,rfl,hfree⟩ := hfrom c hc
    · simp at hnone
    · simp only [allowedCoins,Finset.mem_filter,Finset.mem_image]
      exact ⟨⟨r,(hmem r).mp hr,rfl⟩,hfree⟩
  · intro hlt c hc
    simp only [allowedCoins,Finset.mem_filter,Finset.mem_image] at hc
    obtain ⟨⟨r,hr,rfl⟩,hremoved,hexcluded⟩ := hc
    exact hall hlt r ((hmem r).mpr hr) hremoved hexcluded

theorem selectCoins_eq_ok {coins : Finset Coin} :
    s.selectCoins E balanceOrder order walletId amount exclude = .ok coins ↔
      (∃ balance,s.getConfirmedSpendableBalanceForWallet E balanceOrder walletId none = .ok balance ∧
        amount≤(balance : ℕ)) ∧
      amount≤(s.picked E order walletId amount exclude).1 ∧ (s.picked E order walletId amount exclude).2=coins := by
  constructor
  · intro h
    obtain ⟨balance,hbalance,h⟩ := bind_ok.mp h
    obtain ⟨_,hhigh,h⟩ := bind_ok.mp h
    obtain ⟨_,hshort,h⟩ := bind_ok.mp h
    rw [raiseIf_eq_ok] at hhigh hshort
    exact ⟨⟨balance,hbalance,not_lt.mp hhigh⟩,not_lt.mp hshort,Except.ok.inj h⟩
  · intro ⟨⟨balance,hbalance,hle⟩,henough,hcoins⟩
    have hhigh : raiseIf (amount > balance) = .ok () := raiseIf_eq_ok.mpr (not_lt.mpr hle)
    have hshort : raiseIf (((s.picked E order walletId amount exclude).1 : ℤ)<amount) = .ok () :=
      raiseIf_eq_ok.mpr (not_lt.mpr henough)
    unfold selectCoins
    rw [bind_of_ok hbalance,bind_of_ok hhigh]
    exact (bind_of_ok hshort).trans (congrArg Except.ok hcoins)

/-- The selection succeeds if the balance and the allowed coins are enough, and finds no coin too many. -/
theorem selectCoins_exact {table : CoinsByName} {ops : List WalletCoinStore.Op}
    (hrun : ops.foldlM (WalletCoinStore.perform E) (WalletCoinStore.create E table) = .ok s.coinStore) :
    ((∃ coins,s.selectCoins E balanceOrder order walletId amount exclude = .ok coins) ↔
      (∃ balance,s.getConfirmedSpendableBalanceForWallet E balanceOrder walletId none = .ok balance ∧
        amount≤(balance : ℕ)) ∧ amount≤(∑ c∈s.allowedCoins E walletId exclude,c.amount : ℕ)) ∧
    ∀ coins,s.selectCoins E balanceOrder order walletId amount exclude = .ok coins →
      s.Selected E walletId amount exclude coins := by
  have hinj := ((WalletCoinStore.namedUnspent_of_run hrun).coin_injOn walletId).mono
    (Finset.coe_subset.mpr (spendable_subset (E := E) walletId))
  obtain ⟨hused,hallowed,hall⟩ := picked_spec order walletId amount exclude hinj
  have hle := Finset.sum_le_sum_of_subset (f := fun c : Coin => c.amount) hallowed
  rw [← hused.sum] at hle
  constructor
  · constructor
    · intro ⟨coins,h⟩
      obtain ⟨hbalance,henough,-⟩ := (selectCoins_eq_ok order balanceOrder walletId amount exclude).mp h
      exact ⟨hbalance,by omega⟩
    · intro ⟨hbalance,henough⟩
      refine ⟨_,(selectCoins_eq_ok order balanceOrder walletId amount exclude).mpr ⟨hbalance,?_,rfl⟩⟩
      by_contra hshort
      have heq := Finset.Subset.antisymm hallowed (hall (not_le.mp hshort))
      rw [← heq,← hused.sum] at henough
      exact hshort henough
  · intro coins h
    obtain ⟨-,henough,rfl⟩ := (selectCoins_eq_ok order balanceOrder walletId amount exclude).mp h
    have hfree {c : Coin} (hc : c∈(s.picked E order walletId amount exclude).2) := Finset.mem_filter.mp (hallowed hc)
    exact {
      spendable := fun c hc => Finset.mem_image.mp (hfree hc).1
      notExcluded := fun c hc => (hfree hc).2.2
      notRemoved := fun c hc => (hfree hc).2.1
      enough := hused.sum ▸ henough
      minimal := hused.minimal
      few := hused.few }

section Tiny

noncomputable def someOrder : SetOrder WalletCoinRecord := ⟨Finset.toList,Finset.nodup_toList,fun _ _ => Finset.mem_toList⟩

def sourceRecord (amount : ℕ) : WalletCoinRecord := ⟨⟨BitVec.ofNat 256 amount,0,amount⟩,1,0,false,false,.standardWallet,1⟩

def sourceOf (amounts : List ℕ) : CoinSource where
  peak := some tinyPeak
  coinStore := amounts.foldl (fun s amount => s.addCoinRecord tinyEnv (sourceRecord amount)) (.create tinyEnv .empty)
  txStore := .create .empty
  puzzleStore := .create []
  trades := []

theorem selectCoins_exact_two : ∃ coins,(sourceOf [5,9]).selectCoins tinyEnv someOrder someOrder 1 7 none = .ok coins ∧
    (sourceOf [5,9]).Selected tinyEnv 1 7 none coins := by
  have hrun : [.addCoinRecord (sourceRecord 5),.addCoinRecord (sourceRecord 9)].foldlM (WalletCoinStore.perform tinyEnv)
      (.create tinyEnv .empty) = .ok (sourceOf [5,9]).coinStore := rfl
  obtain ⟨hiff,hselected⟩ := selectCoins_exact someOrder someOrder 1 7 none hrun
  have hbalance := (spendableBalance_eq_ok (E := tinyEnv) (s := sourceOf [5,9]) someOrder 1 14).mpr
    ⟨by decide +kernel,by norm_num⟩
  have henough : (7 : ℤ)≤(∑ c∈(sourceOf [5,9]).allowedCoins tinyEnv 1 none,c.amount : ℕ) := by decide +kernel
  obtain ⟨coins,hcoins⟩ := hiff.mpr ⟨⟨14,hbalance,by norm_num⟩,henough⟩
  exact ⟨coins,hcoins,hselected coins hcoins⟩

/-- For an amount of zero a coin is used, and nothing is left without it. -/
theorem selectCoins_zero : (sourceOf [5]).selectCoins tinyEnv someOrder someOrder 1 0 none = .ok {⟨5,0,5⟩} ∧
    ¬ Minimal 0 {⟨5,0,5⟩} := by
  constructor
  · apply (selectCoins_eq_ok someOrder someOrder 1 0 none).mpr
    have hspendable : (sourceOf [5]).getSpendableCoinsForWallet tinyEnv 1 none = {sourceRecord 5} := by decide +kernel
    have hpicked : (sourceOf [5]).picked tinyEnv someOrder 1 0 none=(5,{⟨5,0,5⟩}) := by
      unfold picked
      rw [hspendable,show someOrder.list {sourceRecord 5} = [sourceRecord 5] from Finset.toList_singleton _]
      decide +kernel
    rw [hpicked]
    refine ⟨⟨5,(spendableBalance_eq_ok _ _ _).mpr ⟨?_,by norm_num⟩,by norm_num⟩,by norm_num,rfl⟩
    rw [hspendable]
    rfl
  · intro hminimal
    have hlt := hminimal ⟨5,0,5⟩ (by simp) (by simp)
    simp at hlt

end Tiny

end CoinSource

end RoseChain
