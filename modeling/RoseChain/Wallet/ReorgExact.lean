import RoseChain.Wallet.PoolReplay
import RoseChain.Wallet.ReorgRollback

namespace RoseChain
open Lib

namespace WalletStateManager
variable {E : Env} {P : PoolPrograms} {V : CoinTable} {m : WalletStateManager} {events : List Event} {height : ℤ}

variable (E P height) in
theorem rewindWallets_ids (l : List (ℕ × ManagedWallet)) (acc : List ℕ × WalletPoolStore) :
    ∃ ids,(l.foldl (rewindWallet E P height) acc).1=acc.1++ids ∧ ids.Sublist (l.map Prod.fst) ∧
      ∀ id∈ids,∃ targetState,(id,ManagedWallet.pooling targetState)∈l := by
  induction l generalizing acc with
  | nil => exact ⟨[],by simp,.slnil,nofun⟩
  | cons e l ih =>
    rw [List.foldl_cons]
    obtain ⟨ids,hids,hsub,hpool⟩ := ih (rewindWallet E P height acc e)
    have hmore : ∀ i∈ids,∃ t,(i,ManagedWallet.pooling t)∈e::l := by
      intro i hi
      obtain ⟨t,ht⟩ := hpool i hi
      exact ⟨t,List.mem_cons_of_mem _ ht⟩
    obtain ⟨id,wallet⟩ := e
    cases wallet with
    | other type => exact ⟨ids,hids,hsub.cons _,hmore⟩
    | pooling targetState =>
      rw [hids]
      unfold rewindWallet
      dsimp only
      split_ifs
      · refine ⟨id::ids,by simp,hsub.cons_cons _,fun i hi => ?_⟩
        obtain rfl | hi := List.mem_cons.mp hi
        · exact ⟨targetState,List.mem_cons_self⟩
        · exact hmore i hi
      · exact ⟨ids,rfl,hsub.cons _,hmore⟩

theorem removeWallets_ok {ids : List ℕ} (hids : ids.Nodup) (hwallets : ∀ id∈ids,(m.wallets.get? id).isSome)
    (hcallbacks : ∀ id∈ids,(m.newPeakCallbacks.get? id).isSome) :
    ∃ m',ids.foldlM removeWallet m = .ok m' ∧ m'.coinStore=m.coinStore ∧ m'.txStore=m.txStore := by
  induction ids generalizing m with
  | nil => exact ⟨m,rfl,rfl,rfl⟩
  | cons id ids ih =>
    rw [List.nodup_cons] at hids
    obtain ⟨wallet,hwallet⟩ := Option.isSome_iff_exists.mp (hwallets id List.mem_cons_self)
    obtain ⟨callback,hcallback⟩ := Option.isSome_iff_exists.mp (hcallbacks id List.mem_cons_self)
    have hremove : removeWallet m id = .ok { m with
        usersWallets := m.usersWallets.filter fun id' => decide (id'≠id)
        wallets := m.wallets.erase id
        newPeakCallbacks := m.newPeakCallbacks.erase id } := by
      unfold removeWallet
      rw [hwallet,hcallback]
      rfl
    have hother {i : ℕ} (hi : i∈ids) : id≠i := by
      rintro rfl
      exact hids.1 hi
    obtain ⟨m',hm',hcoins,htxs⟩ := ih (m := { m with
        usersWallets := m.usersWallets.filter fun id' => decide (id'≠id)
        wallets := m.wallets.erase id
        newPeakCallbacks := m.newPeakCallbacks.erase id }) hids.2
      (fun i hi => by
        rw [Dict.get?_erase,if_neg (hother hi)]
        exact hwallets i (List.mem_cons_of_mem _ hi))
      (fun i hi => by
        rw [Dict.get?_erase,if_neg (hother hi)]
        exact hcallbacks i (List.mem_cons_of_mem _ hi))
    refine ⟨m',?_,hcoins,htxs⟩
    rw [List.foldlM_cons,bind_of_ok hremove]
    exact hm'

/-- What a reorg leaves: the coins of `V`, and the transactions not above the height or to be sent again. -/
structure RolledBack (E : Env) (height : ℤ) (V : CoinTable) (m m' : WalletStateManager) : Prop where
  coins : HoldsTable E V m'.coinStore
  coherent : m'.txStore.TxCoherent
  unchanged : ∀ n r,m.txStore.getTransactionRecord n=some r → (r.confirmedAtHeight : ℤ)≤height →
    m'.txStore.getTransactionRecord n=some r
  again : ∀ n r,m.txStore.getTransactionRecord n=some r → (r.confirmedAtHeight : ℤ) > height →
    sentAgain r.type=true → m'.txStore.getTransactionRecord n=some (WalletTransactionStore.reorged r) ∧
      WalletTransactionStore.reorged r∈m'.txStore.getUnconfirmedForWallet r.walletId
  gone : ∀ n r,m.txStore.getTransactionRecord n=some r → (r.confirmedAtHeight : ℤ) > height →
    sentAgain r.type=false → m'.txStore.getTransactionRecord n=none

/-- The records above a height that are to be sent again. -/
def sentAgainAbove (s : WalletTransactionStore) (height : ℤ) : List TransactionRecord :=
  (s.getTransactionAbove height).filter fun r => sentAgain r.type

section Transactions
variable {s : WalletTransactionStore} (h : s.TxCoherent) {n : Bytes32} {r : TransactionRecord}
include h

theorem nodup_sentAgainAbove (height : ℤ) : ((sentAgainAbove s height).map (·.name)).Nodup := by
  have hkeys : s.transactionRecord.values.map (·.name)=s.transactionRecord.keys := by
    rw [Dict.keys,← WalletTransactionStore.names_of_named h.named,List.map_map]
    rfl
  have hall : (s.transactionRecord.values.map (·.name)).Nodup := hkeys ▸ s.transactionRecord.nodup
  exact hall.sublist ((List.filter_sublist.trans List.filter_sublist).map _)

omit h in
theorem mem_sentAgainAbove (hr : s.transactionRecord.get? n=some r) (habove : (r.confirmedAtHeight : ℤ) > height)
    (hsent : sentAgain r.type=true) : r∈sentAgainAbove s height := by
  have hvalue : r∈s.transactionRecord.values := List.mem_map.mpr ⟨(n,r),(Dict.mem_entries _ _ _).mpr hr,rfl⟩
  exact List.mem_filter.mpr ⟨List.mem_filter.mpr ⟨hvalue,decide_eq_true habove⟩,hsent⟩

theorem of_mem_sentAgainAbove (hr : s.transactionRecord.get? n=some r)
    (hn : n∈(sentAgainAbove s height).map (·.name)) :
    (r.confirmedAtHeight : ℤ) > height ∧ sentAgain r.type=true := by
  obtain ⟨r',hr',rfl⟩ := List.mem_map.mp hn
  obtain ⟨habove,hsent⟩ := List.mem_filter.mp hr'
  obtain ⟨hvalue,habove⟩ := List.mem_filter.mp habove
  obtain ⟨⟨k,r''⟩,hentry,rfl⟩ := List.mem_map.mp hvalue
  have hget := (Dict.mem_entries _ _ _).mp hentry
  rw [h.named k r'' hget,hget] at hr
  obtain rfl := Option.some.inj hr
  exact ⟨of_decide_eq_true habove,hsent⟩

theorem requeued_ok (height : ℤ) : ∃ rolled,s.rollbackToBlock height = .ok rolled ∧
    ((sentAgainAbove s height).foldl WalletTransactionStore.txReorged rolled).TxCoherent ∧
    (∀ r∈sentAgainAbove s height,
      ((sentAgainAbove s height).foldl WalletTransactionStore.txReorged rolled).getTransactionRecord r.name =
        some (WalletTransactionStore.reorged r) ∧ WalletTransactionStore.reorged r ∈
        ((sentAgainAbove s height).foldl WalletTransactionStore.txReorged rolled).getUnconfirmedForWallet r.walletId) ∧
    ∀ n,n∉(sentAgainAbove s height).map (·.name) →
      ((sentAgainAbove s height).foldl WalletTransactionStore.txReorged rolled).getTransactionRecord n =
        (s.getTransactionRecord n).filter fun r => decide ((r.confirmedAtHeight : ℤ)≤height) := by
  obtain ⟨rolled,hrolled,hcoherent,htable⟩ := h.rolled height
  obtain ⟨hcoherent',hagain,hframe⟩ := hcoherent.reorgedAll (nodup_sentAgainAbove h height)
  refine ⟨rolled,hrolled,hcoherent',?_,?_⟩
  · intro r hr
    obtain ⟨hstored,hunconfirmed⟩ := hagain r hr
    rw [hcoherent'.getTransactionRecord]
    exact ⟨hstored,WalletTransactionStore.mem_getUnconfirmedForWallet hunconfirmed⟩
  · intro n hn
    rw [hcoherent'.getTransactionRecord,(hframe n hn).1,htable,h.getTransactionRecord]

end Transactions

theorem Kept.removed_ok (h : Kept E V m) {coinStore : WalletCoinStore} {rolled : WalletTransactionStore}
    (hcoins : m.coinStore.rollbackToBlock E height = .ok coinStore)
    (htxs : m.txStore.rollbackToBlock height = .ok rolled) :
    ∃ m',reorgRollback E P m height = .ok m' ∧ m'.coinStore=coinStore ∧
      m'.txStore=(sentAgainAbove m.txStore height).foldl WalletTransactionStore.txReorged rolled := by
  obtain ⟨ids,hids,hsub,hpool⟩ := rewindWallets_ids E P height m.wallets.entries ([],m.poolStore)
  rw [List.nil_append] at hids
  have hremoved : (rewindWallets E P height m.wallets m.poolStore).1=ids := hids
  unfold reorgRollback
  rw [bind_of_ok hcoins]
  dsimp only
  rw [bind_of_ok htxs,hremoved]
  apply removeWallets_ok (m.wallets.nodup.sublist hsub)
  · intro id hid
    obtain ⟨t,ht⟩ := hpool id hid
    rw [(Dict.mem_entries _ _ _).mp ht]
    rfl
  · intro id hid
    obtain ⟨t,ht⟩ := hpool id hid
    exact h.callbacks id t ((Dict.mem_entries _ _ _).mp ht)

theorem Kept.rollback_iff (h : Kept E V m) :
    (∃ m',reorgRollback E P m height = .ok m' ∧ RolledBack E height (rollTable height V) m m') ↔
      EntriesKept height m.coinStore := by
  rw [← h.coins.rolled_iff height]
  constructor
  · intro ⟨m',hm',hrolled⟩
    obtain ⟨coinStore,hcoins,-⟩ := bind_ok.mp hm'
    have hentries := (h.coins.coherent.fits_iff (.rollbackToBlock height)).mp (by
      intro n r hr
      obtain ⟨s₁,hs₁,-⟩ := bind_ok.mp hcoins
      exact WalletCoinStore.entered_of_unspendAll hs₁ r
        (List.mem_map.mpr ⟨(n,r),(Dict.mem_entries _ _ _).mpr hr,rfl⟩))
    obtain ⟨s',hs',hcoherent⟩ := hentries
    exact ⟨s',hs',hcoherent,by rw [rollbackToBlock_table hs',h.coins.table]⟩
  · intro ⟨coinStore,hcoins,hrolled⟩
    obtain ⟨rolled,htxs,hcoherent,hagain,hframe⟩ := requeued_ok h.txs height
    obtain ⟨m',hm',hcoinStore,htxStore⟩ := h.removed_ok (P := P) hcoins htxs
    rw [← htxStore] at hcoherent hagain hframe
    refine ⟨m',hm',hcoinStore ▸ hrolled,hcoherent,?_,?_,?_⟩
    · intro n r hr hle
      have hstored := (h.txs.getTransactionRecord n).symm.trans hr
      rw [hframe n,hr,Option.filter_some,if_pos (by simpa using hle)]
      exact fun hn => absurd (of_mem_sentAgainAbove h.txs hstored hn).1 (not_lt.mpr hle)
    · intro n r hr habove hsent
      have hstored := (h.txs.getTransactionRecord n).symm.trans hr
      rw [← h.txs.named n r hstored]
      exact hagain r (mem_sentAgainAbove hstored habove hsent)
    · intro n r hr habove hsent
      have hstored := (h.txs.getTransactionRecord n).symm.trans hr
      rw [hframe n,hr,Option.filter_some,if_neg (by simpa using habove)]
      intro hn
      rw [(of_mem_sentAgainAbove h.txs hstored hn).2] at hsent
      cases hsent

theorem tableAfter_upTo (hchain : OnChain E events) (height : ℤ) :
    tableAfter E ((events.filter (upTo height)).flatMap (coinSteps E)) =
      rollTable height (tableAfter E (events.flatMap (coinSteps E))) := by
  rw [coinSteps_upTo,rollTable_tableAfter (coinSteps_sorted hchain.ascending) hchain.added hchain.removed]
  intro x hx
  obtain ⟨e,-,he⟩ := List.mem_flatMap.mp hx
  exact coinSteps_fresh he

theorem exact_of_entriesKept (h : Runs E events m) (hchain : OnChain E events)
    (hentries : EntriesKept height m.coinStore) : ∃ m' t,reorgRollback E P m height = .ok m' ∧
      Runs E (events.filter (upTo height)) t ∧ RolledBack E height t.coinStore.coinRecord.get? m m' := by
  have hup := hchain.sublist (List.filter_sublist (p := upTo height))
  obtain ⟨m',hm',hrolled⟩ := ((h.kept hchain).rollback_iff (P := P)).mpr hentries
  obtain ⟨t,ht⟩ := runs_exists hup
  rw [← tableAfter_upTo hchain height,← (ht.kept hup).coins.table] at hrolled
  exact ⟨m',t,hm',ht,hrolled⟩

/-- After any run over a chain, a reorg leaves the coins as after the blocks up to the height and the
transactions as they should be, exactly if the wallet of each coin to be unspent has an entry in the cache. -/
theorem reorgRollback_exact_iff (h : Runs E events m) (hchain : OnChain E events) (height : ℤ) :
    (∃ m' t,reorgRollback E P m height = .ok m' ∧ Runs E (events.filter (upTo height)) t ∧
      RolledBack E height t.coinStore.coinRecord.get? m m') ↔ EntriesKept height m.coinStore := by
  refine ⟨?_,exact_of_entriesKept h hchain⟩
  rintro ⟨m',t,hm',ht,hrolled⟩
  rw [(ht.kept (hchain.sublist List.filter_sublist)).coins.table,tableAfter_upTo hchain] at hrolled
  exact ((h.kept hchain).rollback_iff (P := P)).mp ⟨m',hm',hrolled⟩

section Open

/-- The wallet of every known coin has an entry in the cache of unspent coins. -/
def Entries (s : WalletCoinStore) : Prop :=
  ∀ n r,s.coinRecordCache.get? n=some r → (s.unspentCoinWalletCache.get? r.walletId).isSome

theorem putUnspent_entry (cache : Dict ℤ CoinsByName) (name : Bytes32) (r : WalletCoinRecord) (w : ℤ) :
    ((WalletCoinStore.putUnspent cache name r).get? w).isSome=(decide (r.walletId=w) || (cache.get? w).isSome) := by
  unfold WalletCoinStore.putUnspent
  rw [Dict.get?_set]
  split_ifs with hw <;> simp [hw]

theorem popUnspent_entry (cache : Dict ℤ CoinsByName) (name : Bytes32) (r : WalletCoinRecord) (w : ℤ) :
    ((WalletCoinStore.popUnspent cache name r).get? w).isSome=(cache.get? w).isSome := by
  unfold WalletCoinStore.popUnspent
  cases hc : cache.get? r.walletId with
  | none => rfl
  | some coins =>
    dsimp only
    split_ifs
    · rw [Dict.get?_set]
      split_ifs with hw
      · rw [← hw,hc]
        rfl
      · rfl
    · rfl

theorem Entries.added {s : WalletCoinStore} (h : Entries s) {r : WalletCoinRecord}
    (hr : r.spent=false ∨ (s.unspentCoinWalletCache.get? r.walletId).isSome) : Entries (s.addCoinRecord E r) := by
  have hmono : ∀ w,(s.unspentCoinWalletCache.get? w).isSome →
      ((s.addCoinRecord E r).unspentCoinWalletCache.get? w).isSome := by
    intro w hw
    unfold WalletCoinStore.addCoinRecord
    dsimp only
    split_ifs
    · rw [popUnspent_entry]
      exact hw
    · rw [putUnspent_entry,hw,Bool.or_true]
  intro n r' hr'
  simp only [WalletCoinStore.addCoinRecord,Dict.get?_set] at hr'
  split_ifs at hr' with hn
  · obtain rfl := Option.some.inj hr'
    obtain hunspent | hentry := hr
    · simp only [WalletCoinStore.addCoinRecord,hunspent]
      rw [if_neg (by simp),putUnspent_entry]
      simp
    · exact hmono _ hentry
  · exact hmono _ (h n r' hr')

variable {k : ℕ}

theorem Entries.removed {s s' : WalletCoinStore} (h : Entries s) (hs : WalletCoinStore.Coherent E s) {coin : Coin}
    (hrun : removeCoin E k s coin = .ok s') : Entries s' := by
  unfold removeCoin at hrun
  cases hget : s.getCoinRecord (E.coinName coin) with
  | none =>
    rw [hget] at hrun
    exact Except.ok.inj hrun ▸ h
  | some r =>
    have hcached : s.coinRecordCache.get? (E.coinName coin)=some r := by
      unfold WalletCoinStore.getCoinRecord at hget
      cases hc : s.coinRecordCache.get? (E.coinName coin) with
      | some old =>
        rw [hc] at hget
        exact hget
      | none =>
        rw [hc,← hs.cached,hc] at hget
        exact hget
    have hset : s.setSpent E (E.coinName coin) k = .ok (spentAt k r,s.addCoinRecord E (spentAt k r)) := by
      unfold WalletCoinStore.setSpent
      rw [hget]
      rfl
    rw [hget,hset] at hrun
    rw [← Except.ok.inj hrun]
    exact h.added (Or.inr (h _ r hcached))

theorem entries_additions {l : List AddedCoin} {allOutgoingTx : Dict ℕ (List TransactionRecord)}
    (h : Entries m.coinStore) : Entries (l.foldl (coinAdded E k allOutgoingTx) m).coinStore := by
  induction l generalizing m with
  | nil => exact h
  | cons c l ih =>
    apply ih
    exact h.added (Or.inl rfl)

theorem entries_removals {l : List Coin} {allUnconfirmed : List TransactionRecord} {m' : WalletStateManager}
    (hkept : Kept E V m) (h : Entries m.coinStore) (hrun : l.foldlM (coinRemoved E k allUnconfirmed) m = .ok m') :
    Entries m'.coinStore := by
  induction l generalizing m V with
  | nil => exact Except.ok.inj hrun ▸ h
  | cons coin l ih =>
    rw [List.foldlM_cons] at hrun
    obtain ⟨m₁,hm₁,hrun⟩ := bind_ok.mp hrun
    obtain ⟨m₁',hm₁',hkept₁⟩ := hkept.removals [coin] k allUnconfirmed
    have hone : [coin].foldlM (coinRemoved E k allUnconfirmed) m = .ok m₁ := by
      rw [List.foldlM_cons,bind_of_ok hm₁]
      rfl
    obtain rfl := Except.ok.inj (hone.symm.trans hm₁')
    obtain ⟨coinStore,hremove,hm₁⟩ := bind_ok.mp hm₁
    have hentries := h.removed hkept.coins.coherent hremove
    rw [← Except.ok.inj hm₁] at hrun hkept₁
    exact ih hkept₁ hentries hrun

theorem Runs.entries (h : Runs E events m) (hchain : OnChain E events) (hopen : Event.reopen∉events) :
    Entries m.coinStore := by
  induction h with
  | start => exact fun _ _ hr => by cases hr
  | @event events m m' e h hrun ih =>
    rw [List.mem_append,not_or] at hopen
    have hbefore := hchain.sublist (List.sublist_append_left _ _)
    have hentries := ih hbefore hopen.1
    have hkept := h.kept hbefore
    cases e with
    | newTransactionBlock b =>
      have hblock := hkept.block hchain.next.1 hchain.next.2
      exact entries_removals hblock (entries_additions hentries) hrun
    | addTransaction record => exact Except.ok.inj hrun ▸ hentries
    | addNewWallet walletId wallet => exact Except.ok.inj hrun ▸ hentries
    | poolTransitions poolStore => exact Except.ok.inj hrun ▸ hentries
    | reopen => exact absurd (List.mem_singleton.mpr rfl) hopen.2

/-- A wallet that stays open rolls back exactly to every height. -/
theorem reorgRollback_of_open (h : Runs E events m) (hchain : OnChain E events) (hopen : Event.reopen∉events)
    (height : ℤ) : ∃ m' t,reorgRollback E P m height = .ok m' ∧ Runs E (events.filter (upTo height)) t ∧
      RolledBack E height t.coinStore.coinRecord.get? m m' := by
  apply exact_of_entriesKept h hchain
  intro n r hr _
  exact h.entries hchain hopen n r hr

end Open

theorem runs_of_foldlM (h : events.foldlM (perform E) (start E) = .ok m) : Runs E events m := by
  induction events using List.reverseRecOn generalizing m with
  | nil => exact Except.ok.inj h ▸ .start
  | append_singleton events e ih =>
    rw [List.foldlM_append] at h
    obtain ⟨m₁,hm₁,h⟩ := bind_ok.mp h
    apply (ih hm₁).event
    rw [List.foldlM_cons] at h
    obtain ⟨m₂,hm₂,h⟩ := bind_ok.mp h
    rw [hm₂]
    exact h

def tinyCoin : Coin := ⟨5,0,9⟩

/-- A coin comes in, is spent four blocks later, and the wallet is opened again. -/
def spentCoinEvents : List Event :=
  [.newTransactionBlock ⟨3,[⟨tinyCoin,false,false,1,.standardWallet,true,0⟩],[]⟩,
    .newTransactionBlock ⟨7,[],[tinyCoin]⟩,.reopen]

theorem spentCoinEvents_onChain (k : ℕ) : OnChain tinyEnv (spentCoinEvents.take k) := by
  have hall : OnChain tinyEnv spentCoinEvents := ⟨by decide,by decide,by decide⟩
  exact hall.sublist (List.take_sublist _ _)

def tinyManager (events : List Event) : WalletStateManager :=
  (events.foldlM (perform tinyEnv) (start tinyEnv)).toOption.getD (start tinyEnv)

theorem tinyManager_runs {events : List Event} (h : (events.foldlM (perform tinyEnv) (start tinyEnv)).isOk=true) :
    Runs tinyEnv events (tinyManager events) := by
  apply runs_of_foldlM
  unfold tinyManager
  cases hrun : events.foldlM (perform tinyEnv) (start tinyEnv) with
  | ok m => rfl
  | error e =>
    rw [hrun] at h
    cases h

/-- Before the wallet is opened again, the spend is undone. -/
theorem reorgRollback_exact_spent : ∃ m' t,
    reorgRollback tinyEnv PoolWallet.quotingPrograms (tinyManager (spentCoinEvents.take 2)) 6 = .ok m' ∧
      Runs tinyEnv ((spentCoinEvents.take 2).filter (upTo 6)) t ∧
      RolledBack tinyEnv 6 t.coinStore.coinRecord.get? (tinyManager (spentCoinEvents.take 2)) m' := by
  apply (reorgRollback_exact_iff (tinyManager_runs (by decide +kernel)) (spentCoinEvents_onChain 2) 6).mpr
  have hentries : ∀ e∈(tinyManager (spentCoinEvents.take 2)).coinStore.coinRecordCache.entries,
      ((tinyManager (spentCoinEvents.take 2)).coinStore.unspentCoinWalletCache.get? e.2.walletId).isSome=true := by
    decide +kernel
  intro n r hr _
  exact hentries (n,r) ((Dict.mem_entries _ _ _).mpr hr)

theorem reorgRollback_of_open_before : ∃ m' t,
    reorgRollback tinyEnv PoolWallet.quotingPrograms (tinyManager (spentCoinEvents.take 2)) 2 = .ok m' ∧
      Runs tinyEnv ((spentCoinEvents.take 2).filter (upTo 2)) t ∧
      RolledBack tinyEnv 2 t.coinStore.coinRecord.get? (tinyManager (spentCoinEvents.take 2)) m' :=
  reorgRollback_of_open (tinyManager_runs (by decide +kernel)) (spentCoinEvents_onChain 2) (by simp [spentCoinEvents]) 2

/-- The wallet that is opened again cannot undo the spend. -/
theorem reopened_raises : ¬ ∀ events m height,Runs tinyEnv events m → OnChain tinyEnv events →
    ∃ m' t,reorgRollback tinyEnv PoolWallet.quotingPrograms m height = .ok m' ∧
      Runs tinyEnv (events.filter (upTo height)) t ∧ RolledBack tinyEnv height t.coinStore.coinRecord.get? m m' := by
  intro h
  obtain ⟨m',t,hm',-⟩ := h spentCoinEvents (tinyManager spentCoinEvents) 6 (tinyManager_runs (by decide +kernel))
    (spentCoinEvents_onChain 3)
  obtain ⟨coinStore,hcoins,-⟩ := bind_ok.mp hm'
  have hraises : ((tinyManager spentCoinEvents).coinStore.rollbackToBlock tinyEnv 6).isOk=false := by decide +kernel
  rw [hcoins] at hraises
  cases hraises

end WalletStateManager
end RoseChain
