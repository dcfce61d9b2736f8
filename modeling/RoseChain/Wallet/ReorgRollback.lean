import Mathlib.Data.List.Flatten
import RoseChain.Wallet.CoinHistory
import RoseChain.Wallet.TxRollback

namespace RoseChain
open Lib

namespace WalletStateManager
variable (E : Env)

def coinSteps : Event → List CoinStep
  | .newTransactionBlock b => b.additions.map (fun c => .added (addedCoinRecord c b.height)) ++
      b.removals.map fun coin => .removed (E.coinName coin) b.height
  | _ => []

def heights : Event → List ℕ
  | .newTransactionBlock b => [b.height]
  | _ => []

def upTo (height : ℤ) : Event → Bool
  | .newTransactionBlock b => decide ((b.height : ℤ)≤height)
  | _ => true

/-- The blocks are of one chain: their heights go up, and a coin is made once and spent once. -/
structure OnChain (events : List Event) : Prop where
  ascending : (events.flatMap heights).Pairwise (· < ·)
  added : ((events.flatMap (coinSteps E)).filterMap (CoinStep.addedName? E)).Nodup
  removed : ((events.flatMap (coinSteps E)).filterMap CoinStep.removedName?).Nodup

/-- The states of the wallets, from a new wallet on. -/
inductive Runs : List Event → WalletStateManager → Prop
  | start : Runs [] (start E)
  | event {events : List Event} {m m' : WalletStateManager} {e : Event} : Runs events m → perform E m e = .ok m' →
    Runs (events++[e]) m'

variable {E}

section Steps
variable {height : ℤ} {events : List Event}

variable {e : Event} {x : CoinStep}

theorem coinSteps_fresh (h : x∈coinSteps E e) : x.Fresh := by
  cases e with
  | newTransactionBlock b =>
    obtain hadded | hremoved := List.mem_append.mp h
    · obtain ⟨c,-,rfl⟩ := List.mem_map.mp hadded
      exact ⟨rfl,rfl⟩
    · obtain ⟨coin,-,rfl⟩ := List.mem_map.mp hremoved
      trivial
  | _ => cases h

theorem coinSteps_height (h : x∈coinSteps E e) : heights e=[x.height] := by
  cases e with
  | newTransactionBlock b =>
    obtain hadded | hremoved := List.mem_append.mp h
    · obtain ⟨c,-,rfl⟩ := List.mem_map.mp hadded
      rfl
    · obtain ⟨coin,-,rfl⟩ := List.mem_map.mp hremoved
      rfl
  | _ => cases h

theorem upTo_of_heights {k : ℕ} (h : heights e=[k]) : upTo height e=decide ((k : ℤ)≤height) := by
  cases e with
  | newTransactionBlock b =>
    obtain rfl : b.height=k := by simpa [heights] using h
    rfl
  | _ => cases h

theorem coinSteps_upTo (events : List Event) : (events.filter (upTo height)).flatMap (coinSteps E) =
    (events.flatMap (coinSteps E)).filter fun x => decide ((x.height : ℤ)≤height) := by
  induction events with
  | nil => rfl
  | cons e events ih =>
    have hone {x : CoinStep} (hx : x∈coinSteps E e) : decide ((x.height : ℤ)≤height)=upTo height e :=
      (upTo_of_heights (coinSteps_height hx)).symm
    rw [List.flatMap_cons,List.filter_append,← ih,List.filter_cons]
    split_ifs with hkeep
    · rw [List.flatMap_cons,List.filter_eq_self.mpr fun x hx => (hone hx).trans hkeep]
    · have hnone : (coinSteps E e).filter (fun x => decide ((x.height : ℤ)≤height))=[] := by
        apply List.filter_eq_nil_iff.mpr
        intro x hx
        rw [hone hx]
        exact hkeep
      rw [hnone,List.nil_append]

theorem height_mem (h : x∈events.flatMap (coinSteps E)) : x.height∈events.flatMap heights := by
  obtain ⟨e,he,hx⟩ := List.mem_flatMap.mp h
  apply List.mem_flatMap.mpr
  exact ⟨e,he,by rw [coinSteps_height hx]; exact List.mem_cons_self⟩

theorem coinSteps_sorted (h : (events.flatMap heights).Pairwise (· < ·)) :
    ((events.flatMap (coinSteps E)).map CoinStep.height).Pairwise (· ≤ ·) := by
  induction events with
  | nil => exact .nil
  | cons e events ih =>
    rw [List.flatMap_cons,List.pairwise_append] at h
    obtain ⟨-,hrest,hless⟩ := h
    rw [List.flatMap_cons,List.map_append,List.pairwise_append]
    refine ⟨?_,ih hrest,?_⟩
    · rw [List.pairwise_map]
      apply List.pairwise_of_forall_mem_list
      intro x hx y hy
      have hsame := (coinSteps_height hx).symm.trans (coinSteps_height hy)
      rw [List.cons.injEq] at hsame
      exact le_of_eq hsame.1
    · intro k hk l hl
      obtain ⟨x,hx,rfl⟩ := List.mem_map.mp hk
      obtain ⟨y,hy,rfl⟩ := List.mem_map.mp hl
      exact le_of_lt (hless _ (by rw [coinSteps_height hx]; exact List.mem_cons_self) _ (height_mem hy))

theorem OnChain.sublist {events' : List Event} (h : OnChain E events) (hsub : events'.Sublist events) :
    OnChain E events' := by
  have hsteps := hsub.flatMap (coinSteps E)
  exact ⟨h.ascending.sublist (hsub.flatMap heights),h.added.sublist (hsteps.filterMap _),
    h.removed.sublist (hsteps.filterMap _)⟩

end Steps

/-- The coins of a table, coherent transactions, and a callback of every pool wallet. -/
structure Kept (E : Env) (V : CoinTable) (m : WalletStateManager) : Prop where
  coins : HoldsTable E V m.coinStore
  txs : m.txStore.TxCoherent
  callbacks : ∀ id targetState,m.wallets.get? id=some (.pooling targetState) → (m.newPeakCallbacks.get? id).isSome

section Perform
variable {V : CoinTable} {m : WalletStateManager}

theorem recordTransaction_coherent {s : WalletTransactionStore} (h : s.TxCoherent) (c : AddedCoin) (height : ℕ)
    (allOutgoing : List TransactionRecord) : (recordTransaction E c height allOutgoing s).TxCoherent := by
  unfold recordTransaction
  dsimp only
  split_ifs
  · exact h.added _
  · exact h.added _
  · exact h.setConfirmedAll _ _
  · exact h.added _
  · exact h

theorem Kept.additions (h : Kept E V m) {l : List AddedCoin} (hl : (l.map fun c => E.coinName c.coin).Nodup)
    (hnew : ∀ c∈l,V (E.coinName c.coin)=none) (height : ℕ) (allOutgoingTx : Dict ℕ (List TransactionRecord)) :
    Kept E ((l.map fun c => CoinStep.added (addedCoinRecord c height)).foldl (stepTable E) V)
      (l.foldl (coinAdded E height allOutgoingTx) m) := by
  induction l generalizing V m with
  | nil => exact h
  | cons c l ih =>
    rw [List.map_cons,List.nodup_cons] at hl
    have hone : Kept E (stepTable E V (.added (addedCoinRecord c height))) (coinAdded E height allOutgoingTx m c) :=
      ⟨h.coins.added (hnew c List.mem_cons_self),recordTransaction_coherent h.txs c height _,h.callbacks⟩
    apply ih hone hl.2
    intro c' hc'
    have hne : E.coinName c'.coin≠E.coinName c.coin := fun he =>
      hl.1 (he ▸ List.mem_map_of_mem (f := fun c : AddedCoin => E.coinName c.coin) hc')
    have hname : E.coinName c'.coin≠E.coinName (addedCoinRecord c height).coin := hne
    rw [stepTable,Function.update_of_ne hname]
    exact hnew c' (List.mem_cons_of_mem _ hc')

theorem Kept.removals (h : Kept E V m) (l : List Coin) (height : ℕ) (allUnconfirmed : List TransactionRecord) :
    ∃ m',l.foldlM (coinRemoved E height allUnconfirmed) m = .ok m' ∧
      Kept E ((l.map fun coin => CoinStep.removed (E.coinName coin) height).foldl (stepTable E) V) m' := by
  induction l generalizing V m with
  | nil => exact ⟨m,rfl,h⟩
  | cons coin l ih =>
    obtain ⟨coinStore,hremove,hcoins⟩ := h.coins.removed coin height
    have hrun : coinRemoved E height allUnconfirmed m coin = .ok
        { m with coinStore := coinStore,txStore := confirmRemoval E height allUnconfirmed m.txStore coin } := by
      unfold coinRemoved
      rw [bind_of_ok hremove]
      rfl
    obtain ⟨m',hm',hkept⟩ := ih (m := { m with
      coinStore := coinStore
      txStore := confirmRemoval E height allUnconfirmed m.txStore coin })
      ⟨hcoins,h.txs.setConfirmedAll _ _,h.callbacks⟩
    refine ⟨m',?_,hkept⟩
    rw [List.foldlM_cons,bind_of_ok hrun]
    exact hm'

theorem addedNames_block (b : WalletBlock) : (coinSteps E (.newTransactionBlock b)).filterMap (CoinStep.addedName? E) =
    b.additions.map fun c => E.coinName c.coin := by
  rw [coinSteps,List.filterMap_append,List.filterMap_map,List.filterMap_map]
  simp [Function.comp_def,CoinStep.addedName?,addedCoinRecord]

theorem Kept.block (h : Kept E V m) {b : WalletBlock}
    (hadded : ((coinSteps E (.newTransactionBlock b)).filterMap (CoinStep.addedName? E)).Nodup)
    (hnew : ∀ n∈(coinSteps E (.newTransactionBlock b)).filterMap (CoinStep.addedName? E),V n=none) :
    Kept E ((b.additions.map fun c => CoinStep.added (addedCoinRecord c b.height)).foldl (stepTable E) V)
      (coinsOfInterestAdded E m b.additions b.height) := by
  rw [addedNames_block] at hadded hnew
  exact h.additions hadded (fun c hc => hnew _ (List.mem_map_of_mem hc)) b.height _

theorem Kept.performed (h : Kept E V m) {e : Event}
    (hadded : ((coinSteps E e).filterMap (CoinStep.addedName? E)).Nodup)
    (hnew : ∀ n∈(coinSteps E e).filterMap (CoinStep.addedName? E),V n=none) :
    ∃ m',perform E m e = .ok m' ∧ Kept E ((coinSteps E e).foldl (stepTable E) V) m' := by
  cases e with
  | newTransactionBlock b =>
    obtain ⟨m',hm',hkept⟩ := (h.block hadded hnew).removals b.removals b.height
      (coinsOfInterestAdded E m b.additions b.height).txStore.getAllUnconfirmed
    refine ⟨m',hm',?_⟩
    rw [coinSteps,List.foldl_append]
    exact hkept
  | addTransaction record => exact ⟨_,rfl,h.coins,h.txs.added record,h.callbacks⟩
  | addNewWallet walletId wallet =>
    refine ⟨_,rfl,h.coins,h.txs,fun id targetState hget => ?_⟩
    simp only [addNewWallet,Dict.get?_set] at hget ⊢
    split_ifs at hget with hid
    · obtain rfl := Option.some.inj hget
      simp [hid]
    · have hbefore := h.callbacks id targetState hget
      cases wallet with
      | pooling t =>
        dsimp only
        rw [Dict.get?_set,if_neg hid]
        exact hbefore
      | other type => exact hbefore
  | poolTransitions poolStore => exact ⟨_,rfl,h.coins,h.txs,h.callbacks⟩
  | reopen =>
    refine ⟨_,rfl,h.coins.reopened,?_,h.callbacks⟩
    exact WalletTransactionStore.rebuildTxCache_coherent h.txs.named

end Perform

theorem start_kept : Kept E (fun _ => none) (start E) := by
  refine ⟨⟨WalletCoinStore.rebuildWalletCache_coherent nofun,rfl⟩,
    WalletTransactionStore.rebuildTxCache_coherent nofun,fun id targetState hget => ?_⟩
  simp only [start,Dict.get?_set] at hget
  split_ifs at hget <;> cases hget

section Runs
variable {events : List Event} {m : WalletStateManager}

theorem OnChain.next {e : Event} (hchain : OnChain E (events++[e])) :
    ((coinSteps E e).filterMap (CoinStep.addedName? E)).Nodup ∧
      ∀ n∈(coinSteps E e).filterMap (CoinStep.addedName? E),tableAfter E (events.flatMap (coinSteps E)) n=none := by
  have hadded := hchain.added
  rw [List.flatMap_append,List.filterMap_append,List.flatMap_singleton,List.nodup_append] at hadded
  obtain ⟨-,hnodup,hdisjoint⟩ := hadded
  refine ⟨hnodup,fun n hn => ?_⟩
  cases hget : tableAfter E (events.flatMap (coinSteps E)) n with
  | none => rfl
  | some r =>
    have hmem := added_of_tableAfter (E := E) (n := n) (by rw [hget]; rfl)
    exact absurd rfl (hdisjoint n hmem n hn)

theorem Kept.next {e : Event} (hchain : OnChain E (events++[e]))
    (h : Kept E (tableAfter E (events.flatMap (coinSteps E))) m) :
    ∃ m',perform E m e = .ok m' ∧ Kept E (tableAfter E ((events++[e]).flatMap (coinSteps E))) m' := by
  obtain ⟨m',hm',hkept⟩ := h.performed hchain.next.1 hchain.next.2
  refine ⟨m',hm',?_⟩
  rw [List.flatMap_append,List.flatMap_singleton,tableAfter,List.foldl_append]
  exact hkept

theorem Runs.kept (h : Runs E events m) (hchain : OnChain E events) :
    Kept E (tableAfter E (events.flatMap (coinSteps E))) m := by
  induction h with
  | start => exact start_kept
  | event h hrun ih =>
    have hbefore := ih (hchain.sublist (List.sublist_append_left _ _))
    obtain ⟨m',hm',hkept⟩ := hbefore.next hchain
    obtain rfl := Except.ok.inj (hrun.symm.trans hm')
    exact hkept

theorem runs_exists (hchain : OnChain E events) : ∃ m,Runs E events m := by
  induction events using List.reverseRecOn with
  | nil => exact ⟨_,.start⟩
  | append_singleton events e ih =>
    have hbefore := hchain.sublist (List.sublist_append_left _ _)
    obtain ⟨m,hm⟩ := ih hbefore
    obtain ⟨m',hm',-⟩ := (hm.kept hbefore).next hchain
    exact ⟨m',hm.event hm'⟩

end Runs

end WalletStateManager
end RoseChain
