import RoseChain.Wallet.WalletCoinCaches
import RoseChain.Wallet.WalletStateManager

namespace RoseChain
open Lib

/-- What a block does to a coin. -/
inductive CoinStep
  | added (r : WalletCoinRecord)
  | removed (coinName : Bytes32) (height : ℕ)

namespace CoinStep
variable (E : Env)

def height : CoinStep → ℕ
  | added r => r.confirmedBlockHeight
  | removed _ height => height

def addedName? : CoinStep → Option Bytes32
  | added r => some (E.coinName r.coin)
  | removed _ _ => none

def removedName? : CoinStep → Option Bytes32
  | added _ => none
  | removed coinName _ => some coinName

def Fresh : CoinStep → Prop
  | added r => r.spent=false ∧ r.spentBlockHeight=0
  | removed _ _ => True

end CoinStep

abbrev CoinTable := Bytes32 → Option WalletCoinRecord

def spentAt (height : ℕ) (r : WalletCoinRecord) : WalletCoinRecord := { r with spentBlockHeight := height,spent := true }

section Table
variable (E : Env)

def stepTable (V : CoinTable) : CoinStep → CoinTable
  | .added r => Function.update V (E.coinName r.coin) (some r)
  | .removed coinName height => Function.update V coinName ((V coinName).map (spentAt height))

def tableAfter (steps : List CoinStep) : CoinTable := steps.foldl (stepTable E) fun _ => none

/-- The records that are left of a table, as they were. -/
def rollTable (height : ℤ) (V : CoinTable) : CoinTable := fun n =>
  ((V n).filter fun r => decide ((r.confirmedBlockHeight : ℤ)≤height)).map (WalletCoinStore.rolledBack height)

variable {E} {steps : List CoinStep} {height : ℤ}

theorem tableAfter_concat (steps : List CoinStep) (x : CoinStep) :
    tableAfter E (steps++[x])=stepTable E (tableAfter E steps) x := by
  simp [tableAfter]

variable {n : Bytes32}

theorem added_of_tableAfter (h : (tableAfter E steps n).isSome) :
    n∈steps.filterMap (CoinStep.addedName? E) := by
  induction steps using List.reverseRecOn with
  | nil => cases h
  | append_singleton steps x ih =>
    rw [tableAfter_concat] at h
    rw [List.filterMap_append,List.mem_append]
    cases x with
    | added r =>
      rw [stepTable,Function.update_apply] at h
      split_ifs at h with hn
      · rw [hn]
        exact Or.inr List.mem_cons_self
      · exact Or.inl (ih h)
    | removed coinName k =>
      rw [stepTable,Function.update_apply] at h
      split_ifs at h with hn
      · rw [Option.isSome_map,← hn] at h
        exact Or.inl (ih h)
      · exact Or.inl (ih h)

theorem unspent_of_tableAfter (hfresh : ∀ x∈steps,x.Fresh) {r : WalletCoinRecord}
    (h : tableAfter E steps n=some r) (hn : n∉steps.filterMap CoinStep.removedName?) :
    r.spent=false ∧ r.spentBlockHeight=0 := by
  induction steps using List.reverseRecOn with
  | nil => cases h
  | append_singleton steps x ih =>
    rw [tableAfter_concat] at h
    rw [List.filterMap_append,List.mem_append,not_or] at hn
    have hbefore : ∀ y∈steps,y.Fresh := fun y hy => hfresh y (List.mem_append_left _ hy)
    cases x with
    | added r' =>
      rw [stepTable,Function.update_apply] at h
      split_ifs at h
      · rw [← Option.some.inj h]
        exact hfresh (.added r') (by simp)
      · exact ih hbefore h hn.1
    | removed coinName k =>
      have hne : n≠coinName := by
        rintro rfl
        exact hn.2 List.mem_cons_self
      rw [stepTable,Function.update_of_ne hne] at h
      exact ih hbefore h hn.1

variable {x : CoinStep}

theorem rollTable_step_le {V : CoinTable} (hV : rollTable height V=V) (hfresh : x.Fresh)
    (hx : (x.height : ℤ)≤height) : rollTable height (stepTable E V x)=stepTable E V x := by
  funext n
  have hn := congrFun hV n
  unfold rollTable at hn ⊢
  cases x with
  | added r =>
    have hr : (r.confirmedBlockHeight : ℤ)≤height := hx
    obtain ⟨hspent,hzero⟩ : r.spent=false ∧ r.spentBlockHeight=0 := hfresh
    rw [stepTable,Function.update_apply]
    split_ifs
    · have hrolled : WalletCoinStore.rolledBack height r=r := by
        unfold WalletCoinStore.rolledBack
        rw [if_neg (by omega)]
      simp [Option.filter_some,hr,hrolled]
    · exact hn
  | removed coinName k =>
    have hk : (k : ℤ)≤height := hx
    rw [stepTable,Function.update_apply]
    split_ifs with heq
    · rw [← heq]
      cases hr : V n with
      | none => rfl
      | some r =>
        rw [hr,Option.filter_some] at hn
        split_ifs at hn with hconf
        · rw [decide_eq_true_eq] at hconf
          have hrolled : WalletCoinStore.rolledBack height (spentAt k r)=spentAt k r := by
            unfold WalletCoinStore.rolledBack spentAt
            rw [if_neg (by simpa using hk)]
          have hconf' : ((spentAt k r).confirmedBlockHeight : ℤ)≤height := hconf
          simp [Option.filter_some,hconf',hrolled]
        · cases hn
    · exact hn

theorem rollTable_step_above {V : CoinTable} (hx : (x.height : ℤ) > height)
    (hnew : ∀ n,x.addedName? E=some n → V n=none)
    (hunspent : ∀ n r,x.removedName?=some n → V n=some r → r.spent=false ∧ r.spentBlockHeight=0) :
    rollTable height (stepTable E V x)=rollTable height V := by
  funext n
  unfold rollTable
  cases x with
  | added r =>
    have hr : ¬ (r.confirmedBlockHeight : ℤ)≤height := not_le.mpr hx
    rw [stepTable,Function.update_apply]
    split_ifs with hn
    · rw [hnew n (congrArg some hn.symm)]
      simp [Option.filter_some,hr]
    · rfl
  | removed coinName k =>
    rw [stepTable,Function.update_apply]
    split_ifs with hn
    · rw [← hn]
      cases hget : V n with
      | none => rfl
      | some r =>
        obtain ⟨hspent,hzero⟩ := hunspent n r (congrArg some hn.symm) hget
        have hk : (k : ℤ) > height := hx
        have hrolled : WalletCoinStore.rolledBack height (spentAt k r)=WalletCoinStore.rolledBack height r := by
          unfold WalletCoinStore.rolledBack spentAt
          rw [if_pos (by simpa using hk)]
          split_ifs
          · rfl
          · rw [← hspent,← hzero]
        have hsame : (spentAt k r).confirmedBlockHeight=r.confirmedBlockHeight := rfl
        rw [Option.map_some,Option.filter_some,Option.filter_some,hsame]
        split_ifs
        · rw [Option.map_some,Option.map_some,hrolled]
        · rfl
    · rfl

theorem rollTable_of_le (hfresh : ∀ x∈steps,x.Fresh) (hle : ∀ x∈steps,(x.height : ℤ)≤height) :
    rollTable height (tableAfter E steps)=tableAfter E steps := by
  induction steps using List.reverseRecOn with
  | nil => rfl
  | append_singleton steps x ih =>
    rw [tableAfter_concat]
    apply rollTable_step_le
    · exact ih (fun y hy => hfresh y (List.mem_append_left _ hy)) fun y hy => hle y (List.mem_append_left _ hy)
    · exact hfresh x (by simp)
    · exact hle x (by simp)

theorem rollTable_tableAfter (hsorted : (steps.map CoinStep.height).Pairwise (· ≤ ·))
    (hadded : (steps.filterMap (CoinStep.addedName? E)).Nodup) (hremoved : (steps.filterMap CoinStep.removedName?).Nodup)
    (hfresh : ∀ x∈steps,x.Fresh) : rollTable height (tableAfter E steps) =
      tableAfter E (steps.filter fun x => decide ((x.height : ℤ)≤height)) := by
  induction steps using List.reverseRecOn with
  | nil => rfl
  | append_singleton steps x ih =>
    have hbefore : ∀ y∈steps,y.Fresh := fun y hy => hfresh y (List.mem_append_left _ hy)
    rw [List.map_append,List.pairwise_append] at hsorted
    obtain ⟨hsorted,-,hlast⟩ := hsorted
    rw [List.filterMap_append] at hadded hremoved
    by_cases hx : (x.height : ℤ)≤height
    · have hall : ∀ y∈steps++[x],(y.height : ℤ)≤height := by
        intro y hy
        obtain hy | hy := List.mem_append.mp hy
        · have hle : y.height≤x.height := hlast _ (List.mem_map_of_mem hy) _ (by simp)
          omega
        · rwa [List.mem_singleton.mp hy]
      rw [rollTable_of_le hfresh hall,List.filter_eq_self.mpr fun y hy => by simpa using hall y hy]
    · rw [List.filter_append,List.filter_cons_of_neg (by simpa using hx),List.filter_nil,List.append_nil,
        ← ih hsorted (List.Nodup.of_append_left hadded) (List.Nodup.of_append_left hremoved) hbefore,tableAfter_concat]
      apply rollTable_step_above (not_le.mp hx)
      · -- the coin had no record before
        intro n hn
        by_contra hsome
        have hmem := added_of_tableAfter (Option.isSome_iff_ne_none.mpr hsome)
        have hagain : n∈[x].filterMap (CoinStep.addedName? E) := List.mem_filterMap.mpr ⟨x,by simp,hn⟩
        exact (List.nodup_append.mp hadded).2.2 n hmem n hagain rfl
      · intro n r hn hget
        apply unspent_of_tableAfter hbefore hget
        intro hmem
        have hagain : n∈[x].filterMap CoinStep.removedName? := List.mem_filterMap.mpr ⟨x,by simp,hn⟩
        exact (List.nodup_append.mp hremoved).2.2 n hmem n hagain rfl

end Table

section Store
variable {E : Env} {V : CoinTable} {s s' : WalletCoinStore}

/-- The caches of a store agree with its table, which holds `V`. -/
structure HoldsTable (E : Env) (V : CoinTable) (s : WalletCoinStore) : Prop where
  coherent : WalletCoinStore.Coherent E s
  table : s.coinRecord.get?=V

theorem HoldsTable.added (h : HoldsTable E V s) {r : WalletCoinRecord} (hnew : V (E.coinName r.coin)=none) :
    HoldsTable E (stepTable E V (.added r)) (s.addCoinRecord E r) where
  coherent := by
    apply h.coherent.added
    intro old hold
    rw [h.table,hnew] at hold
    cases hold
  table := by
    rw [stepTable,← h.table]
    exact WalletCoinStore.get?_set_eq_update _ _ _

theorem HoldsTable.removed (h : HoldsTable E V s) (coin : Coin) (height : ℕ) :
    ∃ s',WalletStateManager.removeCoin E height s coin = .ok s' ∧
      HoldsTable E (stepTable E V (.removed (E.coinName coin) height)) s' := by
  have hget : s.getCoinRecord (E.coinName coin)=V (E.coinName coin) := by
    unfold WalletCoinStore.getCoinRecord
    rw [h.coherent.cached,h.table]
    cases V (E.coinName coin) <;> rfl
  unfold WalletStateManager.removeCoin
  cases hr : V (E.coinName coin) with
  | none =>
    rw [hget,hr]
    refine ⟨s,rfl,h.coherent,?_⟩
    rw [stepTable,hr,Option.map_none,← hr,Function.update_eq_self,h.table]
  | some r =>
    have hname : E.coinName r.coin=E.coinName coin := h.coherent.named _ r (by rw [h.table,hr])
    have hset : s.setSpent E (E.coinName coin) height = .ok (spentAt height r,s.addCoinRecord E (spentAt height r)) := by
      unfold WalletCoinStore.setSpent
      rw [hget,hr]
      rfl
    rw [hget,hr,hset]
    refine ⟨_,rfl,?_,?_⟩
    · apply h.coherent.added
      intro old hold
      have hsame : s.coinRecord.get? (E.coinName r.coin)=some old := hold
      rw [h.table,hname,hr] at hsame
      rw [← Option.some.inj hsame]
      exact Or.inr rfl
    · have hspent : E.coinName (spentAt height r).coin=E.coinName coin := hname
      rw [stepTable,hr,Option.map_some,← hspent,← h.table]
      exact WalletCoinStore.get?_set_eq_update _ _ _

theorem HoldsTable.reopened (h : HoldsTable E V s) : HoldsTable E V (.create E s.coinRecord) where
  coherent := WalletCoinStore.rebuildWalletCache_coherent h.coherent.named
  table := by
    rw [← h.table]
    exact congrArg Dict.get? (WalletCoinStore.rebuildWalletCache_table _)

variable {l : List WalletCoinRecord}

theorem unspendAll_table {height : ℤ}
    (h : l.foldlM (WalletCoinStore.unspendRecord E height) s = .ok s') : s'.coinRecord=s.coinRecord :=
  foldlM_frame (p := (·.coinRecord)) (fun _ _ _ hs => (WalletCoinStore.unspendRecord_eq_ok hs).2.1) h

theorem deleteAll_table (h : l.foldlM (WalletCoinStore.deleteRecord E) s = .ok s') :
    s'.coinRecord=s.coinRecord := by
  apply foldlM_frame (p := (·.coinRecord)) _ h
  intro s r s₁ hs₁
  obtain ⟨_,-,hdelete⟩ := bind_ok.mp hs₁
  rw [← Except.ok.inj hdelete]

theorem rollbackToBlock_table {height : ℤ} (h : s.rollbackToBlock E height = .ok s') :
    s'.coinRecord.get?=rollTable height s.coinRecord.get? := by
  unfold WalletCoinStore.rollbackToBlock at h
  obtain ⟨s₁,hs₁,h⟩ := bind_ok.mp h
  obtain ⟨s₂,hs₂,h⟩ := bind_ok.mp h
  rw [← Except.ok.inj h]
  funext n
  rw [Dict.get?_mapVals,Dict.get?_filter,deleteAll_table hs₂,unspendAll_table hs₁]
  rfl

/-- The wallet of every coin to be unspent has an entry in the cache of unspent coins. -/
def EntriesKept (height : ℤ) (s : WalletCoinStore) : Prop :=
  ∀ n r,s.coinRecordCache.get? n=some r → WalletCoinStore.Entered height s r

theorem HoldsTable.rolled_iff (h : HoldsTable E V s) (height : ℤ) :
    (∃ s',s.rollbackToBlock E height = .ok s' ∧ HoldsTable E (rollTable height V) s') ↔ EntriesKept height s := by
  constructor
  · rintro ⟨s',hs',hkeep⟩
    exact (h.coherent.fits_iff (.rollbackToBlock height)).mpr ⟨s',hs',hkeep.coherent⟩
  · intro hkept
    obtain ⟨s',hs',hcoherent⟩ := h.coherent.rolled hkept
    exact ⟨s',hs',hcoherent,by rw [rollbackToBlock_table hs',h.table]⟩

end Store

end RoseChain
