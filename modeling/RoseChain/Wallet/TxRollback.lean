import RoseChain.FullNode.ConditionCosts
import RoseChain.Wallet.WalletTransactionStore

namespace RoseChain
open Lib

namespace WalletTransactionStore

/-- The cache is the table, whose records stand under their names. -/
structure TxCoherent (s : WalletTransactionStore) : Prop where
  cached : s.txRecordCache.get?=s.transactionRecord.get?
  named : ∀ n r,s.transactionRecord.get? n=some r → r.name=n

def unconfirmedOf (s : WalletTransactionStore) (walletId : ℕ) (name : Bytes32) : Option TransactionRecord :=
  (s.unconfirmedForWallet.get? walletId).bind (·.get? name)

variable {s s' : WalletTransactionStore} {height : ℤ}

theorem TxCoherent.getTransactionRecord (h : TxCoherent s) (n : Bytes32) :
    s.getTransactionRecord n=s.transactionRecord.get? n := by
  unfold WalletTransactionStore.getTransactionRecord
  rw [h.cached]
  cases s.transactionRecord.get? n <;> rfl

theorem TxCoherent.added (h : TxCoherent s) (record : TransactionRecord) : TxCoherent (s.addTransactionRecord record) := by
  constructor
  · funext n
    simp only [addTransactionRecord,Dict.get?_set,h.cached]
  · intro n r hr
    simp only [addTransactionRecord,Dict.get?_set] at hr
    split_ifs at hr with hn
    · rw [← Option.some.inj hr,hn]
    · exact h.named n r hr

theorem TxCoherent.setConfirmed (h : TxCoherent s) (txId : Bytes32) (k : ℕ) : TxCoherent (s.setConfirmed txId k) := by
  unfold WalletTransactionStore.setConfirmed
  cases s.getTransactionRecord txId with
  | none => exact h
  | some current => exact h.added _

theorem TxCoherent.setConfirmedAll (h : TxCoherent s) (l : List TransactionRecord) (k : ℕ) :
    TxCoherent (l.foldl (fun s record => s.setConfirmed record.name k) s) := by
  induction l generalizing s with
  | nil => exact h
  | cons r l ih =>
    apply ih
    exact h.setConfirmed r.name k

theorem names_of_named {t : TransactionsByName} (h : ∀ n r,t.get? n=some r → r.name=n) :
    t.values.map (fun r => (r.name,r))=t.entries := by
  rw [Dict.values,List.map_map]
  conv_rhs => rw [← List.map_id t.entries]
  apply List.map_congr_left
  rintro ⟨n,r⟩ hm
  simp [h n r ((Dict.mem_entries _ _ _).mp hm)]

theorem rebuildTxCache_coherent (h : ∀ n r,s.transactionRecord.get? n=some r → r.name=n) :
    TxCoherent s.rebuildTxCache := by
  refine ⟨?_,h⟩
  have hentries : (s.transactionRecord.values.foldl (fun cache r => cache.set r.name r) Dict.empty).entries =
      s.transactionRecord.entries := by
    have hfold := Dict.entries_foldl_set s.transactionRecord.entries Dict.empty s.transactionRecord.nodup fun _ _ => rfl
    rw [← names_of_named h,List.foldl_map,names_of_named h] at hfold
    exact hfold
  funext n
  exact congrArg (fun l => assoc l n) hentries

section Pop

theorem popAll_ok {l : List TransactionRecord} (hl : (l.map (·.name)).Nodup)
    (hthere : ∀ r∈l,(s.txRecordCache.get? r.name).isSome) :
    ∃ s',l.foldlM popRecord s = .ok s' ∧ s'.transactionRecord=s.transactionRecord ∧
      ∀ n,s'.txRecordCache.get? n=if n∈l.map (·.name) then none else s.txRecordCache.get? n := by
  induction l generalizing s with
  | nil => exact ⟨s,rfl,rfl,by simp⟩
  | cons r l ih =>
    rw [List.map_cons,List.nodup_cons] at hl
    obtain ⟨old,hold⟩ := Option.isSome_iff_exists.mp (hthere r List.mem_cons_self)
    have hpop : popRecord s r = .ok { s with txRecordCache := s.txRecordCache.erase r.name } := by
      unfold popRecord
      rw [hold]
      rfl
    obtain ⟨s',hs',htable,hcache⟩ := ih (s := { s with txRecordCache := s.txRecordCache.erase r.name }) hl.2 (by
      intro r' hr'
      have hne : r'.name≠r.name := fun he => hl.1 (he ▸ List.mem_map_of_mem hr')
      rw [Dict.get?_erase,if_neg (Ne.symm hne)]
      exact hthere r' (List.mem_cons_of_mem _ hr'))
    refine ⟨s',?_,htable,fun n => ?_⟩
    · rw [List.foldlM_cons,bind_of_ok hpop]
      exact hs'
    · rw [hcache,Dict.get?_erase,List.map_cons]
      by_cases hn : n=r.name
      · simp [hn]
      · simp [hn,Ne.symm hn]

theorem TxCoherent.rolled (h : TxCoherent s) (height : ℤ) : ∃ s',s.rollbackToBlock height = .ok s' ∧ TxCoherent s' ∧
    ∀ n,s'.transactionRecord.get? n =
      (s.transactionRecord.get? n).filter fun r => decide ((r.confirmedAtHeight : ℤ)≤height) := by
  have hnamed : ∀ n r,s.txRecordCache.get? n=some r → r.name=n := fun n r hr => h.named n r (by rwa [← h.cached])
  have hkeys : s.txRecordCache.values.map (·.name)=s.txRecordCache.keys := by
    rw [Dict.keys,← names_of_named hnamed,List.map_map]
    rfl
  have hmem {r : TransactionRecord} (hr : r∈s.txRecordCache.values) : s.txRecordCache.get? r.name=some r := by
    obtain ⟨⟨n,r'⟩,hentry,rfl⟩ := List.mem_map.mp hr
    have hget := (Dict.mem_entries _ _ _).mp hentry
    rw [hnamed n r' hget,hget]
  obtain ⟨s₁,hs₁,htable,hcache⟩ := popAll_ok (s := s)
    (l := s.txRecordCache.values.filter fun r => decide ((r.confirmedAtHeight : ℤ) > height))
    ((hkeys ▸ s.txRecordCache.nodup : (s.txRecordCache.values.map (·.name)).Nodup).sublist
      (List.filter_sublist.map _))
    (fun r hr => by rw [hmem (List.mem_of_mem_filter hr)]; rfl)
  have hleft : ∀ n,(s₁.transactionRecord.filter fun _ r => decide ((r.confirmedAtHeight : ℤ)≤height)).get? n =
      (s.transactionRecord.get? n).filter fun r => decide ((r.confirmedAtHeight : ℤ)≤height) := by
    intro n
    rw [Dict.get?_filter,htable]
  refine ⟨_,by unfold rollbackToBlock; rw [bind_of_ok hs₁]; rfl,⟨?_,?_⟩,hleft⟩
  · funext n
    dsimp only
    rw [hleft,hcache,h.cached]
    cases hn : s.transactionRecord.get? n with
    | none => simp
    | some r =>
      have hpopped : n∈(s.txRecordCache.values.filter fun r => decide ((r.confirmedAtHeight : ℤ) > height)).map
          (·.name) ↔ (r.confirmedAtHeight : ℤ) > height := by
        rw [← h.cached] at hn
        constructor
        · intro hmem'
          obtain ⟨r',hr',hname⟩ := List.mem_map.mp hmem'
          obtain ⟨hvalue,habove⟩ := List.mem_filter.mp hr'
          have hget := hmem hvalue
          rw [hname,hn] at hget
          rw [Option.some.inj hget]
          exact of_decide_eq_true habove
        · intro habove
          refine List.mem_map.mpr ⟨r,List.mem_filter.mpr ⟨?_,by simpa using habove⟩,hnamed n r hn⟩
          exact List.mem_map.mpr ⟨(n,r),(Dict.mem_entries _ _ _).mpr hn,rfl⟩
      rw [Option.filter_some]
      by_cases habove : (r.confirmedAtHeight : ℤ) > height
      · rw [if_pos (hpopped.mpr habove),if_neg (by simpa using habove)]
      · rw [if_neg fun hc => habove (hpopped.mp hc),if_pos (by simpa using habove)]
  · intro n r hr
    dsimp only at hr
    rw [hleft] at hr
    exact h.named n r (Option.filter_eq_some_iff.mp hr).1

end Pop

section Reorged

theorem txReorged_table (r : TransactionRecord) (n : Bytes32) :
    (s.txReorged r).transactionRecord.get? n=if r.name=n then some (reorged r) else s.transactionRecord.get? n := by
  exact Dict.get?_set _ _ _ _

theorem txReorged_unconfirmed (r : TransactionRecord) (walletId : ℕ) (n : Bytes32) :
    unconfirmedOf (s.txReorged r) walletId n =
      if r.walletId=walletId ∧ r.name=n then some (reorged r) else unconfirmedOf s walletId n := by
  have hupdate : (s.txReorged r).unconfirmedForWallet=s.unconfirmedForWallet.set r.walletId
      (((s.unconfirmedForWallet.get? r.walletId).getD .empty).set r.name (reorged r)) := rfl
  unfold unconfirmedOf
  rw [hupdate,Dict.get?_set]
  by_cases hw : r.walletId=walletId
  · subst hw
    rw [if_pos rfl,Option.bind_some,Dict.get?_set]
    by_cases hn : r.name=n
    · simp [hn]
    · cases s.unconfirmedForWallet.get? r.walletId <;> simp [hn]
  · simp [hw]

theorem TxCoherent.reorgedAll (h : TxCoherent s) {l : List TransactionRecord} (hl : (l.map (·.name)).Nodup) :
    TxCoherent (l.foldl txReorged s) ∧
    (∀ r∈l,(l.foldl txReorged s).transactionRecord.get? r.name=some (reorged r) ∧
      unconfirmedOf (l.foldl txReorged s) r.walletId r.name=some (reorged r)) ∧
    ∀ n,n∉l.map (·.name) → (l.foldl txReorged s).transactionRecord.get? n=s.transactionRecord.get? n ∧
      ∀ w,unconfirmedOf (l.foldl txReorged s) w n=unconfirmedOf s w n := by
  induction l generalizing s with
  | nil => exact ⟨h,fun _ hr => absurd hr List.not_mem_nil,fun _ _ => ⟨rfl,fun _ => rfl⟩⟩
  | cons r l ih =>
    rw [List.map_cons,List.nodup_cons] at hl
    have hfirst : TxCoherent (s.txReorged r) := h.added (reorged r)
    obtain ⟨hcoherent,hagain,hframe⟩ := ih hfirst hl.2
    refine ⟨hcoherent,fun r' hr' => ?_,fun n hn => ?_⟩
    · obtain rfl | hr' := List.mem_cons.mp hr'
      · obtain ⟨htable,hunconfirmed⟩ := hframe r'.name hl.1
        rw [List.foldl_cons,htable,hunconfirmed,txReorged_table,txReorged_unconfirmed]
        simp
      · exact hagain r' hr'
    · rw [List.map_cons,List.mem_cons,not_or] at hn
      obtain ⟨htable,hunconfirmed⟩ := hframe n hn.2
      rw [List.foldl_cons,htable,txReorged_table,if_neg (Ne.symm hn.1)]
      refine ⟨rfl,fun w => ?_⟩
      rw [hunconfirmed,txReorged_unconfirmed,if_neg fun hc => hn.1 hc.2.symm]

theorem mem_getUnconfirmedForWallet {walletId : ℕ} {n : Bytes32} {r : TransactionRecord}
    (h : unconfirmedOf s walletId n=some r) : r∈s.getUnconfirmedForWallet walletId := by
  unfold unconfirmedOf at h
  unfold getUnconfirmedForWallet
  cases hw : s.unconfirmedForWallet.get? walletId with
  | none =>
    rw [hw] at h
    cases h
  | some records =>
    rw [hw,Option.bind_some] at h
    exact List.mem_map.mpr ⟨(n,r),(Dict.mem_entries _ _ _).mpr h,rfl⟩

end Reorged

end WalletTransactionStore
end RoseChain
