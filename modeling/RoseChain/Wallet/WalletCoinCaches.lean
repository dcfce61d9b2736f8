import RoseChain.Wallet.WalletCoinStore
import Mathlib.Logic.Function.Basic

namespace RoseChain
open Lib

namespace WalletCoinStore

def unspentOf (cache : Dict ℤ CoinsByName) (walletId : ℤ) (name : Bytes32) : Option WalletCoinRecord :=
  (cache.get? walletId).bind (·.get? name)

theorem unspentOf_put (cache : Dict ℤ CoinsByName) (name : Bytes32) (r : WalletCoinRecord) (w : ℤ)
    (n : Bytes32) : unspentOf (putUnspent cache name r) w n =
      if w=r.walletId ∧ n=name then some r else unspentOf cache w n := by
  unfold unspentOf putUnspent
  rw [Dict.get?_set]
  by_cases hw : r.walletId=w
  · subst hw
    rw [if_pos rfl,Option.bind_some,Dict.get?_set]
    by_cases hn : name=n
    · simp [hn]
    · cases cache.get? r.walletId <;> simp [hn,Ne.symm hn]
  · simp [hw,Ne.symm hw]

theorem unspentOf_pop (cache : Dict ℤ CoinsByName) (name : Bytes32) (r : WalletCoinRecord) (w : ℤ)
    (n : Bytes32) : unspentOf (popUnspent cache name r) w n =
      if w=r.walletId ∧ n=name then none else unspentOf cache w n := by
  unfold unspentOf popUnspent
  cases hc : cache.get? r.walletId with
  | none =>
    by_cases hw : w=r.walletId
    · simp [hw,hc]
    · simp [hw]
  | some coins =>
    dsimp only
    by_cases hw : w=r.walletId
    · subst hw
      cases hn : coins.get? name with
      | none =>
        by_cases hnn : n=name
        · simp [hnn,hc,hn]
        · simp [hnn]
      | some old => simp [hc,Dict.get?_erase,eq_comm (a := name)]
    · split_ifs with hsome <;> simp_all [Dict.get?_set_of_ne _ _ (Ne.symm hw)]

variable (E : Env)

/-- The caches hold the records of `V`, the unspent ones under their wallets. -/
structure Agrees (V : Bytes32 → Option WalletCoinRecord) (s : WalletCoinStore) : Prop where
  cached : ∀ n,s.coinRecordCache.get? n=V n
  unspent : ∀ w n,unspentOf s.unspentCoinWalletCache w n =
    (V n).filter fun r => decide (r.spent=false ∧ r.walletId=w)
  named : ∀ n r,V n=some r → E.coinName r.coin=n

def Coherent (s : WalletCoinStore) : Prop := Agrees E s.coinRecord.get? s

variable {E} {V : Bytes32 → Option WalletCoinRecord} {s s' : WalletCoinStore} {r : WalletCoinRecord}

theorem Agrees.move (h : Agrees E V s) {name : Bytes32} {walletId : ℤ} {v : Option WalletCoinRecord}
    (hv : ∀ r,v=some r → r.walletId=walletId ∧ E.coinName r.coin=name)
    (hold : ∀ old,V name=some old → old.spent=true ∨ old.walletId=walletId)
    (hc : ∀ n,s'.coinRecordCache.get? n=if n=name then v else s.coinRecordCache.get? n)
    (hu : ∀ w n,unspentOf s'.unspentCoinWalletCache w n=if w=walletId ∧ n=name then
      v.filter (fun r => decide (r.spent=false)) else unspentOf s.unspentCoinWalletCache w n) :
    Agrees E (Function.update V name v) s' := by
  refine ⟨fun n => ?_,fun w n => ?_,fun n r hr => ?_⟩
  · rw [hc,Function.update_apply,h.cached]
  · rw [hu,Function.update_apply,h.unspent]
    by_cases hn : n=name
    · subst hn
      by_cases hw : w=walletId
      · subst hw
        cases v with
        | none => simp
        | some r => simp [Option.filter_some,(hv r rfl).1]
      · have hother : ∀ o : Option WalletCoinRecord,
            (∀ r,o=some r → r.spent=true ∨ r.walletId=walletId) →
            o.filter (fun r => decide (r.spent=false ∧ r.walletId=w))=none := by
          intro o ho
          cases o with
          | none => rfl
          | some r =>
            rcases ho r rfl with hs | hr
            · simp [Option.filter_some,hs]
            · simp [Option.filter_some,hr,Ne.symm hw]
        rw [if_pos rfl,if_neg (by simp [hw]),hother _ hold,hother _ fun r hr => Or.inr (hv r hr).1]
    · simp [hn]
  · rw [Function.update_apply] at hr
    split_ifs at hr with hn
    · rw [(hv r hr).2,hn]
    · exact h.named n r hr

def Owned (V : Bytes32 → Option WalletCoinRecord) (name : Bytes32) (walletId : ℤ) : Prop :=
  ∀ old,V name=some old → old.spent=true ∨ old.walletId=walletId

theorem Agrees.store (h : Agrees E V s) (hold : Owned V (E.coinName r.coin) r.walletId)
    (hc : s'.coinRecordCache=s.coinRecordCache.set (E.coinName r.coin) r)
    (hu : ∀ w n,unspentOf s'.unspentCoinWalletCache w n=if w=r.walletId ∧ n=E.coinName r.coin then
      (some r).filter (fun r => decide (r.spent=false)) else unspentOf s.unspentCoinWalletCache w n) :
    Agrees E (Function.update V (E.coinName r.coin) (some r)) s' := by
  refine h.move (fun r' hr' => ?_) hold (fun n => ?_) hu
  · obtain rfl := Option.some.inj hr'
    exact ⟨rfl,rfl⟩
  · rw [hc,Dict.get?_set]
    simp only [eq_comm]

theorem Agrees.put (h : Agrees E V s) (hr : r.spent=false) (hold : Owned V (E.coinName r.coin) r.walletId)
    (hc : s'.coinRecordCache=s.coinRecordCache.set (E.coinName r.coin) r)
    (hu : s'.unspentCoinWalletCache=putUnspent s.unspentCoinWalletCache (E.coinName r.coin) r) :
    Agrees E (Function.update V (E.coinName r.coin) (some r)) s' := by
  refine h.store hold hc fun w n => ?_
  rw [hu,unspentOf_put]
  simp [Option.filter_some,hr]

theorem Agrees.delete (h : Agrees E V s) (hold : Owned V (E.coinName r.coin) r.walletId)
    (hc : s'.coinRecordCache=s.coinRecordCache.erase (E.coinName r.coin))
    (hu : s'.unspentCoinWalletCache=popUnspent s.unspentCoinWalletCache (E.coinName r.coin) r) :
    Agrees E (Function.update V (E.coinName r.coin) none) s' := by
  refine h.move (by simp) hold (fun n => ?_) fun w n => ?_
  · rw [hc,Dict.get?_erase]
    simp only [eq_comm]
  · rw [hu,unspentOf_pop]
    simp

theorem get?_set_eq_update {K W : Type} [DecidableEq K] (d : Dict K W) (k : K) (v : W) :
    (d.set k v).get?=Function.update d.get? k (some v) := by
  funext q
  rw [Dict.get?_set,Function.update_apply]
  simp only [eq_comm]

theorem Coherent.added (h : Coherent E s)
    (hown : Owned s.coinRecord.get? (E.coinName r.coin) r.walletId) : Coherent E (addCoinRecord E s r) := by
  unfold Coherent
  rw [show (addCoinRecord E s r).coinRecord=s.coinRecord.set (E.coinName r.coin) r from rfl,
    get?_set_eq_update]
  cases hr : r.spent with
  | false =>
    refine Agrees.put h hr hown rfl ?_
    simp [addCoinRecord,hr]
  | true => exact Agrees.store h hown rfl fun w n => by simp [addCoinRecord,hr,unspentOf_pop,Option.filter_some]

theorem Coherent.owned (h : Coherent E s) (h' : Coherent E (addCoinRecord E s r)) :
    Owned s.coinRecord.get? (E.coinName r.coin) r.walletId := by
  intro old hget
  by_contra hne
  rw [not_or,Bool.not_eq_true] at hne
  obtain ⟨hspent,hwallet⟩ := hne
  have hstale := h'.unspent old.walletId (E.coinName r.coin)
  have hbefore : unspentOf s.unspentCoinWalletCache old.walletId (E.coinName r.coin)=some old := by
    rw [h.unspent,hget]
    simp [Option.filter_some,hspent]
  have hafter : unspentOf (addCoinRecord E s r).unspentCoinWalletCache old.walletId
      (E.coinName r.coin)=some old := by
    unfold addCoinRecord
    cases hr : r.spent
    · simp only [Bool.false_eq_true,if_false]
      rw [unspentOf_put,if_neg (fun hc => hwallet hc.1),hbefore]
    · simp only [if_true]
      rw [unspentOf_pop,if_neg (fun hc => hwallet hc.1),hbefore]
  have hnow : (addCoinRecord E s r).coinRecord.get? (E.coinName r.coin)=some r :=
    Dict.get?_set_self _ _ _
  rw [hafter,hnow] at hstale
  simp [Option.filter_some,Ne.symm hwallet] at hstale

variable {l : List WalletCoinRecord}

theorem Agrees.rows (h : Agrees E V s)
    (hl : (l.map fun r => E.coinName r.coin).Nodup) (hnew : ∀ r∈l,V (E.coinName r.coin)=none) :
    ∃ V',Agrees E V' (l.foldl (cacheRow E) s) ∧
      ∀ n r,V' n=some r ↔ (r∈l ∧ E.coinName r.coin=n) ∨ V n=some r := by
  induction l generalizing s V with
  | nil => exact ⟨V,h,by simp⟩
  | cons r l ih =>
    rw [List.map_cons,List.nodup_cons] at hl
    have hnone := hnew r List.mem_cons_self
    have hown : Owned V (E.coinName r.coin) r.walletId := fun old ho => by rw [hnone] at ho; cases ho
    have hrow : Agrees E (Function.update V (E.coinName r.coin) (some r)) (cacheRow E s r) := by
      cases hr : r.spent with
      | false => exact h.put hr hown rfl (by simp [cacheRow,hr])
      | true =>
        refine h.store hown rfl fun w n => ?_
        have hsame : (cacheRow E s r).unspentCoinWalletCache=s.unspentCoinWalletCache := by
          simp [cacheRow,hr]
        rw [hsame]
        split_ifs with hn
        · rw [h.unspent,hn.2,hnone]
          simp [Option.filter_some,hr]
        · rfl
    have hrest : ∀ r'∈l,Function.update V (E.coinName r.coin) (some r) (E.coinName r'.coin)=none := by
      intro r' hr'
      have hne : E.coinName r'.coin≠E.coinName r.coin := fun he =>
        hl.1 (he ▸ List.mem_map.mpr ⟨r',hr',rfl⟩)
      rw [Function.update_of_ne hne]
      exact hnew r' (List.mem_cons_of_mem _ hr')
    obtain ⟨V',hV',hget⟩ := ih hrow hl.2 hrest
    refine ⟨V',hV',fun n r' => ?_⟩
    rw [hget,Function.update_apply]
    by_cases hn : n=E.coinName r.coin
    · subst hn
      simp only [if_pos,hnone,List.mem_cons,Option.some.injEq,reduceCtorEq,or_false]
      constructor
      · rintro (⟨hm,he⟩ | rfl)
        · exact ⟨Or.inr hm,he⟩
        · exact ⟨Or.inl rfl,rfl⟩
      · rintro ⟨rfl | hm,he⟩
        · exact Or.inr rfl
        · exact Or.inl ⟨hm,he⟩
    · rw [if_neg hn,List.mem_cons]
      constructor
      · rintro (⟨hm,he⟩ | hv)
        · exact Or.inl ⟨Or.inr hm,he⟩
        · exact Or.inr hv
      · rintro (⟨rfl | hm,he⟩ | hv)
        · exact absurd he.symm hn
        · exact Or.inl ⟨hm,he⟩
        · exact Or.inr hv

variable {t : CoinsByName}

theorem names_eq_keys (h : ∀ n r,t.get? n=some r → E.coinName r.coin=n) :
    (t.values.map fun r => E.coinName r.coin)=t.keys :=
  t.map_values h

theorem mem_values (h : ∀ n r,t.get? n=some r → E.coinName r.coin=n)
    {r : WalletCoinRecord} : r∈t.values ↔ t.get? (E.coinName r.coin)=some r :=
  t.mem_values h

theorem rebuildWalletCache_table (s : WalletCoinStore) : (rebuildWalletCache E s).coinRecord=s.coinRecord := by
  unfold rebuildWalletCache
  generalize s.coinRecord.values=l
  suffices hfold : ∀ s' : WalletCoinStore,(l.foldl (cacheRow E) s').coinRecord=s'.coinRecord from hfold _
  intro s'
  induction l generalizing s' with
  | nil => rfl
  | cons r l ih => exact ih _

theorem rebuildWalletCache_coherent (h : ∀ n r,s.coinRecord.get? n=some r → E.coinName r.coin=n) :
    Coherent E (rebuildWalletCache E s) := by
  have hstart : Agrees E (fun _ => none) { s with coinRecordCache := .empty,unspentCoinWalletCache := .empty } :=
    ⟨fun _ => rfl,fun _ _ => rfl,by simp⟩
  obtain ⟨V',hV',hget⟩ := hstart.rows (l := s.coinRecord.values)
    (by rw [names_eq_keys h]; exact s.coinRecord.nodup) fun _ _ => rfl
  have hsame : V'=s.coinRecord.get? := by
    funext n
    apply Option.ext
    intro r
    rw [hget]
    constructor
    · rintro (⟨hm,rfl⟩ | hv)
      · exact (mem_values h).mp hm
      · cases hv
    · intro hr
      refine Or.inl ⟨(mem_values h).mpr ?_,h n r hr⟩
      rw [h n r hr,hr]
  rw [Coherent,rebuildWalletCache_table,← hsame]
  exact hV'

variable {height : ℤ}

@[simp] theorem rolledBack_coin (r : WalletCoinRecord) : (rolledBack height r).coin=r.coin := by
  unfold rolledBack
  split_ifs <;> rfl

@[simp] theorem rolledBack_walletId (r : WalletCoinRecord) : (rolledBack height r).walletId=r.walletId := by
  unfold rolledBack
  split_ifs <;> rfl

/-- Where a record is unspent, the wallet of the record has an entry. -/
def Entered (height : ℤ) (s : WalletCoinStore) (r : WalletCoinRecord) : Prop :=
  (r.spentBlockHeight : ℤ) > height → (s.unspentCoinWalletCache.get? r.walletId).isSome

theorem unspendRecord_eq_ok : unspendRecord E height s r = .ok s' → Entered height s r ∧
    s'.coinRecord=s.coinRecord ∧
    ∀ w,(s'.unspentCoinWalletCache.get? w).isSome=(s.unspentCoinWalletCache.get? w).isSome := by
  intro h
  unfold unspendRecord at h
  unfold Entered
  split_ifs at h with hs
  · obtain ⟨coins,hcoins,h⟩ := bind_ok.mp h
    rw [lookup_eq_ok] at hcoins
    rw [← Except.ok.inj h]
    refine ⟨fun _ => by rw [hcoins]; rfl,rfl,fun w => ?_⟩
    rw [Dict.get?_set]
    split_ifs with hw
    · rw [← hw,hcoins]
      rfl
    · rfl
  · rw [← Except.ok.inj h]
    exact ⟨fun hc => absurd hc hs,rfl,fun _ => rfl⟩

theorem Agrees.unspend (h : Agrees E V s) (hr : V (E.coinName r.coin)=some r) (hentered : Entered height s r) :
    ∃ s',unspendRecord E height s r = .ok s' ∧
      Agrees E (Function.update V (E.coinName r.coin) (some (rolledBack height r))) s' := by
  unfold unspendRecord
  split_ifs with hs
  · obtain ⟨coins,hcoins⟩ := Option.isSome_iff_exists.mp (hentered hs)
    refine ⟨_,by rw [hcoins]; rfl,?_⟩
    have hspent : (rolledBack height r).spent=false := by
      rw [rolledBack,if_pos hs]
    have hown : Owned V (E.coinName (rolledBack height r).coin) (rolledBack height r).walletId := by
      intro old hold
      rw [rolledBack_coin,hr] at hold
      rw [← Option.some.inj hold,rolledBack_walletId]
      exact Or.inr rfl
    have hput : Agrees E (Function.update V (E.coinName (rolledBack height r).coin) (some (rolledBack height r)))
        { s with
          coinRecordCache := s.coinRecordCache.set (E.coinName r.coin) (rolledBack height r)
          unspentCoinWalletCache :=
            putUnspent s.unspentCoinWalletCache (E.coinName r.coin) (rolledBack height r) } :=
      h.put hspent hown (by rw [rolledBack_coin]) (by rw [rolledBack_coin])
    rw [rolledBack_coin] at hput
    simpa [putUnspent,hcoins] using hput
  · have hsame : rolledBack height r=r := by
      rw [rolledBack,if_neg hs]
    rw [hsame,← hr,Function.update_eq_self]
    exact ⟨s,rfl,h⟩

theorem Entered.of_isSome {s s' : WalletCoinStore} (h : Entered height s r)
    (hs : ∀ w,(s'.unspentCoinWalletCache.get? w).isSome=(s.unspentCoinWalletCache.get? w).isSome) :
    Entered height s' r := fun hr => by rw [hs]; exact h hr

theorem Agrees.unspendAll (h : Agrees E V s)
    (hl : (l.map fun r => E.coinName r.coin).Nodup) (hv : ∀ r∈l,V (E.coinName r.coin)=some r)
    (hentered : ∀ r∈l,Entered height s r) :
    ∃ s',l.foldlM (unspendRecord E height) s = .ok s' ∧ s'.coinRecord=s.coinRecord ∧
      Agrees E (fun n => if n∈l.map (fun r => E.coinName r.coin) then (V n).map (rolledBack height)
        else V n) s' := by
  induction l generalizing s V with
  | nil => exact ⟨s,rfl,rfl,by simpa using h⟩
  | cons r l ih =>
    rw [List.map_cons,List.nodup_cons] at hl
    have hr := hv r List.mem_cons_self
    obtain ⟨s₁,hs₁,hagrees⟩ := h.unspend hr (hentered r List.mem_cons_self)
    obtain ⟨-,htable,hwallets⟩ := unspendRecord_eq_ok hs₁
    have hrest (r' : WalletCoinRecord) (hr' : r'∈l) : E.coinName r'.coin≠E.coinName r.coin :=
      fun he => hl.1 (he ▸ List.mem_map.mpr ⟨r',hr',rfl⟩)
    obtain ⟨s',hs',htable',hV'⟩ := ih hagrees hl.2
      (fun r' hr' => by
        rw [Function.update_of_ne (hrest r' hr')]
        exact hv r' (List.mem_cons_of_mem _ hr'))
      fun r' hr' => (hentered r' (List.mem_cons_of_mem _ hr')).of_isSome hwallets
    refine ⟨s',?_,htable'.trans htable,?_⟩
    · rw [List.foldlM_cons,bind_of_ok hs₁]
      exact hs'
    · convert hV' using 1
      funext n
      rw [Function.update_apply,List.map_cons]
      by_cases hn : n=E.coinName r.coin
      · subst hn
        simp [hl.1,hr]
      · simp [hn]

theorem entered_of_unspendAll
    (h : l.foldlM (unspendRecord E height) s = .ok s') : ∀ r∈l,Entered height s r := by
  induction l generalizing s with
  | nil => exact fun _ hr => absurd hr List.not_mem_nil
  | cons r l ih =>
    rw [List.foldlM_cons] at h
    obtain ⟨s₁,hs₁,h⟩ := bind_ok.mp h
    obtain ⟨hentered,-,hwallets⟩ := unspendRecord_eq_ok hs₁
    intro r' hr'
    obtain rfl | hr' := List.mem_cons.mp hr'
    · exact hentered
    · exact (ih h r' hr').of_isSome fun w => (hwallets w).symm

theorem Agrees.deleteAll (h : Agrees E V s) (hl : (l.map fun r => E.coinName r.coin).Nodup)
    (hv : ∀ r∈l,∃ v,V (E.coinName r.coin)=some v ∧ v.walletId=r.walletId) :
    ∃ s',l.foldlM (deleteRecord E) s = .ok s' ∧ s'.coinRecord=s.coinRecord ∧
      Agrees E (fun n => if n∈l.map (fun r => E.coinName r.coin) then none else V n) s' := by
  induction l generalizing s V with
  | nil => exact ⟨s,rfl,rfl,by simpa using h⟩
  | cons r l ih =>
    rw [List.map_cons,List.nodup_cons] at hl
    obtain ⟨v,hv₀,hwallet⟩ := hv r List.mem_cons_self
    have hown : Owned V (E.coinName r.coin) r.walletId := by
      intro old hold
      rw [hv₀] at hold
      rw [← Option.some.inj hold]
      exact Or.inr hwallet
    have hfound : s.coinRecordCache.get? (E.coinName r.coin)=some v := by rw [h.cached,hv₀]
    obtain ⟨s₁,hdelete,htable₁,hagrees⟩ : ∃ s₁,deleteRecord E s r = .ok s₁ ∧
        s₁.coinRecord=s.coinRecord ∧ Agrees E (Function.update V (E.coinName r.coin) none) s₁ := by
      refine ⟨{ s with
        coinRecordCache := s.coinRecordCache.erase (E.coinName r.coin)
        unspentCoinWalletCache := popUnspent s.unspentCoinWalletCache (E.coinName r.coin) r },?_,rfl,
        h.delete hown rfl rfl⟩
      unfold deleteRecord
      rw [hfound]
      rfl
    obtain ⟨s',hs',htable,hV'⟩ := ih hagrees hl.2 fun r' hr' => by
      have hne : E.coinName r'.coin≠E.coinName r.coin := fun he =>
        hl.1 (he ▸ List.mem_map.mpr ⟨r',hr',rfl⟩)
      rw [Function.update_of_ne hne]
      exact hv r' (List.mem_cons_of_mem _ hr')
    refine ⟨s',?_,htable.trans htable₁,?_⟩
    · rw [List.foldlM_cons,bind_of_ok hdelete]
      exact hs'
    · convert hV' using 1
      funext n
      rw [Function.update_apply,List.map_cons]
      by_cases hn : n=E.coinName r.coin <;> simp [hn]

theorem Coherent.rolled (h : Coherent E s)
    (hentered : ∀ n r,s.coinRecordCache.get? n=some r → Entered height s r) :
    ∃ s',rollbackToBlock E s height = .ok s' ∧ Coherent E s' := by
  have hnamed : ∀ n r,s.coinRecordCache.get? n=some r → E.coinName r.coin=n :=
    fun n r hr => h.named n r (by rw [← h.cached,hr])
  have hkeys := names_eq_keys hnamed
  have hnodup : (s.coinRecordCache.values.map fun r => E.coinName r.coin).Nodup := by
    rw [hkeys]
    exact s.coinRecordCache.nodup
  have hall : ∀ r∈s.coinRecordCache.values,Entered height s r := fun r hr =>
    hentered _ r ((mem_values hnamed).mp hr)
  obtain ⟨s₁,hs₁,htable₁,hV₁⟩ := Agrees.unspendAll h hnodup
    (fun r hr => by rw [← h.cached]; exact (mem_values hnamed).mp hr) hall
  -- Where a name is not cached there is no record to roll back either.
  have hall : (fun n => if n∈s.coinRecordCache.values.map (fun r => E.coinName r.coin) then
      (s.coinRecord.get? n).map (rolledBack height) else s.coinRecord.get? n) =
      fun n => (s.coinRecord.get? n).map (rolledBack height) := by
    funext n
    split_ifs with hn
    · rfl
    · rw [hkeys,← Dict.get?_eq_none_iff,h.cached] at hn
      rw [hn]
      rfl
  rw [hall] at hV₁
  obtain ⟨s₂,hs₂,htable₂,hV₂⟩ := hV₁.deleteAll
    (l := s.coinRecordCache.values.filter fun r => decide ((r.confirmedBlockHeight : ℤ) > height))
    (hnodup.sublist (List.filter_sublist.map _)) fun r hr => by
      have hget := (mem_values hnamed).mp (List.mem_of_mem_filter hr)
      rw [h.cached] at hget
      exact ⟨rolledBack height r,by rw [hget]; rfl,rolledBack_walletId r⟩
  refine ⟨{ s₂ with coinRecord := (s₂.coinRecord.filter fun _ r =>
    decide ((r.confirmedBlockHeight : ℤ)≤height)).mapVals fun _ r => rolledBack height r },?_,?_⟩
  · unfold rollbackToBlock
    rw [bind_of_ok hs₁]
    dsimp only
    rw [bind_of_ok hs₂]
    rfl
  · -- What is left in the caches is what is left in the table.
    have hleft : ((s₂.coinRecord.filter fun _ r => decide ((r.confirmedBlockHeight : ℤ)≤height)).mapVals
        fun _ r => rolledBack height r).get?=fun n =>
          if n∈(s.coinRecordCache.values.filter fun r =>
            decide ((r.confirmedBlockHeight : ℤ) > height)).map (fun r => E.coinName r.coin) then none
          else (s.coinRecord.get? n).map (rolledBack height) := by
      funext n
      rw [Dict.get?_mapVals,Dict.get?_filter,htable₂,htable₁]
      cases hn : s.coinRecord.get? n with
      | none => simp
      | some r =>
        have hmem : n∈(s.coinRecordCache.values.filter fun r =>
            decide ((r.confirmedBlockHeight : ℤ) > height)).map (fun r => E.coinName r.coin) ↔
            (r.confirmedBlockHeight : ℤ) > height := by
          rw [List.mem_map]
          constructor
          · rintro ⟨r',hr',hname⟩
            obtain ⟨hvalue,hconf⟩ := List.mem_filter.mp hr'
            have hget := (mem_values hnamed).mp hvalue
            rw [h.cached,hname,hn] at hget
            rw [Option.some.inj hget]
            simpa using hconf
          · intro hconf
            have hname := h.named n r hn
            refine ⟨r,List.mem_filter.mpr ⟨(mem_values hnamed).mpr ?_,by simpa using hconf⟩,hname⟩
            rw [h.cached,hname,hn]
        rw [Option.filter_some]
        by_cases hconf : (r.confirmedBlockHeight : ℤ) > height
        · rw [if_pos (hmem.mpr hconf),if_neg (by simpa using hconf)]
          rfl
        · rw [if_neg (fun hc => hconf (hmem.mp hc)),if_pos (by simpa using hconf)]
    unfold Coherent
    dsimp only
    rw [hleft]
    exact ⟨hV₂.cached,hV₂.unspent,hV₂.named⟩

variable (E)

/-- No record changes its wallet while unspent, the coin to be spent is known, and the wallets of the coins to
be unspent have an entry in the cache. -/
def Fits (s : WalletCoinStore) : Op → Prop
  | .addCoinRecord r => Owned s.coinRecordCache.get? (E.coinName r.coin) r.walletId
  | .setSpent coinName _ => (s.coinRecordCache.get? coinName).isSome
  | .rebuildWalletCache => True
  | .rollbackToBlock height => ∀ n r,s.coinRecordCache.get? n=some r → Entered height s r

variable {E}

theorem Coherent.fits_iff (h : Coherent E s) (op : Op) :
    Fits E s op ↔ ∃ s',perform E s op = .ok s' ∧ Coherent E s' := by
  have hcached : s.coinRecordCache.get?=s.coinRecord.get? := funext h.cached
  cases op with
  | addCoinRecord r =>
    rw [Fits,hcached]
    constructor
    · exact fun hf => ⟨_,rfl,h.added hf⟩
    · rintro ⟨s',hs',hc⟩
      obtain rfl := Except.ok.inj hs'
      exact h.owned hc
  | setSpent coinName height =>
    have hget : getCoinRecord s coinName=s.coinRecord.get? coinName := by
      unfold getCoinRecord
      rw [hcached]
      cases s.coinRecord.get? coinName <;> rfl
    rw [Fits,hcached]
    unfold perform setSpent
    dsimp only
    rw [hget]
    cases hr : s.coinRecord.get? coinName with
    | none => simp [assertSome,bind,Except.bind]
    | some r =>
      have hname := h.named coinName r hr
      refine ⟨fun _ => ⟨_,rfl,h.added ?_⟩,fun _ => rfl⟩
      intro old hold
      dsimp only at hold ⊢
      rw [hname,hr] at hold
      rw [← Option.some.inj hold]
      exact Or.inr rfl
  | rebuildWalletCache => exact ⟨fun _ => ⟨_,rfl,rebuildWalletCache_coherent h.named⟩,fun _ => trivial⟩
  | rollbackToBlock height =>
    constructor
    · exact fun hf => h.rolled hf
    · rintro ⟨s',hs',-⟩ n r hr
      unfold perform rollbackToBlock at hs'
      obtain ⟨s₁,hs₁,-⟩ := bind_ok.mp hs'
      exact entered_of_unspendAll hs₁ r (List.mem_map.mpr ⟨(n,r),(Dict.mem_entries _ _ _).mpr hr,rfl⟩)

variable (E)

/-- Every call of the run returns and leaves the caches equal to the table. -/
def Holds : WalletCoinStore → List Op → Prop
  | s,[] => Coherent E s
  | s,op::ops => Coherent E s ∧ ∃ s',perform E s op = .ok s' ∧ Holds s' ops

def AllFit : WalletCoinStore → List Op → Prop
  | _,[] => True
  | s,op::ops => Fits E s op ∧ ∀ s',perform E s op = .ok s' → AllFit s' ops

variable {E}

theorem Coherent.holds_iff (h : Coherent E s) (ops : List Op) : Holds E s ops ↔ AllFit E s ops := by
  induction ops generalizing s with
  | nil => exact ⟨fun _ => trivial,fun _ => h⟩
  | cons op ops ih =>
    constructor
    · rintro ⟨-,s',hs',hrest⟩
      have hc : Coherent E s' := by cases ops with
        | nil => exact hrest
        | cons => exact hrest.1
      refine ⟨(h.fits_iff op).mpr ⟨s',hs',hc⟩,fun s'' hs'' => ?_⟩
      obtain rfl := Except.ok.inj (hs'.symm.trans hs'')
      exact (ih hc).mp hrest
    · rintro ⟨hfits,hrest⟩
      obtain ⟨s',hs',hc⟩ := (h.fits_iff op).mp hfits
      exact ⟨h,s',hs',(ih hc).mpr (hrest s' hs')⟩

/-- On a store that is opened on any table, a run has no call that raises or leaves a cache different
from the table exactly when every call fits. -/
theorem walletCoinStore_holds_iff {t : CoinsByName} (h : ∀ n r,t.get? n=some r → E.coinName r.coin=n)
    (ops : List Op) : Holds E (create E t) ops ↔ AllFit E (create E t) ops :=
  Coherent.holds_iff (rebuildWalletCache_coherent h) ops

def spentCoin : WalletCoinRecord := ⟨⟨5,0,9⟩,3,0,false,false,.standardWallet,1⟩

/-- A wallet whose only coin is spent is opened again, and the spend is rolled back. -/
def spentAndReopened : List Op :=
  [.addCoinRecord spentCoin,.setSpent (5+2^100) 7,.rebuildWalletCache,.rollbackToBlock 6]

theorem Holds.isOk {ops : List Op} (h : Holds E s ops) : (ops.foldlM (perform E) s).isOk=true := by
  induction ops generalizing s with
  | nil => rfl
  | cons op ops ih =>
    obtain ⟨-,s',hs',hrest⟩ := h
    rw [List.foldlM_cons,bind_of_ok hs']
    exact ih hrest

/-- The spend cannot be rolled back: the wallet has no entry any more. -/
theorem walletCoinStore_raises : ¬ Holds tinyEnv (create tinyEnv .empty) spentAndReopened ∧
    ((spentAndReopened.take 3).foldlM (perform tinyEnv) (create tinyEnv .empty)).isOk=true := by
  refine ⟨fun h => ?_,by decide +kernel⟩
  have hraised : (spentAndReopened.foldlM (perform tinyEnv) (create tinyEnv .empty)).isOk=false := by
    decide +kernel
  rw [h.isOk] at hraised
  cases hraised

theorem walletCoinStore_holds_iff_reopened :
    Holds tinyEnv (create tinyEnv .empty) [.addCoinRecord spentCoin,.rebuildWalletCache] := by
  refine (walletCoinStore_holds_iff (by simp) _).mpr ⟨?_,fun _ _ => ⟨trivial,fun _ _ => trivial⟩⟩
  intro old h
  cases h

end WalletCoinStore
end RoseChain
