import Mathlib.Algebra.Order.BigOperators.Group.List
import RoseChain.FullNode.NoRaise

namespace RoseChain
open Lib MempoolItem
variable {E : Env} {S : Coin → Prop}

namespace Mempool
variable {m : Mempool}

theorem minFeeRateFrom_ok (max cost : ℕ) (current : ℤ) (l : List (ℚ × MempoolItem)) (hl : l≠[])
    (h : current-(l.map (·.2.cost)).sum+cost ≤ max) : ∃ r,minFeeRateFrom max cost current l = .ok r := by
  induction l generalizing current with
  | nil => exact absurd rfl hl
  | cons e l ih =>
    rw [minFeeRateFrom]
    split_ifs with hfits
    · exact ⟨e.1,rfl⟩
    · rw [List.map_cons,List.sum_cons,Nat.cast_add] at h
      refine ih _ ?_ (by omega)
      rintro rfl
      rw [List.map_nil,List.sum_nil] at h
      omega

theorem total_le_buckets (h : Consistent E m) : m.spends.total (·.cost) ≤
    (((sortedItems m.sortedSpends).flatMap fun e => e.2.values.map fun item => (e.1,item)).map (·.2.cost)).sum := by
  have hnodup : m.spends.values.Nodup := m.spends.nodup_values h.named
  have hsub : m.spends.values ⊆ ((sortedItems m.sortedSpends).flatMap fun e =>
      e.2.values.map fun item => (e.1,item)).map (·.2) := by
    intro v hv
    obtain ⟨e,he,rfl⟩ := List.mem_map.mp hv
    have hget := (m.spends.mem_entries _ _).mp he
    obtain ⟨b,hb,hin⟩ := h.sorted.get hget
    refine List.mem_map.mpr ⟨(feePerCost e.2,e.2),List.mem_flatMap.mpr ⟨(feePerCost e.2,b),?_,?_⟩,rfl⟩
    · unfold sortedItems
      rw [List.mem_mergeSort,Dict.mem_entries]
      exact hb
    · exact List.mem_map.mpr ⟨e.2,List.mem_map.mpr ⟨(e.1,e.2),(b.mem_entries _ _).mpr hin,rfl⟩,rfl⟩
  obtain ⟨l,hperm,hsublist⟩ := List.subperm_of_subset hnodup hsub
  unfold Dict.total
  rw [← (hperm.map (·.cost)).sum_eq]
  have hle := (hsublist.map (·.cost)).sum_le_sum fun _ _ => Nat.zero_le _
  rwa [List.map_map] at hle

variable {cost : ℕ}

theorem spends_of_full (h : Consistent E m) (hcost : cost ≤ m.maxSizeInCost) (hfull : m.atFullCapacity cost) :
    0 < m.spends.total (·.cost) := by
  have htotal := h.total
  unfold atFullCapacity at hfull
  rw [decide_eq_true_eq] at hfull
  omega

theorem getMinFeeRate_ok (h : Consistent E m) (hcost : cost ≤ m.maxSizeInCost) :
    ∃ r,m.getMinFeeRate cost = .ok r := by
  unfold getMinFeeRate
  split_ifs with hfull
  · have hpos := spends_of_full h hcost hfull
    have hle := total_le_buckets h
    refine minFeeRateFrom_ok _ _ _ _ ?_ ?_
    · intro hnil
      rw [hnil,List.map_nil,List.sum_nil] at hle
      omega
    · rw [h.total]
      omega
  · exact ⟨0,rfl⟩

theorem makeRoom_ok (cost n : ℕ) (h : Pool E S m) (hn : m.spends.size<n) (hcost : cost ≤ m.maxSizeInCost) :
    (makeRoom E cost n m).1 = .ok () := by
  induction n generalizing m with
  | zero => omega
  | succ n ih =>
    by_cases hfull : m.atFullCapacity cost
    · cases hhead : (sortedItems m.sortedSpends).head? with
      | none =>
        have hpos := spends_of_full h.consistent hcost hfull
        have hle := total_le_buckets h.consistent
        rw [List.head?_eq_none_iff.mp hhead,List.flatMap_nil,List.map_nil,List.sum_nil] at hle
        omega
      | some p =>
        obtain ⟨item,hrun,hpool,hsize,-⟩ := makeRoom_step h n hfull hhead
        rw [hrun]
        exact ih hpool (by omega) hcost
    · rw [makeRoom,Eff.bind_get,if_neg hfull]
      rfl

theorem addToPool_ok (h : Pool E S m) {item : MempoolItem} (hcost : item.cost ≤ m.maxSizeInCost)
    (additions : List Coin) (removalsDic : Dict Bytes32 Coin) :
    ∃ m',addToPool E item additions removalsDic m=(.ok (),m') ∧ m'.maxSizeInCost=m.maxSizeInCost := by
  have hroom := makeRoom_ok item.cost (m.spends.size+1) h (Nat.lt_succ_self _) hcost
  have hshrunk := (makeRoom_spec item.cost (m.spends.size+1) h (Nat.lt_succ_self _)).shrunk
  unfold addToPool
  rw [Eff.bind_get]
  cases hrun : makeRoom E item.cost (m.spends.size+1) m with
  | mk r m' =>
    rw [hrun] at hroom hshrunk
    rw [show r = .ok () from hroom] at hrun
    rw [Eff.bind_of_ok hrun]
    exact ⟨_,rfl,hshrunk.maxSizeInCost⟩

end Mempool

def RaisesAt {α : Type} (f : ManagerM α) (s : MempoolManager) : Prop := ∃ e,(f s).1 = .error (.raised e)

section Rules
variable {α β : Type} {s : MempoolManager}

theorem not_raisesAt_pure (a : α) : ¬ RaisesAt (pure a) s := by
  rintro ⟨e,h⟩
  cases h

theorem not_raisesAt_fail (e : Err) : ¬ RaisesAt (Eff.fail (.invalid e) : ManagerM α) s := by
  rintro ⟨e',h⟩
  cases h

theorem raisesAt_read {f : MempoolManager → ManagerM β} : RaisesAt (Eff.get >>= f) s ↔ RaisesAt (f s) s := Iff.rfl

variable {x : Check α}

theorem raisesAt_lift {f : α → ManagerM β} :
    RaisesAt (Eff.lift x >>= f) s ↔ Raises x ∨ ∃ a,x = .ok a ∧ RaisesAt (f a) s := by
  cases x with
  | error e =>
    constructor
    · rintro ⟨e',h⟩
      exact Or.inl ⟨e',congrArg Except.error (Except.error.inj h)⟩
    · rintro (⟨e',h⟩ | ⟨a,h,-⟩)
      · exact ⟨e',congrArg Except.error (Except.error.inj h)⟩
      · cases h
  | ok a =>
    constructor
    · exact fun h => Or.inr ⟨a,rfl,h⟩
    · rintro (h | ⟨a',h,hf⟩)
      · exact absurd h (not_raises_ok a)
      · obtain rfl := Except.ok.inj h
        exact hf

theorem raisesAt_check {f : α → ManagerM β} (hx : ¬ Raises x) :
    RaisesAt (Eff.lift x >>= f) s ↔ ∃ a,x = .ok a ∧ RaisesAt (f a) s := by
  rw [raisesAt_lift,or_iff_right hx]

theorem raisesAt_reject {c : Prop} [Decidable c] {e : Err} {f : Unit → ManagerM β} :
    RaisesAt (Eff.lift (reject c e) >>= f) s ↔ ¬ c ∧ RaisesAt (f ()) s := by
  rw [raisesAt_check (not_raises_reject c e)]
  constructor
  · rintro ⟨_,hc,hf⟩
    exact ⟨reject_eq_ok.mp hc,hf⟩
  · rintro ⟨hc,hf⟩
    exact ⟨(),reject_eq_ok.mpr hc,hf⟩

theorem raisesAt_then {m : ManagerM α} (b : β) : RaisesAt (do let _ ← m; return b) s ↔ RaisesAt m s := by
  unfold RaisesAt
  rcases hrun : m s with ⟨⟨e⟩ | a,s'⟩
  · rw [Eff.bind_of_error hrun]
    constructor
    · rintro ⟨e',h⟩
      exact ⟨e',congrArg Except.error (Except.error.inj h)⟩
    · rintro ⟨e',h⟩
      exact ⟨e',congrArg Except.error (Except.error.inj h)⟩
  · rw [Eff.bind_of_ok hrun]
    refine iff_of_false ?_ ?_
    · rintro ⟨e',h⟩
      cases h
    · rintro ⟨e',h⟩
      cases h

theorem raisesAt_failing {f : ManagerM SpendbundleAnswer} :
    RaisesAt (MempoolManager.failing f) s ↔ RaisesAt f s := by
  unfold RaisesAt MempoolManager.failing
  rcases hrun : f s with ⟨⟨e⟩ | a,s'⟩
  · cases e with
    | invalid e =>
      refine iff_of_false ?_ ?_
      · rintro ⟨e',h⟩
        cases h
      · rintro ⟨e',h⟩
        cases h
    | raised e => exact Iff.rfl
  · exact Iff.rfl

end Rules

/-- Keeping an item would exceed the bound on what is kept: the source then lowers it, until nothing
is left to take out. -/
def CacheFull (s : MempoolManager) (item : MempoolItem) : Prop :=
  ¬ s.potentialTxs.contains item.spendBundleName ∧ s.potentialCacheMaxTotalCost<s.potentialCacheCost+item.cost

namespace MempoolManager
variable {s : MempoolManager} {item : MempoolItem} {peak : BlockRecord} {records : Dict Bytes32 CoinRecord}

theorem trimPotential_raises (n : ℕ) (s : MempoolManager) (hn : s.potentialTxs.size<n) :
    RaisesAt (trimPotential n) s ↔ s.potentialCacheMaxTotalCost<s.potentialCacheCost := by
  induction n generalizing s with
  | zero => omega
  | succ n ih =>
    unfold trimPotential
    rw [raisesAt_read]
    by_cases hfull : s.potentialCacheCost > s.potentialCacheMaxTotalCost
    · rw [if_pos hfull]
      refine iff_of_true ?_ hfull
      rw [raisesAt_lift,raises_index]
      cases hl : s.potentialTxs.entries with
      | nil => exact Or.inl rfl
      | cons p l =>
        have hget : s.potentialTxs.get? p.1=some p.2 :=
          (s.potentialTxs.mem_entries _ _).mp (hl ▸ List.mem_cons_self)
        have hsize := s.potentialTxs.size_erase hget
        -- one item less, and a bound that is still too small
        have hrest := ih { s with
          potentialCacheMaxTotalCost := s.potentialCacheMaxTotalCost-p.2.cost
          potentialTxs := s.potentialTxs.erase p.1 } (by
            change (s.potentialTxs.erase p.1).size<n
            omega)
        have hbound : s.potentialCacheMaxTotalCost-p.2.cost<s.potentialCacheCost := by omega
        exact Or.inr ⟨p,rfl,hrest.mpr hbound⟩
    · rw [if_neg hfull]
      exact iff_of_false (not_raisesAt_pure ()) hfull

theorem addToPotentialTxSet_raises : RaisesAt (addToPotentialTxSet item) s ↔ CacheFull s item := by
  unfold addToPotentialTxSet CacheFull
  rw [raisesAt_read]
  by_cases hnew : ¬ s.potentialTxs.contains item.spendBundleName
  · rw [if_pos hnew,and_iff_right hnew]
    have hsize := s.potentialTxs.size_set_le item.spendBundleName item
    exact trimPotential_raises (s.potentialTxs.size+2)
      { s with
        potentialTxs := s.potentialTxs.set item.spendBundleName item
        potentialCacheCost := s.potentialCacheCost+item.cost } (by
          change (s.potentialTxs.set item.spendBundleName item).size<s.potentialTxs.size+2
          omega)
  · rw [if_neg hnew]
    exact iff_of_false (not_raisesAt_pure ()) fun h => hnew h.1

theorem checkCapacity_not_raises {m : Mempool} (h : Consistent E m) {cost : ℕ} (hcost : cost ≤ m.maxSizeInCost)
    (feesPerCost : ℚ) : ¬ Raises (checkCapacity m cost feesPerCost) := by
  unfold checkCapacity
  split_ifs
  · refine not_raises_bind (not_raises_reject _ _) fun _ _ => not_raises_bind ?_ fun _ _ => not_raises_reject _ _
    obtain ⟨r,hr⟩ := Mempool.getMinFeeRate_ok h hcost
    rw [hr]
    exact not_raises_ok r
  · exact not_raises_ok ()

theorem canReplace_not_raises {items : Dict Bytes32 MempoolItem} (hitems : items.values≠[])
    (fees : ℕ) (feesPerCost : ℚ) : ¬ Raises (canReplace E items records fees feesPerCost) := by
  unfold canReplace
  dsimp only
  split_ifs with _ hzero
  · exact not_raises_ok _
  · obtain ⟨other,l,hl⟩ := List.exists_cons_of_ne_nil hitems
    rw [hl,List.map_cons,List.sum_cons] at hzero
    have hcost := other.cost_ne_zero
    omega
  · exact not_raises_ok _
  · exact not_raises_ok _

theorem canReplace_not_invalid (items : Dict Bytes32 MempoolItem) (records : Dict Bytes32 CoinRecord) (fees : ℕ)
    (feesPerCost : ℚ) (e : Err) : canReplace E items records fees feesPerCost ≠ .error (.invalid e) := by
  unfold canReplace
  dsimp only
  split_ifs <;> exact fun h => (by cases h)

end MempoolManager

/-- What is checked of a spend before the keys of its signatures are read. -/
def SpendPasses (E : Env) (peak : BlockRecord) (coins puzzles : List Bytes32) (records : Dict Bytes32 CoinRecord)
    (npc : NPC) : Prop :=
  ∃ record timestamp,records.get? npc.coinName=some record ∧ npc.puzzleHash=record.coin.puzzleHash ∧
    peak.timestamp=some timestamp ∧ mempoolCheckConditionsDict E record coins puzzles npc.conditionDict
      (if peak.isTransactionBlock then peak.height else peak.prevTransactionBlockHeight) timestamp = .ok ()

/-- The keys of the spends are read up to one that is no point of the curve. -/
def KeyReached (E : Env) (peak : BlockRecord) (npcList : List NPC) (records : Dict Bytes32 CoinRecord) : Prop :=
  ∃ coins puzzles pre npc post,coinAnnouncementsNamesForNpc E npcList = .ok coins ∧
    puzzleAnnouncementsNamesForNpc E npcList = .ok puzzles ∧ npcList=pre++npc::post ∧
    (∀ p∈pre,SpendPasses E peak coins puzzles records p ∧ ¬ BadKey E p) ∧
    SpendPasses E peak coins puzzles records npc ∧ BadKey E npc

namespace MempoolManager
variable {s : MempoolManager} {item : MempoolItem} {peak : BlockRecord} {records : Dict Bytes32 CoinRecord}
  {npcList : List NPC} {npc : NPC} {coins puzzles : List Bytes32}

variable (E peak coins puzzles records) in
/-- The part of `checkSpends` that is about one spend. -/
def checkSpend (validateSignature : Bool) (npc : NPC) : Check (List (G1Element × Bytes)) := do
  let coinRecord ← lookup (records.get? npc.coinName)
  reject (npc.puzzleHash≠coinRecord.coin.puzzleHash) .wrongPuzzleHash
  let chialispHeight := if peak.isTransactionBlock then peak.height else peak.prevTransactionBlockHeight
  let timestamp ← assertSome peak.timestamp
  mempoolCheckConditionsDict E coinRecord coins puzzles npc.conditionDict chialispHeight timestamp
  if validateSignature then pkmPairsForConditionsDict E npc E.aggSigMeAdditionalData else return []

theorem checkSpends_eq (validateSignature : Bool) :
    checkSpends E peak npcList records validateSignature=(do
      let coins ← coinAnnouncementsNamesForNpc E npcList
      let puzzles ← puzzleAnnouncementsNamesForNpc E npcList
      let pairs ← npcList.mapM (checkSpend E peak records coins puzzles validateSignature)
      return pairs.flatten) := rfl

section
variable (hpeak : peak.timestamp.isSome)
include hpeak

variable (E coins puzzles) in
theorem checkSpend_cases (hshaped : npc.All ConditionWithArgs.Shaped)
    (hfound : ∃ r,records.get? npc.coinName=some r) (validateSignature : Bool) :
    (¬ SpendPasses E peak coins puzzles records npc ∧
      ∃ e,checkSpend E peak records coins puzzles validateSignature npc = .error (.invalid e)) ∨
    (SpendPasses E peak coins puzzles records npc ∧ checkSpend E peak records coins puzzles validateSignature npc =
      if validateSignature then pkmPairsForConditionsDict E npc E.aggSigMeAdditionalData else .ok []) := by
  obtain ⟨timestamp,htime⟩ := Option.isSome_iff_exists.mp hpeak
  obtain ⟨record,hrecord⟩ := hfound
  by_cases hhash : npc.puzzleHash=record.coin.puzzleHash
  · have heq : checkSpend E peak records coins puzzles validateSignature npc=(do
        mempoolCheckConditionsDict E record coins puzzles npc.conditionDict
          (if peak.isTransactionBlock then peak.height else peak.prevTransactionBlockHeight) timestamp
        if validateSignature then pkmPairsForConditionsDict E npc E.aggSigMeAdditionalData else return []) := by
      have hsame : reject (npc.puzzleHash≠record.coin.puzzleHash) .wrongPuzzleHash = .ok () :=
        reject_eq_ok.mpr (not_not.mpr hhash)
      unfold checkSpend
      rw [hrecord,htime]
      change (reject (npc.puzzleHash≠record.coin.puzzleHash) .wrongPuzzleHash >>= _)=_
      rw [hsame]
      rfl
    rw [heq]
    cases hcheck : mempoolCheckConditionsDict E record coins puzzles npc.conditionDict
      (if peak.isTransactionBlock then peak.height else peak.prevTransactionBlockHeight) timestamp with
    | ok u => exact Or.inr ⟨⟨record,timestamp,hrecord,hhash,htime,hcheck⟩,rfl⟩
    | error e =>
      cases e with
      | raised e => exact absurd ⟨e,hcheck⟩ (mempoolCheckConditionsDict_not_raises _ _ _ _ _ hshaped)
      | invalid e =>
        refine Or.inl ⟨?_,e,rfl⟩
        rintro ⟨record',timestamp',hr,-,ht,hok⟩
        obtain rfl := Option.some.inj (hrecord.symm.trans hr)
        obtain rfl := Option.some.inj (htime.symm.trans ht)
        rw [hcheck] at hok
        cases hok
  · refine Or.inl ⟨?_,.wrongPuzzleHash,?_⟩
    · rintro ⟨record',-,hr,hsame,-⟩
      obtain rfl := Option.some.inj (hrecord.symm.trans hr)
      exact hhash hsame
    · unfold checkSpend
      rw [hrecord]
      change (reject (npc.puzzleHash≠record.coin.puzzleHash) .wrongPuzzleHash >>= _)=_
      unfold reject
      rw [if_pos hhash]
      rfl

theorem checkSpend_raises (hparsed : npc.Parsed)
    (hshaped : npc.All ConditionWithArgs.Shaped) (hfound : ∃ r,records.get? npc.coinName=some r)
    (validateSignature : Bool) : Raises (checkSpend E peak records coins puzzles validateSignature npc) ↔
      validateSignature ∧ SpendPasses E peak coins puzzles records npc ∧ BadKey E npc := by
  obtain ⟨hfails,e,heq⟩ | ⟨hpasses,heq⟩ := checkSpend_cases E coins puzzles hpeak hshaped
    hfound validateSignature
  · rw [heq]
    exact iff_of_false (not_raises_invalid e) fun h => hfails h.2.1
  · rw [heq,and_iff_right hpasses]
    by_cases hv : validateSignature
    · rw [if_pos hv,pkmPairs_raises hparsed,and_iff_right hv]
    · rw [if_neg hv]
      exact iff_of_false (not_raises_ok []) fun h => hv h.1

theorem checkSpend_ok (hparsed : npc.Parsed)
    (hshaped : npc.All ConditionWithArgs.Shaped) (hfound : ∃ r,records.get? npc.coinName=some r) :
    (∃ pairs,checkSpend E peak records coins puzzles true npc = .ok pairs) ↔
      SpendPasses E peak coins puzzles records npc ∧ ¬ BadKey E npc := by
  obtain ⟨hfails,e,heq⟩ | ⟨hpasses,heq⟩ := checkSpend_cases E coins puzzles hpeak hshaped
    hfound true
  · rw [heq]
    refine iff_of_false ?_ fun h => hfails h.1
    rintro ⟨pairs,h⟩
    cases h
  · rw [heq,and_iff_right hpasses,if_pos rfl,← pkmPairs_raises hparsed E.aggSigMeAdditionalData]
    cases hpairs : pkmPairsForConditionsDict E npc E.aggSigMeAdditionalData with
    | ok pairs => exact iff_of_true ⟨pairs,rfl⟩ (not_raises_ok pairs)
    | error e =>
      cases e with
      | invalid e => exact absurd hpairs (pkmPairs_not_invalid hparsed _ e)
      | raised e =>
        refine iff_of_false ?_ (not_not.mpr ⟨e,rfl⟩)
        rintro ⟨pairs,h⟩
        cases h

theorem checkSpends_raises (hparsed : ∀ npc∈npcList,npc.Parsed)
    (hshaped : ∀ npc∈npcList,npc.All ConditionWithArgs.Shaped)
    (hfound : ∀ npc∈npcList,∃ r,records.get? npc.coinName=some r) (validateSignature : Bool) :
    Raises (checkSpends E peak npcList records validateSignature) ↔
      validateSignature ∧ KeyReached E peak npcList records := by
  have hcoins : ¬ Raises (coinAnnouncementsNamesForNpc E npcList) :=
    announcementNames_not_raises (Or.inl rfl) _ hparsed
  have hpuzzles : ¬ Raises (puzzleAnnouncementsNamesForNpc E npcList) :=
    announcementNames_not_raises (Or.inr rfl) _ hparsed
  rw [checkSpends_eq,raises_bind,or_iff_right hcoins]
  constructor
  · rintro ⟨coins,hc,hraises⟩
    rw [raises_bind,or_iff_right hpuzzles] at hraises
    obtain ⟨puzzles,hp,hraises⟩ := hraises
    rw [raises_bind] at hraises
    obtain hraises | ⟨_,-,hraises⟩ := hraises
    · obtain ⟨pre,npc,post,hsplit,hpre,hnpc⟩ := raises_mapM.mp hraises
      have hin {p : NPC} (h : p∈pre++[npc]) : p∈npcList := by
        rw [hsplit]
        simp only [List.mem_append,List.mem_cons] at h ⊢
        tauto
      have hlast := hin (p := npc) (by simp)
      rw [checkSpend_raises hpeak (hparsed _ hlast) (hshaped _ hlast) (hfound _ hlast)] at hnpc
      obtain ⟨hv,hpasses,hbad⟩ := hnpc
      refine ⟨hv,coins,puzzles,pre,npc,post,hc,hp,hsplit,?_,hpasses,hbad⟩
      intro p hpin
      have hp := hin (List.mem_append_left _ hpin)
      have hok := hpre p hpin
      rw [hv] at hok
      exact (checkSpend_ok hpeak (hparsed p hp) (hshaped p hp) (hfound p hp)).mp hok
    · exact absurd hraises (not_raises_ok _)
  · rintro ⟨hv,coins,puzzles,pre,npc,post,hc,hp,hsplit,hpre,hpasses,hbad⟩
    refine ⟨coins,hc,raises_bind.mpr (Or.inr ⟨puzzles,hp,raises_bind.mpr (Or.inl (raises_mapM.mpr ?_))⟩)⟩
    have hin {p : NPC} (h : p∈pre++[npc]) : p∈npcList := by
      rw [hsplit]
      simp only [List.mem_append,List.mem_cons] at h ⊢
      tauto
    have hlast := hin (p := npc) (by simp)
    refine ⟨pre,npc,post,hsplit,?_,?_⟩
    · intro p hpin
      have hp := hin (List.mem_append_left _ hpin)
      rw [hv]
      exact (checkSpend_ok hpeak (hparsed p hp) (hshaped p hp) (hfound p hp)).mpr (hpre p hpin)
    · rw [checkSpend_raises hpeak (hparsed _ hlast) (hshaped _ hlast) (hfound _ hlast)]
      exact ⟨hv,hpasses,hbad⟩

end

end MempoolManager

/-- The pool is as before, or the bundle has entered it. -/
def Atomic (f : ManagerM SpendbundleAnswer) (s : MempoolManager) : Prop :=
  (f s).2.mempool=s.mempool ∨
    (∃ cost,(f s).1 = .ok (cost,.success,none)) ∧ (f s).2.mempool.maxSizeInCost=s.mempool.maxSizeInCost

section AtomicRules
variable {α : Type} {s : MempoolManager} {f : ManagerM SpendbundleAnswer}

theorem atomic_pure (answer : SpendbundleAnswer) : Atomic (pure answer) s := Or.inl rfl

theorem atomic_fail (e : Fail) : Atomic (Eff.fail e) s := Or.inl rfl

theorem atomic_read {f : MempoolManager → ManagerM SpendbundleAnswer} (hf : Atomic (f s) s) :
    Atomic (Eff.get >>= f) s := hf

variable {x : Check α}

theorem atomic_lift {f : α → ManagerM SpendbundleAnswer} (hf : ∀ a,x = .ok a → Atomic (f a) s) :
    Atomic (Eff.lift x >>= f) s := by
  cases x with
  | error e => exact Or.inl rfl
  | ok a => exact hf a rfl

theorem atomic_failing (hf : Atomic f s) : Atomic (MempoolManager.failing f) s := by
  unfold Atomic MempoolManager.failing at *
  rcases hrun : f s with ⟨⟨e⟩ | a,s'⟩
  · rw [hrun] at hf
    cases e with
    | invalid e =>
      obtain hsame | ⟨⟨cost,h⟩,-⟩ := hf
      · exact Or.inl hsame
      · cases h
    | raised e => exact hf
  · rw [hrun] at hf
    exact hf

def Kept (f : ManagerM SpendbundleAnswer) (s : MempoolManager) : Prop := (f s).2.mempool=s.mempool

theorem kept_read {f : MempoolManager → ManagerM SpendbundleAnswer} (hf : Kept (f s) s) : Kept (Eff.get >>= f) s := hf

theorem kept_lift {f : α → ManagerM SpendbundleAnswer} (hf : ∀ a,Kept (f a) s) : Kept (Eff.lift x >>= f) s := by
  cases x with
  | error e => rfl
  | ok a => exact hf a

theorem kept_failing (hf : Kept f s) : Kept (MempoolManager.failing f) s := by
  unfold Kept MempoolManager.failing at *
  rcases hrun : f s with ⟨⟨e | e⟩ | a,s'⟩ <;> rw [hrun] at hf <;> exact hf

end AtomicRules

namespace MempoolManager
variable {s : MempoolManager} {item : MempoolItem} {peak : BlockRecord} {records : Dict Bytes32 CoinRecord}
  {additions : List Coin}

theorem pending_atomic (answer : SpendbundleAnswer) :
    Atomic (do addToPotentialTxSet item; return answer) s := by
  have hkept : (addToPotentialTxSet item s).2.mempool=s.mempool := by
    unfold addToPotentialTxSet
    rw [Eff.bind_get]
    by_cases hnew : ¬ s.potentialTxs.contains item.spendBundleName
    · rw [if_pos hnew]
      have hsize := s.potentialTxs.size_set_le item.spendBundleName item
      exact (trimPotential_spec (s.potentialTxs.size+2)
        { s with
          potentialTxs := s.potentialTxs.set item.spendBundleName item
          potentialCacheCost := s.potentialCacheCost+item.cost } (by
            change (s.potentialTxs.set item.spendBundleName item).size<s.potentialTxs.size+2
            omega)).1
    · rw [if_neg hnew]
      rfl
  left
  rcases hrun : addToPotentialTxSet item s with ⟨⟨e⟩ | u,s'⟩
  · rw [hrun] at hkept
    rw [Eff.bind_of_error hrun]
    exact hkept
  · rw [hrun] at hkept
    rw [Eff.bind_of_ok hrun]
    exact hkept

variable {conflicting : Dict Bytes32 MempoolItem}

theorem replaceConflicts_cases (hpool : Pool E S s.mempool) (hcost : item.cost ≤ s.mempool.maxSizeInCost)
    (hmem : ∀ n other,conflicting.get? n=some other → other.name=n ∧ s.mempool.spends.get? n=some other)
    (removalsDic : Dict Bytes32 Coin) (pairs : List (G1Element × Bytes)) (validateSignature : Bool) :
    ¬ RaisesAt (replaceConflicts E item conflicting additions removalsDic pairs validateSignature) s ∧
      Atomic (replaceConflicts E item conflicting additions removalsDic pairs validateSignature) s := by
  obtain ⟨m',hrun,hpool',hshrunk,-⟩ := removeConflicts_spec hpool hmem
  obtain ⟨m'',hadd,hmax⟩ := Mempool.addToPool_ok hpool' (hshrunk.maxSizeInCost.symm ▸ hcost) additions removalsDic
  have hout : onMempool (conflicting.values.forM (Mempool.removeFromPool E)) s=(.ok (),{ s with mempool := m' }) := by
    unfold onMempool
    rw [hrun]
  have hin : onMempool (Mempool.addToPool E item additions removalsDic) { s with mempool := m' } =
      (.ok (),{ s with mempool := m'' }) := by
    unfold onMempool
    dsimp only
    rw [hadd]
  have hdone : (do
      onMempool (conflicting.values.forM (Mempool.removeFromPool E))
      onMempool (Mempool.addToPool E item additions removalsDic)
      return (some item.cost,.success,none) : ManagerM SpendbundleAnswer) s =
        (.ok (some item.cost,.success,none),{ s with mempool := m'' }) := by
    rw [Eff.bind_of_ok hout,Eff.bind_of_ok hin]
    rfl
  unfold replaceConflicts
  constructor
  · rw [raisesAt_reject]
    rintro ⟨-,e,h⟩
    rw [hdone] at h
    cases h
  · refine atomic_lift fun _ _ => Or.inr ?_
    rw [hdone]
    exact ⟨⟨_,rfl⟩,hmax.trans hshrunk.maxSizeInCost⟩

/-- The spends are turned down because of a height, for now. -/
def TooEarly (E : Env) (peak : BlockRecord) (npcList : List NPC) (records : Dict Bytes32 CoinRecord)
    (validateSignature : Bool) : Prop :=
  ∃ e,(e = .assertHeightAbsoluteFailed ∨ e = .assertHeightRelativeFailed) ∧
    checkSpends E peak npcList records validateSignature = .error (.invalid e)

/-- What has been found out about an item, as far as exceptions go. -/
structure Sound (E : Env) (s : MempoolManager) (item : MempoolItem) (peak : BlockRecord)
    (records : Dict Bytes32 CoinRecord) : Prop where
  peak : peak.timestamp.isSome
  parsed : ∀ npc∈item.npcResult.npcList,npc.Parsed
  shaped : ∀ npc∈item.npcResult.npcList,npc.All ConditionWithArgs.Shaped
  found : ∀ npc∈item.npcResult.npcList,∃ r,records.get? npc.coinName=some r
  cost : item.cost ≤ s.mempool.maxSizeInCost

variable (additions) in
theorem tryReplace_cases (hpool : Pool E S s.mempool) (h : Sound E s item peak records) (validateSignature : Bool)
    (failReason : Option Err)
    (hmem : ∀ n other,conflicting.get? n=some other → other.name=n ∧ s.mempool.spends.get? n=some other)
    (hsome : failReason.isSome → conflicting.values≠[]) :
    Atomic (tryReplace E item peak additions records validateSignature failReason conflicting) s ∧
      ∃ accepted : Bool,(accepted ↔ failReason=none ∨
          canReplace E conflicting records item.fee item.feePerCost = .ok true) ∧
        (RaisesAt (tryReplace E item peak additions records validateSignature failReason conflicting) s ↔
          (CacheFull s item ∧ (¬ accepted ∨ TooEarly E peak item.npcResult.npcList records validateSignature)) ∨
          (accepted ∧ validateSignature ∧ KeyReached E peak item.npcResult.npcList records)) := by
  have hanswer : ∃ accepted : Bool,
      ((if failReason.isSome then canReplace E conflicting records item.fee item.feePerCost
        else return true : Check Bool) = .ok accepted) ∧
      (accepted ↔ failReason=none ∨ canReplace E conflicting records item.fee item.feePerCost = .ok true) := by
    cases failReason with
    | none => exact ⟨true,rfl,iff_of_true rfl (Or.inl rfl)⟩
    | some e =>
      have hno : ¬ Raises (canReplace E conflicting records item.fee item.feePerCost) :=
        canReplace_not_raises (hsome rfl) _ _
      cases hr : canReplace E conflicting records item.fee item.feePerCost with
      | ok accepted => exact ⟨accepted,rfl,by simp⟩
      | error e =>
        cases e with
        | raised e => exact absurd ⟨e,hr⟩ hno
        | invalid e => exact absurd hr (canReplace_not_invalid conflicting records item.fee item.feePerCost e)
  obtain ⟨accepted,heq,haccepted⟩ := hanswer
  have hspends := checkSpends_raises (E := E) h.peak h.parsed h.shaped h.found validateSignature
  unfold tryReplace
  rw [heq,Eff.lift_ok_bind]
  refine ⟨?_,accepted,haccepted,?_⟩
  · by_cases hno : ¬ accepted
    · rw [if_pos hno]
      exact pending_atomic _
    · rw [if_neg hno]
      cases checkSpends E peak item.npcResult.npcList records validateSignature with
      | ok pairs => exact (replaceConflicts_cases hpool h.cost hmem _ _ _).2
      | error e =>
        cases e with
        | raised e => exact atomic_fail _
        | invalid e =>
          dsimp only
          split_ifs
          · exact pending_atomic _
          · exact atomic_fail _
  · by_cases hno : ¬ accepted
    · rw [if_pos hno,raisesAt_then,addToPotentialTxSet_raises]
      simp [hno]
    · rw [if_neg hno,and_iff_right (not_not.mp hno),← hspends]
      unfold TooEarly
      cases hcheck : checkSpends E peak item.npcResult.npcList records validateSignature with
      | ok pairs =>
        refine iff_of_false (replaceConflicts_cases hpool h.cost hmem _ _ _).1 ?_
        rintro (⟨-,hfirst | ⟨e,-,he⟩⟩ | hraises)
        · exact hno hfirst
        · cases he
        · exact not_raises_ok _ hraises
      | error e =>
        cases e with
        | raised e => exact iff_of_true ⟨e,rfl⟩ (Or.inr ⟨e,rfl⟩)
        | invalid e =>
          dsimp only
          by_cases hheight : e = .assertHeightAbsoluteFailed ∨ e = .assertHeightRelativeFailed
          · rw [if_pos hheight,raisesAt_then,addToPotentialTxSet_raises]
            constructor
            · exact fun hfull => Or.inl ⟨hfull,Or.inr ⟨e,hheight,rfl⟩⟩
            · rintro (⟨hfull,-⟩ | hraises)
              · exact hfull
              · exact absurd hraises (not_raises_invalid e)
          · rw [if_neg hheight]
            refine iff_of_false (not_raisesAt_fail e) ?_
            rintro (⟨-,hfirst | ⟨e',hheight',he⟩⟩ | hraises)
            · exact hno hfirst
            · obtain rfl := Fail.invalid.inj (Except.error.inj he)
              exact hheight hheight'
            · exact not_raises_invalid e hraises

end MempoolManager

/-- No item of the pool is in the way, or those that are may be replaced. -/
def MayEnter (E : Env) (s : MempoolManager) (item : MempoolItem) (records : Dict Bytes32 CoinRecord) : Prop :=
  (MempoolManager.checkRemovals E s.mempool records).1=none ∨
    ∃ conflicting,MempoolManager.conflictingPoolItems E s.mempool
        (MempoolManager.checkRemovals E s.mempool records).2 = .ok conflicting ∧
      MempoolManager.canReplace E conflicting records item.fee item.feePerCost = .ok true

/-- An item that is no double spend is to be kept for later where there is no room, or has a bad key. -/
def Stuck (E : Env) (s : MempoolManager) (item : MempoolItem) (peak : BlockRecord)
    (records : Dict Bytes32 CoinRecord) (validateSignature : Bool) : Prop :=
  (MempoolManager.checkRemovals E s.mempool records).1≠some .doubleSpend ∧
    ((CacheFull s item ∧ (¬ MayEnter E s item records ∨
        MempoolManager.TooEarly E peak item.npcResult.npcList records validateSignature)) ∨
      (MayEnter E s item records ∧ validateSignature ∧ KeyReached E peak item.npcResult.npcList records))

namespace MempoolManager
variable {s : MempoolManager} {item : MempoolItem} {peak : BlockRecord} {records : Dict Bytes32 CoinRecord}
  {additions : List Coin}

theorem checkRemovals_cases (m : Mempool) (records : Dict Bytes32 CoinRecord) :
    checkRemovals E m records=(some .doubleSpend,[]) ∨ checkRemovals E m records=(none,[]) ∨
      ∃ c conflicts,checkRemovals E m records=(some .mempoolConflict,c::conflicts) := by
  unfold checkRemovals
  dsimp only
  split_ifs with hspent hconflicts
  · exact Or.inl rfl
  · obtain ⟨c,l,hl⟩ := List.exists_cons_of_length_pos hconflicts
    exact Or.inr (Or.inr ⟨c,l,by rw [hl]⟩)
  · exact Or.inr (Or.inl rfl)

theorem tryItem_cases (hpool : Pool E S s.mempool) (h : Sound E s item peak records) (validateSignature : Bool) :
    Atomic (tryItem E item peak additions records validateSignature) s ∧
      (RaisesAt (tryItem E item peak additions records validateSignature) s ↔
        Stuck E s item peak records validateSignature) := by
  have hconflicts := checkRemovals_conflicts E records s.mempool
  have hget := Eff.get_apply (ε := Fail) s
  unfold tryItem Stuck MayEnter
  rw [raisesAt_read]
  unfold Atomic
  rw [Eff.bind_of_ok hget]
  obtain hr | hr | ⟨c,conflicts,hr⟩ := checkRemovals_cases (E := E) s.mempool records
  · rw [hr]
    exact ⟨Or.inl rfl,iff_of_false (not_raisesAt_fail _) fun h => h.1 rfl⟩
  · rw [hr]
    have hempty : conflictingPoolItems E s.mempool [] = .ok Dict.empty := rfl
    have hnone (n : Bytes32) (other : MempoolItem) (hother : (Dict.empty : Dict Bytes32 MempoolItem).get? n=some other) :
        other.name=n ∧ s.mempool.spends.get? n=some other := by
      cases hother
    obtain ⟨hatomic,accepted,haccepted,hraises⟩ := tryReplace_cases additions hpool h validateSignature none
      hnone (fun hf => (by cases hf))
    dsimp only
    rw [hempty,Eff.lift_ok_bind]
    have htrue : accepted := haccepted.mpr (Or.inl rfl)
    rw [htrue] at hraises
    refine ⟨hatomic,hraises.trans ?_⟩
    simp
  · rw [hr] at hconflicts ⊢
    have hfound := hconflicts (by simp)
    obtain ⟨conflicting,hitems,hmem,hall,-⟩ := conflictingPoolItems_spec hpool (c::conflicts)
      fun c' hc' => ((hfound c').mp hc').2
    have hsome : conflicting.values≠[] := by
      obtain ⟨-,other,hother⟩ := (hfound c).mp List.mem_cons_self
      have hin := (conflicting.mem_entries _ _).mpr (hall c List.mem_cons_self other hother)
      exact List.ne_nil_of_mem (List.mem_map_of_mem (f := Prod.snd) hin)
    obtain ⟨hatomic,accepted,haccepted,hraises⟩ := tryReplace_cases additions hpool h validateSignature
      (some .mempoolConflict) hmem (fun _ => hsome)
    dsimp only
    rw [hitems,Eff.lift_ok_bind]
    refine ⟨hatomic,hraises.trans ?_⟩
    have hsame : (accepted=true) ↔ ((some Err.mempoolConflict=none) ∨ ∃ conflicting',
        (Except.ok conflicting : Check (Dict Bytes32 MempoolItem)) = .ok conflicting' ∧
          canReplace E conflicting' records item.fee item.feePerCost = .ok true) := by
      rw [haccepted]
      simp
    rw [hsame]
    simp

end MempoolManager

theorem Promised.all {c : SpendbundleCall} (h : Promised E S c) {C : ConditionWithArgs → Prop}
    (hC : ∀ cond cost cvp,parseCondition cond true = .ok (cost,some cvp) → C cvp) :
    ∀ npc∈c.npcResult.npcList,npc.All C := by
  obtain ⟨generator,maxCost,hresult⟩ := h.parsed
  rw [hresult]
  exact getNamePuzzleConditions_all hC generator maxCost

/-- What the conditions and the program of a bundle cost. -/
def SpendbundleCall.cost (E : Env) (c : SpendbundleCall) : ℕ :=
  let conditions := c.npcResult.npcList.map fun npc =>
    (npc.conditionDict.entries.map fun e => e.2.length*e.1.cost).sum
  c.npcResult.clvmCost+conditions.sum +
    (c.program.getD c.newSpend.simpleSolutionGenerator).length*E.costPerByte

def SpendbundleCall.item (E : Env) (c : SpendbundleCall) (fees : ℕ) (additions : List Coin)
    (records : Dict Bytes32 CoinRecord) (h : c.cost E≠0) : MempoolItem :=
  ⟨c.newSpend,fees,c.npcResult,c.cost E,c.spendName,additions,records.values.map (·.coin),
    c.program.getD c.newSpend.simpleSolutionGenerator,h⟩

/-- The bundle is new, and its amounts, its fees and the room in the pool are in order. -/
structure Priced (E : Env) (s : MempoolManager) (c : SpendbundleCall) (peak : BlockRecord) (additions : List Coin)
    (records : Dict Bytes32 CoinRecord) (fees : ℕ) : Prop where
  amounts : ∃ amount removed,MempoolManager.checkAdditions E additions = .ok amount ∧
    MempoolManager.removalRecords E c.getCoinRecord peak additions (c.npcResult.npcList.map (·.coinName)) =
      .ok (records,removed) ∧
    MempoolManager.checkFees c.npcResult.npcList removed amount = .ok fees
  nodup : (c.npcResult.npcList.map (·.coinName)).Nodup
  new : ¬ s.mempool.spends.contains c.spendName
  cost : c.cost E≠0
  capacity : MempoolManager.checkCapacity s.mempool (c.cost E) (trueDiv fees (c.cost E)) = .ok ()

/-- A bundle of a fitting cost overflows with its outputs or with its inputs, or its item is stuck. -/
inductive UpsetsWith (E : Env) (s : MempoolManager) (c : SpendbundleCall) (peak : BlockRecord)
    (additions : List Coin) : Prop
  | outputs (h : SumOverflows E.maxCoinAmount additions)
  | inputs {amount : ℕ} (hamount : MempoolManager.checkAdditions E additions = .ok amount)
      (hnodup : (c.npcResult.npcList.map (·.coinName)).Nodup) (hnew : ¬ s.mempool.spends.contains c.spendName)
      (h : MempoolManager.InputsOverflow E c.getCoinRecord peak additions (c.npcResult.npcList.map (·.coinName)))
  | item {records : Dict Bytes32 CoinRecord} {fees : ℕ} (hpriced : Priced E s c peak additions records fees)
      (h : Stuck E s (c.item E fees additions records hpriced.cost) peak records c.validateSignature)

/-- The bundles on which `add_spendbundle` ends with an exception. -/
inductive Upsets (E : Env) (s : MempoolManager) (c : SpendbundleCall) : Prop
  | cost {peak : BlockRecord} (hpeak : s.peak=some peak) (h : 2^64 ≤ c.cost E)
  | amounts {peak : BlockRecord} (hpeak : s.peak=some peak) (hcost : c.cost E<2^64)
      (hlimit : c.cost E≤MempoolManager.limit E) (herror : c.npcResult.error=none) {additions : List Coin}
      (hadditions : additionsForNpc c.npcResult.npcList = .ok additions) (h : UpsetsWith E s c peak additions)

namespace MempoolManager
variable {s : MempoolManager} {c : SpendbundleCall}

theorem calculateCostOfProgram_eq :
    calculateCostOfProgram E (c.program.getD c.newSpend.simpleSolutionGenerator) c.npcResult =
      uint 64 (c.cost E : ℤ) := rfl

theorem sound_of_promised (hs : Managed E S s) (hmax : limit E ≤ s.mempool.maxSizeInCost) (hc : Promised E S c)
    {peak : BlockRecord} (hpeak : s.peak=some peak) (hlimit : c.cost E≤limit E) {additions : List Coin}
    {p : Dict Bytes32 CoinRecord × ℕ}
    (hp : removalRecords E c.getCoinRecord peak additions (c.npcResult.npcList.map (·.coinName)) = .ok p) (fees : ℕ)
    (hcost : c.cost E≠0) : Sound E s (c.item E fees additions p.1 hcost) peak p.1 := by
  obtain ⟨hkeys,-⟩ := removalRecords_ok hc.named hp
  refine ⟨hs.peak peak hpeak,hc.all fun _ _ _ h => parseCondition_parsed h,
    hc.all fun _ _ _ h => parseCondition_shaped h,?_,hlimit.trans hmax⟩
  intro npc hnpc
  exact (p.1.mem_keys _).mp ((hkeys _).mpr (List.mem_map_of_mem hnpc))

theorem addSpendbundle_raises (hs : Managed E S s) (hmax : limit E ≤ s.mempool.maxSizeInCost)
    (hc : Promised E S c) : RaisesAt (c.run E) s ↔ Upsets E s c := by
  have hparsed := hc.all fun _ _ _ h => parseCondition_parsed h
  have hshaped := hc.all fun _ _ _ h => parseCondition_shaped h
  unfold SpendbundleCall.run addSpendbundle
  rw [raisesAt_failing,raisesAt_read]
  constructor
  · intro h
    cases hpeak : s.peak with
    | none =>
      rw [hpeak] at h
      exact absurd h (not_raisesAt_pure _)
    | some peak =>
      rw [hpeak] at h
      obtain h | ⟨cost,hcost,h⟩ := raisesAt_lift.mp h
      · rw [calculateCostOfProgram_eq] at h
        exact .cost hpeak ((raises_uint _ _).mp h)
      rw [calculateCostOfProgram_eq] at hcost
      obtain ⟨hfits,rfl⟩ := uint_eq_ok.mp hcost
      rw [raisesAt_reject,not_lt] at h
      obtain ⟨hlimit,h⟩ := h
      cases herror : c.npcResult.error with
      | some e =>
        rw [herror] at h
        exact absurd h (not_raisesAt_fail e)
      | none =>
        rw [herror] at h
        dsimp only at h
        rw [raisesAt_check (additionsForNpc_not_raises hshaped)] at h
        obtain ⟨additions,hadditions,h⟩ := h
        refine .amounts hpeak hfits hlimit herror hadditions ?_
        rw [raisesAt_lift,checkAdditions_raises] at h
        obtain hsum | ⟨amount,hamount,h⟩ := h
        · exact .outputs hsum
        rw [raisesAt_reject,not_not] at h
        obtain ⟨hnodup,h⟩ := h
        by_cases hseen : s.mempool.spends.contains c.spendName
        · rw [if_pos hseen] at h
          exact absurd h (not_raisesAt_pure _)
        rw [if_neg hseen,raisesAt_lift,removalRecords_raises (hs.peak peak hpeak)] at h
        obtain hover | ⟨⟨records,removed⟩,hrecords,h⟩ := h
        · exact .inputs hamount hnodup hseen hover
        dsimp only at h
        rw [raisesAt_check (checkFees_not_raises hshaped (removalRecords_lt hrecords) amount)] at h
        obtain ⟨fees,hfees,h⟩ := h
        by_cases hzero : c.cost E=0
        · rw [dif_pos hzero] at h
          exact absurd h (not_raisesAt_fail _)
        rw [dif_neg hzero,raisesAt_check (checkCapacity_not_raises hs.pool.consistent (hlimit.trans hmax) _)] at h
        obtain ⟨_,hcapacity,h⟩ := h
        exact .item ⟨⟨amount,removed,hamount,hrecords,hfees⟩,hnodup,hseen,hzero,hcapacity⟩
          ((tryItem_cases hs.pool (sound_of_promised hs hmax hc hpeak hlimit hrecords fees hzero) _).2.mp h)
  · intro h
    cases h with
    | cost hpeak h =>
      rw [hpeak]
      refine raisesAt_lift.mpr (Or.inl ?_)
      rw [calculateCostOfProgram_eq]
      exact (raises_uint _ _).mpr h
    | @amounts peak hpeak hfits hlimit herror additions hadditions h =>
      rw [hpeak]
      refine raisesAt_lift.mpr (Or.inr ⟨c.cost E,?_,raisesAt_reject.mpr ⟨not_lt.mpr hlimit,?_⟩⟩)
      · rw [calculateCostOfProgram_eq]
        exact uint_eq_ok.mpr ⟨hfits,rfl⟩
      rw [herror]
      refine raisesAt_lift.mpr (Or.inr ⟨additions,hadditions,?_⟩)
      cases h with
      | outputs hsum => exact raisesAt_lift.mpr (Or.inl ((checkAdditions_raises additions).mpr hsum))
      | @inputs amount hamount hnodup hnew hover =>
        refine raisesAt_lift.mpr (Or.inr ⟨amount,hamount,raisesAt_reject.mpr ⟨not_not.mpr hnodup,?_⟩⟩)
        rw [if_neg hnew]
        exact raisesAt_lift.mpr (Or.inl ((removalRecords_raises (hs.peak peak hpeak) _ _ _).mpr hover))
      | @item records fees hpriced hstuck =>
        obtain ⟨amount,removed,hamount,hrecords,hfees⟩ := hpriced.amounts
        refine raisesAt_lift.mpr (Or.inr ⟨amount,hamount,raisesAt_reject.mpr ⟨not_not.mpr hpriced.nodup,?_⟩⟩)
        rw [if_neg hpriced.new]
        refine raisesAt_lift.mpr (Or.inr ⟨(records,removed),hrecords,?_⟩)
        refine raisesAt_lift.mpr (Or.inr ⟨fees,hfees,?_⟩)
        rw [dif_neg hpriced.cost]
        refine raisesAt_lift.mpr (Or.inr ⟨(),hpriced.capacity,?_⟩)
        exact (tryItem_cases hs.pool (sound_of_promised hs hmax hc hpeak hlimit hrecords fees hpriced.cost) _).2.mpr hstuck

theorem addSpendbundle_atomic (hs : Managed E S s) (hmax : limit E ≤ s.mempool.maxSizeInCost)
    (hc : Promised E S c) : Atomic (c.run E) s := by
  unfold SpendbundleCall.run addSpendbundle
  refine atomic_failing (atomic_read ?_)
  cases hpeak : s.peak with
  | none => exact atomic_pure _
  | some peak =>
    refine atomic_lift fun cost hcost => atomic_lift fun _ hlimit => ?_
    rw [calculateCostOfProgram_eq] at hcost
    obtain ⟨-,rfl⟩ := uint_eq_ok.mp hcost
    cases c.npcResult.error with
    | some e => exact atomic_fail _
    | none =>
      refine atomic_lift fun additions _ => atomic_lift fun amount _ => atomic_lift fun _ _ => ?_
      by_cases hseen : s.mempool.spends.contains c.spendName
      · rw [if_pos hseen]
        exact atomic_pure _
      · rw [if_neg hseen]
        refine atomic_lift fun p hp => atomic_lift fun fees _ => ?_
        by_cases hzero : c.cost E=0
        · rw [dif_pos hzero]
          exact atomic_fail _
        · rw [dif_neg hzero]
          refine atomic_lift fun _ _ => ?_
          have hsound := sound_of_promised hs hmax hc hpeak (not_lt.mp (reject_eq_ok.mp hlimit)) hp fees hzero
          exact (tryItem_cases hs.pool hsound _).1

theorem addSpendbundle_present (hseen : s.mempool.spends.contains c.spendName) : Kept (c.run E) s := by
  unfold SpendbundleCall.run addSpendbundle
  refine kept_failing (kept_read ?_)
  cases s.peak with
  | none => rfl
  | some peak =>
    refine kept_lift fun cost => kept_lift fun _ => ?_
    cases c.npcResult.error with
    | some e => rfl
    | none =>
      refine kept_lift fun additions => kept_lift fun amount => kept_lift fun _ => ?_
      rw [if_pos hseen]
      rfl

theorem run_not_invalid (e : Err) : (c.run E s).1 ≠ .error (.invalid e) := by
  unfold SpendbundleCall.run addSpendbundle failing
  split
  · intro h
    cases h
  · rename_i hne
    intro h
    exact hne e _ (Prod.ext h rfl)

end MempoolManager

open MempoolManager
variable {s : MempoolManager} {c : SpendbundleCall}

theorem MempoolRun.limit_le (hS : ∀ a b,S a → S b → E.coinName a=E.coinName b → a=b)
    (hbuffer : 0<E.mempoolBlockBuffer) (h : MempoolRun E S s) : limit E ≤ s.mempool.maxSizeInCost := by
  have hnew : limit E ≤ mempoolMaxTotalCost E := by
    unfold limit mempoolMaxTotalCost
    calc
      E.maxBlockCostClvm / 2≤E.maxBlockCostClvm := Nat.div_le_self _ _
      _≤E.maxBlockCostClvm*E.mempoolBlockBuffer := Nat.le_mul_of_pos_right _ hbuffer
  induction h with
  | start => exact hnew
  | newPeak => exact hnew
  | addSpendbundle h hc ih =>
    obtain hsame | ⟨-,hmax⟩ := addSpendbundle_atomic (h.managed hS) ih hc
    · exact hsame ▸ ih
    · exact hmax ▸ ih

/-- The call answers, and the pool is as before unless the bundle is new and enters it. -/
def SpendbundleCall.Answered (E : Env) (c : SpendbundleCall) (s : MempoolManager) : Prop :=
  ∃ answer : SpendbundleAnswer,(c.run E s).1 = .ok answer ∧
    (answer.2.1 ≠ .success ∨ s.mempool.spends.contains c.spendName → (c.run E s).2.mempool=s.mempool)

/-- After every run `add_spendbundle` is total and atomic on just those bundles that overflow nothing. -/
theorem addSpendbundle_answered (hS : ∀ a b,S a → S b → E.coinName a=E.coinName b → a=b)
    (hbuffer : 0<E.mempoolBlockBuffer) (h : MempoolRun E S s) (hc : Promised E S c) :
    c.Answered E s ↔ ¬ Upsets E s c := by
  have hs := h.managed hS
  have hmax := h.limit_le hS hbuffer
  rw [← addSpendbundle_raises hs hmax hc]
  constructor
  · rintro ⟨answer,hanswer,-⟩ ⟨e,hraised⟩
    rw [hanswer] at hraised
    cases hraised
  · intro hno
    cases hrun : (c.run E s).1 with
    | error e =>
      cases e with
      | raised e => exact absurd ⟨e,hrun⟩ hno
      | invalid e => exact absurd hrun (run_not_invalid e)
    | ok answer =>
      refine ⟨answer,hrun,?_⟩
      rintro (hstatus | hseen)
      · obtain hsame | ⟨⟨cost,hsuccess⟩,-⟩ := addSpendbundle_atomic hs hmax hc
        · exact hsame
        · rw [hrun] at hsuccess
          rw [Except.ok.inj hsuccess] at hstatus
          exact absurd rfl hstatus
      · exact addSpendbundle_present hseen

def tinyManager : MempoolManager := { MempoolManager.new tinyPoolEnv with peak := some tinyPeak }

theorem addSpendbundle_answered_tiny : tinyCall.Answered tinyPoolEnv tinyManager ∧
    ¬ Upsets tinyPoolEnv tinyManager tinyCall := by
  have hS (a b : Coin) (ha : a=tinyMade) (hb : b=tinyMade) (_ : tinyPoolEnv.coinName a=tinyPoolEnv.coinName b) :
      a=b := ha.trans hb.symm
  have hpeak : tinyPeak.isTransactionBlock := rfl
  have hrun : MempoolRun tinyPoolEnv (· = tinyMade) tinyManager := MempoolRun.start.newPeak hpeak
  have hstatus : (tinyCall.run tinyPoolEnv tinyManager).1 = .ok (some 1800,.success,none) := by decide +kernel
  have hanswer : tinyCall.Answered tinyPoolEnv tinyManager := by
    refine ⟨_,hstatus,?_⟩
    rintro (h | h)
    · exact absurd rfl h
    · cases h
  exact ⟨hanswer,(addSpendbundle_answered hS (by decide) hrun tinyCall_promised).mp hanswer⟩

section Minting

/-- A generator that creates three coins: each amount is within the bound for a coin, their sum is not within 64
bits. -/
def mintingEnv : Env :=
  { tinyEnv with
    runGenerator := fun _ _ _ _ =>
      let zeros := SExp.atom (List.replicate 32 0)
      let createCoin := SExp.pair (.atom [51]) (.pair zeros (.pair (.atom (127::List.replicate 7 255)) (.atom [])))
      let conditions := SExp.pair createCoin (.pair createCoin (.pair createCoin (.atom [])))
      let spend := SExp.pair zeros (.pair zeros (.pair (.atom [5]) (.pair conditions (.atom []))))
      some (0,.pair (.pair spend (.atom [])) (.atom [])) }

def mintingMade : Coin := ⟨tinyEnv.coinName tinySpent,0,2^63-1⟩

def mintingCall : SpendbundleCall where
  newSpend := ⟨[mintingMade,mintingMade,mintingMade],[tinySpent],[],[]⟩
  npcResult := getNamePuzzleConditions mintingEnv ⟨[],[]⟩ 100000000 true
  spendName := 7
  validateSignature := true
  program := none
  getCoinRecord n := if n=tinyEnv.coinName tinySpent then some ⟨tinySpent,0,0,false,false,0⟩ else none

theorem addSpendbundle_mints : MempoolRun mintingEnv (· = mintingMade) tinyManager ∧
    Promised mintingEnv (· = mintingMade) mintingCall ∧ ¬ mintingCall.Answered mintingEnv tinyManager := by
  have hpeak : tinyPeak.isTransactionBlock := rfl
  refine ⟨MempoolRun.start.newPeak hpeak,.of_answers ⟨⟨[],[]⟩,100000000,rfl⟩ (by decide +kernel) (by decide +kernel)
    (fun _ => rfl) rfl ?_,?_⟩
  · intro a ha
    simpa [mintingCall] using ha
  · rintro ⟨answer,hanswer,-⟩
    have hraised : (mintingCall.run mintingEnv tinyManager).1 = .error (.raised .value) := by decide +kernel
    rw [hraised] at hanswer
    cases hanswer

end Minting

end RoseChain
