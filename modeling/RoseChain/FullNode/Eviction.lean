import RoseChain.FullNode.SpendbundleTotal

namespace RoseChain
open Lib MempoolItem
variable {E : Env} {S : Coin → Prop}

variable {α : Type}

theorem sum_le_of_subset (f : α → ℕ) {l l' : List α} (hn : l.Nodup) (hsub : l ⊆ l') :
    (l.map f).sum≤(l'.map f).sum := by
  obtain ⟨k,hperm,hsublist⟩ := List.subperm_of_subset hn hsub
  rw [← (hperm.map f).sum_eq]
  exact (hsublist.map f).sum_le_sum fun _ _ => Nat.zero_le _

theorem sum_filter_add (f : α → ℕ) (p : α → Bool) (l : List α) :
    ((l.filter p).map f).sum+((l.filter fun a => !p a).map f).sum=(l.map f).sum := by
  induction l with
  | nil => rfl
  | cons a l ih =>
    cases hp : p a <;> simp only [List.filter_cons,hp,List.map_cons,List.sum_cons,Bool.not_true,Bool.not_false,
      Bool.false_eq_true,if_true,if_false] <;> omega

namespace Mempool
variable {m m' : Mempool} {r : ℚ} {item : MempoolItem}

theorem mem_values (h : Consistent E m) : item∈m.spends.values ↔ m.spends.get? item.name=some item :=
  m.spends.mem_values h.named

theorem values_nodup (h : Consistent E m) : m.spends.values.Nodup := m.spends.nodup_values h.named

def above (m : Mempool) (r : ℚ) : ℕ := ((m.spends.values.filter fun item => r < item.feePerCost).map (·.cost)).sum

theorem Shrunk.values (h : Consistent E m) (h' : Consistent E m') (hs : Shrunk m m') :
    m'.spends.values ⊆ m.spends.values := by
  intro item hitem
  exact (mem_values h).mpr (hs.spends _ _ ((mem_values h').mp hitem))

theorem above_le (h : Consistent E m) (h' : Consistent E m') (hs : Shrunk m m') : m'.above r ≤ m.above r := by
  apply sum_le_of_subset _ ((values_nodup h').filter _)
  intro item hitem
  rw [List.mem_filter] at hitem ⊢
  exact ⟨Shrunk.values h h' hs hitem.1,hitem.2⟩

theorem total_le (h : Consistent E m) (h' : Consistent E m') (hs : Shrunk m m') :
    m'.totalMempoolCost ≤ m.totalMempoolCost := by
  rw [h.total,h'.total]
  exact Int.ofNat_le.mpr (sum_le_of_subset _ (values_nodup h') (Shrunk.values h h' hs))

/-- The pool's items with their rates, the cheapest first, as `get_min_fee_rate` goes through them.
-/
def ranked (m : Mempool) : List (ℚ × MempoolItem) :=
  (sortedItems m.sortedSpends).flatMap fun e => e.2.values.map fun item => (e.1,item)

theorem sortedItems_pairwise {V : Type} (d : Dict ℚ V) : (sortedItems d).Pairwise fun a b => a.1≤b.1 := by
  unfold sortedItems
  let le (a b : ℚ × V) : Bool := decide (a.1≤b.1)
  have htrans (a b c : ℚ × V) (hab : le a b=true) (hbc : le b c=true) : le a c=true :=
    decide_eq_true (le_trans (of_decide_eq_true hab) (of_decide_eq_true hbc))
  have htotal (a b : ℚ × V) : (le a b || le b a)=true := by simpa [le] using le_total a.1 b.1
  have hsorted := List.pairwise_mergeSort htrans htotal d.entries
  exact hsorted.imp fun h => of_decide_eq_true h

theorem mem_ranked (h : Consistent E m) {e : ℚ × MempoolItem} :
    e∈m.ranked ↔ e.1=e.2.feePerCost ∧ e.2∈m.spends.values := by
  unfold ranked
  rw [List.mem_flatMap]
  constructor
  · intro hin
    obtain ⟨b,hb,hin⟩ := hin
    obtain ⟨item,hitem,rfl⟩ := List.mem_map.mp hin
    unfold sortedItems at hb
    rw [List.mem_mergeSort,Dict.mem_entries] at hb
    obtain ⟨p,hp,rfl⟩ := List.mem_map.mp hitem
    have hget := (b.2.mem_entries _ _).mp hp
    obtain ⟨hstored,hrate⟩ := (h.sorted.mem b.1 p.1 p.2).mp (by rw [hb,Option.bind_some,hget])
    refine ⟨hrate.symm,(mem_values h).mpr ?_⟩
    rw [h.named _ _ hstored]
    exact hstored
  · intro hin
    obtain ⟨hrate,hvalue⟩ := hin
    obtain ⟨b,hb,hget⟩ := h.sorted.get ((mem_values h).mp hvalue)
    refine ⟨(e.2.feePerCost,b),?_,?_⟩
    · unfold sortedItems
      rw [List.mem_mergeSort,Dict.mem_entries]
      exact hb
    · refine List.mem_map.mpr ⟨e.2,List.mem_map.mpr ⟨(e.2.name,e.2),(b.mem_entries _ _).mpr hget,rfl⟩,?_⟩
      exact Prod.ext hrate.symm rfl

theorem ranked_pairwise : m.ranked.Pairwise fun a b => a.1≤b.1 := by
  unfold ranked
  rw [List.pairwise_flatMap]
  constructor
  · intro e _
    rw [List.pairwise_map]
    exact List.pairwise_of_forall fun _ _ => le_refl _
  · refine (sortedItems_pairwise m.sortedSpends).imp ?_
    intro a b hab x hx y hy
    obtain ⟨_,_,rfl⟩ := List.mem_map.mp hx
    obtain ⟨_,_,rfl⟩ := List.mem_map.mp hy
    exact hab

theorem ranked_nodup (h : Consistent E m) : (m.ranked.map Prod.snd).Nodup := by
  have hranked : m.ranked.Nodup := by
    unfold ranked
    rw [List.nodup_flatMap]
    constructor
    · intro b hb
      unfold sortedItems at hb
      rw [List.mem_mergeSort,Dict.mem_entries] at hb
      have hvalues : b.2.values.Nodup := by
        apply b.2.nodup_values
        intro n other hget
        exact h.named _ _ ((h.sorted.mem b.1 n other).mp (by rw [hb,Option.bind_some,hget])).1
      exact hvalues.map fun _ _ he => (Prod.mk.inj he).2
    · have hkeys : ((sortedItems m.sortedSpends).map Prod.fst).Nodup := by
        have hperm : (sortedItems m.sortedSpends).Perm m.sortedSpends.entries := List.mergeSort_perm _ _
        exact ((hperm.map Prod.fst).nodup_iff).mpr m.sortedSpends.nodup
      rw [List.Nodup,List.pairwise_map] at hkeys
      refine hkeys.imp ?_
      intro a b hne e ha hb
      obtain ⟨_,_,rfl⟩ := List.mem_map.mp ha
      obtain ⟨_,_,he⟩ := List.mem_map.mp hb
      exact hne (Prod.mk.inj he).1.symm
  apply hranked.map_on
  intro a ha b hb heq
  have hrate : a.1=b.1 := by rw [((mem_ranked h).mp ha).1,((mem_ranked h).mp hb).1,heq]
  exact Prod.ext hrate heq

variable {cost : ℕ}

theorem minFeeRateFrom_room {max : ℕ} {current : ℤ} {l : List (ℚ × MempoolItem)}
    (hsorted : l.Pairwise fun a b => a.1≤b.1) (h : minFeeRateFrom max cost current l = .ok r) :
    (∃ e∈l,e.1=r) ∧ current-((l.filter fun e => decide (e.1 ≤ r)).map (·.2.cost)).sum+cost ≤ max := by
  induction l generalizing current with
  | nil => cases h
  | cons e l ih =>
    rw [minFeeRateFrom] at h
    rw [List.pairwise_cons] at hsorted
    split_ifs at h with hfits
    · have hr : e.1=r := Except.ok.inj h
      refine ⟨⟨e,List.mem_cons_self,hr⟩,?_⟩
      rw [List.filter_cons_of_pos (by simp [hr]),List.map_cons,List.sum_cons,Nat.cast_add]
      omega
    · obtain ⟨⟨e',he',hr⟩,hroom⟩ := ih hsorted.2 h
      have hle : e.1 ≤ r := hr ▸ hsorted.1 e' he'
      refine ⟨⟨e',List.mem_cons_of_mem _ he',hr⟩,?_⟩
      rw [List.filter_cons_of_pos (by simpa using hle),List.map_cons,List.sum_cons,Nat.cast_add]
      omega

theorem above_fits (h : Consistent E m) (hfull : m.atFullCapacity cost) (hrate : m.getMinFeeRate cost = .ok r) :
    m.above r+cost ≤ m.maxSizeInCost := by
  unfold getMinFeeRate at hrate
  rw [if_pos hfull] at hrate
  obtain ⟨-,hroom⟩ := minFeeRateFrom_room ranked_pairwise hrate
  have hsplit := sum_filter_add (·.cost) (fun item => decide (r<feePerCost item)) m.spends.values
  have hlow : ((m.ranked.filter fun e => decide (e.1 ≤ r)).map (·.2.cost)).sum ≤
      ((m.spends.values.filter fun item => !decide (r < item.feePerCost)).map (·.cost)).sum := by
    have hmap : (m.ranked.filter fun e => decide (e.1 ≤ r)).map (·.2.cost) =
        ((m.ranked.filter fun e => decide (e.1 ≤ r)).map Prod.snd).map (·.cost) := by rw [List.map_map]; rfl
    rw [hmap]
    apply sum_le_of_subset _ ((ranked_nodup h).sublist (List.filter_sublist.map _))
    intro item hitem
    obtain ⟨e,he,rfl⟩ := List.mem_map.mp hitem
    rw [List.mem_filter] at he ⊢
    obtain ⟨hin,hle⟩ := he
    obtain ⟨hkey,hvalue⟩ := (mem_ranked h).mp hin
    rw [decide_eq_true_eq,hkey] at hle
    exact ⟨hvalue,by simpa using hle⟩
  have htotal := h.total
  have hdef : m.spends.total (·.cost)=(m.spends.values.map (·.cost)).sum := rfl
  rw [hdef] at htotal
  change m.totalMempoolCost-(((m.ranked.filter fun e => decide (e.1 ≤ r)).map (·.2.cost)).sum : ℕ)+cost ≤
    m.maxSizeInCost at hroom
  unfold above
  omega

theorem head_le (h : Consistent E m) {p : ℚ × Dict Bytes32 MempoolItem}
    (hhead : (sortedItems m.sortedSpends).head?=some p) (hitem : item∈m.spends.values) :
    p.1 ≤ item.feePerCost := by
  obtain ⟨b,hb,-⟩ := h.sorted.get ((mem_values h).mp hitem)
  have hin : (item.feePerCost,b)∈sortedItems m.sortedSpends := by
    unfold sortedItems
    rw [List.mem_mergeSort,Dict.mem_entries]
    exact hb
  have hsorted := sortedItems_pairwise m.sortedSpends
  cases hl : sortedItems m.sortedSpends with
  | nil =>
    rw [hl] at hin
    cases hin
  | cons q l =>
    rw [hl] at hhead hin hsorted
    have hq : q=p := Option.some.inj hhead
    subst hq
    obtain heq | htail := List.mem_cons.mp hin
    · rw [← heq]
    · exact (List.pairwise_cons.mp hsorted).1 _ htail

theorem makeRoom_above (n : ℕ) (h : Pool E S m) (hn : m.spends.size<n)
    (hroom : m.above r+cost ≤ m.maxSizeInCost) (hitem : m.spends.get? item.name=some item)
    (habove : r < item.feePerCost) : (makeRoom E cost n m).2.spends.get? item.name=some item := by
  induction n generalizing m with
  | zero => omega
  | succ n ih =>
    by_cases hfull : m.atFullCapacity cost
    · cases hhead : (sortedItems m.sortedSpends).head? with
      | none =>
        rw [makeRoom,Eff.bind_get,if_pos hfull,hhead]
        exact hitem
      | some p =>
        obtain ⟨out,hrun,hpool,hsize,hout,hrate⟩ := makeRoom_step h n hfull hhead
        -- were the cheapest above the rate, all would be, and there would be room
        have hlow : out.feePerCost ≤ r := by
          by_contra hhigh
          have hall : m.spends.values.filter (fun i => decide (r < i.feePerCost))=m.spends.values := by
            rw [List.filter_eq_self]
            intro i hi
            have hle := head_le h.consistent hhead hi
            rw [hrate] at hhigh
            simpa using lt_of_lt_of_le (not_le.mp hhigh) hle
          have htotal := h.consistent.total
          have hdef : m.spends.total (·.cost)=(m.spends.values.map (·.cost)).sum := rfl
          unfold atFullCapacity at hfull
          rw [decide_eq_true_eq] at hfull
          unfold above at hroom
          rw [hall] at hroom
          omega
        have hne : out.name≠item.name := by
          intro heq
          rw [heq,hitem] at hout
          rw [Option.some.inj hout] at habove
          exact absurd habove (not_lt.mpr hlow)
        have hless := above_le (r := r) h.consistent hpool.consistent (without_shrunk m out)
        rw [hrun]
        apply ih hpool (by omega)
        · change (m.without E out).above r+cost ≤ m.maxSizeInCost
          omega
        · change (m.spends.erase out.name).get? item.name=some item
          rw [Dict.get?_erase,if_neg hne]
          exact hitem
    · rw [makeRoom,Eff.bind_get,if_neg hfull]
      exact hitem

theorem makeRoom_enough {n : ℕ} (h : ¬ m.atFullCapacity cost) : makeRoom E cost (n+1) m=(.ok (),m) := by
  rw [makeRoom,Eff.bind_get,if_neg h]
  rfl

end Mempool
end RoseChain
