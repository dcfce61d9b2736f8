import Mathlib.Algebra.BigOperators.Group.Finset.Piecewise

namespace RoseChain.Lib
variable {κ α : Type} [DecidableEq α]

def occurrences (cells : Finset κ) (m : κ → Option α) (a : α) : ℕ := (cells.filter fun c => m c=some a).card

variable {cells : Finset κ} {m : κ → Option α} {a : α}

theorem occurrences_pos {c : κ} (hc : c∈cells) (h : m c=some a) : 0<occurrences cells m a := by
  apply Finset.card_pos.mpr
  exact ⟨c,Finset.mem_filter.mpr ⟨hc,h⟩⟩

theorem occurrences_eq_zero (h : ∀ c∈cells,m c≠some a) : occurrences cells m a=0 := by
  unfold occurrences
  rw [Finset.card_eq_zero,Finset.filter_eq_empty_iff]
  exact fun c hc => h c hc

theorem exists_of_occurrences_pos (h : 0<occurrences cells m a) : ∃ c∈cells,m c=some a := by
  obtain ⟨c,hc⟩ := Finset.card_pos.mp h
  exact ⟨c,(Finset.mem_filter.mp hc).1,(Finset.mem_filter.mp hc).2⟩

theorem occurrences_update [DecidableEq κ] (m : κ → Option α) {c : κ} (hc : c∈cells) (v : Option α) (a : α) :
    occurrences cells (Function.update m c v) a+(if m c=some a then 1 else 0) =
      occurrences cells m a+(if v=some a then 1 else 0) := by
  have hrest : ∑ x∈cells.erase c,(if Function.update m c v x=some a then 1 else 0) =
      ∑ x∈cells.erase c,(if m x=some a then 1 else 0) := by
    apply Finset.sum_congr rfl
    intro x hx
    rw [Function.update_of_ne (Finset.ne_of_mem_erase hx)]
  unfold occurrences
  rw [Finset.card_filter,Finset.card_filter,← Finset.add_sum_erase _ _ hc,
    ← Finset.add_sum_erase (a := c) _ (fun x => if m x=some a then 1 else 0) hc,hrest,Function.update_self]
  omega

end RoseChain.Lib
