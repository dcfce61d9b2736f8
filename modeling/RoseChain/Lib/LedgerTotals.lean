import Mathlib.Algebra.BigOperators.Group.Finset.Piecewise
import RoseChain.Lib.Ledger

namespace RoseChain.Lib.Book
variable {N P : Type} [DecidableEq N] {value : P → ℕ} {b b' : Book N P} {δ : Delta N P}

/-- The value of what is kept for one name; nothing once it is spent. -/
def worth (value : P → ℕ) : Option (Entry P) → ℕ
  | some ⟨p,_,none⟩ => value p
  | _ => 0

def valueOf (value : P → ℕ) (b : Book N P) (n : N) : ℕ := ((b n).map fun e => value e.payload).getD 0

def total (value : P → ℕ) (S : Finset N) (b : Book N P) : ℕ := ∑ n∈S,worth value (b n)

/-- The value that a list of creations gives to a name. -/
def createdValue (value : P → ℕ) (cs : List (N × P)) (n : N) : ℕ := ((assoc cs n).map value).getD 0

variable {cs : List (N × P)}

theorem createdValue_of_mem (hd : (cs.map Prod.fst).Nodup) {c : N × P} (hc : c∈cs) :
    createdValue value cs c.1=value c.2 := by
  rw [createdValue,assoc_of_mem hd hc]
  rfl

theorem createdValue_of_not_mem {n : N} (hn : n∉cs.map Prod.fst) : createdValue value cs n=0 := by
  rw [createdValue,(assoc_eq_none_iff cs n).mpr hn]
  rfl

variable {S : Finset N}

theorem sum_of_nodup {l : List N} (hd : l.Nodup) (hS : ∀ n∈l,n∈S) (f : N → ℕ) :
    (l.map f).sum = ∑ n∈S,if n∈l then f n else 0 := by
  rw [← List.sum_toFinset f hd,← Finset.sum_filter]
  refine Finset.sum_congr ?_ fun _ _ => rfl
  ext n
  rw [List.mem_toFinset,Finset.mem_filter]
  exact ⟨fun hn => ⟨hS n hn,hn⟩,fun hn => hn.2⟩

theorem worth_apply (h : b.apply δ=some b') (n : N) :
    worth value (b' n)+(if n∈δ.spent then valueOf value b' n else 0) =
      worth value (b n)+createdValue value δ.created n := by
  obtain ⟨hp,rfl⟩ := (apply_eq_some_iff b b' δ).mp h
  by_cases hc : n∈δ.created.map Prod.fst
  · have hnone := hp.fresh n hc
    obtain ⟨p,ha⟩ : ∃ p,assoc δ.created n=some p :=
      Option.ne_none_iff_exists'.mp fun e => (assoc_eq_none_iff _ _).mp e hc
    by_cases hs : n∈δ.spent <;> simp [died,born,worth,valueOf,createdValue,ha,hs,hnone]
  · have ha := (assoc_eq_none_iff _ _).mpr hc
    by_cases hs : n∈δ.spent
    · obtain ⟨e,he,hd⟩ := (hp.live n hs).resolve_left hc
      obtain ⟨p,k,d⟩ := e
      obtain rfl : d=none := hd
      simp [died,born,worth,valueOf,createdValue,ha,hs,he]
    · simp [died,born,createdValue,ha,hs]

theorem total_apply (h : b.apply δ=some b') (hc : ∀ n∈δ.created.map Prod.fst,n∈S) (hs : ∀ n∈δ.spent,n∈S) :
    total value S b'+(δ.spent.map (valueOf value b')).sum =
      total value S b+(δ.created.map fun c => value c.2).sum := by
  obtain ⟨hp,-⟩ := (apply_eq_some_iff b b' δ).mp h
  have hcreated : (δ.created.map fun c => value c.2).sum = ∑ n∈S,createdValue value δ.created n := by
    have hnames : (δ.created.map fun c => value c.2) =
        (δ.created.map Prod.fst).map (createdValue value δ.created) := by
      rw [List.map_map]
      exact List.map_congr_left fun c hc => (createdValue_of_mem hp.distinct hc).symm
    rw [hnames,sum_of_nodup hp.distinct hc]
    refine Finset.sum_congr rfl fun n _ => ?_
    split_ifs with hn
    · rfl
    · exact (createdValue_of_not_mem hn).symm
  rw [sum_of_nodup hp.once hs,hcreated,total,total,← Finset.sum_add_distrib,← Finset.sum_add_distrib]
  exact Finset.sum_congr rfl fun n _ => worth_apply h n

omit [DecidableEq N] in
theorem total_of_subset {T : Finset N} (hST : S ⊆ T) (hb : ∀ n∈T,b n≠none → n∈S) :
    total value T b=total value S b := by
  symm
  refine Finset.sum_subset hST fun n hn hnot => ?_
  have hnone : b n=none := by
    by_contra hne
    exact hnot (hb n hn hne)
  rw [hnone]
  rfl

end RoseChain.Lib.Book
