import Mathlib.Algebra.Order.Floor.Ring
import Mathlib.Data.Rat.Floor
import Mathlib.Tactic.Linarith
import Mathlib.Tactic.FieldSimp

namespace RoseChain.Lib
variable {α : Type}

/-- The index of the window of length `T` that a time falls into. -/
def windowOf (T t : ℚ) : ℤ := ⌊t / T⌋

def windowTotal (T : ℚ) (f : α → ℕ) (w : ℤ) (l : List (ℚ × α)) : ℕ :=
  ((l.filter fun p => windowOf T p.1=w).map fun p => f p.2).sum

def shiftTimes (c : ℚ) (l : List (ℚ × α)) : List (ℚ × α) := l.map fun p => (p.1+c,p.2)

variable {T : ℚ} {f : α → ℕ} {w : ℤ} {l m : List (ℚ × α)}

theorem windowOf_mono (hT : 0≤T) {t t' : ℚ} (h : t≤t') : windowOf T t≤windowOf T t' :=
  Int.floor_le_floor (div_le_div_of_nonneg_right h hT)

@[simp] theorem windowTotal_nil : windowTotal T f w []=0 := rfl

theorem windowTotal_cons (p : ℚ × α) (l : List (ℚ × α)) : windowTotal T f w (p::l) =
      (if windowOf T p.1=w then f p.2 else 0)+windowTotal T f w l := by
  unfold windowTotal
  by_cases h : windowOf T p.1=w <;> simp [h]

theorem windowTotal_append : windowTotal T f w (l++m)=windowTotal T f w l+windowTotal T f w m := by
  unfold windowTotal
  rw [List.filter_append,List.map_append,List.sum_append]

theorem windowTotal_concat (p : ℚ × α) : windowTotal T f w (l++[p]) =
      windowTotal T f w l+(if windowOf T p.1=w then f p.2 else 0) := by
  rw [windowTotal_append,windowTotal_cons,windowTotal_nil,Nat.add_zero]

theorem windowTotal_eq_zero (h : ∀ p∈l,windowOf T p.1≠w) : windowTotal T f w l=0 := by
  unfold windowTotal
  have hfilter : (l.filter fun p => windowOf T p.1=w)=[] := by
    apply List.filter_eq_nil_iff.mpr
    intro p hp
    rw [decide_eq_true_eq]
    exact h p hp
  rw [hfilter]
  rfl

theorem windowOf_shift (c t : ℚ) (w : ℤ) (h : windowOf T (t+c)=w) :
    windowOf T t = ⌊w-c / T⌋ ∨ windowOf T t = ⌊w-c / T⌋ + 1 := by
  unfold windowOf at h ⊢
  rw [add_div] at h
  obtain ⟨hle,hlt⟩ := Int.floor_eq_iff.mp h
  have hlow : ⌊(w : ℚ)-c / T⌋ ≤ ⌊t / T⌋ := by
    apply Int.floor_le_floor
    linarith
  have hhigh : ⌊t / T⌋ ≤ ⌊(w : ℚ)-c / T⌋ + 1 := by
    have hup := Int.lt_floor_add_one ((w : ℚ)-c / T)
    have hfloor := Int.floor_le (t / T)
    have hreal : (⌊t / T⌋ : ℚ) < ⌊(w : ℚ)-c / T⌋ + 2 := by linarith
    have hint : ⌊t / T⌋ < ⌊(w : ℚ)-c / T⌋ + 2 := by exact_mod_cast hreal
    omega
  omega

theorem windowTotal_shift (c : ℚ) (w : ℤ) (l : List (ℚ × α)) : windowTotal T f w (shiftTimes c l) ≤
      windowTotal T f ⌊w-c / T⌋ l+windowTotal T f (⌊w-c / T⌋ + 1) l := by
  induction l with
  | nil => exact Nat.zero_le _
  | cons p l ih =>
    have hcons : shiftTimes c (p::l)=(p.1+c,p.2)::shiftTimes c l := rfl
    rw [hcons,windowTotal_cons,windowTotal_cons,windowTotal_cons]
    show (if windowOf T (p.1+c)=w then f p.2 else 0)+_≤_
    by_cases h : windowOf T (p.1+c)=w
    · rcases windowOf_shift c p.1 w h with hw | hw
      · rw [if_pos h,if_pos hw]
        omega
      · rw [if_pos h,if_pos hw]
        omega
    · rw [if_neg h]
      omega

end RoseChain.Lib
