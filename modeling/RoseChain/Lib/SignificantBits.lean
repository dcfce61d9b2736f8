import Mathlib.Data.Nat.Size
import Mathlib.Tactic

namespace RoseChain.Lib
variable {s x y n k : ℕ}

/-- The number with all but its top `s` bits set to zero. -/
def topBits (s x : ℕ) : ℕ := x / 2^(x.size-s)*2^(x.size-s)

/-- At most `s` significant bits: beyond them there are only zeros. -/
def FitsBits (s n : ℕ) : Prop := ∃ m e,m<2^s ∧ n=m*2^e

theorem topBits_le : topBits s x≤x := Nat.div_mul_le_self _ _

theorem topBits_fits : FitsBits s (topBits s x) := by
  refine ⟨_,_,?_,rfl⟩
  rw [Nat.div_lt_iff_lt_mul (Nat.two_pow_pos _),← pow_add]
  exact lt_of_lt_of_le x.lt_size_self (Nat.pow_le_pow_right (by decide) (by omega))

theorem le_topBits_of_dvd (hdvd : 2^(x.size-s) ∣ n) (hle : n≤x) : n≤topBits s x := by
  rw [← Nat.div_mul_cancel hdvd]
  exact Nat.mul_le_mul_right _ (Nat.div_le_div_right hle)

theorem pow_le_topBits (hs : 0<s) (h : 2^k≤x) : 2^k≤topBits s x := by
  have hk : k<x.size := Nat.lt_size.mpr h
  have htop : 2^(x.size-1)≤x := Nat.lt_size.mp (by omega)
  have hdvd : 2^(x.size-s) ∣ 2^(x.size-1) := pow_dvd_pow 2 (by omega)
  calc 2^k≤2^(x.size-1) := Nat.pow_le_pow_right (by decide) (by omega)
    _≤topBits s x := le_topBits_of_dvd hdvd htop

@[simp] theorem topBits_zero_left : topBits 0 x=0 := by
  unfold topBits
  rw [Nat.sub_zero,Nat.div_eq_of_lt x.lt_size_self,Nat.zero_mul]

theorem topBits_mono (h : x≤y) : topBits s x≤topBits s y := by
  obtain heq | hlt := (Nat.size_le_size h).eq_or_lt
  · unfold topBits
    rw [heq]
    exact Nat.mul_le_mul_right _ (Nat.div_le_div_right h)
  · obtain rfl | hs := s.eq_zero_or_pos
    · simp
    · calc topBits s x≤x := topBits_le
        _≤2^x.size := x.lt_size_self.le
        _≤topBits s y := pow_le_topBits hs (Nat.lt_size.mp hlt)

theorem FitsBits.floor (h : FitsBits s n) (k : ℕ) : FitsBits s (n / 2^k*2^k) := by
  obtain ⟨m,e,hm,rfl⟩ := h
  by_cases hk : k≤e
  · refine ⟨m,e,hm,?_⟩
    exact Nat.div_mul_cancel (dvd_mul_of_dvd_right (pow_dvd_pow 2 hk) m)
  · refine ⟨m / 2^(k-e),k,lt_of_le_of_lt (Nat.div_le_self _ _) hm,?_⟩
    have hpow : 2^k=2^(k-e)*2^e := by rw [← pow_add,Nat.sub_add_cancel (by omega)]
    rw [hpow,Nat.mul_div_mul_right _ _ (Nat.two_pow_pos e)]

theorem floor_mono {d : ℕ} (h : x≤y) : x / d*d≤y / d*d :=
  Nat.mul_le_mul_right _ (Nat.div_le_div_right h)

theorem and_mask (h : x<2^n) : x &&& (2^n-1-(2^k-1))=x / 2^k*2^k := by
  obtain hk | hk := Nat.lt_or_ge n k
  · have hle : 2^n≤2^k := Nat.pow_le_pow_right (by decide) hk.le
    rw [Nat.sub_eq_zero_of_le (by omega),Nat.and_zero,Nat.div_eq_of_lt (lt_of_lt_of_le h hle),Nat.zero_mul]
  · have hmask : 2^n-1-(2^k-1)=2^n-(2^k-1+1) := by omega
    have hlt : 2^k-1<2^n := by
      have hle : 2^k≤2^n := Nat.pow_le_pow_right (by decide) hk
      have hpos := Nat.two_pow_pos k
      omega
    apply Nat.eq_of_testBit_eq
    intro i
    rw [Nat.testBit_and,hmask,Nat.testBit_two_pow_sub_succ hlt,Nat.testBit_two_pow_sub_one,Nat.testBit_mul_two_pow,
      Nat.testBit_div_two_pow]
    obtain hi | hi := Nat.lt_or_ge i k
    · simp [hi,Nat.not_le.mpr hi]
    · rw [Nat.sub_add_cancel hi]
      obtain hin | hin := Nat.lt_or_ge i n
      · simp [hin,hi]
      · have hx : x<2^i := lt_of_lt_of_le h (Nat.pow_le_pow_right (by decide) hin)
        simp [Nat.testBit_lt_two_pow hx]

theorem topBits_of_fits (h : FitsBits s x) : topBits s x=x := by
  apply le_antisymm topBits_le
  refine le_topBits_of_dvd ?_ le_rfl
  obtain ⟨m,e,hm,rfl⟩ := h
  have hsize : (m*2^e).size ≤ s+e := by
    rw [Nat.size_le,pow_add]
    exact Nat.mul_lt_mul_of_pos_right hm (Nat.two_pow_pos e)
  exact dvd_mul_of_dvd_right (pow_dvd_pow 2 (by omega)) m

theorem FitsBits.lt (h : FitsBits s n) {i : ℕ} (hbit : n.testBit i) : n.size-i ≤ s := by
  obtain ⟨m,e,hm,rfl⟩ := h
  have hlow : e ≤ i := by
    rw [Nat.testBit_mul_two_pow,Bool.and_eq_true,decide_eq_true_eq] at hbit
    exact hbit.1
  have hsize : (m*2^e).size ≤ s+e := by
    rw [Nat.size_le,pow_add]
    exact Nat.mul_lt_mul_of_pos_right hm (Nat.two_pow_pos e)
  omega

end RoseChain.Lib
