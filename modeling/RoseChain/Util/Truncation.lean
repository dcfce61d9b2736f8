import RoseChain.Consensus.AdjustmentBounds

namespace RoseChain
open Lib
variable {x z : ℤ} {n s : ℕ}

theorem testBit_below_iff (z : ℤ) (i : ℕ) : (∀ j < i,z.testBit j=false) ↔ 2^i ∣ z.natAbs := by
  rw [Nat.dvd_iff_mod_eq_zero]
  cases z with
  | ofNat m =>
    show (∀ j < i,m.testBit j=false) ↔ m % 2^i=0
    constructor
    · intro h
      apply Nat.eq_of_testBit_eq
      intro j
      rw [Nat.testBit_mod_two_pow,Nat.zero_testBit]
      by_cases hj : j < i
      · rw [h j hj,Bool.and_false]
      · simp [hj]
    · intro h j hj
      have hbit := Nat.testBit_mod_two_pow m i j
      rw [h,Nat.zero_testBit] at hbit
      simpa [hj] using hbit.symm
  | negSucc m =>
    -- the bits of `-(m + 1)` are those of `m` turned over
    show (∀ j < i,(!m.testBit j)=false) ↔ (m+1) % 2^i=0
    have hones : (∀ j < i,(!m.testBit j)=false) ↔ m % 2^i=2^i-1 := by
      constructor
      · intro h
        apply Nat.eq_of_testBit_eq
        intro j
        rw [Nat.testBit_mod_two_pow,Nat.testBit_two_pow_sub_one]
        by_cases hj : j < i
        · simpa [hj] using h j hj
        · simp [hj]
      · intro h j hj
        have hbit := Nat.testBit_mod_two_pow m i j
        rw [h,Nat.testBit_two_pow_sub_one] at hbit
        simpa [hj] using hbit.symm
    rw [hones]
    have hpos := Nat.two_pow_pos i
    have hlt := Nat.mod_lt m hpos
    rw [Nat.add_mod]
    constructor
    · intro h
      obtain hone | hmore := Nat.eq_or_lt_of_le hpos
      · simp [← hone,Nat.mod_one]
      · rw [h,Nat.mod_eq_of_lt hmore,Nat.sub_add_cancel hpos,Nat.mod_self]
    · intro h
      by_contra hne
      obtain hone | hmore := Nat.eq_or_lt_of_le hpos
      · omega
      · rw [Nat.mod_eq_of_lt hmore,Nat.mod_eq_of_lt (by omega)] at h
        omega

/-- The count is at most `s` exactly for the numbers of at most `s` significant bits, whatever their sign. -/
theorem countSignificantBits_le_iff : countSignificantBits z ≤ s ↔ FitsBits s z.natAbs := by
  unfold countSignificantBits
  dsimp only
  rw [bitLength_eq_size]
  have hsize := z.natAbs.lt_size_self
  cases hfind : (List.range z.natAbs.size).find? fun i => z.testBit i with
  | none =>
    have hdvd : 2^z.natAbs.size ∣ z.natAbs := by
      rw [← testBit_below_iff]
      simpa using hfind
    have hzero := Nat.eq_zero_of_dvd_of_lt hdvd hsize
    exact iff_of_true (Nat.zero_le _) ⟨0,0,Nat.two_pow_pos s,by omega⟩
  | some i =>
    obtain ⟨hbit,hi,hbelow⟩ := List.find?_range_eq_some.mp hfind
    obtain ⟨m,hm⟩ : 2^i ∣ z.natAbs := (testBit_below_iff z i).mp (by simpa using hbelow)
    constructor
    · intro hle
      refine ⟨m,i,?_,by rw [hm,Nat.mul_comm]⟩
      have hlt : 2^i*m<2^i*2^(z.natAbs.size-i) := by
        rw [← hm,← pow_add,Nat.add_sub_cancel' (List.mem_range.mp hi).le]
        exact hsize
      exact lt_of_lt_of_le (Nat.lt_of_mul_lt_mul_left hlt) (Nat.pow_le_pow_right (by decide) hle)
    · rintro ⟨k,e,hk,heq⟩
      have hlow : e ≤ i := by
        by_contra hlt
        have hfalse := (testBit_below_iff z e).mpr (heq ▸ Nat.dvd_mul_left _ _) i (by omega)
        rw [hfalse] at hbit
        cases hbit
      have hbound : z.natAbs.size ≤ s+e := by
        rw [heq,Nat.size_le,pow_add]
        exact Nat.mul_lt_mul_of_pos_right hk (Nat.two_pow_pos e)
      show z.natAbs.size-i ≤ s
      omega

theorem truncateToSignificantBits_neg (hx : x<0) (hlen : n≤bitLength x.natAbs) :
    truncateToSignificantBits x n = -(topBits n x.natAbs : ℕ) := by
  unfold truncateToSignificantBits topBits
  dsimp only
  rw [if_neg (by omega),if_pos hx,bitLength_eq_size,and_mask x.natAbs.lt_size_self]

theorem truncateToSignificantBits_short (hlen : bitLength x.natAbs<n) : truncateToSignificantBits x n=x.natAbs := by
  unfold truncateToSignificantBits
  rw [if_pos hlen]

/-- What a truncation of `x` toward zero to `n` significant bits is. -/
structure Truncated (x : ℤ) (n : ℕ) (y : ℤ) : Prop where
  sign : y.sign=x.sign
  bits : countSignificantBits y≤n
  within : |y| ≤ |x|
  closest : ∀ z∈Set.uIcc 0 x,countSignificantBits z≤n → |x-y| ≤ |x-z|
  again : truncateToSignificantBits y n=y

theorem natAbs_le_topBits (hz : FitsBits n z.natAbs) (hle : z.natAbs≤x.natAbs) : z.natAbs≤topBits n x.natAbs := by
  rw [← topBits_of_fits hz]
  exact topBits_mono hle

theorem topBits_pos (hn : 1≤n) {m : ℕ} (hm : 0 < m) : 0<topBits n m := by
  have hone : 2^0 ≤ m := hm
  exact lt_of_lt_of_le Nat.one_pos (pow_le_topBits hn hone)

theorem truncated_of_nonneg (hn : 1≤n) (hx : 0≤x) : Truncated x n (truncateToSignificantBits x n) := by
  obtain ⟨m,rfl⟩ := Int.eq_ofNat_of_zero_le hx
  rw [truncateToSignificantBits_natCast]
  have hle : topBits n m ≤ m := topBits_le
  constructor
  · obtain rfl | hm := m.eq_zero_or_pos
    · rw [Nat.le_zero.mp hle]
    · rw [Int.sign_eq_one_of_pos (by exact_mod_cast topBits_pos hn hm),Int.sign_eq_one_of_pos (by exact_mod_cast hm)]
  · exact countSignificantBits_le topBits_fits
  · rw [Nat.abs_cast,Nat.abs_cast]
    exact_mod_cast hle
  · intro z hz hbits
    rw [Set.mem_uIcc] at hz
    have hfits := natAbs_le_topBits (x := m) (countSignificantBits_le_iff.mp hbits) (by omega)
    rw [Int.natAbs_natCast] at hfits
    rw [abs_of_nonneg (by omega),abs_of_nonneg (by omega)]
    omega
  · rw [truncateToSignificantBits_natCast,topBits_of_fits topBits_fits]

theorem truncated_of_neg (hn : 1≤n) (hx : x<0) (hlen : n≤bitLength x.natAbs) :
    Truncated x n (truncateToSignificantBits x n) := by
  rw [truncateToSignificantBits_neg hx hlen]
  have hpos : 0<topBits n x.natAbs := topBits_pos hn (by omega)
  have hle : topBits n x.natAbs≤x.natAbs := topBits_le
  constructor
  · rw [Int.sign_eq_neg_one_of_neg (by omega),Int.sign_eq_neg_one_of_neg hx]
  · rw [countSignificantBits_le_iff,Int.natAbs_neg,Int.natAbs_natCast]
    exact topBits_fits
  · rw [abs_neg,Nat.abs_cast,abs_of_neg hx]
    omega
  · intro z hz hbits
    rw [Set.mem_uIcc] at hz
    have hfits := natAbs_le_topBits (x := x) (countSignificantBits_le_iff.mp hbits) (by omega)
    rw [abs_of_nonpos (by omega),abs_of_nonpos (by omega)]
    omega
  · -- the result is no shorter than `n` bits itself
    have hback : (-(topBits n x.natAbs : ℕ) : ℤ).natAbs=topBits n x.natAbs := by omega
    have htop : n≤bitLength (topBits n x.natAbs) := by
      rw [bitLength_eq_size] at hlen ⊢
      have hbit : 2^(x.natAbs.size-1)≤x.natAbs := Nat.lt_size.mp (by omega)
      have hsize := Nat.lt_size.mpr (pow_le_topBits hn hbit)
      omega
    rw [truncateToSignificantBits_neg (by omega) (by rwa [hback]),hback,topBits_of_fits topBits_fits]

/-- The truncation is right, up to negative numbers of fewer bits than are kept. -/
theorem truncateToSignificantBits_exact_iff (x : ℤ) (n : ℕ) (hn : 1≤n) :
    Truncated x n (truncateToSignificantBits x n) ↔ 0≤x ∨ n≤bitLength x.natAbs := by
  constructor
  · intro h
    by_contra hnot
    rw [not_or,not_le,not_le] at hnot
    have hsign := h.sign
    rw [truncateToSignificantBits_short hnot.2,Int.sign_eq_neg_one_of_neg hnot.1,
      Int.sign_eq_one_of_pos (by omega)] at hsign
    omega
  · intro h
    obtain hx | hx := le_or_gt 0 x
    · exact truncated_of_nonneg hn hx
    · exact truncated_of_neg hn hx (h.resolve_left (not_le.mpr hx))

theorem truncateToSignificantBits_exact_minus : Truncated (-0b011110101) 2 (-0b11000000) :=
  (truncateToSignificantBits_exact_iff (-0b011110101) 2 (by decide)).mpr (Or.inr (by decide))

/-- The sign of a short negative number is lost. -/
theorem truncateToSignificantBits_loses_sign : ¬ Truncated (-3) 8 (truncateToSignificantBits (-3) 8) :=
  fun h => absurd h.sign (by decide)

end RoseChain
