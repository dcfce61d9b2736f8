import RoseChain.Consensus.DifficultyAdjustment
import RoseChain.Lib.SignificantBits

namespace RoseChain
open Lib
variable {C : ConsensusConstants} {V : BlockView} {s x n old new : ℕ}

theorem bitLength_eq_size (n : ℕ) : bitLength n=n.size := by
  unfold bitLength
  split_ifs with hn
  · rw [hn,Nat.size_zero]
  · apply le_antisymm
    · exact Nat.lt_size.mpr (Nat.log2_self_le hn)
    · exact Nat.size_le.mpr ((Nat.log2_lt hn).mp (Nat.lt_succ_self _))

theorem truncateToSignificantBits_natCast (x s : ℕ) : truncateToSignificantBits (x : ℤ) s=(topBits s x : ℕ) := by
  unfold truncateToSignificantBits topBits
  dsimp only
  rw [Int.natAbs_natCast,bitLength_eq_size]
  split_ifs with hs hneg
  · rw [Nat.sub_eq_zero_of_le hs.le,pow_zero,Nat.div_one,Nat.mul_one]
  · omega
  · rw [and_mask x.lt_size_self]

theorem countSignificantBits_le (h : FitsBits s n) : countSignificantBits (n : ℤ) ≤ s := by
  unfold countSignificantBits
  dsimp only
  rw [Int.natAbs_natCast,bitLength_eq_size]
  cases hfind : (List.range n.size).find? fun i => (n : ℤ).testBit i with
  | none => exact Nat.zero_le _
  | some i => exact h.lt (List.find?_some hfind)

/-- What all shipped constants have. -/
structure AdjustmentConstants (C : ConsensusConstants) : Prop where
  sps : ∃ k,C.numSpsSubSlot=2^k
  significantBits : 0<C.significantBits
  factor : 0<C.difficultyChangeMaxFactor
  slotBlocks : 0<C.slotBlocksTarget

/-- Truncation of sub-slot iterations: the top bits, then a multiple of the number of signage
points. -/
def truncatedIters (C : ConsensusConstants) (x : ℕ) : ℕ :=
  topBits C.significantBits x / C.numSpsSubSlot*C.numSpsSubSlot

theorem truncatedIters_le : truncatedIters C x≤x := (Nat.div_mul_le_self _ _).trans topBits_le

theorem truncatedIters_mono {y : ℕ} (h : x≤y) : truncatedIters C x≤truncatedIters C y := floor_mono (topBits_mono h)

theorem truncatedIters_pos (hC : AdjustmentConstants C) (h : C.numSpsSubSlot≤x) : 0<truncatedIters C x := by
  obtain ⟨k,hk⟩ := hC.sps
  unfold truncatedIters
  rw [hk] at h ⊢
  have htop := pow_le_topBits hC.significantBits h
  exact Nat.mul_pos (Nat.div_pos htop (Nat.two_pow_pos k)) (Nat.two_pow_pos k)

theorem truncatedIters_fits (hC : AdjustmentConstants C) : FitsBits C.significantBits (truncatedIters C x) := by
  obtain ⟨k,hk⟩ := hC.sps
  unfold truncatedIters
  rw [hk]
  exact topBits_fits.floor k

section Adjusted
variable (C)

/-- The end of `_get_next_sub_slot_iters`: from the iterations and the seconds of an epoch. -/
def adjustedSubSlotIters (old : ℕ) (iters time : ℤ) : Check ℕ := do
  let precise ← uint64 (← floorDiv (C.subSlotTimeTarget*iters) time)
  let maxSsi ← uint64 (C.difficultyChangeMaxFactor*old)
  let minSsi ← uint64 (← floorDiv old C.difficultyChangeMaxFactor)
  let precise := if precise ≥ old then min precise maxSsi else max C.numSpsSubSlot (max precise minSsi)
  let newSsi := truncateToSignificantBits precise C.significantBits
  let newSsi ← uint64 (newSsi-(← floorMod newSsi C.numSpsSubSlot))
  assertThat (countSignificantBits newSsi≤C.significantBits)
  return newSsi

/-- The end of `_get_next_difficulty`: from the weight and the seconds of an epoch. -/
def adjustedDifficulty (old : ℕ) (weight : ℤ) (time : ℕ) : Check ℕ := do
  let precise ← uint64 (← floorDiv (weight*C.subSlotTimeTarget) (C.slotBlocksTarget*time))
  let maxDiff ← uint64 (C.difficultyChangeMaxFactor*old)
  let minDiff ← uint64 (← floorDiv old C.difficultyChangeMaxFactor)
  let precise := if precise ≥ old then min precise maxDiff else max 1 (max precise minDiff)
  let newDifficulty := truncateToSignificantBits precise C.significantBits
  assertThat (countSignificantBits newDifficulty≤C.significantBits)
  uint64 newDifficulty

end Adjusted

structure SubSlotItersBounds (C : ConsensusConstants) (old new : ℕ) : Prop where
  pos : 0<new
  multiple : C.numSpsSubSlot ∣ new
  le : new≤C.difficultyChangeMaxFactor*old
  ge : truncatedIters C (old / C.difficultyChangeMaxFactor)≤new

structure DifficultyBounds (C : ConsensusConstants) (old new : ℕ) : Prop where
  pos : 1≤new
  le : new≤C.difficultyChangeMaxFactor*old
  bits : FitsBits C.significantBits new
  count : countSignificantBits new≤C.significantBits

variable {z : ℤ}

theorem uint_ok {bits : ℕ} {n : ℕ} (hz : z=n) (hn : n<2^bits) : uint bits z = .ok n := uint_eq_ok.mpr ⟨hz,hn⟩

variable {a b : ℕ}

theorem floorDiv_natCast (hb : 0<b) : floorDiv a b = .ok ((a / b : ℕ) : ℤ) := by
  unfold floorDiv
  rw [if_neg (by omega),← Int.ofNat_fdiv]

theorem floorMod_natCast (hb : 0<b) : floorMod a b = .ok ((a % b : ℕ) : ℤ) := by
  unfold floorMod
  rw [if_neg (by omega),← Int.ofNat_fmod]

def clamped (factor low old precise : ℕ) : ℕ :=
  if precise ≥ old then min precise (factor*old) else max low (max precise (old / factor))

theorem clamped_bounds {factor low : ℕ} (precise : ℕ) (hlow : low≤old) (hfactor : 0<factor) :
    low ≤ clamped factor low old precise ∧ old / factor ≤ clamped factor low old precise ∧
      clamped factor low old precise≤factor*old := by
  have hle : old≤factor*old := Nat.le_mul_of_pos_left old hfactor
  have hdiv : old / factor≤old := Nat.div_le_self _ _
  unfold clamped
  split_ifs with hp
  · omega
  · omega

theorem limits_ok (hC : AdjustmentConstants C) (hmax : C.difficultyChangeMaxFactor*old<2^64) :
    uint64 (C.difficultyChangeMaxFactor*old) = .ok (C.difficultyChangeMaxFactor*old) ∧
      floorDiv old C.difficultyChangeMaxFactor = .ok ((old / C.difficultyChangeMaxFactor : ℕ) : ℤ) ∧
      uint64 ((old / C.difficultyChangeMaxFactor : ℕ) : ℤ) = .ok (old / C.difficultyChangeMaxFactor) := by
  have hle : old≤C.difficultyChangeMaxFactor*old := Nat.le_mul_of_pos_left old hC.factor
  have hdiv : old / C.difficultyChangeMaxFactor≤old := Nat.div_le_self _ _
  exact ⟨uint_ok (Nat.cast_mul _ _).symm hmax,floorDiv_natCast hC.factor,uint_ok rfl (by omega)⟩

variable {q : ℤ} {precise : ℕ}

variable {iters time : ℤ}

theorem adjustedSubSlotIters_eq (hC : AdjustmentConstants C)
    (hq : floorDiv (C.subSlotTimeTarget*iters) time = .ok q) (hprecise : uint64 q = .ok precise)
    (hpos : 0<old) (hdvd : C.numSpsSubSlot ∣ old) (hmax : C.difficultyChangeMaxFactor*old<2^64) :
    adjustedSubSlotIters C old iters time =
      .ok (truncatedIters C (clamped C.difficultyChangeMaxFactor C.numSpsSubSlot old precise)) := by
  obtain ⟨hmaxSsi,hdiv,hminSsi⟩ := limits_ok hC hmax
  obtain ⟨k,hk⟩ := hC.sps
  have hsps : 0<C.numSpsSubSlot := by
    rw [hk]
    exact Nat.two_pow_pos k
  have hbounds := clamped_bounds precise (Nat.le_of_dvd hpos hdvd) hC.factor
  unfold adjustedSubSlotIters
  rw [bind_of_ok hq,bind_of_ok hprecise,bind_of_ok hmaxSsi,bind_of_ok hdiv,bind_of_ok hminSsi]
  change (do
    let newSsi ← uint64 (truncateToSignificantBits (clamped C.difficultyChangeMaxFactor C.numSpsSubSlot old precise : ℕ)
      C.significantBits-(← floorMod (truncateToSignificantBits
        (clamped C.difficultyChangeMaxFactor C.numSpsSubSlot old precise : ℕ) C.significantBits) C.numSpsSubSlot))
    assertThat (countSignificantBits newSsi≤C.significantBits)
    return newSsi : Check ℕ)=_
  generalize clamped C.difficultyChangeMaxFactor C.numSpsSubSlot old precise=x at hbounds ⊢
  have hsum : truncatedIters C x+topBits C.significantBits x % C.numSpsSubSlot=topBits C.significantBits x :=
    Nat.div_add_mod' _ _
  have hle : truncatedIters C x≤x := truncatedIters_le
  have hnew : uint64 ((topBits C.significantBits x : ℕ)-(topBits C.significantBits x % C.numSpsSubSlot : ℕ)) =
      .ok (truncatedIters C x) := uint_ok (by omega) (by omega)
  have hassert : assertThat (countSignificantBits (truncatedIters C x : ℕ)≤C.significantBits) = .ok () :=
    assertThat_eq_ok.mpr (countSignificantBits_le (truncatedIters_fits hC))
  rw [truncateToSignificantBits_natCast,bind_of_ok (floorMod_natCast hsps),bind_of_ok hnew,bind_of_ok hassert]
  rfl

theorem adjustedSubSlotIters_bounds (hC : AdjustmentConstants C) (hpos : 0<old) (hdvd : C.numSpsSubSlot ∣ old)
    (precise : ℕ) :
    SubSlotItersBounds C old (truncatedIters C (clamped C.difficultyChangeMaxFactor C.numSpsSubSlot old precise)) := by
  obtain ⟨hlow,hmin,hhigh⟩ := clamped_bounds precise (Nat.le_of_dvd hpos hdvd) hC.factor
  exact ⟨truncatedIters_pos hC hlow,Nat.dvd_mul_left _ _,truncatedIters_le.trans hhigh,truncatedIters_mono hmin⟩

variable {weight : ℤ}

theorem adjustedDifficulty_eq (hC : AdjustmentConstants C) {time : ℕ}
    (hq : floorDiv (weight*C.subSlotTimeTarget) (C.slotBlocksTarget*time) = .ok q) (hprecise : uint64 q = .ok precise)
    (hpos : 0<old) (hmax : C.difficultyChangeMaxFactor*old<2^64) : adjustedDifficulty C old weight time =
      .ok (topBits C.significantBits (clamped C.difficultyChangeMaxFactor 1 old precise)) := by
  obtain ⟨hmaxDiff,hdiv,hminDiff⟩ := limits_ok hC hmax
  have hbounds := clamped_bounds precise (Nat.succ_le_of_lt hpos) hC.factor
  unfold adjustedDifficulty
  rw [bind_of_ok hq,bind_of_ok hprecise,bind_of_ok hmaxDiff,bind_of_ok hdiv,bind_of_ok hminDiff]
  change (do
    assertThat (countSignificantBits (truncateToSignificantBits
      (clamped C.difficultyChangeMaxFactor 1 old precise : ℕ) C.significantBits)≤C.significantBits)
    uint64 (truncateToSignificantBits (clamped C.difficultyChangeMaxFactor 1 old precise : ℕ) C.significantBits) :
      Check ℕ)=_
  generalize clamped C.difficultyChangeMaxFactor 1 old precise=x at hbounds ⊢
  have hle : topBits C.significantBits x≤x := topBits_le
  have hassert : assertThat (countSignificantBits (topBits C.significantBits x : ℕ)≤C.significantBits) = .ok () :=
    assertThat_eq_ok.mpr (countSignificantBits_le topBits_fits)
  rw [truncateToSignificantBits_natCast,bind_of_ok hassert]
  exact uint_ok rfl (by omega)

theorem adjustedDifficulty_bounds (hC : AdjustmentConstants C) (hpos : 0<old) (precise : ℕ) :
    DifficultyBounds C old (topBits C.significantBits (clamped C.difficultyChangeMaxFactor 1 old precise)) := by
  obtain ⟨hlow,-,hhigh⟩ := clamped_bounds precise (Nat.succ_le_of_lt hpos) hC.factor
  have hone : 2^0≤topBits C.significantBits (clamped C.difficultyChangeMaxFactor 1 old precise) :=
    pow_le_topBits hC.significantBits hlow
  exact ⟨hone,topBits_le.trans hhigh,topBits_fits,countSignificantBits_le topBits_fits⟩

theorem uint64_overflow (h : 2^64≤z) : uint64 z = .error (.raised .value) := by
  unfold uint64 uint
  rw [if_neg (by omega)]

theorem adjustedSubSlotIters_overflow
    (hq : floorDiv (C.subSlotTimeTarget*iters) time = .ok q) (hprecise : uint64 q = .ok precise)
    (hmax : 2^64≤C.difficultyChangeMaxFactor*old) :
    adjustedSubSlotIters C old iters time = .error (.raised .value) := by
  have hmaxSsi : uint64 (C.difficultyChangeMaxFactor*old : ℤ) = .error (.raised .value) :=
    uint64_overflow (by exact_mod_cast hmax)
  unfold adjustedSubSlotIters
  rw [bind_of_ok hq,bind_of_ok hprecise,hmaxSsi]
  rfl

theorem adjustedDifficulty_overflow {time : ℕ}
    (hq : floorDiv (weight*C.subSlotTimeTarget) (C.slotBlocksTarget*time) = .ok q) (hprecise : uint64 q = .ok precise)
    (hmax : 2^64≤C.difficultyChangeMaxFactor*old) :
    adjustedDifficulty C old weight time = .error (.raised .value) := by
  have hmaxDiff : uint64 (C.difficultyChangeMaxFactor*old : ℤ) = .error (.raised .value) :=
    uint64_overflow (by exact_mod_cast hmax)
  unfold adjustedDifficulty
  rw [bind_of_ok hq,bind_of_ok hprecise,hmaxDiff]
  rfl

/-- Arguments of the two functions; `current` is what holds before the next block. -/
structure AdjustmentCall where
  prevHeaderHash : Bytes32
  height : ℕ
  current : ℕ
  deficit : ℕ
  blockAtHeightIncludedSes : Bool
  newSlot : Bool
  signagePointTotalIters : ℕ
  skipEpochCheck : Bool

namespace AdjustmentCall
variable (C V) (c : AdjustmentCall)

def subSlotIters : Check ℕ :=
  getNextSubSlotIters C V c.prevHeaderHash c.height c.current c.deficit c.blockAtHeightIncludedSes c.newSlot
    c.signagePointTotalIters c.skipEpochCheck

def difficulty : Check ℕ :=
  getNextDifficulty C V c.prevHeaderHash c.height c.current c.deficit c.blockAtHeightIncludedSes c.newSlot
    c.signagePointTotalIters c.skipEpochCheck

end AdjustmentCall

/-- The blocks that an adjustment looks at, and the times of the two that bound the epoch. -/
structure EpochBlocks where
  prevB : BlockRecord
  parent : BlockRecord
  lastBlockPrev : BlockRecord
  lastBlockCurr : BlockRecord
  timestampPrev : ℕ
  timestamp : ℕ

namespace EpochBlocks
variable (C V) (h : EpochBlocks)

/-- A chain that ends an epoch: time has passed, and its last block weighs more than the parent. -/
structure Ends (c : AdjustmentCall) : Prop where
  height : c.height+1<2^32
  record : V.blockRecord c.prevHeaderHash = .ok h.prevB
  ends : c.skipEpochCheck=true ∨ c.newSlot=true ∧ ∃ sub,
    canFinishSubAndFullEpoch C V c.height c.prevHeaderHash c.deficit c.blockAtHeightIncludedSes = .ok (sub,true)
  prev : getSecondToLastTransactionBlockInPreviousEpoch C V h.prevB = .ok h.lastBlockPrev
  curr : RoseChain.lastBlockCurr V c.signagePointTotalIters h.prevB = .ok h.lastBlockCurr
  timestampPrev : h.lastBlockPrev.timestamp=some h.timestampPrev
  timestamp : h.lastBlockCurr.timestamp=some h.timestamp
  time : h.timestampPrev<h.timestamp
  time_lt : h.timestamp<2^64
  parent : V.blockRecord h.prevB.prevHash = .ok h.parent
  heavier : h.parent.weight<h.prevB.weight
  heavier_lt : h.prevB.weight<h.parent.weight+2^64

def itersQuotient : ℤ :=
  (C.subSlotTimeTarget*(h.lastBlockCurr.totalIters-h.lastBlockPrev.totalIters : ℤ)).fdiv
    (h.timestamp-h.timestampPrev)

def difficultyQuotient : ℤ :=
  ((h.lastBlockCurr.weight-h.lastBlockPrev.weight : ℤ)*C.subSlotTimeTarget).fdiv
    (C.slotBlocksTarget*(h.timestamp-h.timestampPrev : ℕ))

def oldDifficulty : ℕ := h.prevB.weight-h.parent.weight

variable {C V h} {c : AdjustmentCall}

section
variable (hh : h.Ends C V c)
include hh

theorem Ends.contains : V.containsBlock c.prevHeaderHash=true := by
  have hget := lookup_eq_ok.mp hh.record
  unfold BlockView.containsBlock Dict.contains
  rw [hget]
  rfl

theorem Ends.sameEpoch (rest : Bool → Check ℕ) : (if c.skipEpochCheck=true then do
      let sameEpoch ← pure false
      rest sameEpoch
    else do
      let (_,canFinishEpoch) ←
        canFinishSubAndFullEpoch C V c.height c.prevHeaderHash c.deficit c.blockAtHeightIncludedSes
      let sameEpoch ← pure (!c.newSlot || !canFinishEpoch)
      rest sameEpoch)=rest false := by
  obtain hskip | ⟨hnew,sub,hfinish⟩ := hh.ends
  · rw [if_pos hskip]
    rfl
  · split_ifs
    · rfl
    · rw [bind_of_ok hfinish,hnew]
      rfl

theorem Ends.subSlotIters (hepoch : C.epochBlocks ≤ c.height+1) :
    c.subSlotIters C V=adjustedSubSlotIters C h.lastBlockCurr.subSlotIters
      (h.lastBlockCurr.totalIters-h.lastBlockPrev.totalIters) (h.timestamp-h.timestampPrev) := by
  have hnext : uint32 (c.height+1 : ℤ) = .ok (c.height+1) := uint_ok (Nat.cast_succ _).symm hh.height
  have hcontains : raiseIf (¬ V.containsBlock c.prevHeaderHash) = .ok () := raiseIf_eq_ok.mpr (by simp [hh.contains])
  unfold AdjustmentCall.subSlotIters getNextSubSlotIters
  rw [bind_of_ok hnext,if_neg (by omega),bind_of_ok hcontains,bind_of_ok hh.record]
  refine (hh.sameEpoch _).trans ?_
  rw [if_neg Bool.false_ne_true,bind_of_ok hh.prev,bind_of_ok hh.curr,
    bind_of_ok (assertSome_eq_ok.mpr hh.timestamp),bind_of_ok (assertSome_eq_ok.mpr hh.timestampPrev)]
  rfl

theorem Ends.difficulty (hepoch : (C.epochBlocks : ℤ)-3*C.maxSubSlotBlocks ≤ c.height+1) :
    c.difficulty C V=adjustedDifficulty C h.oldDifficulty (h.lastBlockCurr.weight-h.lastBlockPrev.weight)
      (h.timestamp-h.timestampPrev) := by
  have hnext : uint32 (c.height+1 : ℤ) = .ok (c.height+1) := uint_ok (Nat.cast_succ _).symm hh.height
  have hcontains : raiseIf (¬ V.containsBlock c.prevHeaderHash) = .ok () := raiseIf_eq_ok.mpr (by simp [hh.contains])
  have htime : uint64 (h.timestamp-h.timestampPrev : ℤ) = .ok (h.timestamp-h.timestampPrev) := by
    have hlt := hh.time
    have hword := hh.time_lt
    exact uint_ok (by omega) (by omega)
  have hold : uint64 (h.prevB.weight-h.parent.weight : ℤ) = .ok h.oldDifficulty := by
    have hlt := hh.heavier
    have hword := hh.heavier_lt
    unfold oldDifficulty
    exact uint_ok (by omega) (by omega)
  unfold AdjustmentCall.difficulty getNextDifficulty
  rw [bind_of_ok hnext,if_neg (by push_cast; omega),bind_of_ok hcontains,bind_of_ok hh.record]
  refine (hh.sameEpoch _).trans ?_
  rw [if_neg Bool.false_ne_true,bind_of_ok hh.prev,bind_of_ok hh.curr,
    bind_of_ok (assertSome_eq_ok.mpr hh.timestamp),bind_of_ok (assertSome_eq_ok.mpr hh.timestampPrev),
    bind_of_ok htime,bind_of_ok hh.parent,bind_of_ok hold]
  rfl

theorem Ends.itersQuotient_ok :
    floorDiv (C.subSlotTimeTarget*(h.lastBlockCurr.totalIters-h.lastBlockPrev.totalIters : ℤ))
      (h.timestamp-h.timestampPrev) = .ok (h.itersQuotient C) := by
  have hlt := hh.time
  exact if_neg (by omega)

end

theorem Ends.difficultyQuotient_ok (hC : AdjustmentConstants C) (hh : h.Ends C V c) :
    floorDiv ((h.lastBlockCurr.weight-h.lastBlockPrev.weight : ℤ)*C.subSlotTimeTarget)
      (C.slotBlocksTarget*(h.timestamp-h.timestampPrev : ℕ)) = .ok (h.difficultyQuotient C) := by
  have hlt := hh.time
  have hpos : 0<C.slotBlocksTarget*(h.timestamp-h.timestampPrev) :=
    Nat.mul_pos hC.slotBlocks (Nat.sub_pos_of_lt hlt)
  have hne : (C.slotBlocksTarget*(h.timestamp-h.timestampPrev : ℕ) : ℤ)≠0 := by
    exact_mod_cast hpos.ne'
  exact if_neg hne

theorem Ends.oldDifficulty_pos (hh : h.Ends C V c) : 0<h.oldDifficulty := Nat.sub_pos_of_lt hh.heavier

end EpochBlocks

def FitsWord (z : ℤ) : Prop := 0≤z ∧ z<2^64

theorem FitsWord.uint64 (h : FitsWord z) : uint64 z = .ok z.toNat := if_pos h

/-- At the end of an epoch the sub-slot iterations and the difficulty stay within their bounds, and no assertion
fails, unless the upper bound itself is no 64-bit number. -/
theorem adjustment_bounds (hC : AdjustmentConstants C) {c : AdjustmentCall} {h : EpochBlocks} (hh : h.Ends C V c) :
    (C.epochBlocks ≤ c.height+1 → FitsWord (h.itersQuotient C) →
      0<h.lastBlockCurr.subSlotIters → C.numSpsSubSlot ∣ h.lastBlockCurr.subSlotIters →
      if C.difficultyChangeMaxFactor*h.lastBlockCurr.subSlotIters<2^64 then
        ∃ new,c.subSlotIters C V = .ok new ∧ SubSlotItersBounds C h.lastBlockCurr.subSlotIters new
      else c.subSlotIters C V = .error (.raised .value)) ∧
    ((C.epochBlocks : ℤ)-3*C.maxSubSlotBlocks ≤ c.height+1 → FitsWord (h.difficultyQuotient C) →
      if C.difficultyChangeMaxFactor*h.oldDifficulty<2^64 then
        ∃ new,c.difficulty C V = .ok new ∧ DifficultyBounds C h.oldDifficulty new
      else c.difficulty C V = .error (.raised .value)) := by
  constructor
  · intro hepoch hword hpos hdvd
    rw [hh.subSlotIters hepoch]
    split_ifs with hmax
    · exact ⟨_,adjustedSubSlotIters_eq hC hh.itersQuotient_ok hword.uint64 hpos hdvd hmax,
        adjustedSubSlotIters_bounds hC hpos hdvd _⟩
    · exact adjustedSubSlotIters_overflow hh.itersQuotient_ok hword.uint64 (not_lt.mp hmax)
  · intro hepoch hword
    rw [hh.difficulty hepoch]
    split_ifs with hmax
    · exact ⟨_,adjustedDifficulty_eq hC (hh.difficultyQuotient_ok hC) hword.uint64 hh.oldDifficulty_pos hmax,
        adjustedDifficulty_bounds hC hh.oldDifficulty_pos _⟩
    · exact adjustedDifficulty_overflow (hh.difficultyQuotient_ok hC) hword.uint64 (not_lt.mp hmax)

section Epoch

def epochRecord (headerHash prevHash height weight totalIters timestamp : ℕ) : BlockRecord :=
  ⟨headerHash,prevHash,height,weight,totalIters,0,.getDefaultElement,none,0,0,1024,0,0,0,0,false,0,
    some timestamp,none,none,none,none,none,none,none⟩

def epochGenesis : BlockRecord := epochRecord 1 0 0 7 100 1000

def epochLast : BlockRecord := epochRecord 2 1 4606 40000 500000 87400

def epochView : BlockView where
  blockRecords := [epochGenesis,epochLast].foldl (fun d b => d.set b.headerHash b) .empty
  heights := (Dict.empty.set 0 1).set 4606 2

def epochCall : AdjustmentCall := ⟨2,4607,1024,0,false,true,600000,true⟩

theorem adjustment_bounds_epoch : (∃ new,epochCall.subSlotIters tinyEnv.constants epochView = .ok new ∧
      SubSlotItersBounds tinyEnv.constants 1024 new) ∧
    ∃ new,epochCall.difficulty tinyEnv.constants epochView = .ok new ∧
      DifficultyBounds tinyEnv.constants 39993 new := by
  have hC : AdjustmentConstants tinyEnv.constants := ⟨⟨6,rfl⟩,by decide,by decide,by decide⟩
  let h : EpochBlocks := ⟨epochLast,epochGenesis,epochGenesis,epochLast,1000,87400⟩
  have hh : h.Ends tinyEnv.constants epochView epochCall :=
    ⟨by decide,by decide,Or.inl rfl,by decide,by decide,rfl,rfl,by decide,by decide,by decide,by decide,by decide⟩
  obtain ⟨hiters,hdifficulty⟩ := adjustment_bounds hC hh
  exact ⟨hiters (by decide) ⟨by decide,by decide⟩ (by decide) (by decide),
    hdifficulty (by decide) ⟨by decide,by decide⟩⟩

end Epoch
end RoseChain
