import RoseChain.Consensus.AdjustmentBounds
import RoseChain.Consensus.SignagePointVdf

namespace RoseChain
variable {E : Env} {C : ConsensusConstants} {ssi index required : ℕ}

namespace Timed

section
variable (h : Timed C ssi index required)
include h

theorem numSps_pos : 0<C.numSpsSubSlot := Nat.zero_lt_of_lt h.index_lt

theorem calculateSpIntervalIters (hssi : ssi<2^64) :
    calculateSpIntervalIters C ssi = .ok (intervalOf C ssi) := by
  have hmod : ssi % C.numSpsSubSlot=0 := by
    rw [← h.divides]
    simp
  have hle : intervalOf C ssi ≤ ssi := Nat.div_le_self _ _
  unfold RoseChain.calculateSpIntervalIters
  rw [bind_of_ok (floorMod_natCast h.numSps_pos),bind_of_ok ((assertThat_eq_ok (u := ())).mpr (by simp [hmod])),
    bind_of_ok (floorDiv_natCast h.numSps_pos)]
  apply uint_ok rfl
  exact lt_of_le_of_lt hle hssi

theorem calculateSpIters (hssi : ssi<2^64) : calculateSpIters C ssi index = .ok (spPlace C ssi index) := by
  have hindex := h.index_lt
  unfold RoseChain.calculateSpIters
  rw [bind_of_ok ((raiseIf_eq_ok (u := ())).mpr (by omega)),bind_of_ok (h.calculateSpIntervalIters hssi)]
  apply uint_ok
  · simp [spPlace]
  · exact h.spPlace_lt.trans hssi

theorem calculateIpIters (hssi : ssi<2^64) :
    calculateIpIters C ssi index required = .ok (ipPlace C ssi index required) := by
  have hreq := h.required_lt
  have hpos := h.required_pos
  have hsp := h.spPlace_lt
  have hinterval : 0 < intervalOf C ssi := by omega
  have hzero : spPlace C ssi index % intervalOf C ssi=0 := by simp [spPlace]
  have hcast : (spPlace C ssi index+C.numSpIntervalsExtra*intervalOf C ssi+required : ℤ) =
      (spPlace C ssi index+C.numSpIntervalsExtra*intervalOf C ssi+required : ℕ) := by simp
  unfold RoseChain.calculateIpIters
  rw [bind_of_ok (h.calculateSpIters hssi),bind_of_ok (h.calculateSpIntervalIters hssi),
    bind_of_ok (floorMod_natCast hinterval),bind_of_ok ((raiseIf_eq_ok (u := ())).mpr (by rw [hzero]; omega)),
    bind_of_ok ((raiseIf_eq_ok (u := ())).mpr (by omega)),hcast,bind_of_ok (floorMod_natCast (by omega)),h.place_mod]
  apply uint_ok rfl
  exact h.ipPlace_lt.trans hssi

theorem isOverflowBlock :
    isOverflowBlock C index = .ok (decide (C.numSpsSubSlot ≤ index+C.numSpIntervalsExtra)) := by
  have hindex := h.index_lt
  unfold RoseChain.isOverflowBlock
  rw [bind_of_ok ((raiseIf_eq_ok (u := ())).mpr (by omega))]
  apply congrArg Except.ok
  apply decide_eq_decide.mpr
  omega

theorem ipPlace_add (hextra : C.numSpIntervalsExtra≤C.numSpsSubSlot) :
    ipPlace C ssi index required+(if C.numSpsSubSlot ≤ index+C.numSpIntervalsExtra then ssi else 0) =
      spPlace C ssi index+C.numSpIntervalsExtra*intervalOf C ssi+required := by
  have hindex := h.index_lt
  unfold ipPlace spPlace
  split_ifs with hover
  · obtain ⟨k,hk⟩ := Nat.exists_eq_add_of_le hover
    have hmod : (index+C.numSpIntervalsExtra) % C.numSpsSubSlot=k := by
      rw [hk,Nat.add_mod_left,Nat.mod_eq_of_lt (by omega)]
    have hsum : intervalOf C ssi*(index+C.numSpIntervalsExtra)=ssi+intervalOf C ssi*k := by
      rw [hk,Nat.mul_add,h.divides]
    rw [hmod]
    rw [Nat.mul_add] at hsum
    linarith
  · rw [Nat.mod_eq_of_lt (by omega)]
    ring

theorem overflow_iff (hextra : C.numSpIntervalsExtra<C.numSpsSubSlot) :
    C.numSpsSubSlot ≤ index+C.numSpIntervalsExtra ↔ ipPlace C ssi index required<spPlace C ssi index := by
  have hadd := h.ipPlace_add hextra.le
  have hreq := h.required_lt
  constructor
  · intro hover
    have hmul := Nat.mul_le_mul_right (intervalOf C ssi) (Nat.succ_le_of_lt hextra)
    rw [if_pos hover] at hadd
    rw [Nat.mul_comm C.numSpsSubSlot,h.divides,Nat.succ_mul] at hmul
    omega
  · intro hlt
    by_contra hover
    rw [if_neg hover] at hadd
    omega

theorem not_dvd_ipPlace : ¬ intervalOf C ssi ∣ ipPlace C ssi index required := by
  intro hdvd
  have hmul : intervalOf C ssi ∣ intervalOf C ssi*((index+C.numSpIntervalsExtra) % C.numSpsSubSlot) := Dvd.intro _ rfl
  exact Nat.not_dvd_of_pos_of_lt h.required_pos h.required_lt ((Nat.dvd_add_right hmul).mp hdvd)

end

end Timed

theorem calculateSpIters_of_ip {ip : ℕ} (h : calculateIpIters C ssi index required = .ok ip) :
    calculateSpIters C ssi index = .ok (spPlace C ssi index) := by
  unfold calculateIpIters at h
  obtain ⟨sp,hsp,-⟩ := bind_ok.mp h
  rw [hsp,(calculateSpIters_ok hsp).1]

/-- What a record derives from its total does not underflow, and adds up to it. -/
structure BlockRecord.Derives (C : ConsensusConstants) (r : BlockRecord) : Prop where
  ipSubSlot : ∃ ip n,r.ipIters C = .ok ip ∧ r.ipSubSlotTotalIters C = .ok n ∧ n+ip=r.totalIters
  spSubSlot : ∃ ip n,r.ipIters C = .ok ip ∧ r.spSubSlotTotalIters C = .ok n ∧
    n+(if r.overflow then r.subSlotIters else 0)+ip=r.totalIters
  spTotal : ∃ n,r.spTotalIters C = .ok n ∧
    n+C.numSpIntervalsExtra*intervalOf C r.subSlotIters+r.requiredIters=r.totalIters

section Record
variable {r : BlockRecord} {ip : ℕ}

theorem BlockRecord.spSubSlot_ok (hip : r.ipIters C = .ok ip) {n : ℕ} (h : r.spSubSlotTotalIters C = .ok n) :
    n+(if r.overflow then r.subSlotIters else 0)+ip=r.totalIters := by
  unfold BlockRecord.spSubSlotTotalIters at h
  rw [bind_of_ok hip] at h
  have hn := (uint_eq_ok.mp h).1
  split_ifs at hn ⊢ <;> omega

theorem BlockRecord.derives_iff (hip : r.ipIters C = .ok ip) (htotal : r.totalIters<2^128)
    (hextra : C.numSpIntervalsExtra≤C.numSpsSubSlot)
    (hover : r.overflow=decide (C.numSpsSubSlot ≤ r.signagePointIndex+C.numSpIntervalsExtra)) :
    r.Derives C ↔ ip+(if r.overflow then r.subSlotIters else 0) ≤ r.totalIters := by
  constructor
  · intro h
    obtain ⟨ip',n,hip',-,hn⟩ := h.spSubSlot
    obtain rfl := Except.ok.inj (hip.symm.trans hip')
    omega
  · intro hle
    obtain ⟨hplace,htimed⟩ := calculateIpIters_ok hip
    have hadd := htimed.ipPlace_add hextra
    have hsp : r.spSubSlotTotalIters C = .ok (r.totalIters-ip-if r.overflow then r.subSlotIters else 0) := by
      unfold BlockRecord.spSubSlotTotalIters
      rw [bind_of_ok hip]
      apply uint_ok
      · split_ifs at hle ⊢ <;> omega
      · omega
    have hsum := BlockRecord.spSubSlot_ok hip hsp
    constructor
    · refine ⟨ip,r.totalIters-ip,hip,?_,by omega⟩
      unfold BlockRecord.ipSubSlotTotalIters
      rw [bind_of_ok hip]
      apply uint_ok <;> omega
    · exact ⟨ip,_,hip,hsp,hsum⟩
    · refine ⟨r.totalIters-ip-(if r.overflow then r.subSlotIters else 0) +
        spPlace C r.subSlotIters r.signagePointIndex,?_,?_⟩
      · unfold BlockRecord.spTotalIters
        rw [bind_of_ok hsp]
        exact bind_of_ok (calculateSpIters_of_ip hip)
      · simp only [hover,decide_eq_true_eq] at hsum ⊢
        rw [← hplace] at hadd
        omega

end Record

theorem expectedTotalIters_lt (prevB : Option BlockRecord) (n ip : ℕ) :
    Yields (fun total => total<2^128) (expectedTotalIters E prevB n ssi ip) := by
  have hlast (base : ℕ) : Yields (fun total => total<2^128) (uint128 (base+ip)) :=
    fun total h => (uint_eq_ok.mp h).2
  unfold expectedTotalIters
  cases prevB with
  | none => exact .next hlast
  | some prev =>
    dsimp only
    split_ifs
    · exact .next fun _ => .next fun _ => .next hlast
    · exact .next fun _ => .next hlast

namespace HeaderChain
variable {b : ChainLink} {l : List ChainLink}

theorem totalIters_lt (hl : HeaderChain E (b::l)) : b.record.totalIters<2^128 := by
  obtain ⟨V,c,x,-,hc⟩ := hl.passed
  obtain ⟨q,hq⟩ := hc.iters
  rw [← hc.totalIters]
  unfold HeaderCall.iters at hq
  obtain ⟨_,-,hq⟩ := bind_ok.mp hq
  obtain ⟨_,-,hq⟩ := bind_ok.mp hq
  obtain ⟨sp,-,hq⟩ := bind_ok.mp hq
  obtain ⟨ip,-,hq⟩ := bind_ok.mp hq
  obtain ⟨_,-,hq⟩ := bind_ok.mp hq
  obtain ⟨_,-,hq⟩ := bind_ok.mp hq
  obtain ⟨total,htotal,hq⟩ := bind_ok.mp hq
  obtain ⟨_,hsame,-⟩ := bind_ok.mp hq
  rw [reject_eq_ok,not_not] at hsame
  rw [← hsame]
  exact expectedTotalIters_lt _ _ _ total htotal

theorem subSlotIters_le_start (hl : HeaderChain E (b::l)) (hextra : E.numSpIntervalsExtra≤E.numSpsSubSlot)
    (hover : b.record.overflow=true) : b.record.subSlotIters≤b.record.start E.constants := by
  induction l generalizing b with
  | nil =>
    have hstart : b.record.start E.constants=b.record.subSlotIters*b.slots.length := hl.placed.start
    rw [hstart]
    apply Nat.le_mul_of_pos_right
    apply Nat.pos_of_ne_zero
    intro hslots
    -- the signage point would be before the first sub-slot
    obtain ⟨V,c,x,-,hc⟩ := hl.passed
    obtain ⟨q,hq⟩ := hc.iters
    have hchecks := HeaderCall.iters_ok hq (by simp [hc.prev])
    rw [hc.subSlotIters,hc.index,hc.prev,hc.numSlots,hc.overflow,hover,if_pos rfl,hslots] at hchecks
    have hlt := hchecks.1.spPlace_lt
    have hsp := hchecks.2.1
    have hsum := hchecks.2.2.2.2.1
    simp only [List.head?_nil,Option.map_none,startAfter_none] at hsum
    omega
  | cons p l ih =>
    have hstart := hl.placed.start
    match hslots : b.slots.length with
    | 0 =>
      have hnil := List.length_eq_zero_iff.mp hslots
      obtain ⟨hsame,-,hssi⟩ := hl.sameSlot hnil
      rw [hsame,hssi]
      exact ih hl.tail (hl.overflow_prev hextra hnil hover)
    | 1 =>
      rw [hstart,hl.overflowIters hslots hover,hslots]
      simp
    | n+2 =>
      rw [hstart,hslots,startAfter_next]
      exact Nat.le_add_left _ _

theorem derives (hl : HeaderChain E (b::l)) (hextra : E.numSpIntervalsExtra≤E.numSpsSubSlot) :
    b.record.Derives E.constants := by
  apply (BlockRecord.derives_iff hl.placed.ipIters hl.totalIters_lt hextra hl.placed.overflow).mpr
  have htotal := hl.placed.total_eq
  split_ifs with hover
  · have hle := hl.subSlotIters_le_start hextra hover
    omega
  · omega

end HeaderChain

/-- Places of signage and infusion points in a sub-slot, and what the records derive from them: on an accepted chain
always, and of any record when its total is large enough. -/
theorem iterations_consistent (hextra : E.numSpIntervalsExtra<E.numSpsSubSlot) :
    (∀ ssi index required,Timed E.constants ssi index required → ssi<2^64 →
      ∃ overflow sp ip,isOverflowBlock E.constants index = .ok overflow ∧
        calculateSpIters E.constants ssi index = .ok sp ∧
        calculateIpIters E.constants ssi index required = .ok ip ∧
        (overflow=true ↔ ip<sp) ∧ ip<ssi ∧ ¬ ssi / E.numSpsSubSlot ∣ ip) ∧
    (∀ l,HeaderChain E l → ∀ b∈l,b.record.Derives E.constants) ∧
    ∀ r : BlockRecord,Timed E.constants r.subSlotIters r.signagePointIndex r.requiredIters →
      r.subSlotIters<2^64 → r.totalIters<2^128 →
      isOverflowBlock E.constants r.signagePointIndex = .ok r.overflow → ∃ ip,r.ipIters E.constants = .ok ip ∧
        (r.Derives E.constants ↔ ip+(if r.overflow then r.subSlotIters else 0) ≤ r.totalIters) := by
  refine ⟨?_,?_,?_⟩
  · intro ssi index required h hssi
    refine ⟨_,_,_,h.isOverflowBlock,h.calculateSpIters hssi,h.calculateIpIters hssi,?_,h.ipPlace_lt,h.not_dvd_ipPlace⟩
    rw [decide_eq_true_eq]
    exact h.overflow_iff hextra
  · intro l hl b hb
    obtain ⟨l',hl'⟩ := hl.of_mem hb
    exact hl'.derives hextra.le
  · intro r h hssi htotal hover
    have hip := h.calculateIpIters hssi
    exact ⟨_,hip,BlockRecord.derives_iff hip htotal hextra.le (isOverflowBlock_ok hover)⟩

/-- The last signage point but one of a sub-slot of 1024 iterations. -/
theorem iterations_consistent_tiny : ∃ overflow sp ip,isOverflowBlock tinyEnv.constants 62 = .ok overflow ∧
    calculateSpIters tinyEnv.constants 1024 62 = .ok sp ∧
    calculateIpIters tinyEnv.constants 1024 62 5 = .ok ip ∧
    (overflow=true ↔ ip<sp) ∧ ip<1024 ∧ ¬ 1024 / 64 ∣ ip := by
  have hextra : tinyEnv.numSpIntervalsExtra<tinyEnv.numSpsSubSlot := by decide
  apply (iterations_consistent hextra).1
  · constructor <;> decide
  · decide

end RoseChain
