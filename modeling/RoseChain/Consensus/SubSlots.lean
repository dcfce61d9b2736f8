import RoseChain.Consensus.SlotChain

namespace RoseChain
variable {E : Env} {ssi : ℕ} {b p : ChainLink} {l : List ChainLink}

/-- A sub-slot: the challenges it begins with and the iterations it starts at. -/
structure ChainSlot where
  challenge : Bytes32
  rewardChallenge : Bytes32
  start : ℕ

def ChainSlot.hashes (s : ChainSlot) : Bytes32 × Bytes32 := (s.challenge,s.rewardChallenge)

section Timeline
variable (E : Env)

def firstSubSlot : ChainSlot := ⟨E.genesisChallenge,E.genesisChallenge,0⟩

def subSlotAfter (eos : EndOfSubSlotBundle) (start : ℕ) : ChainSlot :=
  ⟨E.hashChallengeChainSubSlot eos.challengeChain,E.hashRewardChainSubSlot eos.rewardChain,start⟩

/-- The sub-slots that begin after a previous block with the finished ones, the newest first. -/
def newSubSlots (prevB : Option BlockRecord) (ssi : ℕ) (slots : List EndOfSubSlotBundle) : List ChainSlot :=
  (slots.mapIdx fun i eos => subSlotAfter E eos (startAfter E.constants prevB (i+1) ssi)).reverse

def subSlotsOf : List ChainLink → List ChainSlot
  | [] => [firstSubSlot E]
  | b::l => newSubSlots E (l.head?.map (·.record)) b.record.subSlotIters b.slots++subSlotsOf l

/-- The sub-slots whose challenges are in the record of a block. -/
def recordedAt (b : ChainLink) (l : List ChainLink) : List ChainSlot :=
  newSubSlots E (l.head?.map (·.record)) b.record.subSlotIters b.slots ++
    if b.slots.isEmpty && l.isEmpty then [firstSubSlot E] else []

def recordedSubSlots : List ChainLink → List ChainSlot
  | [] => []
  | b::l => recordedAt E b l++recordedSubSlots l

end Timeline

variable {prevB : Option BlockRecord} {slots : List EndOfSubSlotBundle}

@[simp] theorem newSubSlots_nil : newSubSlots E prevB ssi []=[] := rfl

@[simp] theorem newSubSlots_concat (eos : EndOfSubSlotBundle) : newSubSlots E prevB ssi (slots++[eos]) =
    subSlotAfter E eos (startAfter E.constants prevB (slots.length+1) ssi)::newSubSlots E prevB ssi slots := by
  simp [newSubSlots]

@[simp] theorem length_newSubSlots : (newSubSlots E prevB ssi slots).length=slots.length := by
  simp [newSubSlots]

theorem newSubSlots_challenges : (newSubSlots E prevB ssi slots).reverse.map (·.challenge) =
    slots.map fun eos => E.hashChallengeChainSubSlot eos.challengeChain := by
  induction slots using List.reverseRecOn with
  | nil => rfl
  | append_singleton slots eos ih =>
    simp only [newSubSlots_concat,List.reverse_cons,List.map_append,ih]
    rfl

theorem newSubSlots_rewardChallenges : (newSubSlots E prevB ssi slots).reverse.map (·.rewardChallenge) =
    slots.map fun eos => E.hashRewardChainSubSlot eos.rewardChain := by
  induction slots using List.reverseRecOn with
  | nil => rfl
  | append_singleton slots eos ih =>
    simp only [newSubSlots_concat,List.reverse_cons,List.map_append,ih]
    rfl

theorem startAfter_mono {C : ConsensusConstants} {prevB : Option BlockRecord} {m n ssi : ℕ} (h : m≤n) :
    startAfter C prevB (m+1) ssi ≤ startAfter C prevB (n+1) ssi := by
  cases prevB with
  | none => exact Nat.mul_le_mul_left ssi (Nat.succ_le_succ h)
  | some prev =>
    have hmul := Nat.mul_le_mul_left ssi h
    simp only [startAfter_succ]
    omega

theorem mem_newSubSlots {slot : ChainSlot} (h : slot∈newSubSlots E prevB ssi slots) :
    ∃ i<slots.length,slot.start=startAfter E.constants prevB (i+1) ssi := by
  rw [newSubSlots,List.mem_reverse,List.mem_mapIdx] at h
  obtain ⟨i,hi,rfl⟩ := h
  exact ⟨i,hi,rfl⟩

theorem subSlotsOf_recorded : ∃ older,subSlotsOf E l=recordedSubSlots E l++older := by
  induction l with
  | nil => exact ⟨[firstSubSlot E],rfl⟩
  | cons b l ih =>
    obtain ⟨older,ih⟩ := ih
    by_cases hground : b.slots=[] ∧ l=[]
    · obtain ⟨hslots,rfl⟩ := hground
      refine ⟨[],?_⟩
      simp [subSlotsOf,recordedSubSlots,recordedAt,hslots]
    · refine ⟨older,?_⟩
      have hfalse : (b.slots.isEmpty && l.isEmpty)=false := by
        rw [Bool.eq_false_iff]
        intro hboth
        simp only [Bool.and_eq_true,List.isEmpty_iff] at hboth
        exact hground hboth
      simp [subSlotsOf,recordedSubSlots,recordedAt,hfalse,ih]

theorem recordedSubSlots_concat {eos : EndOfSubSlotBundle} (hslots : b.slots=slots++[eos]) :
    recordedSubSlots E (b::l)=subSlotAfter E eos
      (startAfter E.constants (l.head?.map (·.record)) b.slots.length b.record.subSlotIters) ::
        (newSubSlots E (l.head?.map (·.record)) b.record.subSlotIters slots++recordedSubSlots E l) := by
  simp [recordedSubSlots,recordedAt,hslots]

theorem recordedAt_nil (hslots : b.slots=[]) : recordedAt E b (p::l)=[] := by
  simp [recordedAt,hslots]

theorem recordedSubSlots_skip (hslots : b.slots=[]) : recordedSubSlots E (b::p::l)=recordedSubSlots E (p::l) := by
  simp [recordedSubSlots,recordedAt,hslots]

namespace HeaderChain

theorem newestSubSlot (h : HeaderChain E (b::l)) : ∃ slot older,
    recordedSubSlots E (b::l)=slot::older ∧ slot.start=b.record.start E.constants := by
  induction l generalizing b with
  | nil =>
    obtain hslots | ⟨slots,eos,hslots⟩ := List.eq_nil_or_concat b.slots
    · have hstart := h.placed.start
      rw [hslots] at hstart
      refine ⟨firstSubSlot E,[],by simp [recordedSubSlots,recordedAt,hslots],?_⟩
      rw [hstart]
      exact (Nat.mul_zero _).symm
    · rw [List.concat_eq_append] at hslots
      exact ⟨_,_,recordedSubSlots_concat hslots,h.placed.start.symm⟩
  | cons p l ih =>
    obtain hslots | ⟨slots,eos,hslots⟩ := List.eq_nil_or_concat b.slots
    · rw [recordedSubSlots_skip hslots,(h.sameSlot hslots).1]
      exact ih h.tail
    · rw [List.concat_eq_append] at hslots
      exact ⟨_,_,recordedSubSlots_concat hslots,h.placed.start.symm⟩

variable {slot : ChainSlot}

variable {older : List ChainSlot}

section
variable (h : HeaderChain E (b::l))
include h

theorem newest_start
    (hslot : recordedSubSlots E (b::l)=slot::older) : slot.start=b.record.start E.constants := by
  obtain ⟨slot',older',hslot',hstart⟩ := h.newestSubSlot
  cases hslot.symm.trans hslot'
  exact hstart

theorem recordedHashes (hfirst : b.record.firstInSubSlot=true) :
    b.record.finishedChallengeSlotHashes=some ((recordedAt E b l).reverse.map (·.challenge)) ∧
      b.record.finishedRewardSlotHashes=some ((recordedAt E b l).reverse.map (·.rewardChallenge)) := by
  have hheight := h.recordOf.height.symm.trans h.height
  rw [h.first_iff] at hfirst
  obtain ⟨_,_,_,_,_,_,hr⟩ := h.recordOf
  by_cases hslots : b.slots=[]
  · have hl : l=[] := by simpa [hslots] using hfirst
    have hblock : b.block.finishedSubSlots=[] := hslots
    subst hl
    rw [hr]
    simp [headerBlockToSubBlockRecord,recordedAt,hslots,hblock,hheight,firstSubSlot]
  · have hat : recordedAt E b l=newSubSlots E (l.head?.map (·.record)) b.record.subSlotIters b.slots := by
      simp [recordedAt,hslots]
    have hblock : b.block.finishedSubSlots≠[] := hslots
    rw [hat,newSubSlots_challenges,newSubSlots_rewardChallenges,hr]
    unfold headerBlockToSubBlockRecord
    simp [hblock,ChainLink.slots]

theorem recordedAt_eq_nil : recordedAt E b l=[] ↔ b.record.firstInSubSlot=false := by
  rw [h.first_iff]
  cases hslots : b.slots.isEmpty <;> cases hground : l.isEmpty <;>
    simp_all [recordedAt,← List.length_eq_zero_iff]

theorem lastHashes (hfirst : b.record.firstInSubSlot=true) (hslot : recordedSubSlots E (b::l)=slot::older) :
    ∃ cc rc,b.record.finishedChallengeSlotHashes=some cc ∧ cc.getLast?=some slot.challenge ∧
      b.record.finishedRewardSlotHashes=some rc ∧ rc.getLast?=some slot.rewardChallenge := by
  obtain ⟨hcc,hrc⟩ := h.recordedHashes hfirst
  refine ⟨_,_,hcc,?_,hrc,?_⟩
  all_goals
    cases hat : recordedAt E b l with
    | nil => simp [h.recordedAt_eq_nil.mp hat] at hfirst
    | cons slot' older' =>
      rw [recordedSubSlots,hat] at hslot
      cases hslot
      simp

theorem foundSubSlots : RoseChain.foundSubSlots b.record = .ok ((recordedAt E b l).map (·.hashes)) := by
  unfold RoseChain.foundSubSlots
  by_cases hfirst : b.record.firstInSubSlot=true
  · obtain ⟨hcc,hrc⟩ := h.recordedHashes hfirst
    rw [if_pos hfirst,hcc,hrc]
    have hzip : ((((recordedAt E b l).reverse.map (·.challenge)).zip
        ((recordedAt E b l).reverse.map (·.rewardChallenge))).reverse)=(recordedAt E b l).map (·.hashes) := by
      rw [List.zip_map',← List.map_reverse,List.reverse_reverse]
      rfl
    rw [← hzip]
    rfl
  · rw [if_neg hfirst,h.recordedAt_eq_nil.mpr (Bool.eq_false_iff.mpr hfirst)]
    rfl

end

theorem newSubSlot_le (hl : HeaderChain E (b::l))
    (h : slot∈newSubSlots E (l.head?.map (·.record)) b.record.subSlotIters b.slots) :
    slot.start≤b.record.start E.constants := by
  obtain ⟨i,hi,hstart⟩ := mem_newSubSlots h
  obtain ⟨n,hn⟩ := Nat.exists_eq_succ_of_ne_zero (Nat.ne_zero_of_lt hi)
  rw [hl.placed.start,hstart,hn]
  apply startAfter_mono
  omega

theorem subSlot_le (hl : HeaderChain E (b::l)) (h : slot∈subSlotsOf E (b::l)) :
    slot.start≤b.record.start E.constants := by
  induction l generalizing b with
  | nil =>
    rw [subSlotsOf,List.mem_append] at h
    obtain hnew | hfirst := h
    · exact hl.newSubSlot_le hnew
    · obtain rfl := List.mem_singleton.mp hfirst
      exact Nat.zero_le _
  | cons p l ih =>
    rw [subSlotsOf,List.mem_append] at h
    obtain hnew | hold := h
    · exact hl.newSubSlot_le hnew
    · have hle := ih hl.tail hold
      have htotal := hl.tail.placed.total_eq
      by_cases hslots : b.slots=[]
      · rw [(hl.sameSlot hslots).1]
        exact hle
      · have hlater := hl.laterSlot hslots
        omega

theorem total_ne_start (hl : HeaderChain E l) (h : slot∈subSlotsOf E l) :
    ∀ a∈l,a.record.totalIters≠slot.start := by
  induction l with
  | nil => simp
  | cons b l ih =>
    intro a ha
    obtain rfl | ha := List.mem_cons.mp ha
    · have hle := hl.subSlot_le h
      have htotal := hl.placed.total_eq
      have hpos : 0<a.record.ipPlace E.constants := hl.placed.timed.ipPlace_pos
      omega
    · rw [subSlotsOf,List.mem_append] at h
      obtain h | h := h
      · obtain ⟨i,hi,hstart⟩ := mem_newSubSlots h
        have hlt := hl.tail.before_next i b.record.subSlotIters a ha
        omega
      · exact ih hl.tail h a ha

end HeaderChain

end RoseChain
