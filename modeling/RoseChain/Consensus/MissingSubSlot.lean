import RoseChain.Consensus.Runs
import RoseChain.Consensus.SlotChain

namespace RoseChain
variable {E : Env} {V : BlockView} {C : ConsensusConstants} {ssi index required : ℕ} {b p : ChainLink} {l : List ChainLink}

theorem Timed.ipPlace_lt_iff (h : Timed C ssi index required) (hextra : C.numSpIntervalsExtra≤C.numSpsSubSlot) :
    ipPlace C ssi index required<C.numSpIntervalsExtra*intervalOf C ssi ↔
      C.numSpsSubSlot ≤ index+C.numSpIntervalsExtra := by
  have hindex := h.index_lt
  have hreq := h.required_lt
  unfold ipPlace
  by_cases hover : C.numSpsSubSlot ≤ index+C.numSpIntervalsExtra
  · refine iff_of_true ?_ hover
    obtain ⟨k,hk⟩ := Nat.exists_eq_add_of_le hover
    have hlt : k<C.numSpIntervalsExtra := by omega
    have hmod : (index+C.numSpIntervalsExtra) % C.numSpsSubSlot=k := by
      rw [hk,Nat.add_mod_left,Nat.mod_eq_of_lt (by omega)]
    have hmul := Nat.mul_le_mul_right (intervalOf C ssi) (Nat.succ_le_of_lt hlt)
    rw [hmod,Nat.mul_comm]
    rw [Nat.succ_mul] at hmul
    omega
  · refine iff_of_false ?_ hover
    rw [Nat.mod_eq_of_lt (by omega),Nat.mul_add,Nat.mul_comm C.numSpIntervalsExtra]
    omega

theorem Timed.extra_le (h : Timed C ssi index required) (hextra : 2*C.numSpIntervalsExtra≤C.numSpsSubSlot) :
    C.numSpIntervalsExtra*intervalOf C ssi ≤ ssi / 2 := by
  have hmul := Nat.mul_le_mul_right (intervalOf C ssi) hextra
  rw [Nat.mul_comm C.numSpsSubSlot,h.divides,Nat.mul_assoc] at hmul
  omega

theorem InPlace.overflow_iff {prevB : Option BlockRecord} {n : ℕ} {r : BlockRecord} (h : InPlace C prevB n r)
    (hextra : C.numSpIntervalsExtra≤C.numSpsSubSlot) :
    r.overflow=true ↔ r.ipPlace C<C.numSpIntervalsExtra*intervalOf C r.subSlotIters := by
  rw [h.overflow,decide_eq_true_eq]
  exact (h.timed.ipPlace_lt_iff hextra).symm

/-- An overflow block that is infused `n` sub-slots after its previous block and not before that; it lists the sub-slots
that have finished, all of them or all but the last. -/
structure OverflowBlock (E : Env) (V : BlockView) (prevB : Option BlockRecord) (finishedSubSlots : List EndOfSubSlotBundle)
    (totalIters subSlotIters n : ℕ) : Prop where
  listed : finishedSubSlots.length=n ∨ finishedSubSlots.length+1=n
  iters : ∃ difficulty,getNextSubSlotItersAndDifficulty E.constants V (!finishedSubSlots.isEmpty) prevB =
    .ok (subSlotIters,difficulty)
  place : ∃ index required ip,isOverflowBlock E.constants index = .ok true ∧
    calculateIpIters E.constants subSlotIters index required = .ok ip ∧
    expectedTotalIters E prevB n subSlotIters ip = .ok totalIters
  order : ∀ prev,prevB=some prev → prev.totalIters≤totalIters

/-- The infusion point is in the sub-slot of the block. -/
def InSlotOf (C : ConsensusConstants) (r : BlockRecord) (totalIters : ℕ) : Prop :=
  r.start C≤totalIters ∧ totalIters < r.start C+r.subSlotIters

section Walk
variable {near : BlockRecord → Bool} {seen : Bool}

theorem back_keeps (hl : HeaderChain E (b::l)) (hv : HasChain V (b::l))
    (hnear : seen=false → ∀ q l',HeaderChain E (q::l') → q.record.start E.constants=b.record.start E.constants →
      q.record.subSlotIters=b.record.subSlotIters → near q.record=false) :
    finalEosIsAlreadyIncluded.back V near (b.record.height+1) b.record seen = .ok seen := by
  induction l generalizing b with
  | nil =>
    have hfirst : b.record.firstInSubSlot=true := by simp [hl.first_iff]
    rw [finalEosIsAlreadyIncluded.back,if_pos hfirst]
  | cons p l ih =>
    rw [finalEosIsAlreadyIncluded.back]
    by_cases hfirst : b.record.firstInSubSlot
    · rw [if_pos hfirst]
    · have hheight := hl.height
      obtain ⟨hstart,-,hssi⟩ := hl.sameSlot (hl.slots_nil hfirst)
      have hprev : V.blockRecord b.record.prevHash = .ok p.record := lookup_eq_ok.mpr (hv.prev hl)
      have hseen : (seen || near b.record)=seen := by
        cases seen with
        | true => rfl
        | false => exact hnear rfl b _ hl rfl rfl
      rw [if_neg hfirst,if_neg (by rw [hheight]; exact Nat.succ_ne_zero _),bind_of_ok hprev,hseen,hheight,
        List.length_cons,← hl.tail.height]
      apply ih hl.tail hv.tail
      intro hs q l' hq hqstart hqssi
      exact hnear hs q l' hq (hqstart.trans hstart.symm) (hqssi.trans hssi.symm)

end Walk

/-- An overflow block that is close before the infusion point. -/
def nearOverflow (totalIters subSlotIters : ℕ) (b : BlockRecord) : Bool :=
  b.overflow && decide ((totalIters : ℤ)-b.totalIters<(subSlotIters / 2 : ℕ))

section Cases
variable {prevHash : Bytes32} {totalIters : ℕ}

theorem finalEosIsAlreadyIncluded_listed {finishedSubSlots : List EndOfSubSlotBundle} (hne : finishedSubSlots≠[]) :
    finalEosIsAlreadyIncluded V finishedSubSlots prevHash totalIters ssi = .ok false := by
  unfold finalEosIsAlreadyIncluded
  rw [if_pos (List.length_pos_iff.mpr hne)]
  rfl

theorem finalEosIsAlreadyIncluded_unknown (hprev : V.tryBlockRecord prevHash=none) :
    finalEosIsAlreadyIncluded V [] prevHash totalIters ssi = .error (.raised .key) := by
  have hraise : V.blockRecord prevHash = .error (.raised .key) := by
    have hnone : V.blockRecords.get? prevHash=none := hprev
    unfold BlockView.blockRecord
    rw [hnone]
    rfl
  unfold finalEosIsAlreadyIncluded
  rw [if_neg (by simp),hraise]
  rfl

theorem finalEosIsAlreadyIncluded_walk {prev : BlockRecord} (hprev : V.tryBlockRecord prevHash=some prev) :
    finalEosIsAlreadyIncluded V [] prevHash totalIters ssi=finalEosIsAlreadyIncluded.back V (nearOverflow totalIters ssi)
      (prev.height+1) prev (nearOverflow totalIters ssi prev) := by
  have hrecord : V.blockRecord prevHash = .ok prev := lookup_eq_ok.mpr hprev
  unfold finalEosIsAlreadyIncluded
  rw [if_neg (by simp),bind_of_ok hrecord]
  rfl

end Cases

section
variable (hl : HeaderChain E (p::l))
include hl

theorem OverflowBlock.iters_eq {totalIters n : ℕ}
    (hb : OverflowBlock E V (some p.record) [] totalIters ssi n) : ssi=p.record.subSlotIters := by
  obtain ⟨difficulty,hiters⟩ := hb.iters
  apply hl.sameIters hiters
  intro hfirst
  cases hfirst

section
variable (hextra : 2*E.numSpIntervalsExtra≤E.numSpsSubSlot)
include hextra

theorem OverflowBlock.total {finishedSubSlots : List EndOfSubSlotBundle} {totalIters n : ℕ}
    (hb : OverflowBlock E V (some p.record) finishedSubSlots totalIters ssi n) : ∃ ip,
      totalIters=startAfter E.constants (some p.record) n ssi+ip ∧ 0 < ip ∧
        ip<E.numSpIntervalsExtra*intervalOf E.constants ssi ∧
        E.numSpIntervalsExtra*intervalOf E.constants ssi ≤ ssi / 2 := by
  obtain ⟨index,required,ip,hoverflow,hip,hexpected⟩ := hb.place
  obtain ⟨rfl,htimed⟩ := calculateIpIters_ok hip
  have hover := of_decide_eq_true (isOverflowBlock_ok hoverflow).symm
  refine ⟨_,?_,htimed.ipPlace_pos,(htimed.ipPlace_lt_iff (by omega)).mpr hover,htimed.extra_le hextra⟩
  apply expectedTotalIters_ok hexpected
  intro prev hprev
  cases hprev
  have htotal := hl.placed.total_eq
  omega

theorem OverflowBlock.near_same
    {totalIters : ℕ} (hb : OverflowBlock E V (some p.record) [] totalIters p.record.subSlotIters 0) :
    nearOverflow totalIters p.record.subSlotIters p.record=true := by
  obtain ⟨ip,hplace,-,hlt,hhalf⟩ := hb.total hl hextra
  have htotal := hl.placed.total_eq
  have horder := hb.order _ rfl
  rw [startAfter_zero] at hplace
  have hover : p.record.overflow=true := (hl.placed.overflow_iff (by omega)).mpr (by omega)
  unfold nearOverflow
  rw [hover,Bool.true_and,decide_eq_true_eq]
  omega

theorem OverflowBlock.near_next
    {totalIters : ℕ} (hb : OverflowBlock E V (some p.record) [] totalIters p.record.subSlotIters 1) {q : ChainLink}
    {l' : List ChainLink} (hq : HeaderChain E (q::l'))
    (hstart : q.record.start E.constants=p.record.start E.constants)
    (hiters : q.record.subSlotIters=p.record.subSlotIters) :
    nearOverflow totalIters p.record.subSlotIters q.record=false := by
  obtain ⟨ip,hplace,hpos,-,hhalf⟩ := hb.total hl hextra
  have htotal := hq.placed.total_eq
  rw [startAfter_succ] at hplace
  unfold nearOverflow
  rw [Bool.and_eq_false_imp,decide_eq_false_iff_not]
  intro hover
  have hlt := (hq.placed.overflow_iff (by omega)).mp hover
  rw [hiters] at hlt
  omega

end

end

/-- The missing sub-slot is found exactly where the block lists none and is infused in the sub-slot of the block
before; there is an answer wherever there is a block before or a listed sub-slot. -/
theorem finalEosIsAlreadyIncluded_iff (hextra : 2*E.numSpIntervalsExtra≤E.numSpsSubSlot) (hl : HeaderChain E l)
    (hv : HasChain V l) {prevHash : Bytes32} (hprev : V.tryBlockRecord prevHash=l.head?.map (·.record))
    {finishedSubSlots : List EndOfSubSlotBundle} {totalIters n : ℕ}
    (hb : OverflowBlock E V (l.head?.map (·.record)) finishedSubSlots totalIters ssi n) :
    (finalEosIsAlreadyIncluded V finishedSubSlots prevHash totalIters ssi = .ok true ↔
      finishedSubSlots=[] ∧ ∃ p,l.head?=some p ∧ InSlotOf E.constants p.record totalIters) ∧
    (finishedSubSlots≠[] ∨ l≠[] → ∃ answer,finalEosIsAlreadyIncluded V finishedSubSlots prevHash totalIters ssi =
      .ok answer) := by
  cases finishedSubSlots with
  | cons eos more =>
    rw [finalEosIsAlreadyIncluded_listed (List.cons_ne_nil eos more)]
    refine ⟨iff_of_false (by simp) (by simp),fun _ => ⟨false,rfl⟩⟩
  | nil =>
    cases l with
    | nil =>
      rw [finalEosIsAlreadyIncluded_unknown hprev]
      refine ⟨iff_of_false (by simp) (by simp),?_⟩
      intro hne
      simp at hne
    | cons p l =>
      rw [finalEosIsAlreadyIncluded_walk hprev]
      obtain rfl := hb.iters_eq hl
      obtain ⟨ip,hplace,-,hlt,hhalf⟩ := hb.total hl hextra
      obtain rfl | rfl : n=0 ∨ n=1 := by
        have hlisted := hb.listed
        simp only [List.length_nil] at hlisted
        omega
      · rw [startAfter_zero] at hplace
        rw [hb.near_same hl hextra,back_keeps hl hv fun h => by cases h]
        refine ⟨iff_of_true rfl ⟨rfl,p,rfl,?_,?_⟩,fun _ => ⟨true,rfl⟩⟩
        · omega
        · omega
      · rw [startAfter_succ] at hplace
        rw [hb.near_next hl hextra hl rfl rfl,back_keeps hl hv fun _ q l' hq => hb.near_next hl hextra hq]
        refine ⟨iff_of_false (by simp) ?_,fun _ => ⟨false,rfl⟩⟩
        intro hin
        obtain ⟨-,r,hr,-,hup⟩ := hin
        cases hr
        omega

section Late
open Lib ClassgroupElement

def lateFirst : FullBlock :=
  { tinyFirst 40 with
    rewardChainBlock := ⟨7,0,49,0,1,⟨0,some [],none,[],32,[]⟩,none,[],⟨1,49,getDefaultElement⟩,none,[],
      ⟨1,49,getDefaultElement⟩,none,true⟩
    foliage := { (tinyFirst 40).foliage with foliageTransactionBlockSignature := some [] }
    foliageTransactionBlock := some ⟨1,1,0,0,0,0⟩ }

def lateEnd : EndOfSubSlotBundle where
  challengeChain := ⟨⟨1,1024,getDefaultElement⟩,none,none,none,none⟩
  infusedChallengeChain := some ⟨⟨0,975,getDefaultElement⟩⟩
  rewardChain := ⟨⟨0,975,getDefaultElement⟩,0,some 0,15⟩
  proofs := ⟨tinyProof,some tinyProof,tinyProof⟩

/-- An overflow block after that, from the next to last signage point before it. -/
def lateSecond : FullBlock :=
  { tinyBlock 41 40 1 14 with
    finishedSubSlots := [lateEnd]
    rewardChainBlock := ⟨14,1,1041,62,1,⟨0,some [],none,[],32,[]⟩,some ⟨1,992,getDefaultElement⟩,[],
      ⟨0,17,getDefaultElement⟩,some ⟨0,943,getDefaultElement⟩,[],⟨0,17,getDefaultElement⟩,
      some ⟨0,17,getDefaultElement⟩,true⟩
    challengeChainSpProof := some tinyProof
    rewardChainSpProof := some tinyProof
    infusedChallengeChainIpProof := some tinyProof
    foliage := ⟨40,0,⟨0,⟨0,0⟩,some [],0,41⟩,[],some 0,some []⟩
    foliageTransactionBlock := some ⟨40,2,0,0,0,0⟩
    transactionsInfo := some ⟨0,ones32,[],0,0,[]⟩ }

def lateFirstLink : ChainLink := ⟨lateFirst,headerBlockToSubBlockRecord tinyEnv 1 lateFirst 1024 false 15 0 none⟩

def lateSecondLink : ChainLink := ⟨lateSecond,headerBlockToSubBlockRecord tinyEnv 1 lateSecond 1024 true 14 0 none⟩

def lateFirstView : BlockView := ⟨Dict.empty.set 40 lateFirstLink.record,Dict.empty⟩

def lateView : BlockView := ⟨(Dict.empty.set 40 lateFirstLink.record).set 41 lateSecondLink.record,Dict.empty⟩

def headerOf (b : FullBlock) : HeaderBlock :=
  ⟨b.finishedSubSlots,b.rewardChainBlock,b.challengeChainSpProof,b.challengeChainIpProof,b.rewardChainSpProof,
    b.rewardChainIpProof,b.infusedChallengeChainIpProof,b.foliage,b.foliageTransactionBlock,[],b.transactionsInfo⟩

theorem lateFirst_accepted : lateFirstLink.Accepted tinyEnv ⟨Dict.empty,Dict.empty⟩ none where
  prev := rfl
  validated := by
    refine ⟨[],[],headerOf lateFirst,1024,7,1,?_,?_,?_,?_⟩
    all_goals decide +kernel

theorem lateSecond_accepted : lateSecondLink.Accepted tinyEnv lateFirstView (some lateFirstLink.record) where
  prev := by decide +kernel
  validated := by
    refine ⟨[],[],headerOf lateSecond,1024,7,1,?_,?_,?_,?_⟩
    all_goals decide +kernel

theorem lateChain : HeaderChain tinyEnv [lateSecondLink,lateFirstLink] := by
  have hfirst : HeaderChain tinyEnv [lateFirstLink] := .next _ .nil (by simp) lateFirst_accepted rfl (by simp)
  apply HeaderChain.next lateFirstView hfirst
  · intro a ha
    obtain rfl := List.mem_singleton.mp ha
    rfl
  · exact lateSecond_accepted
  · rfl
  · intro a ha
    obtain rfl : lateFirstLink=a := Option.some.inj ha
    rfl

theorem lateView_hasChain : HasChain lateView [lateSecondLink,lateFirstLink] where
  known := by
    intro a ha
    obtain rfl | ha := List.mem_cons.mp ha
    · rfl
    · obtain rfl := List.mem_singleton.mp ha
      rfl
  ground := by
    intro a ha
    obtain rfl : lateFirstLink=a := Option.some.inj ha
    rfl

theorem overflowBlock_late : OverflowBlock tinyEnv lateView (some lateSecondLink.record) [] 1057 1024 0 where
  listed := Or.inl rfl
  iters := ⟨7,by decide +kernel⟩
  place := ⟨63,1,33,by decide +kernel,by decide +kernel,by decide +kernel⟩
  order prev h := by
    cases h
    decide +kernel

theorem finalEosIsAlreadyIncluded_iff_late : (finalEosIsAlreadyIncluded lateView [] 41 1057 1024 = .ok true ↔
      ([] : List EndOfSubSlotBundle)=[] ∧ ∃ p,[lateSecondLink,lateFirstLink].head?=some p ∧
        InSlotOf tinyEnv.constants p.record 1057) ∧
    (([] : List EndOfSubSlotBundle)≠[] ∨ [lateSecondLink,lateFirstLink]≠[] → ∃ answer,
      finalEosIsAlreadyIncluded lateView [] 41 1057 1024 = .ok answer) :=
  finalEosIsAlreadyIncluded_iff (by decide) lateChain lateView_hasChain rfl overflowBlock_late

example : finalEosIsAlreadyIncluded lateView [] 41 1057 1024 = .ok true := by decide +kernel

end Late

end RoseChain
