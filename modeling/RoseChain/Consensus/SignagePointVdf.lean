import RoseChain.Consensus.MissingSubSlot
import RoseChain.Consensus.SubSlots

namespace RoseChain
open ClassgroupElement
variable {E : Env} {V : BlockView} {b p : ChainLink} {l : List ChainLink} {slot : ChainSlot} {sp : ℕ}

/-- A block infused in a sub-slot strictly before a signage point. -/
def infusedBefore (slot : ChainSlot) (spTotalIters : ℕ) (b : ChainLink) : Bool :=
  decide (slot.start≤b.record.totalIters ∧ b.record.totalIters<spTotalIters)

/-- The VDF up to a signage point, from the last block infused in the sub-slot before it or the
start. -/
def vdfUpTo (E : Env) (slot : ChainSlot) (l : List ChainLink) (spTotalIters : ℕ) : SignagePointVdfInfo :=
  match l.find? (infusedBefore slot spTotalIters) with
  | some b => ⟨slot.challenge,E.hashRewardChainBlock b.block.rewardChainBlock,
      b.block.rewardChainBlock.challengeChainIpVdf.output,spTotalIters-b.record.totalIters⟩
  | none => ⟨slot.challenge,slot.rewardChallenge,getDefaultElement,spTotalIters-slot.start⟩

theorem HeaderChain.infusion (h : HeaderChain E (b::l)) :
    b.record.rewardInfusionNewChallenge=E.hashRewardChainBlock b.block.rewardChainBlock ∧
      b.record.challengeVdfOutput=b.block.rewardChainBlock.challengeChainIpVdf.output := by
  obtain ⟨_,_,_,_,_,_,hr⟩ := h.recordOf
  rw [hr]
  exact ⟨rfl,rfl⟩

theorem find?_infused (hstart : slot.start≤b.record.totalIters) :
    ((b::l).find? (infusedBefore slot sp)).map (·.record)=(if b.record.totalIters<sp then some b.record else none).or
      ((l.find? (infusedBefore slot sp)).map (·.record)) := by
  by_cases hlt : b.record.totalIters<sp
  · have hinside : infusedBefore slot sp b=true := decide_eq_true ⟨hstart,hlt⟩
    rw [List.find?_cons_of_pos hinside,if_pos hlt]
    rfl
  · rw [List.find?_cons_of_neg (by simp [infusedBefore,hlt]),if_neg hlt]
    rfl

theorem find?_earlier (h : ∀ a∈l,a.record.totalIters<slot.start) : l.find? (infusedBefore slot sp)=none := by
  rw [List.find?_eq_none]
  intro a ha
  have hlt := h a ha
  simp [infusedBefore]
  omega

section LastTwo
variable {found : List (Bytes32 × Bytes32)} {pre : Option BlockRecord} {r : BlockRecord} {n : ℕ}

theorem noted_eq (c : Prop) [Decidable c] :
    (if pre.isNone=true ∧ c then some r else pre)=pre.or (if c then some r else none) := by
  cases pre <;> simp

theorem lastTwoSubSlots_stop (h : ¬ (found.length<2 ∧ r.height > 0)) : lastTwoSubSlots V sp (n+1) r found pre =
    .ok (found,pre.or (if r.totalIters<sp then some r else none)) := by
  rw [lastTwoSubSlots]
  rw [if_neg h,noted_eq]

theorem lastTwoSubSlots_step (hl : HeaderChain E (b::p::l)) (hv : HasChain V (b::p::l)) (h : found.length<2) :
    lastTwoSubSlots V sp (b.record.height+1) b.record found pre =
      lastTwoSubSlots V sp (p.record.height+1) p.record (found++(recordedAt E p l).map (·.hashes))
        (pre.or (if b.record.totalIters<sp then some b.record else none)) := by
  have hprev : V.blockRecord b.record.prevHash = .ok p.record := lookup_eq_ok.mpr (hv.prev hl)
  have hheight := hl.height_succ
  rw [lastTwoSubSlots]
  rw [if_pos ⟨h,by omega⟩,noted_eq,bind_of_ok hprev,bind_of_ok hl.tail.foundSubSlots,hheight]

theorem lastTwoSubSlots_last (hl : HeaderChain E (b::l)) {older : List ChainSlot}
    (hslot : recordedSubSlots E (b::l)=slot::older) (hat : recordedAt E b l≠[])
    (hearlier : ∀ a∈l,a.record.totalIters<slot.start) (hash : Bytes32 × Bytes32) :
    ∃ found,lastTwoSubSlots V sp (b.record.height+1) b.record (hash::(recordedAt E b l).map (·.hashes)) pre =
      .ok (hash::found,pre.or (((b::l).find? (infusedBefore slot sp)).map (·.record))) ∧
        found.head?=some slot.hashes := by
  have htotal := hl.placed.total_eq
  have hstart := hl.newest_start hslot
  have hlen := List.length_pos_iff.mpr hat
  have henough : ¬ ((hash::(recordedAt E b l).map (·.hashes)).length<2 ∧ b.record.height > 0) := by
    intro h
    have hshort := h.1
    rw [List.length_cons,List.length_map] at hshort
    omega
  refine ⟨(recordedAt E b l).map (·.hashes),?_,?_⟩
  · rw [lastTwoSubSlots_stop henough,find?_infused (by omega),find?_earlier hearlier]
    simp
  · rw [recordedSubSlots] at hslot
    cases hnew : recordedAt E b l with
    | nil => exact absurd hnew hat
    | cons slot' older' =>
      rw [hnew] at hslot
      cases hslot
      rfl

theorem lastTwoSubSlots_one (hl : HeaderChain E (b::l)) (hv : HasChain V (b::l)) {older : List ChainSlot}
    (hslot : recordedSubSlots E (b::l)=slot::older) (hash : Bytes32 × Bytes32) :
    ∃ found,lastTwoSubSlots V sp (b.record.height+1) b.record (hash::(recordedAt E b l).map (·.hashes)) pre =
      .ok (hash::found,pre.or (((b::l).find? (infusedBefore slot sp)).map (·.record))) ∧
        found.head?=some slot.hashes := by
  induction l generalizing b pre with
  | nil =>
    apply lastTwoSubSlots_last hl hslot _ (by simp)
    intro hnil
    simp [recordedSubSlots,hnil] at hslot
  | cons p l ih =>
    have htotal := hl.placed.total_eq
    have hstart := hl.newest_start hslot
    by_cases hslots : b.slots=[]
    · rw [recordedSubSlots_skip hslots] at hslot
      rw [recordedAt_nil hslots,List.map_nil,lastTwoSubSlots_step hl hv (by simp),find?_infused (by omega),
        ← Option.or_assoc]
      exact ih hl.tail hv.tail hslot
    · apply lastTwoSubSlots_last hl hslot
      · simp [recordedAt,← List.length_pos_iff]
        exact List.length_pos_iff.mpr hslots
      · rw [hstart]
        exact hl.earlier hslots

end LastTwo

section SameSlot
variable {older : List ChainSlot}

theorem walkBack_first (hl : HeaderChain E (b::l)) (hv : HasChain V (b::l))
    (hslot : recordedSubSlots E (b::l)=slot::older) : ∃ a l' older',HeaderChain E (a::l') ∧
      recordedSubSlots E (a::l')=slot::older' ∧ a.record.firstInSubSlot=true ∧
      V.walkBack (·.firstInSubSlot) b.record = .ok a.record := by
  induction l generalizing b with
  | nil =>
    have hfirst : b.record.firstInSubSlot=true := by simp [hl.first_iff]
    exact ⟨b,[],older,hl,hslot,hfirst,BlockView.walkBack_here hfirst⟩
  | cons p l ih =>
    by_cases hfirst : b.record.firstInSubSlot=true
    · exact ⟨b,p::l,older,hl,hslot,hfirst,BlockView.walkBack_here hfirst⟩
    · have hslots := hl.slots_nil hfirst
      rw [recordedSubSlots_skip hslots] at hslot
      rw [BlockView.walkBack_prev (Bool.eq_false_iff.mpr hfirst) (lookup_eq_ok.mpr (hv.prev hl)) hl.height_succ]
      exact ih hl.tail hv.tail hslot

/-- The last block before a signage point of the sub-slot, or else its first block. -/
def EndsWalk (E : Env) (V : BlockView) (slot : ChainSlot) (sp : ℕ) (b : ChainLink) (l : List ChainLink) : Prop :=
  ∃ a l' older,HeaderChain E (a::l') ∧ HasChain V (a::l') ∧ recordedSubSlots E (a::l')=slot::older ∧
    V.walkBack (fun r => r.firstInSubSlot || decide (r.totalIters ≤ sp)) b.record = .ok a.record ∧
    (b::l).find? (infusedBefore slot sp)=(if a.record.totalIters<sp then some a else none) ∧
    (a.record.firstInSubSlot=true ∨ a.record.totalIters<sp)

theorem endsWalk_here (hl : HeaderChain E (b::l)) (hv : HasChain V (b::l))
    (hslot : recordedSubSlots E (b::l)=slot::older)
    (hstop : b.record.firstInSubSlot=true ∨ b.record.totalIters<sp) : EndsWalk E V slot sp b l := by
  have htotal := hl.placed.total_eq
  have hstart := hl.newest_start hslot
  refine ⟨b,l,older,hl,hv,hslot,BlockView.walkBack_here ?_,?_,hstop⟩
  · obtain hfirst | hlt := hstop
    · rw [hfirst,Bool.true_or]
    · rw [decide_eq_true hlt.le,Bool.or_true]
  · by_cases hlt : b.record.totalIters<sp
    · have hinside : infusedBefore slot sp b=true := decide_eq_true ⟨by omega,hlt⟩
      rw [List.find?_cons_of_pos hinside,if_pos hlt]
    · have hfirst := hstop.resolve_right hlt
      have hearlier := hl.before_first hfirst
      rw [← hstart] at hearlier
      rw [List.find?_cons_of_neg (by simp [infusedBefore,hlt]),if_neg hlt,find?_earlier hearlier]

theorem endsWalk (hl : HeaderChain E (b::l)) (hv : HasChain V (b::l))
    (hslot : recordedSubSlots E (b::l)=slot::older)
    (hne : ∀ q l',HeaderChain E (q::l') → q.record.start E.constants=b.record.start E.constants →
      q.record.subSlotIters=b.record.subSlotIters → q.record.totalIters≠sp) : EndsWalk E V slot sp b l := by
  induction l generalizing b with
  | nil => exact endsWalk_here hl hv hslot (Or.inl (by simp [hl.first_iff]))
  | cons p l ih =>
    have hstart := hl.newest_start hslot
    by_cases hstop : b.record.firstInSubSlot=true ∨ b.record.totalIters<sp
    · exact endsWalk_here hl hv hslot hstop
    · rw [not_or,Bool.not_eq_true] at hstop
      have hslots := hl.slots_nil (by simpa using hstop.1)
      obtain ⟨hsame,-,hssi⟩ := hl.sameSlot hslots
      have hbne := hne b _ hl rfl rfl
      rw [recordedSubSlots_skip hslots] at hslot
      unfold EndsWalk
      rw [BlockView.walkBack_prev (by simp [hstop.1]; omega) (lookup_eq_ok.mpr (hv.prev hl)) hl.height_succ,
        List.find?_cons_of_neg (by simp [infusedBefore,hstop.2])]
      apply ih hl.tail hv.tail hslot
      intro q l' hq hqstart hqssi
      exact hne q l' hq (hqstart.trans hsame.symm) (hqssi.trans hssi.symm)

theorem signagePointVdfSameSlot_ok (hl : HeaderChain E (b::l)) (hv : HasChain V (b::l))
    (hslot : recordedSubSlots E (b::l)=slot::older) {spIters : ℕ} (hsp : sp=slot.start+spIters)
    (hbits : spIters<2^64)
    (hne : ∀ q l',HeaderChain E (q::l') → q.record.start E.constants=b.record.start E.constants →
      q.record.subSlotIters=b.record.subSlotIters → q.record.totalIters≠sp) :
    signagePointVdfSameSlot V b.record sp spIters = .ok (vdfUpTo E slot (b::l) sp) := by
  obtain ⟨a,l',older',ha,hva,haslot,hwalk,hfind,hstop⟩ := endsWalk hl hv hslot hne
  obtain ⟨d,l'',older'',hd,hdslot,hdfirst,hback⟩ := walkBack_first ha hva haslot
  obtain ⟨cc,-,hcc,hcclast,-⟩ := hd.lastHashes hdfirst hdslot
  have htotal := ha.placed.total_eq
  have hstart := ha.newest_start haslot
  unfold signagePointVdfSameSlot vdfUpTo
  rw [bind_of_ok hwalk,hfind]
  by_cases hlt : a.record.totalIters<sp
  · obtain ⟨hchallenge,houtput⟩ := ha.infusion
    have hiters : uint64 ((sp-a.record.totalIters : ℕ) : ℤ) = .ok (sp-a.record.totalIters) :=
      uint_eq_ok.mpr ⟨rfl,by omega⟩
    rw [if_pos hlt,if_pos hlt,pure_bind]
    dsimp only
    rw [bind_of_ok hback,bind_of_ok (assertSome_eq_ok.mpr hcc),bind_of_ok (index_eq_ok.mpr hcclast),
      bind_of_ok hiters,hchallenge,houtput]
    rfl
  · obtain ⟨_,rc,-,-,hrc,hrclast⟩ := ha.lastHashes (hstop.resolve_right hlt) haslot
    have hiters : uint64 (spIters : ℤ) = .ok spIters := uint_eq_ok.mpr ⟨rfl,hbits⟩
    have hfrom : sp-slot.start=spIters := by omega
    rw [if_neg hlt,if_neg hlt,bind_of_ok (assertSome_eq_ok.mpr hrc),
      bind_of_ok (index_eq_ok.mpr hrclast),pure_bind]
    dsimp only
    rw [bind_of_ok hback,bind_of_ok (assertSome_eq_ok.mpr hcc),bind_of_ok (index_eq_ok.mpr hcclast),
      bind_of_ok hiters,hfrom]
    rfl

end SameSlot

section Overflow

theorem HeaderChain.overflow_prev (hl : HeaderChain E (b::p::l)) (hextra : E.numSpIntervalsExtra≤E.numSpsSubSlot)
    (hslots : b.slots=[]) (hover : b.record.overflow=true) : p.record.overflow=true := by
  obtain ⟨hstart,hle,hssi⟩ := hl.sameSlot hslots
  have htotal := hl.placed.total_eq
  have hptotal := hl.tail.placed.total_eq
  have hlt := (hl.placed.overflow_iff hextra).mp hover
  apply (hl.tail.placed.overflow_iff hextra).mpr
  rw [← hssi]
  omega

/-- Some block in the sub-slot of the newest one is an overflow block. -/
def overflowInSlot : List ChainLink → Prop
  | [] => False
  | b::l => b.record.overflow=true ∨ (b.slots=[] ∧ overflowInSlot l)

theorem overflowInSlot_prev (hl : HeaderChain E (b::p::l)) (hextra : E.numSpIntervalsExtra≤E.numSpsSubSlot)
    (hslots : b.slots=[]) (h : overflowInSlot (b::p::l)) : overflowInSlot (p::l) := by
  obtain hover | ⟨-,h⟩ := h
  · exact Or.inl (hl.overflow_prev hextra hslots hover)
  · exact h

theorem overflowInSlot_of_back (hl : HeaderChain E (b::l)) (hv : HasChain V (b::l)) {near : BlockRecord → Bool}
    (hnear : ∀ r,near r=true → r.overflow=true) {seen : Bool} {n : ℕ}
    (h : finalEosIsAlreadyIncluded.back V near n b.record seen = .ok true) : seen=true ∨ overflowInSlot (b::l) := by
  induction l generalizing b n seen with
  | nil =>
    have hfirst : b.record.firstInSubSlot=true := by simp [hl.first_iff]
    cases n with
    | zero => cases h
    | succ n =>
      rw [finalEosIsAlreadyIncluded.back,if_pos hfirst] at h
      exact Or.inl (Except.ok.inj h)
  | cons p l ih =>
    cases n with
    | zero => cases h
    | succ n =>
      rw [finalEosIsAlreadyIncluded.back] at h
      by_cases hfirst : b.record.firstInSubSlot=true
      · rw [if_pos hfirst] at h
        exact Or.inl (Except.ok.inj h)
      · have hslots := hl.slots_nil hfirst
        have hprev : V.blockRecord b.record.prevHash = .ok p.record := lookup_eq_ok.mpr (hv.prev hl)
        rw [if_neg hfirst,if_neg (by rw [hl.height_succ]; exact Nat.succ_ne_zero _),bind_of_ok hprev] at h
        obtain hseen | hin := ih hl.tail hv.tail h
        · obtain hseen | hb := Bool.or_eq_true_iff.mp hseen
          · exact Or.inl hseen
          · exact Or.inr (Or.inl (hnear _ hb))
        · exact Or.inr (Or.inr ⟨hslots,hin⟩)

theorem HeaderChain.overflowIters (hl : HeaderChain E (b::p::l)) (hslots : b.slots.length=1)
    (hover : b.record.overflow=true) : b.record.subSlotIters=p.record.subSlotIters := by
  obtain ⟨V,c,x,-,hc⟩ := hl.passed
  obtain ⟨q,hq⟩ := hc.iters
  obtain ⟨difficulty,hnext⟩ := hc.next
  have hafter := hl.tail.ipPlace_le hc.prev
  rw [← hc.subSlotIters,← hc.prev,← hc.slots] at hnext
  rw [← hc.subSlotIters]
  apply HeaderCall.sameIters hl.tail hc.prev hnext hc.place (HeaderCall.iters_ok hq hafter).2.2.1
  right
  rw [hc.numSlots,hc.overflow,hslots]
  exact ⟨hover,Nat.lt_succ_self 1⟩

theorem startAfter_next {C : ConsensusConstants} {prevB : Option BlockRecord} {n ssi : ℕ} :
    startAfter C prevB (n+2) ssi=startAfter C prevB (n+1) ssi+ssi := by
  cases prevB with
  | none =>
    simp only [startAfter_none]
    ring
  | some prev =>
    simp only [startAfter_succ]
    ring

variable {cur prev : ChainSlot}

section
variable (hl : HeaderChain E (b::l))
include hl

theorem HeaderChain.prevSubSlot_listed (hover : overflowInSlot (b::l))
    {slots : List EndOfSubSlotBundle} {eos : EndOfSubSlotBundle} (hslots : b.slots=slots++[eos])
    {older : List ChainSlot} (hslot : recordedSubSlots E (b::l)=cur::prev::older) :
    prev.start+b.record.subSlotIters=b.record.start E.constants := by
  have hstart := hl.placed.start
  rw [recordedSubSlots_concat hslots] at hslot
  have hrest := (List.cons.inj hslot).2
  obtain rfl | ⟨slots,eos',rfl⟩ := List.eq_nil_or_concat slots
  · rw [newSubSlots_nil,List.nil_append] at hrest
    cases l with
    | nil => cases hrest
    | cons p l =>
      have hb : b.record.overflow=true := by
        obtain hb | ⟨hnil,-⟩ := hover
        · exact hb
        · simp [hnil] at hslots
      have hssi := hl.overflowIters (by rw [hslots]; rfl) hb
      rw [hl.tail.newest_start hrest,hstart,hslots,hssi]
      simp
  · rw [List.concat_eq_append,newSubSlots_concat,List.cons_append] at hrest
    obtain rfl := (List.cons.inj hrest).1
    rw [hstart,hslots]
    simp only [List.concat_eq_append,List.length_append,List.length_singleton,startAfter_next]
    rfl
theorem HeaderChain.prevSubSlot (hextra : E.numSpIntervalsExtra≤E.numSpsSubSlot)
    (hover : overflowInSlot (b::l)) {older : List ChainSlot}
    (hslot : recordedSubSlots E (b::l)=cur::prev::older) :
    prev.start+b.record.subSlotIters=b.record.start E.constants := by
  induction l generalizing b with
  | nil =>
    obtain hslots | ⟨slots,eos,hslots⟩ := List.eq_nil_or_concat b.slots
    · simp [recordedSubSlots,recordedAt,hslots] at hslot
    · exact hl.prevSubSlot_listed hover (by simpa using hslots) hslot
  | cons p l ih =>
    obtain hslots | ⟨slots,eos,hslots⟩ := List.eq_nil_or_concat b.slots
    · obtain ⟨hsame,-,hssi⟩ := hl.sameSlot hslots
      rw [hsame,hssi]
      apply ih hl.tail (overflowInSlot_prev hl hextra hslots hover)
      rw [← recordedSubSlots_skip hslots]
      exact hslot
    · exact hl.prevSubSlot_listed hover (by simpa using hslots) hslot

theorem lastTwoSubSlots_listed (hv : HasChain V (b::l))
    {slots : List EndOfSubSlotBundle} {eos : EndOfSubSlotBundle} (hslots : b.slots=slots++[eos])
    {older : List ChainSlot} (hslot : recordedSubSlots E (b::l)=cur::prev::older)
    (hnot : ¬ b.record.totalIters<sp) :
    ∃ found,lastTwoSubSlots V sp (b.record.height+1) b.record ((recordedAt E b l).map (·.hashes)) none =
      .ok (found,(l.find? (infusedBefore prev sp)).map (·.record)) ∧ found[1]?=some prev.hashes := by
  have hat : recordedAt E b l=newSubSlots E (l.head?.map (·.record)) b.record.subSlotIters b.slots := by
    simp [recordedAt,hslots]
  rw [recordedSubSlots,hat,hslots,newSubSlots_concat,List.cons_append] at hslot
  rw [hat,hslots,newSubSlots_concat]
  obtain ⟨rfl,hrest⟩ := List.cons.inj hslot
  obtain rfl | ⟨slots,eos',rfl⟩ := List.eq_nil_or_concat slots
  · rw [newSubSlots_nil,List.nil_append] at hrest
    rw [newSubSlots_nil]
    cases l with
    | nil => cases hrest
    | cons p l =>
      rw [List.map_singleton,lastTwoSubSlots_step hl hv (by simp),if_neg hnot,List.singleton_append]
      obtain ⟨found,hfound,hhead⟩ := lastTwoSubSlots_one hl.tail hv.tail hrest _
      refine ⟨_,hfound,?_⟩
      rw [List.getElem?_cons_succ,← List.head?_eq_getElem?]
      exact hhead
  · rw [List.concat_eq_append,newSubSlots_concat,List.cons_append] at hrest
    obtain ⟨rfl,-⟩ := List.cons.inj hrest
    rw [List.concat_eq_append,newSubSlots_concat,lastTwoSubSlots_stop (by simp),if_neg hnot,
      find?_earlier (hl.tail.before_next _ _)]
    exact ⟨_,rfl,rfl⟩

theorem lastTwoSubSlots_two (hv : HasChain V (b::l))
    {older : List ChainSlot} (hslot : recordedSubSlots E (b::l)=cur::prev::older)
    (hsp : sp≤b.record.start E.constants) :
    ∃ found,lastTwoSubSlots V sp (b.record.height+1) b.record ((recordedAt E b l).map (·.hashes)) none =
      .ok (found,((b::l).find? (infusedBefore prev sp)).map (·.record)) ∧ found[1]?=some prev.hashes := by
  have htotal := hl.placed.total_eq
  have hnot : ¬ b.record.totalIters<sp := by omega
  have hskip : ¬ infusedBefore prev sp b=true := by simp [infusedBefore,hnot]
  rw [List.find?_cons_of_neg hskip]
  induction l generalizing b with
  | nil =>
    obtain hslots | ⟨slots,eos,hslots⟩ := List.eq_nil_or_concat b.slots
    · simp [recordedSubSlots,recordedAt,hslots] at hslot
    · exact lastTwoSubSlots_listed hl hv (by simpa using hslots) hslot hnot
  | cons p l ih =>
    obtain hslots | ⟨slots,eos,hslots⟩ := List.eq_nil_or_concat b.slots
    · have hptotal := hl.tail.placed.total_eq
      rw [(hl.sameSlot hslots).1] at hsp
      have hpnot : ¬ p.record.totalIters<sp := by omega
      have hpskip : ¬ infusedBefore prev sp p=true := by simp [infusedBefore,hpnot]
      rw [recordedSubSlots_skip hslots] at hslot
      rw [recordedAt_nil hslots,List.map_nil,lastTwoSubSlots_step hl hv (by simp),if_neg hnot,List.nil_append,
        List.find?_cons_of_neg hpskip]
      exact ih hl.tail hv.tail hslot hsp hptotal hpnot hpskip
    · exact lastTwoSubSlots_listed hl hv (by simpa using hslots) hslot hnot

end

end Overflow

section Challenge

variable {wanted : ℕ}

theorem reversedChallengeHashes_step (hl : HeaderChain E (b::l)) {n : ℕ} {found r : List Bytes32}
    (hlen : found.length<wanted) (h : reversedChallengeHashes V wanted (n+1) found b.record = .ok r) :
    r=found++(recordedAt E b l).map (·.challenge) ∨ ∃ prev,V.blockRecord b.record.prevHash = .ok prev ∧
      b.record.height≠0 ∧
      reversedChallengeHashes V wanted n (found++(recordedAt E b l).map (·.challenge)) prev = .ok r := by
  have hrest : ∀ f,(if b.record.height=0 then do
        let hashes ← assertSome b.record.finishedChallengeSlotHashes
        assertThat (hashes.length > 0)
        pure f
      else do reversedChallengeHashes V wanted n f (← V.blockRecord b.record.prevHash) : Check (List Bytes32)) = .ok r →
      r=f ∨ ∃ prev,V.blockRecord b.record.prevHash = .ok prev ∧ b.record.height≠0 ∧
        reversedChallengeHashes V wanted n f prev = .ok r := by
    intro f hf
    by_cases hheight : b.record.height=0
    · rw [if_pos hheight] at hf
      obtain ⟨_,-,hf⟩ := bind_ok.mp hf
      obtain ⟨_,-,hf⟩ := bind_ok.mp hf
      exact Or.inl (Except.ok.inj hf).symm
    · rw [if_neg hheight] at hf
      obtain ⟨prev,hprev,hf⟩ := bind_ok.mp hf
      exact Or.inr ⟨prev,hprev,hheight,hf⟩
  apply hrest
  rw [reversedChallengeHashes,if_neg (by omega)] at h
  dsimp only at h
  by_cases hfirst : b.record.firstInSubSlot=true
  · rw [if_pos hfirst,bind_of_ok (assertSome_eq_ok.mpr (hl.recordedHashes hfirst).1),pure_bind,← List.map_reverse,
      List.reverse_reverse] at h
    exact h
  · rw [if_neg hfirst,pure_bind] at h
    rw [hl.recordedAt_eq_nil.mpr (Bool.eq_false_iff.mpr hfirst),List.map_nil,List.append_nil]
    exact h

theorem length_reversedChallengeHashes (hl : HeaderChain E (b::l)) (hv : HasChain V (b::l)) {n : ℕ}
    {found r : List Bytes32} (h : reversedChallengeHashes V wanted n found b.record = .ok r) :
    r.length≤found.length+(recordedSubSlots E (b::l)).length := by
  induction l generalizing b n found with
  | nil =>
    cases n with
    | zero => cases h
    | succ n =>
      by_cases hlen : found.length<wanted
      · obtain rfl | ⟨prev,-,hheight,-⟩ := reversedChallengeHashes_step hl hlen h
        · simp [recordedSubSlots]
        · exact absurd hl.height hheight
      · rw [reversedChallengeHashes,if_pos (by omega)] at h
        cases h
        omega
  | cons p l ih =>
    cases n with
    | zero => cases h
    | succ n =>
      by_cases hlen : found.length<wanted
      · obtain rfl | ⟨prev,hprev,-,hnext⟩ := reversedChallengeHashes_step hl hlen h
        · simp [recordedSubSlots]
        · obtain rfl : p.record=prev := Except.ok.inj ((lookup_eq_ok.mpr (hv.prev hl)).symm.trans hprev)
          have hle := ih hl.tail hv.tail hnext
          rw [recordedSubSlots,List.length_append]
          rw [List.length_append,List.length_map] at hle
          omega
      · rw [reversedChallengeHashes,if_pos (by omega)] at h
        cases h
        omega

theorem getBlockChallenge_recorded (hl : HeaderChain E (b::l)) (hv : HasChain V (b::l)) {prevHash challenge : Bytes32}
    (hprev : V.tryBlockRecord prevHash=some b.record)
    (h : getBlockChallenge E V [] prevHash false true false = .ok challenge) : 2≤(recordedSubSlots E (b::l)).length := by
  have hrecord : V.blockRecord prevHash = .ok b.record := lookup_eq_ok.mpr hprev
  unfold getBlockChallenge at h
  simp only [List.getLast?_nil,Bool.false_eq_true,if_false,not_false_eq_true,and_self,if_true] at h
  rw [bind_of_ok hrecord] at h
  obtain ⟨found,hfound,h⟩ := bind_ok.mp h
  have hsecond := index_eq_ok.mp h
  have hlen := length_reversedChallengeHashes hl hv hfound
  have hget := (List.getElem?_eq_some_iff.mp hsecond).1
  rw [List.length_nil] at hlen
  omega

end Challenge

section Exact

theorem vdfUpTo_start (h : ∀ a∈l,a.record.totalIters<slot.start) {spIters : ℕ} (hsp : sp=slot.start+spIters) :
    vdfUpTo E slot l sp=⟨slot.challenge,slot.rewardChallenge,getDefaultElement,spIters⟩ := by
  unfold vdfUpTo
  rw [find?_earlier h,hsp,Nat.add_sub_cancel_left]

/-- A result is about the newest sub-slot at the signage point, and the last infusion there. -/
def ExactSegment (E : Env) (newSlots : List ChainSlot) (l : List ChainLink) (spTotalIters : ℕ)
    (result : Check SignagePointVdfInfo) : Prop :=
  ∃ slot,(newSlots++subSlotsOf E l).find? (fun s => decide (s.start ≤ spTotalIters))=some slot ∧
    result = .ok (vdfUpTo E slot l spTotalIters)

/-- So it is, and that sub-slot has started `spIters` before. -/
def SegmentFrom (E : Env) (newSlots : List ChainSlot) (l : List ChainLink) (spTotalIters spIters : ℕ)
    (result : Check SignagePointVdfInfo) : Prop :=
  ∃ slot,(newSlots++subSlotsOf E l).find? (fun s => decide (s.start ≤ spTotalIters))=some slot ∧
    slot.start+spIters=spTotalIters ∧ result = .ok (vdfUpTo E slot l spTotalIters)

variable {newSlots older : List ChainSlot} {result : Check SignagePointVdfInfo} {spIters : ℕ}

theorem SegmentFrom.later (h : SegmentFrom E newSlots l sp spIters result) (hlater : sp<slot.start) :
    SegmentFrom E (slot::newSlots) l sp spIters result := by
  obtain ⟨found,hfind,hresult⟩ := h
  refine ⟨found,?_,hresult⟩
  rw [List.cons_append,List.find?_cons_of_neg (by simp [hlater])]
  exact hfind

theorem segmentFrom_head (hslot : newSlots++subSlotsOf E l=slot::older) (hsp : sp=slot.start+spIters)
    (hresult : result = .ok (vdfUpTo E slot l sp)) : SegmentFrom E newSlots l sp spIters result := by
  have hstart : slot.start ≤ sp := by omega
  refine ⟨slot,?_,hsp.symm,hresult⟩
  rw [hslot,List.find?_cons_of_pos (by simp [hstart])]

theorem segmentFrom_recorded (hslot : recordedSubSlots E l=slot::older) (hsp : sp=slot.start+spIters)
    (hresult : result = .ok (vdfUpTo E slot l sp)) : SegmentFrom E [] l sp spIters result := by
  obtain ⟨rest,hrest⟩ := subSlotsOf_recorded (E := E) (l := l)
  rw [hslot] at hrest
  exact segmentFrom_head hrest hsp hresult

variable {slots : List EndOfSubSlotBundle} {eos last : EndOfSubSlotBundle} {ssi : ℕ} {prevB : Option BlockRecord}

theorem getSignagePointVdfInfo_last : getSignagePointVdfInfo E V (slots++[eos]) false prevB sp spIters =
    .ok ⟨E.hashChallengeChainSubSlot eos.challengeChain,E.hashRewardChainSubSlot eos.rewardChain,getDefaultElement,
      spIters⟩ := by
  unfold getSignagePointVdfInfo
  simp [index]

theorem getSignagePointVdfInfo_secondLast : getSignagePointVdfInfo E V (slots++[eos,last]) true prevB sp spIters =
    .ok ⟨E.hashChallengeChainSubSlot eos.challengeChain,E.hashRewardChainSubSlot eos.rewardChain,getDefaultElement,
      spIters⟩ := by
  unfold getSignagePointVdfInfo
  simp [index]

variable {overflow : Bool}

theorem getSignagePointVdfInfo_ground (h : slots=[] ∨ overflow=true ∧ slots.length≤1) :
    getSignagePointVdfInfo E V slots overflow none sp spIters =
      .ok ⟨E.genesisChallenge,E.genesisChallenge,getDefaultElement,spIters⟩ := by
  unfold getSignagePointVdfInfo
  dsimp only
  obtain rfl | ⟨rfl,hlen⟩ := h
  · rw [if_neg (by simp),if_neg (by simp)]
    rfl
  · rw [if_neg (by simp),if_neg (by omega)]
    rfl

theorem segmentFrom_start (hl : HeaderChain E l)
    (hsp : sp=startAfter E.constants (l.head?.map (·.record)) (slots.length+1) ssi+spIters)
    (hresult : result = .ok ⟨E.hashChallengeChainSubSlot eos.challengeChain,E.hashRewardChainSubSlot eos.rewardChain,
      getDefaultElement,spIters⟩) :
    SegmentFrom E (newSubSlots E (l.head?.map (·.record)) ssi (slots++[eos])) l sp spIters result := by
  rw [newSubSlots_concat]
  apply segmentFrom_head rfl hsp
  rw [hresult,vdfUpTo_start (hl.before_next _ _) hsp]
  rfl

theorem getSignagePointVdfInfo_same {prev : BlockRecord}
    (h : slots.length=1 ∧ overflow=true ∨ slots=[] ∧ overflow=false) :
    getSignagePointVdfInfo E V slots overflow (some prev) sp spIters=signagePointVdfSameSlot V prev sp spIters := by
  unfold getSignagePointVdfInfo
  dsimp only
  obtain ⟨hlen,rfl⟩ | ⟨rfl,rfl⟩ := h
  · rw [if_neg (by simp),if_neg (by omega),if_pos ⟨by omega,rfl⟩]
  · rfl

variable {index : ℕ}

theorem Timed.ipPlace_ne_spPlace {C : ConsensusConstants} {index' required : ℕ} (h : Timed C ssi index' required) :
    ipPlace C ssi index' required≠spPlace C ssi index := by
  intro heq
  have hmod := congrArg (· % intervalOf C ssi) heq
  have hpos := h.required_pos
  simp only [ipPlace,spPlace,Nat.mul_add_mod,Nat.mul_mod_right,Nat.mod_eq_of_lt h.required_lt] at hmod
  omega

theorem segmentFrom_same (hl : HeaderChain E (p::l)) (hv : HasChain V (p::l))
    (hsp : sp=p.record.start E.constants+spPlace E.constants p.record.subSlotIters index)
    (hbits : spPlace E.constants p.record.subSlotIters index<2^64)
    (hresult : result=signagePointVdfSameSlot V p.record sp (spPlace E.constants p.record.subSlotIters index)) :
    SegmentFrom E [] (p::l) sp (spPlace E.constants p.record.subSlotIters index) result := by
  obtain ⟨slot,older,hslot,hstart⟩ := hl.newestSubSlot
  apply segmentFrom_recorded hslot (by omega)
  rw [hresult]
  apply signagePointVdfSameSlot_ok hl hv hslot (by omega) hbits
  intro q l' hq hqstart hqssi
  have htotal := hq.placed.total_eq
  have hne : q.record.ipPlace E.constants≠spPlace E.constants p.record.subSlotIters index := by
    rw [← hqssi]
    exact hq.placed.timed.ipPlace_ne_spPlace
  omega

/-- The sub-slot before the newest one of a chain, if there is one, is as long as that. -/
def LastSlotsAlike (E : Env) (l : List ChainLink) : Prop :=
  ∀ p∈l.head?,∀ cur prev older,recordedSubSlots E l=cur::prev::older →
    prev.start+p.record.subSlotIters=p.record.start E.constants

theorem segmentFrom_before (hl : HeaderChain E (p::l)) (hv : HasChain V (p::l))
    (halike : LastSlotsAlike E (p::l)) (hrecorded : 2≤(recordedSubSlots E (p::l)).length)
    (hsp : sp+p.record.subSlotIters=p.record.start E.constants+spIters)
    (hlt : spIters<p.record.subSlotIters) (hbits : spIters<2^64) :
    SegmentFrom E [] (p::l) sp spIters (getSignagePointVdfInfo E V [] true (some p.record) sp spIters) := by
  obtain ⟨cur,prev,older,hslot⟩ : ∃ cur prev older,recordedSubSlots E (p::l)=cur::prev::older := by
    match hslot : recordedSubSlots E (p::l) with
    | [] => simp [hslot] at hrecorded
    | [cur] => simp [hslot] at hrecorded
    | cur::prev::older => exact ⟨cur,prev,older,rfl⟩
  have hstart := halike p rfl cur prev older hslot
  have hcur := hl.newest_start hslot
  have hbefore : sp≤p.record.start E.constants := by omega
  obtain ⟨found,hfound,hsecond⟩ := lastTwoSubSlots_two hl hv hslot hbefore
  obtain ⟨rest,hrest⟩ := subSlotsOf_recorded (E := E) (l := p::l)
  refine ⟨prev,?_,by omega,?_⟩
  · rw [List.nil_append,hrest,hslot,List.cons_append,List.find?_cons_of_neg (by simp; omega),List.cons_append,
      List.find?_cons_of_pos (by simp; omega)]
  unfold getSignagePointVdfInfo vdfUpTo
  dsimp only
  rw [if_neg (by simp),if_neg (by simp),if_neg (by simp),if_pos rfl,bind_of_ok hl.foundSubSlots,bind_of_ok hfound]
  dsimp only
  rw [bind_of_ok (index_eq_ok.mpr hsecond)]
  cases hfind : (p::l).find? (infusedBefore prev sp) with
  | none =>
    have hfrom : sp-prev.start=spIters := by omega
    rw [Option.map_none,hfrom]
    rfl
  | some a =>
    have hinside := List.find?_some hfind
    simp only [infusedBefore,decide_eq_true_eq] at hinside
    obtain ⟨l',ha⟩ := hl.of_mem (List.mem_of_find?_eq_some hfind)
    obtain ⟨hchallenge,houtput⟩ := ha.infusion
    have hiters : uint64 ((sp : ℤ)-a.record.totalIters) = .ok (sp-a.record.totalIters) :=
      uint_eq_ok.mpr ⟨by omega,by omega⟩
    rw [Option.map_some]
    dsimp only
    rw [bind_of_ok hiters,hchallenge,houtput]
    rfl

theorem segmentFrom_ground (hresult : result = .ok ⟨E.genesisChallenge,E.genesisChallenge,getDefaultElement,sp⟩) :
    SegmentFrom E [] [] sp sp result := by
  have hstart : sp=(firstSubSlot E).start+sp := (Nat.zero_add sp).symm
  apply segmentFrom_head rfl hstart
  rw [hresult,vdfUpTo_start (by simp) hstart]
  rfl

theorem segmentFrom_notOverflow (hl : HeaderChain E l) (hv : HasChain V l)
    (hssi : slots=[] → ∀ p,l.head?=some p → ssi=p.record.subSlotIters)
    (hbits : spPlace E.constants ssi index<2^64)
    (hsp : sp=startAfter E.constants (l.head?.map (·.record)) slots.length ssi +
      spPlace E.constants ssi index) :
    SegmentFrom E (newSubSlots E (l.head?.map (·.record)) ssi slots) l sp (spPlace E.constants ssi index)
      (getSignagePointVdfInfo E V slots false (l.head?.map (·.record)) sp (spPlace E.constants ssi index)) := by
  obtain rfl | ⟨slots,eos,rfl⟩ := List.eq_nil_or_concat slots
  · cases l with
    | nil =>
      simp only [List.head?_nil,Option.map_none,List.length_nil,startAfter_none,Nat.mul_zero,Nat.zero_add] at hsp ⊢
      rw [← hsp]
      exact segmentFrom_ground (getSignagePointVdfInfo_ground (Or.inl rfl))
    | cons p l =>
      obtain rfl := hssi rfl p rfl
      apply segmentFrom_same hl hv hsp hbits
      exact getSignagePointVdfInfo_same (Or.inr ⟨rfl,rfl⟩)
  · rw [List.concat_eq_append] at hsp ⊢
    rw [List.length_append] at hsp
    exact segmentFrom_start hl hsp getSignagePointVdfInfo_last

theorem segmentFrom_overflow (hl : HeaderChain E l) (hv : HasChain V l)
    (hssi : slots=[] → ∀ p,l.head?=some p → ssi=p.record.subSlotIters)
    (hbits : spPlace E.constants ssi index<2^64)
    (hsp : sp+ssi=startAfter E.constants (l.head?.map (·.record)) (slots.length+1) ssi +
      spPlace E.constants ssi index) :
    SegmentFrom E (newSubSlots E (l.head?.map (·.record)) ssi slots) l sp (spPlace E.constants ssi index)
      (getSignagePointVdfInfo E V (slots++[last]) true (l.head?.map (·.record)) sp
        (spPlace E.constants ssi index)) := by
  obtain rfl | ⟨slots,eos,rfl⟩ := List.eq_nil_or_concat slots
  · cases l with
    | nil =>
      simp only [List.head?_nil,Option.map_none,List.length_nil,startAfter_none] at hsp ⊢
      have hsame : sp=spPlace E.constants ssi index := by omega
      rw [← hsame]
      exact segmentFrom_ground (getSignagePointVdfInfo_ground (Or.inr ⟨rfl,le_rfl⟩))
    | cons p l =>
      obtain rfl := hssi rfl p rfl
      simp only [List.head?_cons,Option.map_some,List.length_nil,startAfter_succ] at hsp ⊢
      apply segmentFrom_same hl hv (by omega) hbits
      exact getSignagePointVdfInfo_same (Or.inl ⟨rfl,rfl⟩)
  · rw [List.concat_eq_append] at hsp ⊢
    rw [List.length_append,List.length_singleton,startAfter_next] at hsp
    have hfrom : sp=startAfter E.constants (l.head?.map (·.record)) (slots.length+1) ssi +
        spPlace E.constants ssi index := by omega
    apply segmentFrom_start hl hfrom
    rw [List.append_assoc]
    exact getSignagePointVdfInfo_secondLast

end Exact

section Header
variable {c : HeaderCall} {x : HeaderPlace}

/-- An overflow block in the sub-slot of the previous one is not the first there; the sub-slot
before is as long. -/
theorem lastSlotsAlike_of_place (hextra : E.numSpIntervalsExtra≤E.numSpsSubSlot) (hl : HeaderChain E (p::l))
    (hv : HasChain V (p::l)) (hprev : c.prevB V=some p.record) (hx : c.place E V = .ok x) (hover : x.overflow=true)
    (hskip : x.skip=false) (hslots : c.header.finishedSubSlots=[]) {required : ℕ}
    (htimed : Timed E.constants p.record.subSlotIters c.header.rewardChainBlock.signagePointIndex required)
    (htotal : c.header.rewardChainBlock.totalIters=p.record.start E.constants +
      ipPlace E.constants p.record.subSlotIters c.header.rewardChainBlock.signagePointIndex required)
    (hlast : c.skipOverflowLastSsValidation=false → p.record.totalIters ≤ c.header.rewardChainBlock.totalIters ∨
      LastSlotsAlike E (p::l)) : LastSlotsAlike E (p::l) := by
  obtain ⟨hplace,hskipSlots,-⟩ := HeaderCall.place_ok hx
  have halike : overflowInSlot (p::l) → LastSlotsAlike E (p::l) := by
    intro hin q hq cur prev older hslot
    cases hq
    exact hl.prevSubSlot hextra hin hslot
  rw [hover,hskip] at hskipSlots
  unfold HeaderCall.skipSlots at hskipSlots
  by_cases hflag : c.skipOverflowLastSsValidation=true
  · rw [if_pos ⟨hflag,rfl⟩,hslots,finalEosIsAlreadyIncluded_walk hprev] at hskipSlots
    obtain ⟨answer,hanswer,hnot⟩ := bind_ok.mp hskipSlots
    have htrue : answer=true := by
      have heq := Except.ok.inj hnot
      rwa [Bool.not_eq_false'] at heq
    rw [htrue] at hanswer
    have hnear : ∀ r,nearOverflow c.header.rewardChainBlock.totalIters c.expectedSubSlotIters r=true →
        r.overflow=true := by
      intro r hr
      exact (Bool.and_eq_true_iff.mp hr).1
    apply halike
    obtain hseen | hin := overflowInSlot_of_back hl hv hnear hanswer
    · exact Or.inl (hnear _ hseen)
    · exact hin
  · obtain hle | hsame := hlast (Bool.eq_false_iff.mpr hflag)
    swap
    · exact hsame
    have hptotal := hl.placed.total_eq
    rw [hover] at hplace
    have hlt := (htimed.ipPlace_lt_iff hextra).mpr (of_decide_eq_true hplace.symm)
    exact halike (Or.inl ((hl.placed.overflow_iff hextra).mpr (by omega)))

variable {ccSp : Bytes32 × ℕ}

theorem recorded_of_space (hl : HeaderChain E (p::l)) (hv : HasChain V (p::l)) (hprev : c.prevB V=some p.record)
    (hover : x.overflow=true) (hskip : x.skip=false) (hslots : c.header.finishedSubSlots=[])
    (hspace : c.space E V x = .ok ccSp) : 2≤(recordedSubSlots E (p::l)).length := by
  unfold HeaderCall.space at hspace
  rw [hslots,hprev,hover,hskip] at hspace
  obtain ⟨challenge,hchallenge,-⟩ := bind_ok.mp hspace
  exact getBlockChallenge_recorded hl hv hprev hchallenge

theorem segmentFrom_header (hextra : E.numSpIntervalsExtra≤E.numSpsSubSlot) (hl : HeaderChain E l)
    (hv : HasChain V l) {c : HeaderCall} {x : HeaderPlace} {q : ℕ × ℕ}
    (hprev : c.prevB V=l.head?.map (·.record)) (hexpected : c.Expected E V) (hx : c.place E V = .ok x)
    (hspace : c.space E V x = .ok ccSp) (hiters : c.iters E V x ccSp.2 = .ok q)
    (hlast : c.skipOverflowLastSsValidation=false → x.overflow=true → c.header.finishedSubSlots=[] →
      (∀ prev,c.prevB V=some prev → prev.totalIters ≤ c.header.rewardChainBlock.totalIters) ∨ LastSlotsAlike E l) :
    SegmentFrom E (newSubSlots E (c.prevB V) c.expectedSubSlotIters c.header.finishedSubSlots) l q.2 q.1
      (getSignagePointVdfInfo E V (c.spSlots x) x.overflow (c.prevB V) q.2 q.1) := by
  have hbits := HeaderCall.spIters_lt hiters
  obtain ⟨htimed,hq,hepoch,htotal,hsum,-⟩ := HeaderCall.iters_ok hiters (hl.ipPlace_le hprev)
  have hlt := htimed.spPlace_lt
  obtain ⟨spIters,spTotal⟩ := q
  obtain rfl : spIters=_ := hq
  have hssi : c.header.finishedSubSlots=[] ∨ x.overflow=true ∧ c.numSlots x.overflow x.skip<2 →
      ∀ p,l.head?=some p → c.expectedSubSlotIters=p.record.subSlotIters := by
    intro hcase p hp
    cases l with
    | nil => cases hp
    | cons p' l =>
      cases hp
      exact HeaderCall.sameIters hl hprev hexpected hx hepoch hcase
  rw [hprev] at hsum htotal ⊢
  dsimp only at hsum hbits ⊢
  cases hover : x.overflow with
  | false =>
    have hnum : c.numSlots false x.skip=c.header.finishedSubSlots.length := if_neg (by simp)
    have hpass : c.spSlots x=c.header.finishedSubSlots := if_neg (by simp [hover])
    rw [hover,hnum,if_neg Bool.false_ne_true,Nat.add_zero] at hsum
    rw [hpass]
    exact segmentFrom_notOverflow hl hv (fun hslots => hssi (Or.inl hslots)) hbits hsum
  | true =>
    rw [hover,if_pos rfl] at hsum
    cases hskip : x.skip with
    | true =>
      have hnum : c.numSlots true true=c.header.finishedSubSlots.length+1 := if_pos ⟨rfl,rfl⟩
      have hpass : c.spSlots x=c.header.finishedSubSlots++[dummySubSlot] := if_pos (by simp [hover,hskip])
      rw [hskip,hnum] at hsum
      rw [hpass]
      exact segmentFrom_overflow hl hv (fun hslots => hssi (Or.inl hslots)) hbits hsum
    | false =>
      have hnum : c.numSlots true false=c.header.finishedSubSlots.length := if_neg (by simp)
      have hpass : c.spSlots x=c.header.finishedSubSlots := if_neg (by simp [hskip])
      rw [hskip,hnum] at hsum
      rw [hpass]
      obtain hslots | ⟨slots,eos,hslots⟩ := List.eq_nil_or_concat c.header.finishedSubSlots
      · have hiters := hssi (Or.inl hslots)
        rw [hslots] at hsum ⊢
        cases l with
        | nil =>
          simp only [List.head?_nil,Option.map_none,List.length_nil,startAfter_none] at hsum
          omega
        | cons p l =>
          have hsame := hiters p rfl
          rw [hover,hskip,hnum,hslots,hsame] at htotal
          rw [hsame] at hsum hbits htimed hlt ⊢
          have halike := lastSlotsAlike_of_place hextra hl hv hprev hx hover hskip hslots htimed htotal
            fun hflag => (hlast hflag hover hslots).imp_left fun hle => hle _ hprev
          exact segmentFrom_before hl hv halike (recorded_of_space hl hv hprev hover hskip hslots hspace) hsum hlt hbits
      · rw [List.concat_eq_append] at hslots
        have hcase : slots=[] → ∀ p,l.head?=some p → c.expectedSubSlotIters=p.record.subSlotIters := by
          intro hnil
          apply hssi
          right
          rw [hover,hskip,hnum,hslots,hnil]
          exact ⟨rfl,Nat.lt_succ_self 1⟩
        rw [hslots,List.length_append,List.length_singleton] at hsum
        rw [hslots,newSubSlots_concat]
        apply (segmentFrom_overflow hl hv hcase hbits hsum).later
        show spTotal<startAfter _ _ _ _
        omega

end Header

/-- The VDF of the signage point of a header that passes the checks before it is the one of its sub-slot from
the last infusion before it; only an overflow block without sub-slots has to be infused after its previous
block, where the sub-slot before had other iterations. -/
theorem getSignagePointVdfInfo_exact (hextra : E.numSpIntervalsExtra≤E.numSpsSubSlot) (hl : HeaderChain E l)
    (hv : HasChain V l) {c : HeaderCall} {x : HeaderPlace} {ccSp : Bytes32 × ℕ} {q : ℕ × ℕ}
    (hprev : c.prevB V=l.head?.map (·.record)) (hexpected : c.Expected E V) (hx : c.place E V = .ok x)
    (hspace : c.space E V x = .ok ccSp) (hiters : c.iters E V x ccSp.2 = .ok q)
    (hlast : c.skipOverflowLastSsValidation=false → x.overflow=true → c.header.finishedSubSlots=[] →
      (∀ prev,c.prevB V=some prev → prev.totalIters ≤ c.header.rewardChainBlock.totalIters) ∨ LastSlotsAlike E l) :
    ExactSegment E (newSubSlots E (c.prevB V) c.expectedSubSlotIters c.header.finishedSubSlots) l q.2
      (getSignagePointVdfInfo E V (c.spSlots x) x.overflow (c.prevB V) q.2 q.1) := by
  obtain ⟨slot,hfind,-,hresult⟩ := segmentFrom_header hextra hl hv hprev hexpected hx hspace hiters hlast
  exact ⟨slot,hfind,hresult⟩

section Late

/-- An overflow block on another one, from a signage point of the sub-slot before theirs. -/
def lateCall : HeaderCall where
  header := ⟨[],⟨1057,63,1,⟨0,some [],none,[],32,[]⟩,some ⟨1,1008,getDefaultElement⟩,[],
    some ⟨0,959,getDefaultElement⟩,[]⟩,some tinyProof,some tinyProof,⟨41,0,⟨0,⟨0,0⟩,some [],0,42⟩,[],none,none⟩,
    none,[]⟩
  checkFilter := false
  expectedDifficulty := 7
  expectedSubSlotIters := 1024
  skipOverflowLastSsValidation := false
  skipVdfIsValid := false
  checkSubEpochSummary := true

def latePlace : HeaderPlace := ⟨true,false,2,false,false⟩

theorem lateCall_order (prev : BlockRecord) (h : lateCall.prevB lateView=some prev) :
    prev.totalIters≤lateCall.header.rewardChainBlock.totalIters := by
  obtain rfl : lateSecondLink.record=prev := by
    have hrecord : lateCall.prevB lateView=some lateSecondLink.record := rfl
    exact Option.some.inj (hrecord.symm.trans h)
  decide +kernel

theorem getSignagePointVdfInfo_exact_late : ExactSegment tinyEnv [] [lateSecondLink,lateFirstLink] 1008
    (getSignagePointVdfInfo tinyEnv lateView [] true (some lateSecondLink.record) 1008 1008) := by
  have hspace : lateCall.space tinyEnv lateView latePlace = .ok (0,1) := by decide +kernel
  have hiters : lateCall.iters tinyEnv lateView latePlace 1 = .ok (1008,1008) := by decide +kernel
  have hexpected : lateCall.Expected tinyEnv lateView := by
    unfold HeaderCall.Expected
    decide +kernel
  exact getSignagePointVdfInfo_exact (by decide) lateChain lateView_hasChain rfl hexpected rfl hspace hiters
    fun _ _ _ => Or.inl lateCall_order

end Late

section Epoch

/-- A network with epochs of ten blocks, where every block is a challenge block. -/
def tenEnv : Env :=
  { tinyEnv with
    minBlocksPerChallengeBlock := 1
    maxSubSlotBlocks := 2
    subEpochBlocks := 10
    epochBlocks := 10 }

/-- Where the block of a height is infused in its sub-slot: late in the last one of the epoch. -/
def tenIp (height : ℕ) : ℕ := if height=9 then 977 else if height=10 then 145 else 49

def tenSp (height : ℕ) : Option VDFInfo := if height=9 then some ⟨0,928,getDefaultElement⟩ else none

/-- The end of the sub-slot before the block of a height, which ends the epoch in the end. -/
def tenEnd (height : ℕ) : EndOfSubSlotBundle where
  challengeChain := ⟨⟨if height=1 then 1 else 0,1024,getDefaultElement⟩,some 0,if height=10 then some 0 else none,
    if height=10 then some 3072 else none,if height=10 then some 21 else none⟩
  infusedChallengeChain := some ⟨⟨0,1024-tenIp (height-1),getDefaultElement⟩⟩
  rewardChain := ⟨⟨0,1024-tenIp (height-1),getDefaultElement⟩,0,some 0,1⟩
  proofs := ⟨tinyProof,some tinyProof,tinyProof⟩

def tenWeight (height : ℕ) : ℕ := if height=10 then 91 else 7*(height+1)

def tenBlock (height : ℕ) : FullBlock :=
  if height=0 then lateFirst else
  { tinyBlock (40+height) (39+height) height (tenWeight height) with
    finishedSubSlots := [tenEnd height]
    rewardChainBlock := ⟨tenWeight height,height,1024*height+tenIp height,if height=9 then 58 else 0,0,
      ⟨0,some [],none,[],32,[]⟩,tenSp height,[],⟨0,tenIp height,getDefaultElement⟩,tenSp height,[],
      ⟨0,tenIp height,getDefaultElement⟩,none,true⟩
    challengeChainSpProof := if height=9 then some tinyProof else none
    rewardChainSpProof := if height=9 then some tinyProof else none
    foliage := ⟨39+height,0,⟨0,⟨0,0⟩,some [],0,40+height⟩,[],some 0,some []⟩
    foliageTransactionBlock := some ⟨39+height,height+1,0,0,0,0⟩
    transactionsInfo := some ⟨0,ones32,[],0,0,[]⟩ }

def tenIters (height : ℕ) : ℕ := if height=10 then 3072 else 1024

def tenLink (height : ℕ) : ChainLink where
  block := tenBlock height
  record := headerBlockToSubBlockRecord tenEnv 1 (tenBlock height) (tenIters height) false 0 (height-1)
    (if height=10 then some ⟨1,1,0,none,none⟩ else none)

def tenLinks : ℕ → List ChainLink
  | 0 => []
  | n+1 => tenLink n::tenLinks n

def tenView : BlockView :=
  ⟨(List.range 11).foldl (fun d n => d.set (BitVec.ofNat 256 (40+n)) (tenLink n).record) Lib.Dict.empty,Lib.Dict.empty⟩

theorem ten_known : ∀ n<11,tenView.blockRecords.get? (tenLink n).record.headerHash=some (tenLink n).record ∧
    tenView.tryBlockRecord (tenBlock n).prevHeaderHash=(tenLinks n).head?.map (·.record) ∧
    ∀ a∈(tenLinks n).head?,(tenLink n).record.prevHash=a.record.headerHash := by decide +kernel

theorem ten_validated : ∀ n<11,getNextSubSlotItersAndDifficulty tenEnv.constants tenView
      (!(tenLink n).slots.isEmpty) ((tenLinks n).head?.map (·.record)) = .ok (tenIters n,if n=10 then 21 else 7) ∧
    getBlockHeader tenEnv (tenBlock n) [] [] = .ok (headerOf (tenBlock n)) ∧
    validateFinishedHeaderBlock tenEnv tenView (headerOf (tenBlock n)) false (if n=10 then 21 else 7) (tenIters n) true =
      .ok 1 ∧ blockToBlockRecord tenEnv tenView 1 (tenBlock n) = .ok (tenLink n).record := by decide +kernel

theorem tenLinks_known {n : ℕ} (h : n≤11) {a : ChainLink} (ha : a∈tenLinks n) :
    tenView.blockRecords.get? a.record.headerHash=some a.record := by
  induction n with
  | zero => cases ha
  | succ n ih =>
    obtain rfl | ha := List.mem_cons.mp ha
    · exact (ten_known n h).1
    · exact ih (Nat.le_of_succ_le h) ha

theorem tenLinks_length (n : ℕ) : (tenLinks n).length=n := by
  induction n with
  | zero => rfl
  | succ n ih => rw [tenLinks,List.length_cons,ih]

theorem tenChain {n : ℕ} (h : n≤11) : HeaderChain tenEnv (tenLinks n) := by
  induction n with
  | zero => exact .nil
  | succ n ih =>
    obtain ⟨-,hprev,hhash⟩ := ten_known n h
    obtain ⟨hnext,hheader,hvalid,hrecord⟩ := ten_validated n h
    have hheight : (tenLink n).record.height=(tenLinks n).length := by
      rw [tenLinks_length]
      by_cases hn : n=0
      · rw [hn]
        rfl
      · simp [tenLink,tenBlock,headerBlockToSubBlockRecord,hn]
        rfl
    exact .next tenView (ih (Nat.le_of_succ_le h)) (fun a ha => tenLinks_known (Nat.le_of_succ_le h) ha)
      ⟨hprev,[],[],_,_,_,1,hnext,hheader,hvalid,hrecord⟩ hheight hhash

theorem tenView_hasChain : HasChain tenView (tenLinks 11) where
  known a ha := tenLinks_known le_rfl ha
  ground a ha := by
    obtain rfl : tenLink 0=a := Option.some.inj ha
    decide +kernel

/-- A finished overflow block in the first sub-slot of an epoch, with a signage point from the old
one. -/
def tenCall : HeaderCall where
  header := ⟨[],⟨10289,62,0,⟨0,some [],none,[],32,[]⟩,some ⟨0,2976,getDefaultElement⟩,[],
    some ⟨0,2976,getDefaultElement⟩,[]⟩,some tinyProof,some tinyProof,⟨50,0,⟨0,⟨0,0⟩,some [],0,51⟩,[],none,none⟩,
    none,[]⟩
  checkFilter := false
  expectedDifficulty := 21
  expectedSubSlotIters := 3072
  skipOverflowLastSsValidation := false
  skipVdfIsValid := false
  checkSubEpochSummary := true

def tenPlace : HeaderPlace := ⟨true,false,11,false,false⟩

theorem tenSlot : (subSlotsOf tenEnv (tenLinks 11)).find? (fun s => decide (s.start≤10144))=some ⟨0,0,9216⟩ := rfl

/-- The sub-slot of the signage point starts 928 iterations before that, and the answer counts 2976. -/
theorem getSignagePointVdfInfo_otherIters : HeaderChain tenEnv (tenLinks 11) ∧ HasChain tenView (tenLinks 11) ∧
    tenCall.prevB tenView=(tenLinks 11).head?.map (·.record) ∧ tenCall.Expected tenEnv tenView ∧
    tenCall.place tenEnv tenView = .ok tenPlace ∧ tenCall.space tenEnv tenView tenPlace = .ok (0,1) ∧
    tenCall.iters tenEnv tenView tenPlace 1 = .ok (2976,10144) ∧
    (getSignagePointVdfInfo tenEnv tenView (tenCall.spSlots tenPlace) true (tenCall.prevB tenView) 10144 2976).map
      (·.spVdfIters) = .ok 2976 ∧
    ¬ ExactSegment tenEnv (newSubSlots tenEnv (tenCall.prevB tenView) 3072 []) (tenLinks 11) 10144
      (getSignagePointVdfInfo tenEnv tenView (tenCall.spSlots tenPlace) true (tenCall.prevB tenView) 10144 2976) := by
  have hiters : (getSignagePointVdfInfo tenEnv tenView (tenCall.spSlots tenPlace) true (tenCall.prevB tenView) 10144 2976).map
    (·.spVdfIters) = .ok 2976 := by decide +kernel
  have hexpected : tenCall.Expected tenEnv tenView := by
    unfold HeaderCall.Expected
    decide +kernel
  refine ⟨tenChain le_rfl,tenView_hasChain,by decide +kernel,hexpected,by decide +kernel,by decide +kernel,
    by decide +kernel,hiters,?_⟩
  rintro ⟨slot,hfind,hresult⟩
  have hright : (vdfUpTo tenEnv ⟨0,0,9216⟩ (tenLinks 11) 10144).spVdfIters=928 := by decide +kernel
  obtain rfl := Option.some.inj (tenSlot.symm.trans hfind)
  rw [hresult] at hiters
  cases hright.symm.trans (Except.ok.inj hiters)

end Epoch

end RoseChain
