import RoseChain.Consensus.HeaderStages
import RoseChain.FullNode.SubSlotAdmission

namespace RoseChain
open Lib ClassgroupElement
namespace FullNodeStore
variable {E : Env} {V : BlockView} {ι : Type} {peak : Option (PeakOnChain E V)} {s s' : FullNodeStore ι}
  {eos : EndOfSubSlotBundle}

section Checked
variable {prevB : Option BlockRecord} {previous : Option EndOfSubSlotBundle} {epoch : Bool} {difficulty iters : ℕ}
  {ses after : Option Bytes32}

/-- The checks on one finished sub-slot that bear on the store's. -/
structure Checked (E : Env) (V : BlockView) (prevB : Option BlockRecord) (previous : Option EndOfSubSlotBundle)
    (iters : ℕ) (eos : EndOfSubSlotBundle) : Prop where
  challenge : SubSlot.challenge E V prevB previous eos = .ok ()
  icc : validateIcc E V prevB previous eos false = .ok ()
  vdfs : ∃ t,SubSlot.chains E prevB previous iters = .ok t ∧ SubSlot.vdfs E prevB previous iters false eos t = .ok ()
  summary : previous.isSome → eos.challengeChain.subepochSummaryHash=none

theorem checked_of_ok
    (h : validateFinishedSubSlot E V prevB previous epoch difficulty iters false ses eos = .ok after) :
    Checked E V prevB previous iters eos ∧ SubSlot.summaryHash ses eos = .ok after := by
  rw [SubSlot.validateFinishedSubSlot_eq] at h
  obtain ⟨_,hchallenge,h⟩ := bind_ok.mp h
  obtain ⟨_,hicc,h⟩ := bind_ok.mp h
  obtain ⟨found,hfound,h⟩ := bind_ok.mp h
  obtain ⟨_,hchanges,h⟩ := bind_ok.mp h
  obtain ⟨t,ht,h⟩ := bind_ok.mp h
  obtain ⟨_,hvdfs,h⟩ := bind_ok.mp h
  rw [← Except.ok.inj h]
  refine ⟨⟨hchallenge,hicc,⟨t,ht,hvdfs⟩,?_⟩,hfound⟩
  intro hsome
  unfold SubSlot.changes at hchanges
  obtain ⟨_,hlate,-⟩ := bind_ok.mp hchanges
  exact Option.not_isSome_iff_eq_none.mp fun hses => reject_eq_ok.mp hlate ⟨hsome,hses⟩

/-- The iterations that the challenge chain commits to. -/
def committedIters (E : Env) (prevB : Option BlockRecord) (previous : Option EndOfSubSlotBundle) (iters : ℕ) : ℕ :=
  match previous,prevB with
  | _,none => E.subSlotItersStarting
  | none,some prev => prev.subSlotIters
  | some _,some _ => iters

variable {t : Bytes32 × ℕ × ClassgroupElement}

section
variable (h : SubSlot.vdfs E prevB previous iters false eos t = .ok ())
include h

theorem challengeVdfs_of_vdfs (iccStart : Option ClassgroupElement) (icc : Option (Bytes32 × ℕ)) :
    challengeVdfsValid E eos eos.challengeChain.challengeChainEndOfSlotVdf.challenge
      (committedIters E prevB previous iters) ⟨t.1,t.2.2,iccStart,icc,t.2.1⟩=true := by
  unfold SubSlot.vdfs at h
  obtain ⟨_,hrc,h⟩ := bind_ok.mp h
  obtain ⟨_,hcc,h⟩ := bind_ok.mp h
  obtain ⟨_,hproof,-⟩ := bind_ok.mp h
  rw [reject_eq_ok] at hrc hcc hproof
  simp only [Bool.false_eq_true,not_false_eq_true,true_and,not_not] at hrc hcc hproof
  simp only [challengeVdfsValid,Bool.and_eq_true,decide_eq_true_eq]
  exact ⟨⟨hcc,hproof⟩,hrc⟩

theorem deficit_of_vdfs : eos.rewardChain.deficit=requiredDeficit E prevB := by
  unfold SubSlot.vdfs at h
  obtain ⟨_,-,h⟩ := bind_ok.mp h
  obtain ⟨_,-,h⟩ := bind_ok.mp h
  obtain ⟨_,-,h⟩ := bind_ok.mp h
  cases prevB with
  | none => exact not_not.mp (reject_eq_ok.mp h)
  | some prev =>
    unfold requiredDeficit
    dsimp only at h ⊢
    split_ifs at h ⊢
    · exact not_not.mp (reject_eq_ok.mp h)
    · exact not_not.mp (reject_eq_ok.mp h)

end

variable {slot : SlotEnd}

theorem rcChallenge_of_valid {challenge : Bytes32} {n : ℕ}
    (h : challengeVdfsValid E eos challenge n slot=true) : eos.rewardChain.endOfSlotVdf.challenge=slot.rcChallenge := by
  simp only [challengeVdfsValid,VDFProof.isValid,Option.all_some,Bool.and_eq_true,decide_eq_true_eq] at h
  rw [h.2.1.1]

/-- A bundle without an infused challenge chain has no proof of one. -/
def ProofsFit (eos : EndOfSubSlotBundle) : Prop :=
  eos.infusedChallengeChain=none → eos.proofs.infusedChallengeChainSlotProof=none

theorem infused_of_validateIcc {prev : BlockRecord}
    (he : expectedIcc E V prev previous = .ok (iccExpectation slot))
    (h : validateIcc E V (some prev) previous eos false = .ok ()) (hproof : ProofsFit eos) :
    infusedVdfValid E eos slot = .ok true := by
  have hpresent := isNone_of_validateIcc he h
  unfold validateIcc at h
  dsimp only at h
  rw [bind_of_ok he] at h
  obtain ⟨_,-,h⟩ := bind_ok.mp h
  obtain ⟨rcChallenge,ccStart,iccStart,icc,n⟩ := slot
  cases icc with
  | none =>
    have hnone : eos.infusedChallengeChain=none := Option.isNone_iff_eq_none.mp hpresent
    unfold infusedVdfValid
    rw [hnone,hproof hnone]
    rfl
  | some c =>
    cases hchain : eos.infusedChallengeChain with
    | none =>
      rw [hchain] at hpresent
      cases hpresent
    | some chain =>
      rw [hchain] at h
      obtain ⟨e,hexpected,h⟩ := bind_ok.mp h
      obtain ⟨input,hinput,h⟩ := bind_ok.mp h
      obtain ⟨proof,hp,h⟩ := bind_ok.mp h
      obtain ⟨_,hvdf,h⟩ := bind_ok.mp h
      obtain ⟨_,hvalid,-⟩ := bind_ok.mp h
      rw [assertSome_eq_ok] at hexpected hinput hp
      obtain rfl := Option.some.inj hexpected
      rw [reject_eq_ok] at hvdf hvalid
      simp only [Bool.false_eq_true,not_false_eq_true,true_and,not_not] at hvdf hvalid
      have hstart : iccStart=some input := hinput
      unfold infusedVdfValid
      rw [hchain,hp,hstart]
      show Except.ok _=Except.ok true
      rw [hvalid,Bool.and_true,decide_eq_true hvdf]

theorem Checked.deficit (hv : Checked E V prevB previous iters eos) :
    eos.rewardChain.deficit=requiredDeficit E prevB := by
  obtain ⟨_,-,hvdfs⟩ := hv.vdfs
  exact deficit_of_vdfs hvdfs

end Checked

section Step

variable {n : ℕ}

theorem finishSlot_accepts {challenge : Bytes32} {total : ℕ} {slot : SlotEnd}
    (hvdfs : challengeVdfsValid E eos challenge n slot=true) (hicc : infusedVdfValid E eos slot = .ok true) :
    ∃ waiting s',finishSlot E s eos challenge n total slot = .ok (some waiting,s') ∧
      s'.finishedSubSlots=s.finishedSubSlots++[(some eos,total)] := by
  unfold finishSlot
  rw [if_pos hvdfs,hicc]
  exact ⟨_,_,rfl,rfl⟩

/-- The store takes a bundle in, behind the ones it has. -/
def Accepts (peak : Option (PeakOnChain E V)) (s : FullNodeStore ι) (eos : EndOfSubSlotBundle) (total : ℕ) : Prop :=
  ∃ waiting s',newFinishedSubSlot E V s eos (peak.map (·.both)) = .ok (some waiting,s') ∧
    s'.finishedSubSlots=s.finishedSubSlots++[(some eos,total)]

def New (s : FullNodeStore ι) (eos : EndOfSubSlotBundle) : Prop :=
  (s.finishedSubSlots.any fun slot => decide (slot.1=some eos))=false

theorem peakIn_start (p : PeakOnChain E V) : peakIn (some p.both) p.start=some p.both := by
  have hpos := p.ipIters_pos
  have htotal := p.totalIters_eq
  have hafter : p.record.totalIters > p.start := by omega
  simp [peakIn,PeakOnChain.both,Option.filter,hafter]

variable {p : PeakOnChain E V}

theorem peakIn_behind (h : p.record.totalIters≤n) : peakIn (some p.both) n=none := by
  have hafter : ¬ p.record.totalIters > n := Nat.not_lt.mpr h
  simp [peakIn,PeakOnChain.both,Option.filter,hafter]

theorem acceptsOfPeak {iters : ℕ} (hlast : s.finishedSubSlots.getLast?=some (p.slot,p.start))
    (hnew : New s eos) (hv : Checked E V (some p.record) none iters eos)
    (hbound : p.start+p.record.subSlotIters<2^128) (hses : sesAgrees E V p.record p.block eos = .ok true)
    (hproof : ProofsFit eos) : Accepts (some p) s eos (p.start+p.record.subSlotIters) := by
  have hlt := p.ipIters_lt
  have htotal := p.totalIters_eq
  have hssi := p.subSlotIters_lt
  -- the challenge is that of the peak's slot
  obtain ⟨curr,hashes,hwalk,hhashes,hgetLast⟩ := p.challenge
  have hlink : eos.challengeChain.challengeChainEndOfSlotVdf.challenge=ccAfter E p.slot := by
    have hchallenge := hv.challenge
    unfold SubSlot.challenge at hchallenge
    dsimp only at hchallenge
    rw [bind_of_ok hwalk,bind_of_ok (assertSome_eq_ok.mpr hhashes),
      bind_of_ok (index_eq_ok.mpr hgetLast)] at hchallenge
    exact (not_not.mp (reject_eq_ok.mp hchallenge)).symm
  obtain ⟨t,ht,hvdfs⟩ := hv.vdfs
  have hlen : uint64 ((p.record.subSlotIters : ℤ)-p.ipIters) = .ok (p.record.subSlotIters-p.ipIters) :=
    uint_eq_ok.mpr ⟨by omega,by omega⟩
  have hchains : SubSlot.chains E (some p.record) none iters =
      .ok (p.record.rewardInfusionNewChallenge,p.record.subSlotIters-p.ipIters,p.record.challengeVdfOutput) := by
    unfold SubSlot.chains
    dsimp only
    rw [bind_of_ok p.ipIters_eq,bind_of_ok hlen]
    rfl
  obtain rfl := Except.ok.inj (ht.symm.trans hchains)
  obtain ⟨icc,hicc,-,hexpected⟩ := p.iccOfPeak_ok
  have hvalid := challengeVdfs_of_vdfs hvdfs (iccStartOfPeak E p.record) icc
  rw [hlink] at hvalid
  have hinfused : infusedVdfValid E eos ⟨p.record.rewardInfusionNewChallenge,p.record.challengeVdfOutput,
    iccStartOfPeak E p.record,icc,p.record.subSlotIters-p.ipIters⟩ = .ok true :=
      infused_of_validateIcc hexpected hv.icc hproof
  have hend : uint128 ((p.start : ℤ)+p.record.subSlotIters) = .ok (p.start+p.record.subSlotIters) :=
    uint_eq_ok.mpr ⟨(Nat.cast_add _ _).symm,hbound⟩
  have hrest : uint64 (((p.start+p.record.subSlotIters : ℕ) : ℤ)-p.record.totalIters) =
      .ok (p.record.subSlotIters-p.ipIters) := uint_eq_ok.mpr ⟨by omega,by omega⟩
  have hin : peakIn (some (p.record,p.block)) p.start=some (p.record,p.block) := peakIn_start p
  have hrc := rcChallenge_of_valid hvalid
  unfold Accepts newFinishedSubSlot
  rw [bind_of_ok (assertSome_eq_ok.mpr hlast)]
  unfold New at hnew
  simp only [hnew,hlink,PeakOnChain.both,slotIters,Option.map_some,Bool.false_eq_true,if_false,ne_eq,
    not_true_eq_false]
  rw [bind_of_ok hend,hin]
  dsimp only
  rw [bind_of_ok hrest,if_neg (not_not.mpr hrc.symm),bind_of_ok hicc,bind_of_ok hses]
  exact finishSlot_accepts hvalid hinfused

variable {last : Option EndOfSubSlotBundle × ℕ}

theorem acceptsOfEmpty (hlast : s.finishedSubSlots.getLast?=some last)
    (hnew : New s eos) (hlink : eos.challengeChain.challengeChainEndOfSlotVdf.challenge=ccAfter E last.1)
    (hout : peakIn (peak.map (·.both)) last.2=none) (hbound : last.2+slotIters E (peak.map (·.both))<2^128)
    (hvalid : ∀ iccStart icc,challengeVdfsValid E eos (ccAfter E last.1) (slotIters E (peak.map (·.both)))
      ⟨rcAfter E last.1,getDefaultElement,iccStart,icc,slotIters E (peak.map (·.both))⟩=true)
    (hinfused : infusedVdfValid E eos ⟨rcAfter E last.1,getDefaultElement,some getDefaultElement,
      (iccAfter E last.1).map (·,slotIters E (peak.map (·.both))),slotIters E (peak.map (·.both))⟩ = .ok true) :
    Accepts peak s eos (last.2+slotIters E (peak.map (·.both))) := by
  have hend : uint128 ((last.2 : ℤ)+slotIters E (peak.map (·.both))) =
      .ok (last.2+slotIters E (peak.map (·.both))) := uint_eq_ok.mpr ⟨(Nat.cast_add _ _).symm,hbound⟩
  unfold Accepts newFinishedSubSlot
  rw [bind_of_ok (assertSome_eq_ok.mpr hlast)]
  unfold New at hnew
  simp only [hnew,hlink,Bool.false_eq_true,if_false,ne_eq,not_true_eq_false]
  rw [bind_of_ok hend,hout]
  exact finishSlot_accepts (hvalid _ _) hinfused

theorem LastSlot.next {iters : ℕ} (h : LastSlot E V peak last)
    (hv : Checked E V (peak.map (·.record)) (previousSlot peak last) iters eos)
    (hn : ∀ p,peak=some p → p.record.totalIters≤n) : LastSlot E V peak (some eos,n) := by
  have hdeficit := hv.deficit
  have hicc := hv.icc
  cases h with
  | genesis => exact .empty hdeficit (by simpa [validateIcc] using hicc)
  | empty _ _ => exact .empty hdeficit (by simpa [validateIcc] using hicc)
  | ofPeak p =>
    refine .behind (hn p rfl) hdeficit ?_
    intro _ hlt
    obtain ⟨icc,-,hsome,hexpected⟩ := p.iccOfPeak_ok
    have hprevious : previousSlot (some p) (p.slot,p.start)=none := by
      simp [previousSlot,peakIn_start]
    rw [hprevious] at hicc
    have hnone := isNone_of_validateIcc hexpected hicc
    rw [Option.isNone_map,← Option.not_isSome,← Option.not_isSome,hsome.mpr hlt] at hnone
    simpa using hnone
  | @behind p slot iters hle hslot hchain =>
    refine .behind (hn p rfl) hdeficit ?_
    intro hpos hlt
    have hprevious : previousSlot (some p) (some slot,iters)=some slot := by
      simp [previousSlot,peakIn_behind hle]
    rw [hprevious] at hicc
    have hd := hslot.trans (if_neg (by omega))
    have hne : p.record.deficit≠E.minBlocksPerChallengeBlock := by omega
    have hnone := isNone_of_validateIcc (expectedIcc_behind hslot hchain) hicc
    simp only [iccAfter,hd,hne,ne_eq,not_false_eq_true,if_true,Option.isNone_map] at hnone
    rw [← Option.not_isNone,hnone,Option.not_isNone]
    exact hchain hpos hlt

theorem previousSlot_next (eos : EndOfSubSlotBundle) (hn : ∀ p,peak=some p → p.record.totalIters≤n) :
    previousSlot peak (some eos,n)=some eos := by
  cases peak with
  | none => rfl
  | some p => simp [previousSlot,peakIn_behind (hn p rfl)]

/-- The iterations are those that the store counts with, where an empty slot ends. -/
def SameIters (peak : Option (PeakOnChain E V)) (previous : Option EndOfSubSlotBundle) (iters : ℕ) : Prop :=
  peak=none ∨ previous.isSome → iters=slotIters E (peak.map (·.both))

theorem acceptsStart {iters : ℕ}
    (hlast : s.finishedSubSlots.getLast?=some last) (hnew : New s eos) (hv : Checked E V none last.1 iters eos)
    (hsame : iters=E.subSlotItersStarting) (hnone : iccAfter E last.1=none)
    (hbound : last.2+E.subSlotItersStarting<2^128) (hproof : ProofsFit eos) :
    Accepts (none : Option (PeakOnChain E V)) s eos (last.2+E.subSlotItersStarting) := by
  have hicc : eos.infusedChallengeChain=none := by simpa [validateIcc] using hv.icc
  have hlink : eos.challengeChain.challengeChainEndOfSlotVdf.challenge=ccAfter E last.1 := by
    have hchallenge := hv.challenge
    cases hslot : last.1 with
    | none =>
      rw [hslot] at hchallenge
      exact not_not.mp (reject_eq_ok.mp hchallenge)
    | some slot =>
      rw [hslot] at hchallenge
      exact (not_not.mp (reject_eq_ok.mp hchallenge)).symm
  obtain ⟨t,ht,hvdfs⟩ := hv.vdfs
  have hchains : SubSlot.chains E none last.1 iters = .ok (rcAfter E last.1,E.subSlotItersStarting,getDefaultElement) := by
    rw [hsame]
    cases last.1 <;> rfl
  have hcommitted : committedIters E none last.1 iters=E.subSlotItersStarting := by
    cases last.1 <;> rfl
  obtain rfl := Except.ok.inj (ht.symm.trans hchains)
  refine acceptsOfEmpty hlast hnew hlink rfl hbound ?_ ?_
  · intro iccStart icc
    have hvalid := challengeVdfs_of_vdfs hvdfs iccStart icc
    rw [hlink,hcommitted] at hvalid
    exact hvalid
  · unfold infusedVdfValid
    rw [hnone,hicc,hproof hicc]
    rfl

theorem acceptsBehind {slot : EndOfSubSlotBundle} {iters : ℕ}
    (hlast : s.finishedSubSlots.getLast?=some (some slot,n)) (hnew : New s eos)
    (hv : Checked E V (some p.record) (some slot) iters eos) (hsame : iters=p.record.subSlotIters)
    (hle : p.record.totalIters≤n) (hdeficit : slot.rewardChain.deficit=requiredDeficit E (some p.record))
    (hchain : 0<p.record.deficit → p.record.deficit<E.minBlocksPerChallengeBlock →
      slot.infusedChallengeChain.isSome) (hbound : n+p.record.subSlotIters<2^128) (hproof : ProofsFit eos) :
    Accepts (some p) s eos (n+p.record.subSlotIters) := by
  have hlink : eos.challengeChain.challengeChainEndOfSlotVdf.challenge=ccAfter E (some slot) :=
    (not_not.mp (reject_eq_ok.mp hv.challenge)).symm
  obtain ⟨t,ht,hvdfs⟩ := hv.vdfs
  obtain rfl := Except.ok.inj ht
  subst hsame
  refine acceptsOfEmpty hlast hnew hlink (peakIn_behind hle) hbound ?_ ?_
  · intro iccStart icc
    have hvalid := challengeVdfs_of_vdfs hvdfs iccStart icc
    rw [hlink] at hvalid
    exact hvalid
  · apply infused_of_validateIcc _ hv.icc hproof
    rw [expectedIcc_behind hdeficit hchain]
    simp [iccExpectation,slotIters,PeakOnChain.both,Function.comp_def]

theorem LastSlot.accepts {iters : ℕ} (h : LastSlot E V peak last)
    (hlast : s.finishedSubSlots.getLast?=some last) (hnew : New s eos)
    (hv : Checked E V (peak.map (·.record)) (previousSlot peak last) iters eos)
    (hsame : SameIters peak (previousSlot peak last) iters)
    (hbound : last.2+slotIters E (peak.map (·.both))<2^128)
    (hses : ∀ p,peak=some p → previousSlot peak last=none → sesAgrees E V p.record p.block eos = .ok true)
    (hproof : ProofsFit eos) : Accepts peak s eos (last.2+slotIters E (peak.map (·.both))) := by
  cases h with
  | genesis => exact acceptsStart hlast hnew hv (hsame (Or.inl rfl)) rfl hbound hproof
  | empty hdeficit _ =>
    exact acceptsStart hlast hnew hv (hsame (Or.inl rfl)) (by simp [iccAfter,hdeficit]) hbound hproof
  | ofPeak p =>
    have hprevious : previousSlot (some p) (p.slot,p.start)=none := by simp [previousSlot,peakIn_start]
    rw [hprevious] at hv
    exact acceptsOfPeak hlast hnew hv hbound (hses p rfl hprevious) hproof
  | @behind p slot n hle hdeficit hchain =>
    have hprevious : previousSlot (some p) (some slot,n)=some slot := by simp [previousSlot,peakIn_behind hle]
    rw [hprevious] at hv hsame
    exact acceptsBehind hlast hnew hv (hsame (Or.inr rfl)) hle hdeficit hchain hbound hproof

end Step

end FullNodeStore
end RoseChain
