import RoseChain.FullNode.SubSlotAdmission
import RoseChain.Timelord.LastState

namespace RoseChain
open ClassgroupElement FullNodeStore
namespace Timelord
variable {E : Env} {V : BlockView} {s s' : LastState} {finished : List FinishedVdf}

/-- The VDF that the timelord runs for a chain, from its state to the end of the sub-slot. -/
def Asked (E : Env) (s : LastState) (chain : VdfChain) (f : VDFInfo × VDFProof) : Prop :=
  ∃ challenge form,s.getChallenge E chain = .ok (some challenge) ∧ s.getInitialForm E chain = .ok (some form) ∧
    f.1.challenge=challenge ∧ f.1.numberOfIterations=s.subSlotIters-s.lastIp ∧
    f.2.normalizedToIdentity=false ∧ f.2.isValid E form f.1 none=true

/-- The VDFs that were asked for are finished, one for each chain that has a challenge. -/
structure Finished (E : Env) (s : LastState) (finished : List FinishedVdf) : Prop where
  asked : ∀ chain f,finishedOf finished chain=some f → Asked E s chain f
  all : ∀ chain challenge,s.getChallenge E chain = .ok (some challenge) → (finishedOf finished chain).isSome
  length : ∀ icc,s.getChallenge E .infusedChallengeChain = .ok icc →
    finished.length=if icc.isSome then 3 else 2

section Bundle
variable {cc rc : Bytes32} {icc : Option Bytes32} {ccForm rcForm : ClassgroupElement}
  {iccForm : Option ClassgroupElement} {n : ℕ}

/-- What the chains of the ending sub-slot start from, in the state. -/
structure Chains (E : Env) (s : LastState) (cc rc : Bytes32) (icc : Option Bytes32) (ccForm : ClassgroupElement)
    (iccForm : Option ClassgroupElement) (n : ℕ) : Prop where
  challenge : s.getChallenge E .challengeChain = .ok (some cc)
  reward : s.getChallenge E .rewardChain = .ok (some rc)
  infused : s.getChallenge E .infusedChallengeChain = .ok icc
  form : s.getInitialForm E .challengeChain = .ok (some ccForm)
  rewardForm : s.getInitialForm E .rewardChain = .ok (some getDefaultElement)
  infusedForm : icc.isSome → s.getInitialForm E .infusedChallengeChain = .ok iccForm
  inSlot : s.lastIp ≤ s.subSlotIters
  sinceChallenge : icc.isSome → s.slotEnd-s.lastChallengeSbOrEosTotalIters=n
  atMostSlot : icc.isSome → n ≤ s.subSlotIters ∧ n<2^64
  whenZero : s.deficit=0 → icc.isSome
  whenFull : E.minBlocksPerChallengeBlock ≤ s.deficit → icc=none
  summary : ∃ ses,s.getNextSubEpochSummary = .ok ses

/-- What the chains say of the slot, in the validator's terms. -/
def Chains.slot (s : LastState) (rc : Bytes32) (icc : Option Bytes32) (ccForm : ClassgroupElement)
    (iccForm : Option ClassgroupElement) (n : ℕ) : SlotEnd :=
  ⟨rc,ccForm,iccForm,icc.map (·,n),s.subSlotIters-s.lastIp⟩

def endDeficit (E : Env) (s : LastState) : ℕ :=
  if E.minBlocksPerChallengeBlock > s.deficit ∧ s.deficit > 0 then s.deficit else E.minBlocksPerChallengeBlock

/-- What the bundle is like. -/
structure Built (E : Env) (s : LastState) (cc : Bytes32) (slot : SlotEnd) (eos : EndOfSubSlotBundle) : Prop where
  vdfs : challengeVdfsValid E eos cc s.subSlotIters slot=true
  infused : Infused E eos slot
  deficit : eos.rewardChain.deficit=endDeficit E s
  challengeHash : eos.rewardChain.challengeChainSubSlotHash=E.hashChallengeChainSubSlot eos.challengeChain
  infusedHash : eos.rewardChain.infusedChallengeChainSubSlotHash =
    eos.infusedChallengeChain.map E.hashInfusedChallengeChainSubSlot
  commitment : eos.challengeChain.infusedChallengeChainSubSlotHash =
    if eos.rewardChain.deficit=E.minBlocksPerChallengeBlock then
      eos.infusedChallengeChain.map E.hashInfusedChallengeChainSubSlot
    else none
  summary : ∃ ses,s.getNextSubEpochSummary = .ok ses ∧
    eos.challengeChain.subepochSummaryHash=ses.map E.hashSubEpochSummary ∧
    eos.challengeChain.newSubSlotIters=ses.bind (·.newSubSlotIters) ∧
    eos.challengeChain.newDifficulty=ses.bind (·.newDifficulty)

theorem isValidFrom_plain {p : VDFProof} {form : ClassgroupElement} {info full : VDFInfo}
    (hplain : p.normalizedToIdentity=false) (h : p.isValid E form info none=true) :
    p.isValidFrom E form info full=true := by
  rw [VDFProof.isValidFrom,hplain]
  exact h

theorem iccSubSlot_ok (hc : Chains E s cc rc icc ccForm iccForm n) (hf : Finished E s finished) :
    ∃ chain,iccSubSlot s (finishedOf finished .infusedChallengeChain) = .ok chain ∧
      chain.isNone=icc.isNone ∧ ∀ ccSubSlot rcSubSlot ccProof rcProof,Infused E
        ⟨ccSubSlot,chain,rcSubSlot,⟨ccProof,(finishedOf finished .infusedChallengeChain).map (·.2),rcProof⟩⟩
        (Chains.slot s rc icc ccForm iccForm n) := by
  cases hfinished : finishedOf finished .infusedChallengeChain with
  | none =>
    have hnone : icc=none := by
      cases icc with
      | none => rfl
      | some c =>
        have hsome := hf.all _ c hc.infused
        rw [hfinished] at hsome
        exact absurd hsome Bool.false_ne_true
    subst hnone
    exact ⟨none,rfl,rfl,fun _ _ _ _ => ⟨rfl,fun _ he => by cases he⟩⟩
  | some f =>
    obtain ⟨challenge,form,hchallenge,hform,hinfo,hiters,hplain,hvalid⟩ := hf.asked _ _ hfinished
    have hicc : icc=some challenge := Except.ok.inj (hc.infused.symm.trans hchallenge)
    subst hicc
    have hiccForm : iccForm=some form := Except.ok.inj ((hc.infusedForm rfl).symm.trans hform)
    subst hiccForm
    obtain ⟨hle,hlt⟩ := hc.atMostSlot rfl
    have hn : uint64 (s.slotEnd-s.lastChallengeSbOrEosTotalIters) = .ok n :=
      uint_eq_ok.mpr ⟨hc.sinceChallenge rfl,hlt⟩
    refine ⟨some ⟨⟨f.1.challenge,n,f.1.output⟩⟩,?_,rfl,fun _ _ _ _ => ⟨rfl,?_⟩⟩
    · unfold iccSubSlot
      dsimp only
      rw [bind_of_ok hn,bind_of_ok (assertThat_eq_ok (u := ()) |>.mpr hle)]
      rfl
    · rintro e ⟨⟩
      refine ⟨_,f.2,form,rfl,rfl,rfl,by rw [hinfo],isValidFrom_plain hplain ?_⟩
      have hsame : f.1=⟨challenge,s.subSlotIters-s.lastIp,f.1.output⟩ := by rw [← hinfo,← hiters]
      rw [hsame] at hvalid
      exact hvalid

theorem checkForEndOfSubslot_ok (hc : Chains E s cc rc icc ccForm iccForm n) (hf : Finished E s finished) :
    ∃ eos,checkForEndOfSubslot E s finished = .ok (some eos) ∧
      Built E s cc (Chains.slot s rc icc ccForm iccForm n) eos := by
  obtain ⟨chain,hchain,hpresent,hinfused⟩ := iccSubSlot_ok hc hf
  obtain ⟨ses,hses⟩ := hc.summary
  obtain ⟨⟨ccVdf,ccProof⟩,hcc⟩ := Option.isSome_iff_exists.mp (hf.all _ cc hc.challenge)
  obtain ⟨⟨rcVdf,rcProof⟩,hrc⟩ := Option.isSome_iff_exists.mp (hf.all _ rc hc.reward)
  obtain ⟨_,_,hccChallenge,hccForm,hccInfo,hccIters,hccPlain,hccValid⟩ := hf.asked _ _ hcc
  obtain ⟨_,_,hrcChallenge,hrcForm,hrcInfo,hrcIters,-,hrcValid⟩ := hf.asked _ _ hrc
  cases hc.challenge.symm.trans hccChallenge
  cases hc.form.symm.trans hccForm
  cases hc.reward.symm.trans hrcChallenge
  cases hc.rewardForm.symm.trans hrcForm
  dsimp only at hccInfo hccIters hccPlain hccValid hrcInfo hrcIters hrcValid
  have hzero : s.deficit=0 → chain.isSome := by
    intro hd
    rw [← Option.not_isNone,hpresent,Option.not_isNone]
    exact hc.whenZero hd
  unfold checkForEndOfSubslot
  rw [bind_of_ok hc.infused,if_neg (not_not.mpr (hf.length _ hc.infused)),bind_of_ok (assertSome_eq_ok.mpr hcc)]
  dsimp only
  rw [bind_of_ok (assertSome_eq_ok.mpr hrc)]
  dsimp only
  rw [bind_of_ok hc.reward,if_neg (not_not.mpr (congrArg some hrcInfo)),bind_of_ok hchain,
    bind_of_ok (assertThat_eq_ok (u := ()) |>.mpr hzero),bind_of_ok hses]
  refine ⟨_,rfl,?_,hinfused _ _ _ _,rfl,rfl,rfl,?_,ses,hses,rfl,rfl,rfl⟩
  · have hsame : ccVdf=⟨ccVdf.challenge,s.subSlotIters-s.lastIp,ccVdf.output⟩ := by rw [← hccIters]
    have hwhole : ccVdf.numberOfIterations+s.lastIp=s.subSlotIters := by
      have := hc.inSlot
      omega
    have hrcSame : rcVdf=⟨rcVdf.challenge,s.subSlotIters-s.lastIp,rcVdf.output⟩ := by rw [← hrcIters]
    simp only [challengeVdfsValid,Chains.slot,Bool.and_eq_true,decide_eq_true_eq]
    refine ⟨⟨?_,isValidFrom_plain hccPlain ?_⟩,?_⟩
    · rw [hccInfo,hwhole]
    · rw [hsame,hccInfo] at hccValid
      exact hccValid
    · rw [hrcSame,hrcInfo] at hrcValid ⊢
      simpa [VDFProof.isValid] using hrcValid
  · show (if s.deficit=0 then chain.map E.hashInfusedChallengeChainSubSlot else none) =
      if endDeficit E s=E.minBlocksPerChallengeBlock then chain.map E.hashInfusedChallengeChainSubSlot else none
    unfold endDeficit
    by_cases hd : s.deficit=0
    · simp [hd]
    · by_cases hfull : E.minBlocksPerChallengeBlock ≤ s.deficit
      · rw [hc.whenFull hfull] at hpresent
        have hnone : chain=none := Option.isNone_iff_eq_none.mp hpresent
        simp [hnone]
      · have hlt : E.minBlocksPerChallengeBlock > s.deficit := by omega
        have hpos : s.deficit > 0 := by omega
        have hne : s.deficit≠E.minBlocksPerChallengeBlock := by omega
        rw [if_neg hd,if_pos (And.intro hlt hpos),if_neg hne]

end Bundle

/-- A block of a valid chain as the timelord gets it. -/
structure TimelordPeak (E : Env) (V : BlockView) extends PeakOnChain E V where
  difficulty : ℕ
  spIters : ℕ
  rewardHash : E.hashRewardChainBlock block.rewardChainBlock=record.rewardInfusionNewChallenge
  blockTotalIters : block.rewardChainBlock.totalIters=record.totalIters
  ipOutput : block.rewardChainBlock.challengeChainIpVdf.output=record.challengeVdfOutput
  ipChallenge : block.rewardChainBlock.challengeChainIpVdf.challenge=ccAfter E slot
  infoHash : E.hashChallengeBlockInfo (LastState.challengeBlockInfo block.rewardChainBlock) =
    record.challengeBlockInfoHash
  infusedIff : block.rewardChainBlock.infusedChallengeChainIpVdf=none ↔
    (E.minBlocksPerChallengeBlock : ℤ)-1 ≤ record.deficit
  infusedOutput : block.rewardChainBlock.infusedChallengeChainIpVdf.map (·.output) =
    record.infusedChallengeVdfOutput
  infusedChallenge : ∀ vdf e,block.rewardChainBlock.infusedChallengeChainIpVdf=some vdf →
    expectedIcc E V record none = .ok (some e) → vdf.challenge=e.challengeHash
  iters : itersFromBlock E block.rewardChainBlock.signagePointIndex block.rewardChainBlock.posSsCcChallengeHash
    block.rewardChainBlock.proofOfSpace block.rewardChainBlock.challengeChainSpVdf record.subSlotIters difficulty =
      .ok (spIters,ipIters)
  slotStart : ∀ curr,V.walkBack (fun b => b.isChallengeBlock E.constants || b.firstInSubSlot) record =
    .ok curr → curr.isChallengeBlock E.constants=false →
    curr.ipSubSlotTotalIters E.constants = .ok start
  sameIters : ∀ difficulty iters,expectedOnPeak (some toPeakOnChain) = .ok (false,difficulty,iters) →
    iters=record.subSlotIters

/-- The total iterations at the challenge block or the end of the sub-slot before a peak. -/
def lastChallengeSbOrEos (E : Env) (V : BlockView) (peak : BlockRecord) : Check ℕ := do
  let C := E.constants
  let curr ← V.walkBack (fun b => b.isChallengeBlock C || b.firstInSubSlot) peak
  if curr.isChallengeBlock C then return curr.totalIters else curr.ipSubSlotTotalIters C

/-- What a message says of its peak. -/
structure PeakMessage (p : TimelordPeak E V) (msg : NewPeakTimelord) : Prop where
  rewardChainBlock : msg.rewardChainBlock=p.block.rewardChainBlock
  difficulty : msg.difficulty=p.difficulty
  deficit : msg.deficit=p.record.deficit
  subSlotIters : msg.subSlotIters=p.record.subSlotIters
  lastChallenge : lastChallengeSbOrEos E V p.record = .ok msg.lastChallengeSbOrEosTotalIters

def recordOf (peak : Option (TimelordPeak E V)) : Option BlockRecord := peak.map (·.record)

def onChain (peak : Option (TimelordPeak E V)) : Option (PeakOnChain E V) := peak.map (·.toPeakOnChain)

/-- What the checks on a sub-slot say of one that is finished after the peak, and after `before`. -/
structure ValidEnd (peak : Option (TimelordPeak E V)) (before : Option EndOfSubSlotBundle)
    (eos : EndOfSubSlotBundle) : Prop where
  deficit : eos.rewardChain.deficit=requiredDeficit E (recordOf peak)
  iccNone : peak=none → eos.infusedChallengeChain=none
  icc : ∀ p expected,peak=some p → expectedIcc E V p.record before = .ok expected →
    eos.infusedChallengeChain.isNone=expected.isNone
  adjusted : ∃ epoch difficulty iters,expectedOnPeak (onChain peak) = .ok (epoch,difficulty,iters) ∧
    Adjusted before epoch difficulty iters eos ∧
    (before=none → epoch=true → eos.challengeChain.subepochSummaryHash.isSome)

/-- The states that the timelord is set to along a valid chain. -/
inductive Reached (E : Env) (V : BlockView) : Option (TimelordPeak E V) → Option EndOfSubSlotBundle → LastState → Prop
  | first : Reached E V none none (LastState.init E)
  | peak {p : TimelordPeak E V} {msg : NewPeakTimelord} {s s' : LastState} : PeakMessage p msg →
    s.setPeak E msg = .ok s' → Reached E V (some p) none s'
  | slot {peak : Option (TimelordPeak E V)} {before : Option EndOfSubSlotBundle} {eos : EndOfSubSlotBundle}
    {s s' : LastState} : Reached E V peak before s → ValidEnd peak before eos → s.setSlot E eos = .ok s' →
    Reached E V peak (some eos) s'

/-- What the timelord knows at the end of a sub-slot. -/
structure AtEnd (peak : Option (TimelordPeak E V)) (eos : EndOfSubSlotBundle) (s : LastState) : Prop where
  stateType : s.stateType = .endOfSubSlot
  subslotEnd : s.subslotEnd=some eos
  noPeak : s.peak=none
  lastIp : s.lastIp=0
  deficit : s.deficit=eos.rewardChain.deficit
  lastChallenge : s.lastChallengeSbOrEosTotalIters=s.totalIters
  required : eos.rewardChain.deficit=requiredDeficit E (recordOf peak)
  iccNone : peak=none → eos.infusedChallengeChain=none
  icc : ∀ p,peak=some p → 0<p.record.deficit → p.record.deficit<E.minBlocksPerChallengeBlock →
    eos.infusedChallengeChain.isSome
  iters : ∀ epoch difficulty iters,expectedOnPeak (onChain peak) = .ok (epoch,difficulty,iters) →
    s.subSlotIters=iters
  sameIters : ∀ p,peak=some p → 0<p.record.deficit → s.subSlotIters=p.record.subSlotIters

/-- What the timelord knows at a block. -/
structure AtPeak (p : TimelordPeak E V) (msg : NewPeakTimelord) (s : LastState) : Prop where
  stateType : s.stateType = .peak
  peak : s.peak=some msg
  message : PeakMessage p msg
  lastIp : s.lastIp=p.ipIters
  deficit : s.deficit=p.record.deficit
  totalIters : s.totalIters=p.record.totalIters
  subSlotIters : s.subSlotIters=p.record.subSlotIters
  lastChallenge : s.lastChallengeSbOrEosTotalIters=msg.lastChallengeSbOrEosTotalIters

inductive Stands (E : Env) (V : BlockView) : Option (TimelordPeak E V) → Option EndOfSubSlotBundle → LastState → Prop
  | first : Stands E V none none (LastState.init E)
  | peak {p : TimelordPeak E V} {msg : NewPeakTimelord} {s : LastState} : AtPeak p msg s → Stands E V (some p) none s
  | slot {peak : Option (TimelordPeak E V)} {eos : EndOfSubSlotBundle} {s : LastState} : AtEnd peak eos s →
    Stands E V peak (some eos) s

theorem remember_ok (h : s.remember E = .ok s') : ∃ cache,s' = { s with rewardChallengeCache := cache } := by
  unfold LastState.remember at h
  obtain ⟨_,-,h⟩ := bind_ok.mp h
  obtain ⟨_,-,h⟩ := bind_ok.mp h
  cases h
  exact ⟨_,rfl⟩

theorem setPeak_atPeak {p : TimelordPeak E V} {msg : NewPeakTimelord} (hm : PeakMessage p msg)
    (h : s.setPeak E msg = .ok s') : AtPeak p msg s' := by
  unfold LastState.setPeak at h
  obtain ⟨⟨spIters,ipIters⟩,hiters,h⟩ := bind_ok.mp h
  rw [hm.rewardChainBlock,hm.subSlotIters,hm.difficulty,p.iters] at hiters
  cases hiters
  obtain ⟨cache,rfl⟩ := remember_ok h
  refine ⟨rfl,rfl,hm,rfl,hm.deficit,?_,hm.subSlotIters,rfl⟩
  show msg.rewardChainBlock.totalIters=_
  rw [hm.rewardChainBlock,p.blockTotalIters]

theorem expectedOnPeak_deficit {p : TimelordPeak E V} {epoch : Bool} {difficulty iters : ℕ}
    (hd : 0<p.record.deficit)
    (h : expectedOnPeak (onChain (some p)) = .ok (epoch,difficulty,iters)) : epoch=false := by
  unfold expectedOnPeak at h
  obtain ⟨⟨se,epoch'⟩,hfinishes,h⟩ := bind_ok.mp h
  obtain ⟨⟨iters',difficulty'⟩,-,h⟩ := bind_ok.mp h
  cases h
  have hcan : canFinishSubAndFullEpoch E.constants V p.record.height p.record.prevHash p.record.deficit
      p.record.subEpochSummaryIncluded.isSome = .ok (se,epoch) := hfinishes
  unfold canFinishSubAndFullEpoch at hcan
  split_ifs at hcan
  · cases hcan
    rfl
  · cases hcan
    rfl

section Stands
variable {peak : Option (TimelordPeak E V)} {before : Option EndOfSubSlotBundle} {eos : EndOfSubSlotBundle}

variable {p : TimelordPeak E V}

section
variable (h : Stands E V peak before s)
include h

theorem Stands.expectsIcc (hp : peak=some p)
    (hpos : 0<p.record.deficit) (hlt : p.record.deficit<E.minBlocksPerChallengeBlock) :
    ∃ e,expectedIcc E V p.record before = .ok (some e) := by
  cases h with
  | first => cases hp
  | @peak p' _ _ _ =>
    cases hp
    obtain ⟨icc,-,hsome,hexpected⟩ := p.iccOfPeak_ok
    obtain ⟨c,rfl⟩ := Option.isSome_iff_exists.mp (hsome.mpr hlt)
    exact ⟨_,hexpected⟩
  | @slot _ before _ hend =>
    subst hp
    have hicc := hend.icc p rfl
    have hd : before.rewardChain.deficit=p.record.deficit := hend.required.trans (if_neg hpos.ne')
    have hne : p.record.deficit≠E.minBlocksPerChallengeBlock := by omega
    have hexpected := expectedIcc_behind (p := p.toPeakOnChain) hend.required hicc
    obtain ⟨chain,hchain⟩ := Option.isSome_iff_exists.mp (hicc hpos hlt)
    have hafter : iccAfter E (some before)=some (E.hashInfusedChallengeChainSubSlot chain) := by
      simp only [iccAfter,hd,ne_eq,hne,not_false_eq_true,if_true,hchain,Option.map_some]
    rw [hafter] at hexpected
    exact ⟨_,hexpected⟩

/-- The iterations of the state, unless the first sub-slot after the peak changes them. -/
theorem Stands.iters {epoch : Bool} {difficulty iters : ℕ}
    (he : expectedOnPeak (onChain peak) = .ok (epoch,difficulty,iters)) (hsame : before=none → epoch=false) :
    s.subSlotIters=iters := by
  cases h with
  | first =>
    obtain ⟨-,-,hstart⟩ := he
    rfl
  | @peak p msg _ hpeak =>
    rw [hsame rfl] at he
    exact hpeak.subSlotIters.trans (p.sameIters _ _ he).symm
  | slot hend => exact hend.iters _ _ _ he

theorem Stands.sameIters (hp : peak=some p)
    (hpos : 0<p.record.deficit) : s.subSlotIters=p.record.subSlotIters := by
  cases h with
  | first => cases hp
  | peak hpeak =>
    cases hp
    exact hpeak.subSlotIters
  | slot hend => exact hend.sameIters p hp hpos

theorem setSlot_atEnd (hv : ValidEnd peak before eos) (hs : s.setSlot E eos = .ok s') : AtEnd peak eos s' := by
  obtain ⟨epoch,difficulty,iters,he,hadjusted,hdue⟩ := hv.adjusted
  unfold LastState.setSlot at hs
  obtain ⟨totalIters,-,hs⟩ := bind_ok.mp hs
  obtain ⟨subSlotIters,hssi,hs⟩ := bind_ok.mp hs
  obtain ⟨cache,rfl⟩ := remember_ok hs
  unfold LastState.nextSubSlotIters at hssi
  have hadjusts := hadjusted.adjusts
  -- the new iterations are the expected ones, or the old ones are
  have hcases : (epoch=true ∧ subSlotIters=iters) ∨
      ((before=none → epoch=false) ∧ subSlotIters=s.subSlotIters) := by
    split_ifs at hadjusts with hboth
    · rw [hadjusts.2,hadjusts.1] at hssi
      exact Or.inl ⟨hboth.1,(Option.some.inj (assertSome_eq_ok.mp hssi)).symm⟩
    · rw [hadjusts.2] at hssi
      refine Or.inr ⟨fun hfirst => ?_,(Except.ok.inj hssi).symm⟩
      rw [Bool.eq_false_iff]
      exact fun htrue => hboth ⟨htrue,hdue hfirst htrue⟩
  refine ⟨rfl,rfl,rfl,rfl,rfl,rfl,hv.deficit,hv.iccNone,?_,?_,?_⟩
  · intro p hp hpos hlt
    obtain ⟨e,hexpected⟩ := h.expectsIcc hp hpos hlt
    have hpresent := hv.icc p _ hp hexpected
    rw [← Option.not_isNone,hpresent]
    rfl
  · intro epoch' difficulty' iters' he'
    cases he.symm.trans he'
    rcases hcases with ⟨-,hnew⟩ | ⟨hsame,hold⟩
    · exact hnew
    · exact hold.trans (h.iters he hsame)
  · rintro p rfl hpos
    rcases hcases with ⟨htrue,-⟩ | ⟨-,hold⟩
    · rw [expectedOnPeak_deficit hpos he] at htrue
      exact absurd htrue Bool.false_ne_true
    · exact hold.trans (h.sameIters rfl hpos)

end

theorem Reached.stands (h : Reached E V peak before s) : Stands E V peak before s := by
  induction h with
  | first => exact .first
  | peak hm hs => exact .peak (setPeak_atPeak hm hs)
  | slot _ hv hs ih => exact .slot (setSlot_atEnd ih hv hs)

/-- What the validator will expect of the infused challenge chain is what the state says. -/
def IccAgrees (E : Env) (V : BlockView) (peak : Option (TimelordPeak E V)) (before : Option EndOfSubSlotBundle)
    (slot : SlotEnd) : Prop :=
  (peak=none → slot.icc=none) ∧
    ∀ p,peak=some p → expectedIcc E V p.record before = .ok (iccExpectation slot)

theorem chains_init (hmin : 0<E.minBlocksPerChallengeBlock) :
    Chains E (LastState.init E) E.genesisChallenge E.genesisChallenge none getDefaultElement none 0 where
  challenge := rfl
  reward := rfl
  infused := rfl
  form := rfl
  rewardForm := rfl
  infusedForm := fun h => absurd h Bool.false_ne_true
  inSlot := Nat.zero_le _
  sinceChallenge := fun h => absurd h Bool.false_ne_true
  atMostSlot := fun h => absurd h Bool.false_ne_true
  whenZero := fun h => absurd h hmin.ne'
  whenFull := fun _ => rfl
  summary := ⟨none,rfl⟩

theorem AtEnd.infused (h : AtEnd peak eos s) :
    s.getChallenge E .infusedChallengeChain = .ok (iccAfter E (some eos)) := by
  unfold LastState.getChallenge
  rw [h.stateType,h.subslotEnd]
  show LastState.getChallengeOfEnd E eos .infusedChallengeChain=_
  unfold LastState.getChallengeOfEnd iccAfter
  by_cases hlt : eos.rewardChain.deficit<E.minBlocksPerChallengeBlock
  · have hsome : eos.infusedChallengeChain.isSome := by
      have hrequired := h.required
      cases peak with
      | none =>
        rw [hrequired] at hlt
        exact absurd hlt (lt_irrefl _)
      | some p =>
        by_cases hzero : p.record.deficit=0
        · have hd : eos.rewardChain.deficit=E.minBlocksPerChallengeBlock := hrequired.trans (if_pos hzero)
          omega
        · have hd : eos.rewardChain.deficit=p.record.deficit := hrequired.trans (if_neg hzero)
          exact h.icc p rfl (by omega) (by omega)
    obtain ⟨chain,hchain⟩ := Option.isSome_iff_exists.mp hsome
    have hne : eos.rewardChain.deficit≠E.minBlocksPerChallengeBlock := by omega
    simp only [hlt,if_true,hchain,ne_eq,hne,not_false_eq_true,Option.map_some]
    rfl
  · have heq : eos.rewardChain.deficit=E.minBlocksPerChallengeBlock := by
      have hrequired := h.required
      cases peak with
      | none => exact hrequired
      | some p =>
        have hle := p.deficit_le
        by_cases hzero : p.record.deficit=0
        · exact hrequired.trans (if_pos hzero)
        · have hd : eos.rewardChain.deficit=p.record.deficit := hrequired.trans (if_neg hzero)
          omega
    dsimp only
    rw [if_neg hlt,if_neg (not_not.mpr heq)]
    rfl

theorem AtEnd.of_infused (h : AtEnd peak eos s) (hsome : (iccAfter E (some eos)).isSome) :
    ∃ p,peak=some p ∧ 0<p.record.deficit ∧ p.record.deficit<E.minBlocksPerChallengeBlock := by
  have hne : eos.rewardChain.deficit≠E.minBlocksPerChallengeBlock := by
    intro heq
    simp [iccAfter,heq] at hsome
  have hrequired := h.required
  cases peak with
  | none => exact absurd hrequired hne
  | some p =>
    have hle := p.deficit_le
    by_cases hzero : p.record.deficit=0
    · exact absurd (hrequired.trans (if_pos hzero)) hne
    · have hd : eos.rewardChain.deficit=p.record.deficit := hrequired.trans (if_neg hzero)
      exact ⟨p,rfl,by omega,by omega⟩

theorem AtEnd.chains (hmin : 0<E.minBlocksPerChallengeBlock) (h : AtEnd peak eos s) :
    Chains E s (ccAfter E (some eos)) (rcAfter E (some eos)) (iccAfter E (some eos)) getDefaultElement
      (some getDefaultElement) s.subSlotIters where
  challenge := by
    unfold LastState.getChallenge
    rw [h.stateType,h.subslotEnd]
    rfl
  reward := by
    unfold LastState.getChallenge
    rw [h.stateType,h.subslotEnd]
    rfl
  infused := h.infused
  form := by
    unfold LastState.getInitialForm
    rw [h.stateType]
    rfl
  rewardForm := by
    unfold LastState.getInitialForm
    rw [h.stateType]
    rfl
  infusedForm := by
    intro hsome
    obtain ⟨p,rfl,hpos,hlt⟩ := h.of_infused hsome
    have hd : eos.rewardChain.deficit=p.record.deficit := h.required.trans (if_neg hpos.ne')
    unfold LastState.getInitialForm
    rw [h.stateType,h.subslotEnd]
    show Except.ok (if eos.rewardChain.deficit<E.minBlocksPerChallengeBlock then _ else _)=_
    rw [if_pos (by omega)]
  inSlot := by
    rw [h.lastIp]
    exact Nat.zero_le _
  sinceChallenge := by
    intro _
    rw [LastState.slotEnd,h.noPeak,h.lastChallenge]
    simp
  atMostSlot := by
    intro hsome
    obtain ⟨p,hp,hpos,-⟩ := h.of_infused hsome
    rw [h.sameIters p hp hpos]
    exact ⟨le_refl _,p.subSlotIters_lt⟩
  whenZero := by
    intro hzero
    rw [h.deficit,h.required] at hzero
    exfalso
    unfold requiredDeficit at hzero
    split at hzero
    · split_ifs at hzero <;> omega
    · omega
  whenFull := by
    intro hfull
    rw [h.deficit] at hfull
    have hcases : ¬ (iccAfter E (some eos)).isSome := by
      intro hsome
      obtain ⟨p,rfl,hpos,hlt⟩ := h.of_infused hsome
      have hd : eos.rewardChain.deficit=p.record.deficit := h.required.trans (if_neg hpos.ne')
      omega
    exact Option.not_isSome_iff_eq_none.mp hcases
  summary := by
    unfold LastState.getNextSubEpochSummary
    rw [h.stateType]
    exact ⟨none,rfl⟩

theorem AtEnd.iccAgrees (h : AtEnd peak eos s) : IccAgrees E V peak (some eos)
    (Chains.slot s (rcAfter E (some eos)) (iccAfter E (some eos)) getDefaultElement (some getDefaultElement)
      s.subSlotIters) := by
  constructor
  · rintro rfl
    simp [Chains.slot,iccAfter,h.iccNone rfl]
  · rintro p rfl
    have hexpected := expectedIcc_behind (p := p.toPeakOnChain) h.required (h.icc p rfl)
    rw [hexpected]
    cases hicc : iccAfter E (some eos) with
    | none => rfl
    | some c =>
      obtain ⟨p',hp',hpos,-⟩ := h.of_infused (by rw [hicc]; rfl)
      cases hp'
      simp [iccExpectation,Chains.slot,h.sameIters p rfl hpos,h.lastIp]

/-- The infused challenge chain of a peak, as the timelord reads it and as the validator will. -/
structure PeakIcc (p : TimelordPeak E V) (msg : NewPeakTimelord) (icc : Option Bytes32) (n : ℕ) : Prop where
  challenge : LastState.getChallengeOfPeak E msg .infusedChallengeChain=icc
  isSome : icc.isSome ↔ p.record.deficit<E.minBlocksPerChallengeBlock
  since : icc.isSome → (p.start+p.record.subSlotIters : ℤ)-msg.lastChallengeSbOrEosTotalIters=n
  le : icc.isSome → n≤p.record.subSlotIters
  expected : expectedIcc E V p.record none = .ok (icc.map fun c =>
    ⟨c,n,p.record.subSlotIters-p.ipIters,iccStartOfPeak E p.record⟩)

variable {msg : NewPeakTimelord}

section
variable (p : TimelordPeak E V)

theorem TimelordPeak.getChallenge_icc (hm : PeakMessage p msg)
    {e : IccExpectation} (he : expectedIcc E V p.record none = .ok (some e))
    (hhash : p.record.isChallengeBlock E.constants=true → e.challengeHash=p.record.challengeBlockInfoHash)
    (hd : p.record.deficit<E.minBlocksPerChallengeBlock) :
    LastState.getChallengeOfPeak E msg .infusedChallengeChain=some e.challengeHash := by
  unfold LastState.getChallengeOfPeak
  dsimp only
  rw [hm.rewardChainBlock,hm.deficit]
  cases hvdf : p.block.rewardChainBlock.infusedChallengeChainIpVdf with
  | some vdf => exact congrArg some (p.infusedChallenge vdf e hvdf he)
  | none =>
    have hlarge := p.infusedIff.mp hvdf
    have heq : (p.record.deficit : ℤ)=E.minBlocksPerChallengeBlock-1 := by omega
    have hchallenge : p.record.isChallengeBlock E.constants=true := decide_eq_true heq
    dsimp only
    rw [if_pos heq,p.infoHash,hhash hchallenge]

/-- The iterations since the infused chain's challenge, as the timelord and as the store count them.
-/
theorem TimelordPeak.sinceChallenge {last n : ℕ} {hash : Bytes32}
    (hlast : lastChallengeSbOrEos E V p.record = .ok last)
    (hicc : iccOfPeak E V p.record (p.start+p.record.subSlotIters) = .ok (some (hash,n)))
    (hd : p.record.deficit<E.minBlocksPerChallengeBlock) :
    (p.start+p.record.subSlotIters : ℤ)-last=n ∧ n≤p.record.subSlotIters ∧
      (p.record.isChallengeBlock E.constants=true → hash=p.record.challengeBlockInfoHash) := by
  obtain ⟨curr,hwalk,hcurr⟩ := p.icc hd
  have hhere : p.record.isChallengeBlock E.constants=true → curr=p.record := by
    intro hchallenge
    have hhere : V.walkBack (fun b => b.isChallengeBlock E.constants || b.firstInSubSlot) p.record =
        .ok p.record := BlockView.walkBack_here (by simp [hchallenge])
    exact Except.ok.inj (hwalk.symm.trans hhere)
  unfold lastChallengeSbOrEos at hlast
  unfold iccOfPeak at hicc
  rw [bind_of_ok hwalk] at hlast
  rw [if_pos hd,bind_of_ok hwalk] at hicc
  by_cases hchallenge : curr.isChallengeBlock E.constants=true
  · rw [if_pos hchallenge] at hlast hicc hcurr
    obtain ⟨i,-,htotal,hle⟩ := hcurr
    obtain ⟨iters,hiters,hicc⟩ := bind_ok.mp hicc
    cases hicc
    have hvalue := (uint_eq_ok.mp hiters).1
    rw [← Except.ok.inj hlast]
    push_cast at hvalue
    exact ⟨hvalue,by omega,fun h => by rw [hhere h]⟩
  · rw [if_neg hchallenge] at hlast hicc
    have hstart := Except.ok.inj ((p.slotStart curr hwalk (Bool.eq_false_iff.mpr hchallenge)).symm.trans hlast)
    obtain ⟨_,-,hicc⟩ := bind_ok.mp hicc
    obtain ⟨_,-,hicc⟩ := bind_ok.mp hicc
    cases hicc
    refine ⟨by omega,le_refl _,fun h => ?_⟩
    rw [hhere h] at hchallenge
    exact absurd h hchallenge

theorem TimelordPeak.icc_ok (hm : PeakMessage p msg) : ∃ icc n,PeakIcc p msg icc n := by
  obtain ⟨icc,hicc,hsome,hexpected⟩ := p.iccOfPeak_ok
  by_cases hd : p.record.deficit<E.minBlocksPerChallengeBlock
  · obtain ⟨⟨hash,n⟩,rfl⟩ := Option.isSome_iff_exists.mp (hsome.mpr hd)
    obtain ⟨hsince,hle,hhash⟩ := p.sinceChallenge hm.lastChallenge hicc hd
    exact ⟨some hash,n,p.getChallenge_icc hm hexpected hhash hd,by simp [hd],fun _ => hsince,fun _ => hle,
      hexpected⟩
  · have hnone : icc=none := by
      rw [← Option.not_isSome_iff_eq_none,hsome]
      exact hd
    subst hnone
    refine ⟨none,0,?_,hsome,fun h => absurd h Bool.false_ne_true,fun h => absurd h Bool.false_ne_true,hexpected⟩
    have hle := p.deficit_le
    have hvdf : p.block.rewardChainBlock.infusedChallengeChainIpVdf=none := p.infusedIff.mpr (by omega)
    unfold LastState.getChallengeOfPeak
    dsimp only
    rw [hm.rewardChainBlock,hm.deficit,hvdf]
    exact if_neg (by omega)

theorem TimelordPeak.getInitialForm_icc (hm : PeakMessage p msg)
    (hd : p.record.deficit<E.minBlocksPerChallengeBlock) :
    LastState.getInitialFormOfPeak E msg .infusedChallengeChain=iccStartOfPeak E p.record := by
  unfold LastState.getInitialFormOfPeak iccStartOfPeak
  dsimp only
  rw [hm.rewardChainBlock,hm.deficit,if_neg hd.ne]
  cases hvdf : p.block.rewardChainBlock.infusedChallengeChainIpVdf with
  | some vdf =>
    have hnot : ¬ (E.minBlocksPerChallengeBlock : ℤ)-1≤p.record.deficit := by
      rw [← p.infusedIff,hvdf]
      exact Option.some_ne_none vdf
    have hchallenge : ¬ p.record.isChallengeBlock E.constants=true := by
      unfold BlockRecord.isChallengeBlock
      rw [decide_eq_true_eq]
      omega
    rw [if_neg hchallenge,← p.infusedOutput,hvdf]
    rfl
  | none =>
    have hlarge := p.infusedIff.mp hvdf
    have heq : (p.record.deficit : ℤ)=E.minBlocksPerChallengeBlock-1 := by omega
    have hchallenge : p.record.isChallengeBlock E.constants=true := decide_eq_true heq
    dsimp only
    rw [if_pos heq,if_pos hchallenge]

end

theorem AtPeak.getChallenge (h : AtPeak p msg s) (chain : VdfChain) :
    s.getChallenge E chain = .ok (LastState.getChallengeOfPeak E msg chain) := by
  unfold LastState.getChallenge
  rw [h.stateType,h.peak]
  rfl

theorem AtPeak.getInitialForm (h : AtPeak p msg s)
    (chain : VdfChain) : s.getInitialForm E chain = .ok (LastState.getInitialFormOfPeak E msg chain) := by
  unfold LastState.getInitialForm
  rw [h.stateType,h.peak]
  rfl

theorem AtPeak.chains (hmin : 0<E.minBlocksPerChallengeBlock) (h : AtPeak p msg s) {icc : Option Bytes32} {n : ℕ} (hicc : PeakIcc p msg icc n) :
    Chains E s (ccAfter E p.slot) p.record.rewardInfusionNewChallenge icc p.record.challengeVdfOutput
      (iccStartOfPeak E p.record) n where
  challenge := by
    rw [h.getChallenge]
    simp only [LastState.getChallengeOfPeak,h.message.rewardChainBlock,p.ipChallenge]
  reward := by
    rw [h.getChallenge]
    simp only [LastState.getChallengeOfPeak,h.message.rewardChainBlock,p.rewardHash]
  infused := by rw [h.getChallenge,hicc.challenge]
  form := by
    rw [h.getInitialForm]
    simp only [LastState.getInitialFormOfPeak,h.message.rewardChainBlock,p.ipOutput]
  rewardForm := by
    rw [h.getInitialForm]
    rfl
  infusedForm := fun hsome => by rw [h.getInitialForm,p.getInitialForm_icc h.message (hicc.isSome.mp hsome)]
  inSlot := by
    rw [h.lastIp,h.subSlotIters]
    exact p.ipIters_lt.le
  sinceChallenge := by
    intro hsome
    have hsince := hicc.since hsome
    have htotal := p.totalIters_eq
    rw [LastState.slotEnd,h.peak,Option.isSome_some,if_pos rfl,h.totalIters,h.lastIp,h.subSlotIters,
      h.lastChallenge]
    omega
  atMostSlot := by
    intro hsome
    have hle := hicc.le hsome
    rw [h.subSlotIters]
    exact ⟨hle,lt_of_le_of_lt hle p.subSlotIters_lt⟩
  whenZero := by
    intro hzero
    rw [h.deficit] at hzero
    exact hicc.isSome.mpr (by omega)
  whenFull := by
    intro hfull
    rw [h.deficit] at hfull
    rw [← Option.not_isSome_iff_eq_none,hicc.isSome]
    omega
  summary := by
    unfold LastState.getNextSubEpochSummary
    rw [if_neg (not_not.mpr h.stateType),bind_of_ok (assertThat_eq_ok (u := ()) |>.mpr (by rw [h.peak]; rfl))]
    split_ifs
    · exact ⟨_,rfl⟩
    · exact ⟨_,rfl⟩

theorem AtPeak.iccAgrees (h : AtPeak p msg s) {icc : Option Bytes32}
    {n : ℕ} (hicc : PeakIcc p msg icc n) : IccAgrees E V (some p) none
      (Chains.slot s p.record.rewardInfusionNewChallenge icc p.record.challengeVdfOutput
        (iccStartOfPeak E p.record) n) := by
  constructor
  · intro hnone
    cases hnone
  · rintro _ ⟨⟩
    rw [hicc.expected]
    simp only [iccExpectation,Chains.slot,Option.map_map,Function.comp_def,h.subSlotIters,h.lastIp]

theorem Stands.endDeficit_eq (h : Stands E V peak before s) : endDeficit E s=requiredDeficit E (recordOf peak) := by
  have hrequired : ∀ d,s.deficit=d → d≤E.minBlocksPerChallengeBlock →
      endDeficit E s=if d=0 then E.minBlocksPerChallengeBlock else d := by
    rintro _ rfl hle
    unfold endDeficit
    split_ifs <;> omega
  cases h with
  | first =>
    rw [hrequired _ rfl (le_refl _)]
    exact ite_self _
  | @peak p _ _ hpeak => exact hrequired _ hpeak.deficit p.deficit_le
  | @slot _ before _ hend =>
    have hd := hend.deficit.trans hend.required
    cases peak with
    | none =>
      rw [hrequired _ hd (le_refl _)]
      exact ite_self _
    | some p =>
      have hle := p.deficit_le
      have hd' : s.deficit=if p.record.deficit=0 then E.minBlocksPerChallengeBlock else p.record.deficit := hd
      rw [hrequired _ hd' (by split_ifs <;> omega)]
      show _=if p.record.deficit=0 then E.minBlocksPerChallengeBlock else p.record.deficit
      split_ifs <;> omega

variable {slot : SlotEnd}

theorem Built.validateIcc_ok {cc : Bytes32} (hb : Built E s cc slot eos)
    (ha : IccAgrees E V peak before slot) : validateIcc E V (recordOf peak) before eos false = .ok () := by
  cases peak with
  | none =>
    have hnone := hb.infused.absent (ha.1 rfl)
    exact reject_of_not (by simp [hnone])
  | some p =>
    exact FullNodeStore.validateIcc_ok (ha.2 p rfl) hb.infused.present hb.infused.proof hb.infusedHash hb.commitment

/-- A summary that the timelord puts in is one that the validator expects there. -/
def SummaryFits (E : Env) (V : BlockView) (peak : Option (TimelordPeak E V)) (s : LastState) : Prop :=
  ∀ ses epoch difficulty iters,s.getNextSubEpochSummary = .ok (some ses) →
    expectedOnPeak (onChain peak) = .ok (epoch,difficulty,iters) →
    ses.newSubSlotIters=(if epoch=true then some iters else none) ∧
      ses.newDifficulty=if epoch=true then some difficulty else none

/-- The bundle passes the checks on a sub-slot of a block after the peak and after `before`. -/
def PassesChecks (E : Env) (V : BlockView) (peak : Option (TimelordPeak E V)) (before : Option EndOfSubSlotBundle)
    (eos : EndOfSubSlotBundle) : Prop :=
  ∀ epoch difficulty iters,expectedOnPeak (onChain peak) = .ok (epoch,difficulty,iters) →
    ∀ ses,(before=none → ses=none) →
      Succeeds (validateFinishedSubSlot E V (recordOf peak) before epoch difficulty iters false ses eos)

theorem Stands.noSummary (h : Stands E V peak before s) (hbefore : before.isSome) :
    s.getNextSubEpochSummary = .ok none := by
  cases h with
  | first => exact absurd hbefore Bool.false_ne_true
  | peak _ => exact absurd hbefore Bool.false_ne_true
  | slot hend =>
    unfold LastState.getNextSubEpochSummary
    rw [hend.stateType]
    rfl

theorem Built.noSummary {cc : Bytes32} (hb : Built E s cc slot eos) (h : Stands E V peak before s)
    (hbefore : before.isSome) : eos.challengeChain.subepochSummaryHash=none := by
  obtain ⟨ses,hses,hhash,-,-⟩ := hb.summary
  cases hses.symm.trans (h.noSummary hbefore)
  exact hhash

theorem Built.adjusts {cc : Bytes32} (hb : Built E s cc slot eos)
    (hfits : SummaryFits E V peak s) {epoch : Bool} {difficulty iters : ℕ}
    (he : expectedOnPeak (onChain peak) = .ok (epoch,difficulty,iters)) : Adjusts epoch difficulty iters eos := by
  obtain ⟨ses,hses,hhash,hiters,hdifficulty⟩ := hb.summary
  rw [Adjusts,hhash,hiters,hdifficulty]
  cases ses with
  | none => simp
  | some ses =>
    obtain ⟨hnewIters,hnewDifficulty⟩ := hfits ses _ _ _ hses he
    cases epoch with
    | false => exact ⟨hnewIters,hnewDifficulty⟩
    | true => exact ⟨hnewIters,hnewDifficulty⟩

/-- All checks but those of the adjustment pass. -/
def PassesUnlessAdjusted (E : Env) (V : BlockView) (peak : Option (TimelordPeak E V))
    (before : Option EndOfSubSlotBundle) (eos : EndOfSubSlotBundle) : Prop :=
  ∀ epoch difficulty iters,expectedOnPeak (onChain peak) = .ok (epoch,difficulty,iters) →
    ∀ ses,(before=none → ses=none) → FailsOnlyUnless (Adjusts epoch difficulty iters eos)
      (validateFinishedSubSlot E V (recordOf peak) before epoch difficulty iters false ses eos)

theorem Stands.built (hmin : 0<E.minBlocksPerChallengeBlock) (h : Stands E V peak before s)
    (hf : Finished E s finished) :
    ∃ cc slot eos,checkForEndOfSubslot E s finished = .ok (some eos) ∧ Built E s cc slot eos ∧
      PassesUnlessAdjusted E V peak before eos := by
  have hstands := h
  have hdeficit := h.endDeficit_eq
  cases h with
  | first =>
    obtain ⟨eos,heos,hb⟩ := checkForEndOfSubslot_ok (chains_init hmin) hf
    refine ⟨_,_,eos,heos,hb,fun epoch difficulty iters he ses hses => ?_⟩
    have hiters : E.subSlotItersStarting=iters := Stands.first.iters he (fun _ => by cases he; rfl)
    refine validateFinishedSubSlot_adjusts hb.vdfs (hb.validateIcc_ok ⟨fun _ => rfl,fun _ hp => by cases hp⟩)
      (hb.noSummary hstands) hses hb.challengeHash ?_ ?_ ?_ (hb.deficit.trans hdeficit)
    · rintro - -
      exact ⟨rfl,rfl,rfl,hiters,rfl⟩
    · rintro prev - ⟨⟩
    · rintro _ ⟨⟩
  | @peak p msg _ hpeak =>
    obtain ⟨icc,n,hicc⟩ := p.icc_ok hpeak.message
    obtain ⟨eos,heos,hb⟩ := checkForEndOfSubslot_ok (hpeak.chains hmin hicc) hf
    refine ⟨_,_,eos,heos,hb,fun epoch difficulty iters he ses hses => ?_⟩
    refine validateFinishedSubSlot_adjusts hb.vdfs (hb.validateIcc_ok (hpeak.iccAgrees hicc))
      (hb.noSummary hstands) hses hb.challengeHash ?_ ?_ ?_ (hb.deficit.trans hdeficit)
    · rintro - ⟨⟩
    · rintro prev - ⟨⟩
      obtain ⟨curr,hashes,hwalk,hhashes,hlast⟩ := p.challenge
      have hlt := p.ipIters_lt
      have hssi := p.subSlotIters_lt
      refine ⟨curr,hashes,p.ipIters,hwalk,hhashes,hlast,p.ipIters_eq,?_,hpeak.subSlotIters,rfl,rfl⟩
      show uint64 ((p.record.subSlotIters : ℤ)-p.ipIters) = .ok (s.subSlotIters-s.lastIp)
      rw [hpeak.subSlotIters,hpeak.lastIp]
      exact uint_eq_ok.mpr ⟨by omega,by omega⟩
    · rintro _ ⟨⟩
  | @slot peak before s hend =>
    obtain ⟨eos,heos,hb⟩ := checkForEndOfSubslot_ok (hend.chains hmin) hf
    refine ⟨_,_,eos,heos,hb,fun epoch difficulty iters he ses hses => ?_⟩
    have hiters := hend.iters _ _ _ he
    refine validateFinishedSubSlot_adjusts hb.vdfs (hb.validateIcc_ok hend.iccAgrees)
      (hb.noSummary hstands) hses hb.challengeHash ?_ ?_ ?_ (hb.deficit.trans hdeficit)
    · rintro ⟨⟩
    · rintro _ ⟨⟩
    · rintro _ ⟨⟩
      refine ⟨rfl,rfl,?_,rfl,?_⟩
      · show s.subSlotIters-s.lastIp=iters
        rw [hend.lastIp,hiters,Nat.sub_zero]
      · cases peak with
        | some p => exact hiters
        | none =>
          obtain ⟨-,-,hstart⟩ := he
          exact hiters

end Stands

/-- The bundle fails no check but 2m and 2n. -/
def FailsOnlyOnAdjustment (E : Env) (V : BlockView) (peak : Option (TimelordPeak E V))
    (before : Option EndOfSubSlotBundle) (eos : EndOfSubSlotBundle) : Prop :=
  ∀ epoch difficulty iters,expectedOnPeak (onChain peak) = .ok (epoch,difficulty,iters) →
    ∀ ses,(before=none → ses=none) → ∀ e,
      validateFinishedSubSlot E V (recordOf peak) before epoch difficulty iters false ses eos = .error e →
      e = .invalid .invalidNewSubSlotIters ∨ e = .invalid .invalidNewDifficulty

theorem PassesUnlessAdjusted.failsOnly {peak : Option (TimelordPeak E V)} {before : Option EndOfSubSlotBundle}
    {eos : EndOfSubSlotBundle} (h : PassesUnlessAdjusted E V peak before eos) :
    FailsOnlyOnAdjustment E V peak before eos := by
  intro epoch difficulty iters he ses hses e herror
  rcases h epoch difficulty iters he ses hses with ⟨after,hok⟩ | ⟨-,hiters | hdifficulty⟩
  · cases hok.symm.trans herror
  · exact Or.inl (Except.error.inj (herror.symm.trans hiters))
  · exact Or.inr (Except.error.inj (herror.symm.trans hdifficulty))

/-- In every state along a valid chain, the end of the sub-slot that the timelord makes of its VDFs raises
nothing and passes the checks of a block after the same previous one; a summary that does not fit fails those of
the adjustment only. -/
theorem endOfSubSlot_valid {peak : Option (TimelordPeak E V)} {before : Option EndOfSubSlotBundle}
    (hmin : 0<E.minBlocksPerChallengeBlock) (h : Reached E V peak before s) (hf : Finished E s finished) :
    ∃ eos,checkForEndOfSubslot E s finished = .ok (some eos) ∧
      (SummaryFits E V peak s → PassesChecks E V peak before eos) ∧ FailsOnlyOnAdjustment E V peak before eos := by
  obtain ⟨cc,slot,eos,heos,hb,hpasses⟩ := h.stands.built hmin hf
  refine ⟨eos,heos,fun hfits epoch difficulty iters he ses hses => ?_,hpasses.failsOnly⟩
  exact (hpasses epoch difficulty iters he ses hses).succeeds (hb.adjusts hfits he)

section Genesis

def infusedGenesis : FullBlock :=
  { tinyGenesis with
    rewardChainBlock := ⟨7,0,49,0,1,⟨0,some [],none,[],32,[]⟩,none,[],⟨1,49,getDefaultElement⟩,none,
      [],⟨1,49,getDefaultElement⟩,none,true⟩ }

theorem adjusts_eq {peak : Option (PeakOnChain E V)} {epoch : Bool} {d i d' i' : ℕ}
    (h : expectedOnPeak peak = .ok (epoch,d,i)) (h' : expectedOnPeak peak = .ok (epoch,d',i')) : d'=d ∧ i'=i := by
  cases h.symm.trans h'
  exact ⟨rfl,rfl⟩

def timelordGenesis : TimelordPeak shortEnv genesisView where
  toPeakOnChain := { genesisPeak with
    block := infusedGenesis
    summary := ⟨none,by decide +kernel⟩ }
  difficulty := 7
  spIters := 0
  rewardHash := rfl
  blockTotalIters := rfl
  ipOutput := rfl
  ipChallenge := rfl
  infoHash := rfl
  infusedIff := by decide
  infusedOutput := rfl
  infusedChallenge := fun _ _ h => by cases h
  iters := by decide +kernel
  slotStart := by
    intro curr hwalk hchallenge
    cases (BlockView.walkBack_here (by decide)).symm.trans hwalk
    exact absurd hchallenge (by decide)
  sameIters := by
    intro difficulty iters he
    have hexpected : expectedOnPeak (some { genesisPeak with
      block := infusedGenesis
      summary := ⟨none,by decide +kernel⟩ }) = .ok (false,7,1024) := by decide +kernel
    cases hexpected.symm.trans he
    rfl

def genesisMessage : NewPeakTimelord := ⟨infusedGenesis.rewardChainBlock,7,0,1024,none,[],49,false⟩

def genesisState : LastState :=
  { LastState.init shortEnv with
    stateType := .peak
    peak := some genesisMessage
    lastIp := 49
    deficit := 0
    lastWeight := 7
    totalIters := 49
    lastChallengeSbOrEosTotalIters := 49
    lastBlockTotalIters := some 49
    lastPeakChallenge := 0
    rewardChallengeCache := [(0,49)] }

def genesisFinished : List FinishedVdf :=
  [⟨.challengeChain,⟨1,975,getDefaultElement⟩,shortProof⟩,⟨.rewardChain,⟨0,975,getDefaultElement⟩,shortProof⟩,
    ⟨.infusedChallengeChain,⟨0,975,getDefaultElement⟩,shortProof⟩]

theorem genesisState_reached : Reached shortEnv genesisView (some timelordGenesis) none genesisState := by
  have hm : PeakMessage timelordGenesis genesisMessage := ⟨rfl,rfl,rfl,rfl,by decide +kernel⟩
  have hs : (LastState.init shortEnv).setPeak shortEnv genesisMessage = .ok genesisState := by
    unfold LastState.setPeak
    have hiters : itersFromBlock shortEnv 0 1 ⟨0,some [],none,[],32,[]⟩ none 1024 7 = .ok (0,49) := by
      decide +kernel
    exact bind_of_ok hiters
  exact .peak hm hs

theorem genesisFinished_finished : Finished shortEnv genesisState genesisFinished where
  asked := by
    intro chain f h
    cases chain <;> cases h <;> exact ⟨_,_,rfl,rfl,rfl,rfl,rfl,by decide +kernel⟩
  all := by
    intro chain _ _
    cases chain <;> decide
  length := by
    rintro _ ⟨⟩
    rfl

theorem genesisState_summaryFits : SummaryFits shortEnv genesisView (some timelordGenesis) genesisState := by
  intro ses epoch difficulty iters hses
  cases hses

theorem endOfSubSlot_valid_genesis :
    ∃ eos,checkForEndOfSubslot shortEnv genesisState genesisFinished = .ok (some eos) ∧
      PassesChecks shortEnv genesisView (some timelordGenesis) none eos ∧
      FailsOnlyOnAdjustment shortEnv genesisView (some timelordGenesis) none eos := by
  obtain ⟨eos,heos,hpasses,hfails⟩ :=
    endOfSubSlot_valid (by decide) genesisState_reached genesisFinished_finished
  exact ⟨eos,heos,hpasses genesisState_summaryFits,hfails⟩

end Genesis

end Timelord
end RoseChain
