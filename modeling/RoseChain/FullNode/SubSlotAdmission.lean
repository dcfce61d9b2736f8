import RoseChain.Consensus.Runs
import RoseChain.Consensus.SubEpochs
import RoseChain.FullNode.FullNodeStore

namespace RoseChain
open Lib ClassgroupElement
namespace FullNodeStore
variable {E : Env} {V : BlockView} {ι : Type}

/-- A peak of a valid chain, and the sub-slot it is in: its challenges are those that the records name, and what
the chain is asked about it can be answered. -/
structure PeakOnChain (E : Env) (V : BlockView) where
  record : BlockRecord
  block : FullBlock
  spSlot : Option EndOfSubSlotBundle
  slot : Option EndOfSubSlotBundle
  start : ℕ
  ipIters : ℕ
  ipIters_eq : record.ipIters E.constants = .ok ipIters
  ipIters_pos : 0 < ipIters
  ipIters_lt : ipIters < record.subSlotIters
  subSlotIters_lt : record.subSlotIters<2^64
  totalIters_eq : record.totalIters=start+ipIters
  start_zero : slot=none → start=0
  deficit_le : record.deficit≤E.minBlocksPerChallengeBlock
  challenge : ∃ curr hashes,V.walkBack (·.firstInSubSlot) record = .ok curr ∧
    curr.finishedChallengeSlotHashes=some hashes ∧ hashes.getLast?=some (ccAfter E slot)
  icc : record.deficit<E.minBlocksPerChallengeBlock → ∃ curr,
    V.walkBack (fun b => b.isChallengeBlock E.constants || b.firstInSubSlot) record = .ok curr ∧
    if curr.isChallengeBlock E.constants then
      ∃ i,curr.ipIters E.constants = .ok i ∧ curr.totalIters=start+i ∧ i ≤ record.subSlotIters
    else ∃ hashes hash,curr.finishedInfusedChallengeSlotHashes=some hashes ∧ hashes.getLast?=some hash
  iccStart : record.deficit<E.minBlocksPerChallengeBlock → (iccStartOfPeak E record).isSome
  finishes : ∃ answer,canFinishSubAndFullEpoch E.constants V record.height record.prevHash
    record.deficit record.subEpochSummaryIncluded.isSome = .ok answer
  summary : ∃ ses,nextSubEpochSummary E V record.requiredIters block = .ok ses

def PeakOnChain.both (p : PeakOnChain E V) : BlockRecord × FullBlock := (p.record,p.block)

/-- The deficit that a sub-slot after the previous block ends with. -/
def requiredDeficit (E : Env) (prevB : Option BlockRecord) : ℕ :=
  match prevB with
  | some prev => if prev.deficit=0 then E.minBlocksPerChallengeBlock else prev.deficit
  | none => E.minBlocksPerChallengeBlock

/-- Whether the next block can start an epoch, its difficulty and its sub-slot iterations. -/
def expectedOnPeak (peak : Option (PeakOnChain E V)) : Check (Bool × ℕ × ℕ) := do
  let record := peak.map (·.record)
  let (_,epoch) ← RoseChain.finishes E.constants V record [dummySubSlot]
  let (subSlotIters,difficulty) ← getNextSubSlotItersAndDifficulty E.constants V true record
  return (epoch,difficulty,subSlotIters)

/-- The sub-slot before, of those that a block on the peak has finished. -/
def previousSlot (peak : Option (PeakOnChain E V)) (last : Option EndOfSubSlotBundle × ℕ) :
    Option EndOfSubSlotBundle :=
  if (peakIn (peak.map (·.both)) last.2).isSome then none else last.1

/-- The bundle passes the checks on the finished sub-slots of a block on the peak. -/
def Passes (peak : Option (PeakOnChain E V)) (previous : Option EndOfSubSlotBundle) (eos : EndOfSubSlotBundle) :
    Prop :=
  ∀ epoch difficulty iters,expectedOnPeak peak = .ok (epoch,difficulty,iters) →
    ∀ ses,(previous=none → ses=none) → ∃ after,
      validateFinishedSubSlot E V (peak.map (·.record)) previous epoch difficulty iters false ses eos = .ok after

/-- Challenge and reward chain are linked and proved, as the store itself checks. -/
def proved (peak : Option (PeakOnChain E V)) (last : Option EndOfSubSlotBundle × ℕ) (eos : EndOfSubSlotBundle) :
    Bool :=
  match peakIn (peak.map (·.both)) last.2 with
  | some (peak,_) =>
    decide (peak.rewardInfusionNewChallenge=eos.rewardChain.endOfSlotVdf.challenge) &&
      challengeVdfsValid E eos (ccAfter E last.1) peak.subSlotIters
        ⟨peak.rewardInfusionNewChallenge,peak.challengeVdfOutput,none,none,
          last.2+peak.subSlotIters-peak.totalIters⟩
  | none =>
    challengeVdfsValid E eos (ccAfter E last.1) (slotIters E (peak.map (·.both)))
      ⟨rcAfter E last.1,getDefaultElement,none,none,slotIters E (peak.map (·.both))⟩

def expectsIcc (peak : Option (PeakOnChain E V)) (last : Option EndOfSubSlotBundle × ℕ) : Bool :=
  match peakIn (peak.map (·.both)) last.2 with
  | some (peak,_) => decide (peak.deficit<E.minBlocksPerChallengeBlock)
  | none => (iccAfter E last.1).isSome

/-- The fields that the store does not look at are right. -/
structure FieldsRight (peak : Option (PeakOnChain E V)) (last : Option EndOfSubSlotBundle × ℕ)
    (eos : EndOfSubSlotBundle) : Prop where
  hasIcc : expectsIcc peak last=true →
    eos.infusedChallengeChain.isSome ∧ eos.proofs.infusedChallengeChainSlotProof.isSome
  deficit : eos.rewardChain.deficit=requiredDeficit E (peak.map (·.record))
  challengeHash : eos.rewardChain.challengeChainSubSlotHash=E.hashChallengeChainSubSlot eos.challengeChain
  infusedHash : eos.rewardChain.infusedChallengeChainSubSlotHash =
    eos.infusedChallengeChain.map E.hashInfusedChallengeChainSubSlot
  commitment : eos.challengeChain.infusedChallengeChainSubSlotHash =
    if eos.rewardChain.deficit=E.minBlocksPerChallengeBlock then
      eos.infusedChallengeChain.map E.hashInfusedChallengeChainSubSlot
    else none
  summary : (previousSlot peak last).isSome → eos.challengeChain.subepochSummaryHash=none
  adjusts : ∀ epoch difficulty iters,expectedOnPeak peak = .ok (epoch,difficulty,iters) →
    if epoch=true ∧ eos.challengeChain.subepochSummaryHash.isSome then
      eos.challengeChain.newSubSlotIters=some iters ∧ eos.challengeChain.newDifficulty=some difficulty
    else eos.challengeChain.newSubSlotIters=none ∧ eos.challengeChain.newDifficulty=none
  sameIters : (previousSlot peak last).isSome → ∀ epoch difficulty iters,
    expectedOnPeak peak = .ok (epoch,difficulty,iters) → iters=slotIters E (peak.map (·.both))

/-- A bundle that continues the last sub-slot with valid proofs has the other fields right, too. -/
def Careful (peak : Option (PeakOnChain E V)) (s : FullNodeStore ι) (eos : EndOfSubSlotBundle) : Prop :=
  ∀ last,s.finishedSubSlots.getLast?=some last →
    last.2+slotIters E (peak.map (·.both))<2^128 ∧ (proved peak last eos=true → FieldsRight peak last eos)

/-- The last of the store's sub-slots: the one the peak is in, or one that ended after the peak. -/
inductive LastSlot (E : Env) (V : BlockView) :
    Option (PeakOnChain E V) → Option EndOfSubSlotBundle × ℕ → Prop
  | genesis : LastSlot E V none (none,0)
  | empty {slot : EndOfSubSlotBundle} {iters : ℕ} :
    slot.rewardChain.deficit=E.minBlocksPerChallengeBlock → slot.infusedChallengeChain=none →
    LastSlot E V none (some slot,iters)
  | ofPeak (p : PeakOnChain E V) : LastSlot E V (some p) (p.slot,p.start)
  | behind {p : PeakOnChain E V} {slot : EndOfSubSlotBundle} {iters : ℕ} :
    p.record.totalIters ≤ iters → slot.rewardChain.deficit=requiredDeficit E (some p.record) →
    (0<p.record.deficit → p.record.deficit<E.minBlocksPerChallengeBlock →
      slot.infusedChallengeChain.isSome) →
    LastSlot E V (some p) (some slot,iters)

def Tracks (peak : Option (PeakOnChain E V)) (s : FullNodeStore ι) : Prop :=
  ∃ last,s.finishedSubSlots.getLast?=some last ∧ LastSlot E V peak last

section Validator

theorem reject_of_not {c : Prop} [Decidable c] {e : Err} (h : ¬ c) : reject c e = .ok () := if_neg h

theorem validateIcc_ok {prev : BlockRecord} {previous : Option EndOfSubSlotBundle} {eos : EndOfSubSlotBundle}
    {expected : Option IccExpectation} (he : expectedIcc E V prev previous = .ok expected)
    (hsome : eos.infusedChallengeChain.isNone=expected.isNone)
    (hproof : ∀ e,expected=some e → ∃ icc proof input,eos.infusedChallengeChain=some icc ∧
      eos.proofs.infusedChallengeChainSlotProof=some proof ∧ e.vdfInput=some input ∧
      icc.infusedChallengeChainEndOfSlotVdf =
        ⟨e.challengeHash,e.itersCommitted,icc.infusedChallengeChainEndOfSlotVdf.output⟩ ∧
      proof.isValidFrom E input ⟨e.challengeHash,e.itersProof,icc.infusedChallengeChainEndOfSlotVdf.output⟩
        icc.infusedChallengeChainEndOfSlotVdf=true) (hrc : eos.rewardChain.infusedChallengeChainSubSlotHash =
      eos.infusedChallengeChain.map E.hashInfusedChallengeChainSubSlot)
    (hcc : eos.challengeChain.infusedChallengeChainSubSlotHash =
      if eos.rewardChain.deficit=E.minBlocksPerChallengeBlock then
        eos.infusedChallengeChain.map E.hashInfusedChallengeChainSubSlot else none) :
    validateIcc E V (some prev) previous eos false = .ok () := by
  unfold validateIcc
  simp only [he]
  cases expected with
  | none =>
    have hnone : eos.infusedChallengeChain=none := by simpa using hsome
    simp [hnone,hrc,hcc,reject,assertThat,bind,Except.bind]
  | some e =>
    obtain ⟨icc,proof,input,hicc,hp,hi,hvdf,hvalid⟩ := hproof e rfl
    by_cases hd : eos.rewardChain.deficit=E.minBlocksPerChallengeBlock <;>
      simp [hicc,hp,hi,← hvdf,hvalid,hrc,hcc,hd,reject,assertThat,assertSome,bind,Except.bind]

/-- Summary and adjustment of a bundle are where they may be. -/
structure Adjusted (previous : Option EndOfSubSlotBundle) (epoch : Bool) (difficulty iters : ℕ)
    (eos : EndOfSubSlotBundle) : Prop where
  summary : previous.isSome → eos.challengeChain.subepochSummaryHash=none
  adjusts : if epoch=true ∧ eos.challengeChain.subepochSummaryHash.isSome then
      eos.challengeChain.newSubSlotIters=some iters ∧ eos.challengeChain.newDifficulty=some difficulty
    else eos.challengeChain.newSubSlotIters=none ∧ eos.challengeChain.newDifficulty=none

def Succeeds {α : Type} (m : Check α) : Prop := ∃ a,m = .ok a

def Adjusts (epoch : Bool) (difficulty iters : ℕ) (eos : EndOfSubSlotBundle) : Prop :=
  if epoch=true ∧ eos.challengeChain.subepochSummaryHash.isSome then
    eos.challengeChain.newSubSlotIters=some iters ∧ eos.challengeChain.newDifficulty=some difficulty
  else eos.challengeChain.newSubSlotIters=none ∧ eos.challengeChain.newDifficulty=none

/-- A check that fails on a wrong adjustment only, with the error of check 2m or 2n. -/
def FailsOnlyUnless {α : Type} (adjusts : Prop) (m : Check α) : Prop :=
  Succeeds m ∨ ¬ adjusts ∧ (m = .error (.invalid .invalidNewSubSlotIters) ∨
    m = .error (.invalid .invalidNewDifficulty))

variable {α : Type}

theorem FailsOnlyUnless.succeeds {adjusts : Prop} {m : Check α} (h : FailsOnlyUnless adjusts m)
    (ha : adjusts) : Succeeds m := h.resolve_right fun hfails => hfails.1 ha

theorem FailsOnlyUnless.bind {β : Type} {adjusts : Prop} {m : Check α} {f : α → Check β} {a : α} (h : m = .ok a)
    (hf : FailsOnlyUnless adjusts (f a)) : FailsOnlyUnless adjusts (m >>= f) := by
  rw [h]
  exact hf

section Rejects
variable {β : Type} {c adjusts : Prop} [Decidable c] {e : Err} {f : Unit → Check β}

theorem FailsOnlyUnless.passed (h : ¬ c) (hf : FailsOnlyUnless adjusts (f ())) :
    FailsOnlyUnless adjusts (reject c e >>= f) := .bind (reject_of_not h) hf

theorem FailsOnlyUnless.rejected (h : c) (hnot : ¬ adjusts)
    (he : e = .invalidNewSubSlotIters ∨ e = .invalidNewDifficulty) :
    FailsOnlyUnless adjusts (reject c e >>= f) := by
  have herror : (reject c e >>= f) = .error (.invalid e) := by
    rw [reject,if_pos h]
    rfl
  rw [FailsOnlyUnless,herror]
  refine Or.inr ⟨hnot,?_⟩
  rcases he with rfl | rfl
  · exact Or.inl rfl
  · exact Or.inr rfl

end Rejects

section Passing
variable {prevB : Option BlockRecord} {previous : Option EndOfSubSlotBundle} {eos : EndOfSubSlotBundle}
  {epoch : Bool} {difficulty iters : ℕ} {ses : Option Bytes32}

theorem validateFinishedSubSlot_adjusts {challenge : Bytes32} {ccIters : ℕ} {slot : SlotEnd}
    (hvdfs : challengeVdfsValid E eos challenge ccIters slot=true)
    (hicc : validateIcc E V prevB previous eos false = .ok ())
    (hsummary : previous.isSome → eos.challengeChain.subepochSummaryHash=none) (hses : previous=none → ses=none)
    (hhash : eos.rewardChain.challengeChainSubSlotHash=E.hashChallengeChainSubSlot eos.challengeChain)
    (hgenesis : previous=none → prevB=none → challenge=E.genesisChallenge ∧
      ccIters=E.subSlotItersStarting ∧ slot.rcChallenge=E.genesisChallenge ∧ slot.iters=iters ∧
      slot.ccStart=getDefaultElement) (hpeak : ∀ prev,previous=none → prevB=some prev → ∃ curr hashes ip,
      V.walkBack (·.firstInSubSlot) prev = .ok curr ∧ curr.finishedChallengeSlotHashes=some hashes ∧
      hashes.getLast?=some challenge ∧ prev.ipIters E.constants = .ok ip ∧
      uint64 (prev.subSlotIters-ip) = .ok slot.iters ∧ ccIters=prev.subSlotIters ∧
      slot.rcChallenge=prev.rewardInfusionNewChallenge ∧ slot.ccStart=prev.challengeVdfOutput)
    (hbehind : ∀ before,previous=some before → challenge=E.hashChallengeChainSubSlot before.challengeChain ∧
      slot.rcChallenge=E.hashRewardChainSubSlot before.rewardChain ∧ slot.iters=iters ∧
      slot.ccStart=getDefaultElement ∧ ccIters=(if prevB.isSome then iters else E.subSlotItersStarting))
    (hdeficit : eos.rewardChain.deficit=requiredDeficit E prevB) :
    FailsOnlyUnless (Adjusts epoch difficulty iters eos)
      (validateFinishedSubSlot E V prevB previous epoch difficulty iters false ses eos) := by
  simp only [challengeVdfsValid,Bool.and_eq_true,decide_eq_true_eq] at hvdfs
  obtain ⟨⟨hcc,hccproof⟩,hrcproof⟩ := hvdfs
  have hchallenge : eos.challengeChain.challengeChainEndOfSlotVdf.challenge=challenge := by rw [hcc]
  unfold validateFinishedSubSlot
  extract_lets -underBinder C cc rc challengeHash jp
  have hjp : ∀ u,FailsOnlyUnless (Adjusts epoch difficulty iters eos) (jp u) := by
    intro u
    dsimp -zeta only [jp]
    refine .bind hicc ?_
    extract_lets -underBinder jp
    have hjp : ∀ found,FailsOnlyUnless (Adjusts epoch difficulty iters eos) (jp found) := by
      intro found
      dsimp -zeta only [jp]
      refine .passed ?_ ?_
      · rintro ⟨hprevious,hsome⟩
        rw [hsummary hprevious] at hsome
        exact absurd hsome Bool.false_ne_true
      extract_lets -underBinder jp
      have hjp : ∀ u,FailsOnlyUnless (Adjusts epoch difficulty iters eos) (jp u) := by
        intro u
        dsimp -zeta only [jp]
        refine .passed (by simp [hhash,cc,rc]) ?_
        extract_lets -underBinder jp
        have hjp : FailsOnlyUnless (Adjusts epoch difficulty iters eos) (jp (slot.rcChallenge,slot.iters,slot.ccStart)) := by
          dsimp -zeta only [jp]
          refine .passed (by simp [rc,hrcproof]) ?_
          extract_lets -underBinder ccVdf vdfIters
          have hiters : vdfIters=ccIters := by
            cases previous with
            | none =>
              cases prevB with
              | none => exact (hgenesis rfl rfl).2.1.symm
              | some prev =>
                obtain ⟨_,_,_,-,-,-,-,-,hiters,-⟩ := hpeak prev rfl rfl
                exact hiters.symm
            | some before =>
              have hiters := (hbehind before rfl).2.2.2.2
              cases prevB with
              | none => exact hiters.symm
              | some prev => exact hiters.symm
          refine .passed ?_ (.passed ?_ ?_)
          · rw [not_not,hiters]
            show ccVdf=⟨eos.challengeChain.challengeChainEndOfSlotVdf.challenge,ccIters,ccVdf.output⟩
            rw [hchallenge]
            exact hcc
          · rintro ⟨-,hinvalid⟩
            apply hinvalid
            show VDFProof.isValidFrom E _ _ ⟨eos.challengeChain.challengeChainEndOfSlotVdf.challenge,_,_⟩ _=_
            rw [hchallenge]
            exact hccproof
          · cases prevB with
            | none => exact .passed (not_not.mpr hdeficit) (Or.inl ⟨_,rfl⟩)
            | some prev =>
              by_cases hzero : prev.deficit=0
              · have hd := hdeficit.trans (if_pos hzero)
                show FailsOnlyUnless _ (if prev.deficit=0 then _ else _)
                rw [if_pos hzero]
                exact .passed (not_not.mpr hd) (Or.inl ⟨_,rfl⟩)
              · have hd := hdeficit.trans (if_neg hzero)
                show FailsOnlyUnless _ (if prev.deficit=0 then _ else _)
                rw [if_neg hzero]
                exact .passed (not_not.mpr hd) (Or.inl ⟨_,rfl⟩)
        clear_value jp
        cases previous with
        | some before =>
          obtain ⟨-,hrc,hiters,hstart,-⟩ := hbehind before rfl
          rw [hrc,hiters,hstart] at hjp
          exact .bind rfl hjp
        | none =>
          cases prevB with
          | none =>
            obtain ⟨-,-,hrc,hiters,hstart⟩ := hgenesis rfl rfl
            rw [hrc,hiters,hstart] at hjp
            exact .bind rfl hjp
          | some prev =>
            obtain ⟨_,_,ip,-,-,-,hip,hlen,-,hrc,hstart⟩ := hpeak prev rfl rfl
            rw [hrc,hstart] at hjp
            exact .bind hip (.bind hlen (.bind rfl hjp))
      clear_value jp
      by_cases hboth : epoch=true ∧ cc.subepochSummaryHash.isSome=true
      · have hadjusts : Adjusts epoch difficulty iters eos ↔
            cc.newSubSlotIters=some iters ∧ cc.newDifficulty=some difficulty :=
          iff_of_eq (if_pos hboth)
        rw [if_pos hboth]
        by_cases hiters : cc.newSubSlotIters=some iters
        · refine .passed (not_not.mpr hiters) ?_
          by_cases hdifficulty : cc.newDifficulty=some difficulty
          · exact .passed (not_not.mpr hdifficulty) (hjp _)
          · exact .rejected hdifficulty (fun h => hdifficulty (hadjusts.mp h).2) (Or.inr rfl)
        · exact .rejected hiters (fun h => hiters (hadjusts.mp h).1) (Or.inl rfl)
      · have hadjusts : Adjusts epoch difficulty iters eos ↔ cc.newSubSlotIters=none ∧ cc.newDifficulty=none :=
          iff_of_eq (if_neg hboth)
        rw [if_neg hboth]
        by_cases hiters : cc.newSubSlotIters=none
        · refine .passed (by rw [hiters]; exact Bool.false_ne_true) ?_
          by_cases hdifficulty : cc.newDifficulty=none
          · exact .passed (by rw [hdifficulty]; exact Bool.false_ne_true) (hjp _)
          · exact .rejected (Option.isSome_iff_ne_none.mpr hdifficulty) (fun h => hdifficulty (hadjusts.mp h).2)
              (Or.inr rfl)
        · exact .rejected (Option.isSome_iff_ne_none.mpr hiters) (fun h => hiters (hadjusts.mp h).1) (Or.inl rfl)
    clear_value jp
    by_cases hsome : eos.challengeChain.subepochSummaryHash.isSome
    · have hnone : previous=none := by
        cases previous with
        | none => rfl
        | some before =>
          rw [hsummary rfl] at hsome
          exact absurd hsome Bool.false_ne_true
      rw [if_pos hsome]
      exact .bind (assertThat_eq_ok (u := ()) |>.mpr (by simp [hses hnone])) (.bind rfl (hjp _))
    · rw [if_neg hsome]
      exact .bind rfl (hjp _)
  clear_value jp
  cases previous with
  | some before => exact .passed (by simp [challengeHash,cc,hchallenge,(hbehind before rfl).1]) (hjp _)
  | none =>
    cases prevB with
    | none => exact .passed (by simp [challengeHash,cc,hchallenge,(hgenesis rfl rfl).1]) (hjp _)
    | some prev =>
      obtain ⟨curr,hashes,ip,hwalk,hhashes,hlast,-⟩ := hpeak prev rfl rfl
      refine .bind hwalk (.bind (assertSome_eq_ok.mpr hhashes) (.bind (index_eq_ok.mpr hlast) ?_))
      exact .passed (by simp [challengeHash,cc,hchallenge]) (hjp _)

end Passing

end Validator

section Store
variable {peak : Option (PeakOnChain E V)} {s : FullNodeStore ι} {eos : EndOfSubSlotBundle}

/-- What the validator expects of the infused challenge chain, in the store's terms. -/
def iccExpectation (slot : SlotEnd) : Option IccExpectation :=
  slot.icc.map fun c => ⟨c.1,c.2,slot.iters,slot.iccStart⟩

/-- What a valid infused challenge chain says. -/
structure Infused (E : Env) (eos : EndOfSubSlotBundle) (slot : SlotEnd) : Prop where
  present : eos.infusedChallengeChain.isNone=(iccExpectation slot).isNone
  proof : ∀ e,iccExpectation slot=some e → ∃ icc proof input,eos.infusedChallengeChain=some icc ∧
    eos.proofs.infusedChallengeChainSlotProof=some proof ∧ e.vdfInput=some input ∧
    icc.infusedChallengeChainEndOfSlotVdf =
      ⟨e.challengeHash,e.itersCommitted,icc.infusedChallengeChainEndOfSlotVdf.output⟩ ∧
    proof.isValidFrom E input ⟨e.challengeHash,e.itersProof,icc.infusedChallengeChainEndOfSlotVdf.output⟩
      icc.infusedChallengeChainEndOfSlotVdf=true

variable {slot : SlotEnd}

theorem infusedVdfValid_ok (hstart : slot.icc.isSome → slot.iccStart.isSome) (hhas : slot.icc.isSome →
      eos.infusedChallengeChain.isSome ∧ eos.proofs.infusedChallengeChainSlotProof.isSome) :
    ∃ valid,infusedVdfValid E eos slot = .ok valid ∧ (valid=true → Infused E eos slot) := by
  obtain ⟨rcChallenge,ccStart,iccStart,icc,iters⟩ := slot
  cases icc with
  | none =>
    refine ⟨_,rfl,?_⟩
    intro hvalid
    rw [Bool.and_eq_true] at hvalid
    exact ⟨hvalid.1,fun e he => by cases he⟩
  | some c =>
    obtain ⟨start,hs⟩ := Option.isSome_iff_exists.mp (hstart rfl)
    obtain ⟨chain,hchain⟩ := Option.isSome_iff_exists.mp (hhas rfl).1
    obtain ⟨proof,hproof⟩ := Option.isSome_iff_exists.mp (hhas rfl).2
    dsimp only at hs
    subst hs
    refine ⟨_,by rw [infusedVdfValid,hchain,hproof]; rfl,?_⟩
    intro hvalid
    rw [Bool.and_eq_true,decide_eq_true_eq] at hvalid
    refine ⟨by rw [hchain]; rfl,?_⟩
    rintro e ⟨⟩
    exact ⟨chain,proof,start,hchain,hproof,rfl,hvalid.1,hvalid.2⟩

theorem finishSlot_ok (s : FullNodeStore ι) (challenge : Bytes32) (subSlotIters totalIters : ℕ) (slot : SlotEnd)
    (hstart : slot.icc.isSome → slot.iccStart.isSome)
    (hhas : challengeVdfsValid E eos challenge subSlotIters slot=true → slot.icc.isSome →
      eos.infusedChallengeChain.isSome ∧ eos.proofs.infusedChallengeChainSlotProof.isSome) :
    ∃ added s',finishSlot E s eos challenge subSlotIters totalIters slot = .ok (added,s') ∧
      (s'=s ∨ (challengeVdfsValid E eos challenge subSlotIters slot=true ∧ Infused E eos slot ∧
        s'.finishedSubSlots=s.finishedSubSlots++[(some eos,totalIters)])) := by
  unfold finishSlot
  by_cases hvdfs : challengeVdfsValid E eos challenge subSlotIters slot=true
  · obtain ⟨valid,hicc,hinfused⟩ := infusedVdfValid_ok hstart (hhas hvdfs)
    rw [if_pos hvdfs,hicc]
    cases valid with
    | false => exact ⟨none,s,rfl,Or.inl rfl⟩
    | true => exact ⟨_,_,rfl,Or.inr ⟨hvdfs,hinfused rfl,rfl⟩⟩
  · rw [if_neg hvdfs]
    exact ⟨none,s,rfl,Or.inl rfl⟩

theorem PeakOnChain.iccOfPeak_ok (p : PeakOnChain E V) :
    ∃ icc,iccOfPeak E V p.record (p.start+p.record.subSlotIters) = .ok icc ∧
      (icc.isSome ↔ p.record.deficit<E.minBlocksPerChallengeBlock) ∧
      expectedIcc E V p.record none = .ok (icc.map fun c =>
        ⟨c.1,c.2,p.record.subSlotIters-p.ipIters,iccStartOfPeak E p.record⟩) := by
  have hlt := p.ipIters_lt
  have hssi := p.subSlotIters_lt
  by_cases hd : p.record.deficit<E.minBlocksPerChallengeBlock
  · obtain ⟨curr,hwalk,hcurr⟩ := p.icc hd
    have hproof : uint64 ((p.record.subSlotIters : ℤ)-p.ipIters) = .ok (p.record.subSlotIters-p.ipIters) :=
      uint_eq_ok.mpr ⟨by omega,by omega⟩
    have hinput : (if p.record.isChallengeBlock E.constants then some getDefaultElement
        else p.record.infusedChallengeVdfOutput)=iccStartOfPeak E p.record := by
      have hne : p.record.deficit≠E.minBlocksPerChallengeBlock := by omega
      rw [iccStartOfPeak,if_neg hne]
    have hge : ¬ p.record.deficit ≥ E.minBlocksPerChallengeBlock := by omega
    split_ifs at hcurr with hchallenge
    · obtain ⟨i,hi,htotal,hle⟩ := hcurr
      have hstore : uint64 ((p.start : ℤ)+p.record.subSlotIters-curr.totalIters) =
          .ok (p.record.subSlotIters-i) := uint_eq_ok.mpr ⟨by omega,by omega⟩
      have hvalidator : uint64 ((p.record.subSlotIters : ℤ)-i) = .ok (p.record.subSlotIters-i) :=
        uint_eq_ok.mpr ⟨by omega,by omega⟩
      refine ⟨some (curr.challengeBlockInfoHash,p.record.subSlotIters-i),?_,by simp [hd],?_⟩
      · simp [iccOfPeak,hd,hwalk,hchallenge,hstore,bind,Except.bind,pure,Except.pure]
      · simp [expectedIcc,hge,hwalk,hchallenge,hi,hvalidator,p.ipIters_eq,hproof,← hinput,bind,Except.bind,
          pure,Except.pure]
    · obtain ⟨hashes,hash,hhashes,hlast⟩ := hcurr
      refine ⟨some (hash,p.record.subSlotIters),?_,by simp [hd],?_⟩
      · simp [iccOfPeak,hd,hwalk,hchallenge,hhashes,hlast,assertSome,index,bind,Except.bind,pure,Except.pure]
      · simp [expectedIcc,hge,hwalk,hchallenge,hhashes,hlast,p.ipIters_eq,hproof,← hinput,assertSome,index,
          bind,Except.bind,pure,Except.pure]
  · refine ⟨none,?_,by simp [hd],?_⟩
    · simp [iccOfPeak,hd,pure,Except.pure]
    · simp [expectedIcc,not_lt.mp hd,pure,Except.pure]

/-- What comes of a bundle: nothing is added, or one that passes the checks of the next block. -/
def Admission (peak : Option (PeakOnChain E V)) (s s' : FullNodeStore ι) (eos : EndOfSubSlotBundle) : Prop :=
  s'.finishedSubSlots=s.finishedSubSlots ∨
    ∃ last iters,s.finishedSubSlots.getLast?=some last ∧
      s'.finishedSubSlots=s.finishedSubSlots++[(some eos,iters)] ∧
      Passes peak (previousSlot peak last) eos ∧ LastSlot E V peak (some eos,iters)

variable {last : Option EndOfSubSlotBundle × ℕ}

theorem FieldsRight.adjusted (hf : FieldsRight peak last eos) {epoch : Bool}
    {difficulty iters : ℕ} (he : expectedOnPeak peak = .ok (epoch,difficulty,iters)) :
    Adjusted (previousSlot peak last) epoch difficulty iters eos := ⟨hf.summary,hf.adjusts _ _ _ he⟩

variable {p : PeakOnChain E V}

theorem passes_ofPeak (hvdfs : challengeVdfsValid E eos (ccAfter E p.slot) p.record.subSlotIters slot=true)
    (hinfused : Infused E eos slot) (hexpected : expectedIcc E V p.record none = .ok (iccExpectation slot))
    (hrc : slot.rcChallenge=p.record.rewardInfusionNewChallenge)
    (hcc : slot.ccStart=p.record.challengeVdfOutput) (hiters : slot.iters=p.record.subSlotIters-p.ipIters)
    (hfirst : previousSlot (some p) (p.slot,p.start)=none)
    (hf : FieldsRight (some p) (p.slot,p.start) eos) : Passes (some p) none eos := by
  intro epoch difficulty iters he ses hses
  have hlt := p.ipIters_lt
  have hssi := p.subSlotIters_lt
  have hadjusted := hf.adjusted he
  rw [hfirst] at hadjusted
  refine (validateFinishedSubSlot_adjusts hvdfs ?_ hadjusted.summary hses hf.challengeHash ?_ ?_ ?_
    hf.deficit).succeeds hadjusted.adjusts
  · exact validateIcc_ok hexpected hinfused.present hinfused.proof hf.infusedHash hf.commitment
  · intro _ hnone
    cases hnone
  · rintro prev - ⟨⟩
    obtain ⟨curr,hashes,hwalk,hhashes,hlast⟩ := p.challenge
    refine ⟨curr,hashes,p.ipIters,hwalk,hhashes,hlast,p.ipIters_eq,?_,rfl,hrc,hcc⟩
    rw [hiters]
    show uint64 ((p.record.subSlotIters : ℤ)-p.ipIters)=_
    exact uint_eq_ok.mpr ⟨by omega,by omega⟩
  · intro before hbefore
    cases hbefore

variable {before : EndOfSubSlotBundle}

theorem expectedIcc_behind (hdeficit : before.rewardChain.deficit=requiredDeficit E (some p.record))
    (hicc : 0<p.record.deficit → p.record.deficit<E.minBlocksPerChallengeBlock →
      before.infusedChallengeChain.isSome) :
    expectedIcc E V p.record (some before) = .ok ((iccAfter E (some before)).map fun c =>
      ⟨c,p.record.subSlotIters,p.record.subSlotIters,some getDefaultElement⟩) := by
  have hle := p.deficit_le
  unfold expectedIcc iccAfter
  by_cases hzero : p.record.deficit=0
  · have hd := hdeficit.trans (if_pos hzero)
    simp [hd,pure,Except.pure]
  · have hd := hdeficit.trans (if_neg hzero)
    by_cases hlt : p.record.deficit<E.minBlocksPerChallengeBlock
    · obtain ⟨icc,hsome⟩ := Option.isSome_iff_exists.mp (hicc (by omega) hlt)
      have hge : ¬ E.minBlocksPerChallengeBlock≤p.record.deficit := by omega
      have hne : p.record.deficit≠E.minBlocksPerChallengeBlock := by omega
      simp [hd,hge,hlt,hne,hsome,assertSome,bind,Except.bind,pure,Except.pure]
    · have heq : p.record.deficit=E.minBlocksPerChallengeBlock := by omega
      simp [hd,heq,pure,Except.pure]

variable {n : ℕ}

theorem passes_behind (hvdfs : challengeVdfsValid E eos (ccAfter E (some before)) p.record.subSlotIters slot=true)
    (hinfused : Infused E eos slot)
    (hexpected : expectedIcc E V p.record (some before) = .ok (iccExpectation slot))
    (hrc : slot.rcChallenge=rcAfter E (some before)) (hcc : slot.ccStart=getDefaultElement)
    (hiters : slot.iters=p.record.subSlotIters) (hprevious : previousSlot (some p) (some before,n)=some before)
    (hf : FieldsRight (some p) (some before,n) eos) : Passes (some p) (some before) eos := by
  intro epoch difficulty iters he ses hses
  have hadjusted := hf.adjusted he
  have hsame := hf.sameIters (by rw [hprevious]; rfl) _ _ _ he
  rw [hprevious] at hadjusted
  refine (validateFinishedSubSlot_adjusts hvdfs ?_ hadjusted.summary hses hf.challengeHash ?_ ?_ ?_
    hf.deficit).succeeds hadjusted.adjusts
  · exact validateIcc_ok hexpected hinfused.present hinfused.proof hf.infusedHash hf.commitment
  · intro hnone
    cases hnone
  · intro prev hnone
    cases hnone
  · rintro _ ⟨⟩
    exact ⟨rfl,hrc,hiters.trans hsame.symm,hcc,hsame.symm⟩

theorem passes_start {before : Option EndOfSubSlotBundle}
    (hvdfs : challengeVdfsValid E eos (ccAfter E before) E.subSlotItersStarting slot=true)
    (hicc : eos.infusedChallengeChain=none) (hrc : slot.rcChallenge=rcAfter E before)
    (hcc : slot.ccStart=getDefaultElement) (hiters : slot.iters=E.subSlotItersStarting)
    (hprevious : previousSlot (none : Option (PeakOnChain E V)) (before,n)=before)
    (hf : FieldsRight (none : Option (PeakOnChain E V)) (before,n) eos) :
    Passes (none : Option (PeakOnChain E V)) before eos := by
  intro epoch difficulty iters he ses hses
  have hadjusted := hf.adjusted he
  have hstart : iters=E.subSlotItersStarting := by
    obtain ⟨-,-,hstart⟩ := he
    rfl
  rw [hprevious] at hadjusted
  refine (validateFinishedSubSlot_adjusts hvdfs ?_ hadjusted.summary hses hf.challengeHash ?_ ?_ ?_
    hf.deficit).succeeds hadjusted.adjusts
  · exact reject_of_not (by simp [hicc])
  · rintro rfl -
    exact ⟨rfl,rfl,hrc,hiters.trans hstart.symm,hcc⟩
  · intro prev _ hnone
    cases hnone
  · rintro _ rfl
    exact ⟨rfl,hrc,hiters.trans hstart.symm,hcc,rfl⟩

theorem PeakOnChain.sesAgrees_ok (p : PeakOnChain E V) (eos : EndOfSubSlotBundle) :
    ∃ agrees,sesAgrees E V p.record p.block eos = .ok agrees := by
  obtain ⟨⟨canFinishSe,canFinishEpoch⟩,hfinishes⟩ := p.finishes
  obtain ⟨ses,hses⟩ := p.summary
  unfold sesAgrees
  rw [hfinishes]
  cases canFinishSe with
  | false => exact ⟨true,rfl⟩
  | true =>
    refine ⟨decide (eos.challengeChain.subepochSummaryHash=ses.map E.hashSubEpochSummary),?_⟩
    show (nextSubEpochSummary E V p.record.requiredIters p.block >>= _)=_
    rw [hses]
    rfl

theorem endOfPeakSlot_ok (hlast : s.finishedSubSlots.getLast?=some (p.slot,p.start))
    (hc : Careful (some p) s eos) (hnew : (s.finishedSubSlots.any fun slot => decide (slot.1=some eos))=false)
    (hlink : eos.challengeChain.challengeChainEndOfSlotVdf.challenge=ccAfter E p.slot) :
    ∃ added s',newFinishedSubSlot E V s eos (some p.both) = .ok (added,s') ∧ Admission (some p) s s' eos := by
  have hlt := p.ipIters_lt
  have hpos := p.ipIters_pos
  have htotal := p.totalIters_eq
  obtain ⟨hbound,hfields⟩ := hc _ hlast
  simp only [Option.map_some,slotIters,PeakOnChain.both] at hbound
  have hin : peakIn (some p.both) p.start=some p.both := by
    have hafter : p.record.totalIters > p.start := by omega
    simp [peakIn,PeakOnChain.both,Option.filter,hafter]
  have hprevious : previousSlot (some p) (p.slot,p.start)=none := by
    simp only [previousSlot,Option.map_some,hin,Option.isSome_some,if_true]
  have hend : uint128 ((p.start : ℤ)+p.record.subSlotIters) = .ok (p.start+p.record.subSlotIters) :=
    uint_eq_ok.mpr ⟨by push_cast; rfl,hbound⟩
  have hlen : uint64 (((p.start+p.record.subSlotIters : ℕ) : ℤ)-p.record.totalIters) =
      .ok (p.record.subSlotIters-p.ipIters) := by
    have hssi := p.subSlotIters_lt
    exact uint_eq_ok.mpr ⟨by omega,by omega⟩
  obtain ⟨icc,hicc,hsome,hexpected⟩ := p.iccOfPeak_ok
  obtain ⟨agrees,hagrees⟩ := p.sesAgrees_ok eos
  have hin' : peakIn (some (p.record,p.block)) p.start=some (p.record,p.block) := hin
  unfold newFinishedSubSlot
  rw [bind_of_ok (assertSome_eq_ok.mpr hlast)]
  simp only [hnew,hlink,PeakOnChain.both,slotIters,Bool.false_eq_true,if_false,ne_eq,not_true_eq_false]
  rw [bind_of_ok hend,hin']
  dsimp only
  rw [bind_of_ok hlen]
  by_cases hrc : p.record.rewardInfusionNewChallenge=eos.rewardChain.endOfSlotVdf.challenge
  · rw [if_neg (not_not.mpr hrc),bind_of_ok hicc,bind_of_ok hagrees]
    cases agrees with
    | false => exact ⟨none,s,rfl,Or.inl rfl⟩
    | true =>
      have hproved : ∀ iccStart icc,challengeVdfsValid E eos (ccAfter E p.slot) p.record.subSlotIters
          ⟨p.record.rewardInfusionNewChallenge,p.record.challengeVdfOutput,iccStart,icc,
            p.record.subSlotIters-p.ipIters⟩=true → proved (some p) (p.slot,p.start) eos=true := by
        intro iccStart icc hvalid
        have hiters : p.start+p.record.subSlotIters-p.record.totalIters =
          p.record.subSlotIters-p.ipIters := by omega
        simp only [proved,Option.map_some,PeakOnChain.both,hin',hrc,hiters,decide_true,Bool.true_and]
        rw [hrc] at hvalid
        exact hvalid
      have hdue : icc.isSome → expectsIcc (some p) (p.slot,p.start)=true := by
        intro hicc
        simpa [expectsIcc,PeakOnChain.both,hin'] using hsome.mp hicc
      obtain ⟨added,s',hfinish,hs'⟩ := finishSlot_ok s (ccAfter E p.slot) p.record.subSlotIters
        (p.start+p.record.subSlotIters) ⟨p.record.rewardInfusionNewChallenge,p.record.challengeVdfOutput,
          iccStartOfPeak E p.record,icc,p.record.subSlotIters-p.ipIters⟩
        (fun hicc => p.iccStart (hsome.mp hicc))
        (fun hvalid hicc => (hfields (hproved _ _ hvalid)).hasIcc (hdue hicc))
      refine ⟨added,s',hfinish,?_⟩
      rcases hs' with rfl | ⟨hvdfs,hinfused,hslots⟩
      · exact Or.inl rfl
      · have hf := hfields (hproved _ _ hvdfs)
        refine Or.inr ⟨_,_,hlast,hslots,?_,.behind (by omega) hf.deficit ?_⟩
        · rw [hprevious]
          exact passes_ofPeak hvdfs hinfused hexpected rfl rfl rfl hprevious hf
        · intro _ hlt
          have hpresent := hinfused.present
          simp only [iccExpectation,Option.isNone_map] at hpresent
          have hicc := hsome.mpr hlt
          cases hchain : eos.infusedChallengeChain with
          | some _ => rfl
          | none =>
            rw [hchain] at hpresent
            rw [← Option.not_isNone,← hpresent] at hicc
            exact absurd hicc (by decide)
  · rw [if_pos hrc]
    exact ⟨none,_,rfl,Or.inl rfl⟩

theorem endOfEmptySlot_ok (hlast : s.finishedSubSlots.getLast?=some last)
    (hc : Careful peak s eos) (hnew : (s.finishedSubSlots.any fun slot => decide (slot.1=some eos))=false)
    (hlink : eos.challengeChain.challengeChainEndOfSlotVdf.challenge=ccAfter E last.1)
    (hout : peakIn (peak.map (·.both)) last.2=none) (hadmits : FieldsRight peak last eos →
      challengeVdfsValid E eos (ccAfter E last.1) (slotIters E (peak.map (·.both))) ⟨rcAfter E last.1,
        getDefaultElement,some getDefaultElement,(iccAfter E last.1).map (·,slotIters E (peak.map (·.both))),
        slotIters E (peak.map (·.both))⟩=true →
      Infused E eos ⟨rcAfter E last.1,getDefaultElement,some getDefaultElement,
        (iccAfter E last.1).map (·,slotIters E (peak.map (·.both))),slotIters E (peak.map (·.both))⟩ →
      Passes peak (previousSlot peak last) eos ∧
        LastSlot E V peak (some eos,last.2+slotIters E (peak.map (·.both)))) :
    ∃ added s',newFinishedSubSlot E V s eos (peak.map (·.both)) = .ok (added,s') ∧ Admission peak s s' eos := by
  obtain ⟨hbound,hfields⟩ := hc _ hlast
  have hend : uint128 ((last.2 : ℤ)+slotIters E (peak.map (·.both))) =
      .ok (last.2+slotIters E (peak.map (·.both))) := uint_eq_ok.mpr ⟨by push_cast; rfl,hbound⟩
  have hproved : ∀ iccStart icc,challengeVdfsValid E eos (ccAfter E last.1) (slotIters E (peak.map (·.both)))
      ⟨rcAfter E last.1,getDefaultElement,iccStart,icc,slotIters E (peak.map (·.both))⟩=true →
        proved peak last eos=true := by
    intro iccStart icc hvalid
    simp only [proved,hout]
    exact hvalid
  have hdue : (iccAfter E last.1).isSome → expectsIcc peak last=true := by
    intro hicc
    simpa only [expectsIcc,hout] using hicc
  unfold newFinishedSubSlot
  rw [bind_of_ok (assertSome_eq_ok.mpr hlast)]
  simp only [hnew,hlink,Bool.false_eq_true,if_false,ne_eq,not_true_eq_false]
  rw [bind_of_ok hend,hout]
  obtain ⟨added,s',hfinish,hs'⟩ := finishSlot_ok s (ccAfter E last.1) (slotIters E (peak.map (·.both)))
    (last.2+slotIters E (peak.map (·.both))) ⟨rcAfter E last.1,getDefaultElement,some getDefaultElement,
      (iccAfter E last.1).map (·,slotIters E (peak.map (·.both))),slotIters E (peak.map (·.both))⟩
    (fun _ => rfl)
    (fun hvalid hicc => (hfields (hproved _ _ hvalid)).hasIcc (hdue (by simpa only [Option.isSome_map] using hicc)))
  refine ⟨added,s',hfinish,?_⟩
  rcases hs' with rfl | ⟨hvdfs,hinfused,hslots⟩
  · exact Or.inl rfl
  · obtain ⟨hpasses,hnext⟩ := hadmits (hfields (hproved _ _ hvdfs)) hvdfs hinfused
    exact Or.inr ⟨_,_,hlast,hslots,hpasses,hnext⟩

theorem Infused.absent (h : Infused E eos slot) (hnone : slot.icc=none) : eos.infusedChallengeChain=none := by
  have hpresent := h.present
  simp only [iccExpectation,hnone,Option.map_none,Option.isNone_none] at hpresent
  exact Option.isNone_iff_eq_none.mp hpresent

theorem Infused.isSome (h : Infused E eos slot) (hsome : slot.icc.isSome) :
    eos.infusedChallengeChain.isSome := by
  have hpresent := h.present
  simp only [iccExpectation,Option.isNone_map] at hpresent
  rw [← Option.not_isNone,hpresent,Option.not_isNone]
  exact hsome

theorem newFinishedSubSlot_ok (h : LastSlot E V peak last)
    (hlast : s.finishedSubSlots.getLast?=some last) (hc : Careful peak s eos) :
    ∃ added s',newFinishedSubSlot E V s eos (peak.map (·.both)) = .ok (added,s') ∧ Admission peak s s' eos := by
  cases hnew : s.finishedSubSlots.any fun slot => decide (slot.1=some eos) with
  | true =>
    refine ⟨some [],s,?_,Or.inl rfl⟩
    unfold newFinishedSubSlot
    rw [bind_of_ok (assertSome_eq_ok.mpr hlast)]
    simp only [hnew,if_true]
    rfl
  | false =>
    by_cases hlink : eos.challengeChain.challengeChainEndOfSlotVdf.challenge=ccAfter E last.1
    · cases h with
      | genesis =>
        refine endOfEmptySlot_ok hlast hc hnew hlink rfl fun hf hvdfs hinfused => ?_
        have hicc := hinfused.absent rfl
        exact ⟨passes_start hvdfs hicc rfl rfl rfl rfl hf,.empty hf.deficit hicc⟩
      | @empty slot iters hdeficit hnone =>
        refine endOfEmptySlot_ok hlast hc hnew hlink rfl fun hf hvdfs hinfused => ?_
        have hicc := hinfused.absent (by simp [iccAfter,hdeficit])
        exact ⟨passes_start hvdfs hicc rfl rfl rfl rfl hf,.empty hf.deficit hicc⟩
      | ofPeak p => exact endOfPeakSlot_ok hlast hc hnew hlink
      | @behind p slot iters hle hdeficit hicc =>
        have hafter : ¬ p.record.totalIters > iters := by omega
        have hout : peakIn (Option.map (·.both) (some p)) iters=none := by
          simp [peakIn,PeakOnChain.both,Option.filter,hafter]
        have hprevious : previousSlot (some p) (some slot,iters)=some slot := by
          simp only [previousSlot,hout,Option.isSome_none,Bool.false_eq_true,if_false]
        refine endOfEmptySlot_ok hlast hc hnew hlink hout fun hf hvdfs hinfused => ⟨?_,.behind ?_ hf.deficit ?_⟩
        · have hexpected := expectedIcc_behind hdeficit hicc
          rw [hprevious]
          refine passes_behind hvdfs hinfused ?_ rfl rfl rfl hprevious hf
          rw [hexpected]
          simp [iccExpectation,slotIters,PeakOnChain.both,Function.comp_def]
        · omega
        · intro hpos hlt
          have hd := hdeficit.trans (if_neg (by omega))
          have hne : p.record.deficit≠E.minBlocksPerChallengeBlock := by omega
          apply hinfused.isSome
          simpa [iccAfter,hd,hne] using hicc hpos hlt
    · refine ⟨none,s,?_,Or.inl rfl⟩
      unfold newFinishedSubSlot
      rw [bind_of_ok (assertSome_eq_ok.mpr hlast)]
      simp only [hnew,hlink,Bool.false_eq_true,if_false,ne_eq,not_false_eq_true,if_true]
      rfl

end Store

section Run
variable {peak : Option (PeakOnChain E V)} {s s' : FullNodeStore ι} {eos : EndOfSubSlotBundle}

theorem Tracks.admit (h : Tracks peak s) (ha : Admission peak s s' eos) : Tracks peak s' := by
  rcases ha with hsame | ⟨last,iters,-,hslots,-,hnext⟩
  · unfold Tracks
    rw [hsame]
    exact h
  · exact ⟨_,by rw [hslots,List.getLast?_concat],hnext⟩

/-- The waiting bundles that are tried are careful ones. -/
def CarefulWaiting (peak : Option (PeakOnChain E V)) : FullNodeStore ι → List EndOfSubSlotBundle → Prop
  | _,[] => True
  | s,eos::more => Careful peak s eos ∧ ∀ s',
    newFinishedSubSlot E V s eos (peak.map (·.both)) = .ok (none,s') → CarefulWaiting peak s' more

theorem Tracks.addWaiting {waiting : List EndOfSubSlotBundle} (h : Tracks peak s)
    (hc : CarefulWaiting peak s waiting)
    (hs' : addWaiting E V (peak.map (·.both)) s waiting = .ok s') : Tracks peak s' := by
  induction waiting generalizing s with
  | nil =>
    cases hs'
    exact h
  | cons eos more ih =>
    obtain ⟨last,hlast,htracks⟩ := h
    obtain ⟨added,t,hstep,hadmits⟩ := newFinishedSubSlot_ok htracks hlast hc.1
    have ht := Tracks.admit ⟨last,hlast,htracks⟩ hadmits
    rw [FullNodeStore.addWaiting,bind_of_ok hstep] at hs'
    cases added with
    | some _ =>
      cases hs'
      exact ht
    | none => exact ih ht (hc.2 t hstep) hs'

theorem PeakOnChain.peakSlots_last (p : PeakOnChain E V) {slots : List (Option EndOfSubSlotBundle × ℕ)}
    (h : peakSlots E p.record p.spSlot p.slot = .ok slots) : slots.getLast?=some (p.slot,p.start) := by
  have htotal := p.totalIters_eq
  unfold peakSlots at h
  cases hslot : p.slot with
  | none =>
    rw [hslot] at h
    cases h
    rw [p.start_zero hslot]
    rfl
  | some _ =>
    rw [hslot] at h
    obtain ⟨prevTotalIters,-,h⟩ := bind_ok.mp h
    obtain ⟨totalIters,hend,h⟩ := bind_ok.mp h
    rw [BlockRecord.ipSubSlotTotalIters,bind_of_ok p.ipIters_eq,uint_eq_ok] at hend
    have hstart : totalIters=p.start := by omega
    subst hstart
    split_ifs at h
    · obtain ⟨-,-,h⟩ := bind_ok.mp h
      cases h
      rfl
    · cases h
      rfl

/-- The states of the store along a run in which every bundle that it is given is a careful one. -/
inductive Reached (E : Env) (ι : Type) : (V : BlockView) → Option (PeakOnChain E V) → FullNodeStore ι → Prop
  | genesis {V : BlockView} (s : FullNodeStore ι) : Reached E ι V none s.initializeGenesisSubSlot
  | peak {V V' : BlockView} {peak : Option (PeakOnChain E V)} {s s' : FullNodeStore ι}
    {slots : List (Option EndOfSubSlotBundle × ℕ)} (p : PeakOnChain E V') :
    Reached E ι V peak s → peakSlots E p.record p.spSlot p.slot = .ok slots →
    CarefulWaiting (some p) { s with finishedSubSlots := slots }
      ((s.futureEosCache.get? p.record.rewardInfusionNewChallenge).getD []) →
    newPeak E V' s p.record p.block p.spSlot p.slot = .ok s' → Reached E ι V' (some p) s'
  | slot {V : BlockView} {peak : Option (PeakOnChain E V)} {s s' : FullNodeStore ι} {eos : EndOfSubSlotBundle}
    {added : Option (List ι)} :
    Reached E ι V peak s → Careful peak s eos →
    newFinishedSubSlot E V s eos (peak.map (·.both)) = .ok (added,s') → Reached E ι V peak s'

theorem Reached.tracks (h : Reached E ι V peak s) : Tracks peak s := by
  induction h with
  | genesis s => exact ⟨_,rfl,.genesis⟩
  | @peak V V' peak s s' slots p _ hslots hc hs' ih =>
    unfold newPeak at hs'
    rw [bind_of_ok hslots] at hs'
    obtain ⟨t,hwaiting,ht⟩ := bind_ok.mp hs'
    have htracks : Tracks (some p) { s with finishedSubSlots := slots } :=
      ⟨_,p.peakSlots_last hslots,.ofPeak p⟩
    obtain ⟨last,hlast,hlastSlot⟩ := htracks.addWaiting hc hwaiting
    cases ht
    exact ⟨last,hlast,hlastSlot⟩
  | slot _ hc hstep ih =>
    obtain ⟨last,hlast,hlastSlot⟩ := ih
    obtain ⟨_,_,hok,hadmits⟩ := newFinishedSubSlot_ok hlastSlot hlast hc
    rw [hok] at hstep
    cases hstep
    exact Tracks.admit ⟨last,hlast,hlastSlot⟩ hadmits

/-- Of careful bundles the store raises nothing, and takes in only what the next block may have. -/
theorem subSlots_admitted (h : Reached E ι V peak s) (hc : Careful peak s eos) :
    ∃ added s',newFinishedSubSlot E V s eos (peak.map (·.both)) = .ok (added,s') ∧ Admission peak s s' eos := by
  obtain ⟨last,hlast,htracks⟩ := h.tracks
  exact newFinishedSubSlot_ok htracks hlast hc

end Run

section Genesis

def genesisView : BlockView := ⟨.empty,.empty⟩

def genesisPeak : PeakOnChain shortEnv genesisView where
  record := shortRecord 0 (some [1]) none
  block := tinyGenesis
  spSlot := none
  slot := none
  start := 0
  ipIters := 49
  ipIters_eq := by decide +kernel
  ipIters_pos := by decide
  ipIters_lt := by decide
  subSlotIters_lt := by decide
  totalIters_eq := rfl
  start_zero := fun _ => rfl
  deficit_le := by decide
  challenge := ⟨_,_,rfl,rfl,rfl⟩
  icc := fun _ => ⟨shortRecord 0 (some [1]) none,rfl,by
    rw [if_pos (by decide)]
    exact ⟨49,by decide +kernel,rfl,by decide⟩⟩
  iccStart := fun _ => by decide
  finishes := ⟨(false,false),by decide +kernel⟩
  summary := ⟨none,by decide +kernel⟩

def genesisStore : FullNodeStore ℕ := ⟨[(none,0)],.empty,.empty⟩

theorem genesisStore_reached : Reached shortEnv ℕ genesisView (some genesisPeak) genesisStore :=
  .peak (V := genesisView) genesisPeak (.genesis genesisStore) rfl trivial rfl

/-- The end of the first slot, with an infused challenge chain or not, and with a deficit. -/
def firstEnd (icc : Option InfusedChallengeChainSubSlot) (deficit : ℕ) : EndOfSubSlotBundle where
  challengeChain := ⟨⟨1,1024,getDefaultElement⟩,icc.map fun _ => 0,none,none,none⟩
  infusedChallengeChain := icc
  rewardChain := ⟨⟨0,975,getDefaultElement⟩,0,icc.map fun _ => 0,deficit⟩
  proofs := ⟨shortProof,icc.map fun _ => shortProof,shortProof⟩

def firstIcc : InfusedChallengeChainSubSlot := ⟨⟨0,975,getDefaultElement⟩⟩

theorem firstEnd_careful : Careful (some genesisPeak) genesisStore (firstEnd (some firstIcc) 1) := by
  rintro _ ⟨⟩
  refine ⟨by decide,fun _ => ?_⟩
  refine ⟨fun _ => ⟨rfl,rfl⟩,by decide,rfl,rfl,rfl,fun _ => rfl,fun epoch difficulty iters _ => ?_,?_⟩
  · simp [firstEnd]
  · intro hsome
    exact absurd hsome (by decide)

theorem subSlots_admitted_first :
    ∃ added s',newFinishedSubSlot shortEnv genesisView genesisStore (firstEnd (some firstIcc) 1)
      ((some genesisPeak).map (·.both)) = .ok (added,s') ∧
        Admission (some genesisPeak) genesisStore s' (firstEnd (some firstIcc) 1) :=
  subSlots_admitted genesisStore_reached firstEnd_careful

/-- Without the infused chain the store raises; a bundle with a wrong deficit it takes in, and the validator
rejects it. -/
theorem forged_bundles : Reached shortEnv ℕ genesisView (some genesisPeak) genesisStore ∧
      (newFinishedSubSlot shortEnv genesisView genesisStore (firstEnd none 1)
        (some genesisPeak.both)).map (·.2.finishedSubSlots) = .error (.raised .assertion) ∧
      (newFinishedSubSlot shortEnv genesisView genesisStore (firstEnd (some firstIcc) 7)
        (some genesisPeak.both)).map (·.2.finishedSubSlots) =
          .ok [(none,0),(some (firstEnd (some firstIcc) 7),1024)] ∧
      validateFinishedSubSlot shortEnv genesisView (some genesisPeak.record) none false 7 1024 false none
        (firstEnd (some firstIcc) 7) = .error (.invalid .invalidIccHashCc) := by
  refine ⟨genesisStore_reached,?_,?_,?_⟩
  · decide +kernel
  · decide +kernel
  · decide +kernel

end Genesis

end FullNodeStore
end RoseChain
