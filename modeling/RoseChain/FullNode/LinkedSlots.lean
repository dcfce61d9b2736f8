import Mathlib.Data.List.Chain
import RoseChain.FullNode.NodeStore

namespace RoseChain
open Lib FullNodeStore

def EndOfSubSlotBundle.challenge (eos : EndOfSubSlotBundle) : Bytes32 :=
  eos.challengeChain.challengeChainEndOfSlotVdf.challenge

def EndOfSubSlotBundle.ccHash (E : Env) (eos : EndOfSubSlotBundle) : Bytes32 :=
  E.hashChallengeChainSubSlot eos.challengeChain

namespace NodeStore

def bundles (s : NodeStore) : List (Option EndOfSubSlotBundle) := s.finishedSubSlots.map (·.subSlot)

variable (E : Env)

/-- An entry holds a bundle that starts where the entry before it ends. -/
def Follows (before after : Option EndOfSubSlotBundle) : Prop :=
  ∃ eos,after=some eos ∧ eos.challenge=ccAfter E before

def Linked (l : List (Option EndOfSubSlotBundle)) : Prop := l.IsChain (Follows E)

variable {E} {V : BlockView} {s s' : NodeStore} {now : ℕ}

variable {l : List (Option EndOfSubSlotBundle)}

theorem Linked.concat {before : Option EndOfSubSlotBundle} {eos : EndOfSubSlotBundle}
    (h : Linked E l) (hlast : l.getLast?=some before) (heos : eos.challenge=ccAfter E before) :
    Linked E (l++[some eos]) := by
  apply List.IsChain.append h (List.isChain_singleton _)
  intro x hx y hy
  rw [hlast] at hx
  cases hx
  cases hy
  exact ⟨eos,rfl,heos⟩

theorem Linked.tail_bundles (h : Linked E l) : ∃ eoss : List EndOfSubSlotBundle,l.tail=eoss.map some := by
  cases l with
  | nil => exact ⟨[],rfl⟩
  | cons before l =>
    induction l generalizing before with
    | nil => exact ⟨[],rfl⟩
    | cons after l ih =>
      obtain ⟨⟨eos,rfl,-⟩,hrest⟩ := List.isChain_cons_cons.mp h
      obtain ⟨eoss,heoss⟩ := ih _ hrest
      exact ⟨eos::eoss,congrArg (some eos :: ·) heoss⟩

section Steps

variable {eos : EndOfSubSlotBundle} {challenge : Bytes32} {added : Option (List NewInfusionPointVDF)}

theorem finishSlot_bundles {iters total : ℕ} {slot : SlotEnd}
    (h : finishSlot E s eos challenge iters total slot = .ok (added,s')) :
    s'.bundles=s.bundles ∨ s'.bundles=s.bundles++[some eos] := by
  unfold finishSlot at h
  split_ifs at h
  · obtain ⟨valid,-,h⟩ := bind_ok.mp h
    cases valid <;> cases h
    · exact Or.inl rfl
    · exact Or.inr (by simp [bundles])
  · cases h
    exact Or.inl rfl

theorem newFinishedSubSlot_bundles {peak : Option (BlockRecord × FullBlock)}
    (h : s.newFinishedSubSlot E V eos peak now = .ok (added,s')) :
    s'.bundles=s.bundles ∨ ∃ before,s.bundles.getLast?=some before ∧ eos.challenge=ccAfter E before ∧
      s'.bundles=s.bundles++[some eos] := by
  unfold newFinishedSubSlot at h
  obtain ⟨last,hlast,h⟩ := bind_ok.mp h
  rw [assertSome_eq_ok] at hlast
  split_ifs at h with hpresent hchallenge
  · cases h
    exact Or.inl rfl
  · cases h
    exact Or.inl rfl
  · have hadds (hs' : s'.bundles=s.bundles ∨ s'.bundles=s.bundles++[some eos]) : s'.bundles=s.bundles ∨
        ∃ before,s.bundles.getLast?=some before ∧ eos.challenge=ccAfter E before ∧
          s'.bundles=s.bundles++[some eos] := by
      apply hs'.imp_right
      intro hs'
      refine ⟨last.subSlot,?_,not_not.mp hchallenge,hs'⟩
      rw [bundles,List.getLast?_map,hlast,Option.map_some]
    obtain ⟨total,-,h⟩ := bind_ok.mp h
    cases hin : peakIn peak last.startTotalIters with
    | none =>
      rw [hin] at h
      exact hadds (finishSlot_bundles h)
    | some p =>
      rw [hin] at h
      obtain ⟨iters,-,h⟩ := bind_ok.mp h
      split_ifs at h
      · cases h
        exact Or.inl rfl
      · obtain ⟨icc,-,h⟩ := bind_ok.mp h
        obtain ⟨agrees,-,h⟩ := bind_ok.mp h
        cases agrees with
        | true => exact hadds (finishSlot_bundles h)
        | false =>
          cases h
          exact Or.inl rfl

theorem findSlot_some {slots : List StoredSlot} {n : ℕ} {slot : StoredSlot}
    (h : SignagePointStore.findSlot E challenge slots = .ok (some (n,slot))) : slots[n]?=some slot := by
  induction slots generalizing n with
  | nil => cases h
  | cons first more ih =>
    unfold SignagePointStore.findSlot at h
    obtain ⟨_,-,h⟩ := bind_ok.mp h
    split_ifs at h
    · cases h
      rfl
    · obtain ⟨found,hfound,h⟩ := bind_ok.mp h
      cases found with
      | none => cases h
      | some found =>
        cases h
        exact ih hfound

theorem addToFutureSp_slots (s : SignagePointStore) (signagePoint : SignagePoint) (index now : ℕ) :
    (s.addToFutureSp signagePoint index now).finishedSubSlots=s.finishedSubSlots := by
  unfold SignagePointStore.addToFutureSp
  split
  · dsimp only
    split_ifs <;> rfl
  · rfl

theorem newSignagePoint_bundles {index next : ℕ} {peak : Option BlockRecord} {signagePoint : SignagePoint}
    {skip added : Bool} (h : s.newSignagePoint E V index peak next signagePoint skip now = .ok (added,s')) :
    s'.bundles=s.bundles := by
  unfold newSignagePoint at h
  obtain ⟨⟨answer,sps⟩,hsps,h⟩ := bind_ok.mp h
  cases h
  show sps.finishedSubSlots.map (·.subSlot)=s.finishedSubSlots.map (·.subSlot)
  unfold SignagePointStore.newSignagePoint at hsps
  obtain ⟨_,-,hsps⟩ := bind_ok.mp hsps
  split_ifs at hsps
  · cases hsps
    rfl
  · simp only [bind_ok] at hsps
    obtain ⟨ccVdf,-,ccProof,-,rcVdf,-,rcProof,-,found,hfound,hsps⟩ := hsps
    cases found with
    | none =>
      cases hsps
      rw [addToFutureSp_slots]
    | some found =>
      obtain ⟨delta,-,hsps⟩ := bind_ok.mp hsps
      obtain ⟨info,-,hsps⟩ := bind_ok.mp hsps
      split_ifs at hsps
      · obtain ⟨slot,hslot,hsps⟩ := bind_ok.mp hsps
        cases hsps
        have hsame : slot.subSlot=found.2.subSlot := by
          unfold SignagePointStore.putSp at hslot
          split_ifs at hslot
          cases hslot
          rfl
        obtain ⟨hlt,hget⟩ := List.getElem?_eq_some_iff.mp (findSlot_some hfound)
        have hlt' : found.1<(s.finishedSubSlots.map (·.subSlot)).length := by simpa using hlt
        have hplace : (s.finishedSubSlots.map (·.subSlot))[found.1]=slot.subSlot := by
          rw [List.getElem_map,hget,hsame]
        dsimp only
        rw [List.map_set,← hplace,List.set_getElem_self]
      · cases hsps
        rw [addToFutureSp_slots]

end Steps

/-- What the caller gives for a peak: the second of its two sub-slots continues the first. -/
def GivenSlots (E : Env) (peak : BlockRecord) (spSubSlot ipSubSlot : Option EndOfSubSlotBundle) : Prop :=
  ∀ eos∈ipSubSlot,(spSubSlot≠none ∨ peak.spSubSlotTotalIters E.constants = .ok 0) →
    eos.challenge=ccAfter E spSubSlot

section Peaks
variable {peak : BlockRecord} {block : FullBlock} {spSubSlot ipSubSlot : Option EndOfSubSlotBundle}
  {forkBlock : Option BlockRecord}

theorem replaceSlots_linked (hs : Linked E s.bundles) (hgiven : GivenSlots E peak spSubSlot ipSubSlot) :
    Linked E (replaceSlots E peak spSubSlot ipSubSlot forkBlock s).2.bundles := by
  have hone (e : Option EndOfSubSlotBundle) : Linked E [e] := List.isChain_singleton e
  unfold replaceSlots
  cases ipSubSlot with
  | none => exact hone none
  | some eos =>
    rw [if_neg (by simp)]
    simp only [Eff.bind_apply,Eff.get_apply,Eff.lift_apply]
    cases spsOfPeak E s peak spSubSlot (some eos) forkBlock with
    | error e => exact hs
    | ok sps =>
      simp only [Eff.modify_apply]
      cases hprev : peak.spSubSlotTotalIters E.constants with
      | error e => exact List.isChain_nil
      | ok prevTotalIters =>
        dsimp only
        split_ifs with hboth
        · have hfollows : Follows E spSubSlot (some eos) := by
            refine ⟨eos,rfl,hgiven eos rfl (hboth.imp_right ?_)⟩
            intro hzero
            rw [hprev,hzero]
          simp only [Eff.bind_apply,Eff.lift_apply]
          cases assertThat (peak.overflow ∨ prevTotalIters≠0) with
          | error e => exact List.isChain_nil
          | ok _ =>
            simp only [Eff.modify_apply]
            cases peak.ipSubSlotTotalIters E.constants with
            | error e => exact hone spSubSlot
            | ok totalIters => exact List.isChain_cons_cons.mpr ⟨hfollows,hone (some eos)⟩
        · simp only [Eff.bind_apply,Eff.lift_apply]
          cases peak.ipSubSlotTotalIters E.constants with
          | error e => exact List.isChain_nil
          | ok totalIters => exact hone (some eos)

theorem newFinishedSubSlot_linked (hs : Linked E s.bundles) {eos : EndOfSubSlotBundle}
    {peak : Option (BlockRecord × FullBlock)} {added : Option (List NewInfusionPointVDF)}
    (h : s.newFinishedSubSlot E V eos peak now = .ok (added,s')) : Linked E s'.bundles := by
  rcases newFinishedSubSlot_bundles h with hsame | ⟨before,hlast,hchallenge,hadded⟩
  · rwa [hsame]
  · rw [hadded]
    exact hs.concat hlast hchallenge

theorem keeps_run {α : Type} {I : NodeStore → Prop} {f : NodeStore → Check (α × NodeStore)}
    (hf : ∀ s a s',I s → f s = .ok (a,s') → I s') : Eff.Keeps I (run f) := by
  intro s hs
  unfold run
  cases hrun : f s with
  | ok r => exact hf s r.1 r.2 hs hrun
  | error e => exact hs

theorem addWaitingEos_linked (waiting : List EndOfSubSlotBundle) :
    Eff.Keeps (fun s => Linked E s.bundles) (addWaitingEos E V peak block now waiting) := by
  induction waiting with
  | nil => exact fun s hs => hs
  | cons eos more ih =>
    apply Eff.Keeps.bind
    · exact keeps_run fun s _ _ hs h => newFinishedSubSlot_linked hs h
    · intro added
      split_ifs
      · exact fun s hs => hs
      · exact ih

theorem addWaitingSps_linked (waiting : List (ℕ × SignagePoint)) :
    Eff.Keeps (fun s => Linked E s.bundles) (addWaitingSps E V peak now waiting) := by
  induction waiting with
  | nil => exact fun s hs => hs
  | cons c more ih =>
    apply Eff.Keeps.bind
    · exact Eff.Triple.lift (fun _ _ _ hs => hs) fun _ _ _ hs => hs
    · intro _
      apply Eff.Keeps.bind
      · apply keeps_run
        intro s _ s' hs h
        rwa [newSignagePoint_bundles h]
      · intro added
        exact Eff.Keeps.bind ih fun _ s hs => hs

theorem newPeak_linked (hs : Linked E s.bundles) (hgiven : GivenSlots E peak spSubSlot ipSubSlot) :
    Linked E (newPeak E V peak block spSubSlot ipSubSlot forkBlock now s).2.bundles := by
  have hreplace : Eff.Keeps (fun s => Linked E s.bundles) (replaceSlots E peak spSubSlot ipSubSlot forkBlock) := by
    intro s hs
    have hlinked : Linked E (replaceSlots E peak spSubSlot ipSubSlot forkBlock s).2.bundles :=
      replaceSlots_linked hs hgiven
    split <;> rename_i heq <;> rwa [heq] at hlinked
  have hget : Eff.Keeps (fun s : NodeStore => Linked E s.bundles) (Eff.get (ε := Fail)) := fun s hs => hs
  have hkeeps : Eff.Keeps (fun s => Linked E s.bundles) (newPeak E V peak block spSubSlot ipSubSlot forkBlock now) := by
    apply Eff.Keeps.bind hget
    intro _
    apply Eff.Keeps.bind (Eff.Triple.lift (fun _ _ _ hs => hs) fun _ _ _ hs => hs)
    intro _
    apply Eff.Keeps.bind hreplace
    intro _
    apply Eff.Keeps.bind hget
    intro _
    apply Eff.Keeps.bind (addWaitingEos_linked _)
    intro _
    apply Eff.Keeps.bind hget
    intro _
    apply Eff.Keeps.bind (addWaitingSps_linked _)
    intro _
    apply Eff.Keeps.bind hget
    intro _
    exact Eff.Keeps.bind (fun s hs => hs) fun _ s hs => hs
  exact hkeeps.state hs

end Peaks

/-- The stores that methods lead to, where each new peak comes with its sub-slots. -/
inductive SlotRun (E : Env) : NodeStore → Prop
  | new : SlotRun E (new E)
  | step {s : NodeStore} (h : SlotRun E s) (now : ℕ) (op : Op)
      (hop : ∀ V peak block spSubSlot ipSubSlot forkBlock,op = .newPeak V peak block spSubSlot ipSubSlot forkBlock →
        GivenSlots E peak spSubSlot ipSubSlot) : SlotRun E (s.step E now op)

theorem SlotRun.linked (h : SlotRun E s) : Linked E s.bundles := by
  induction h with
  | new => exact List.isChain_singleton none
  | @step s _ now op hop ih =>
    have hrun {α : Type} {f : NodeStore → Check (α × NodeStore)}
        (hf : ∀ s a s',Linked E s.bundles → f s = .ok (a,s') → Linked E s'.bundles) : Linked E (run f s).2.bundles :=
      (keeps_run (I := fun s => Linked E s.bundles) hf).state ih
    cases op with
    | addToFutureIp infusionPoint => exact ih
    | addToFutureSp signagePoint index =>
      show Linked E ((s.toSignagePointStore.addToFutureSp signagePoint index now).finishedSubSlots.map (·.subSlot))
      rw [addToFutureSp_slots]
      exact ih
    | newFinishedSubSlot V eos peak => exact hrun fun s _ _ hs h => newFinishedSubSlot_linked hs h
    | newSignagePoint V index peak next signagePoint skip =>
      apply hrun
      intro s _ s' hs h
      rwa [newSignagePoint_bundles h]
    | newPeak V peak block spSubSlot ipSubSlot forkBlock => exact newPeak_linked ih (hop _ _ _ _ _ _ rfl)
    | clearOldCacheEntries => exact ih
    | clearSlots => exact List.isChain_nil
    | initializeGenesisSubSlot => exact List.isChain_singleton none

end NodeStore
end RoseChain
