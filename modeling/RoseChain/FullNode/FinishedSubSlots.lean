import RoseChain.FullNode.LinkedSlots

namespace RoseChain
open Lib FullNodeStore
namespace NodeStore
variable (E : Env)

/-- A list of bundles that lead from one challenge to another. -/
def Leads (challenge last : Bytes32) (l : List EndOfSubSlotBundle) : Prop :=
  (∃ eos∈l.head?,eos.challenge=challenge) ∧ ∃ eos∈l.getLast?,eos.ccHash E=last

/-- Contiguous stored bundles from one challenge to another, none where they are the same. -/
def Connects (s : NodeStore) (challenge last : Bytes32) (l : List EndOfSubSlotBundle) : Prop :=
  (l=[] ∧ challenge=last) ∨ (l.map some <:+: s.bundles ∧ Leads E challenge last l)

/-- The last challenge-chain challenge of the chain up to a block. -/
def ChainChallenge (V : BlockView) (prevB : Option BlockRecord) (challenge : Bytes32) : Prop :=
  match prevB with
  | none => challenge=E.genesisChallenge
  | some prevB => lastChallengeOf V prevB = .ok challenge

/-- The contiguous list is returned, and none where there is no such list. -/
def Retrieves (V : BlockView) (s : NodeStore) (prevB : Option BlockRecord) (challenge last : Bytes32) : Prop :=
  (∃ l,getFinishedSubSlots E V s prevB last = .ok (some l) ∧ Connects E s challenge last l) ∨
    (getFinishedSubSlots E V s prevB last = .ok none ∧ ∀ l,¬ Connects E s challenge last l)

/-- The first stored bundle does not start the list, and none comes after the starting challenge. -/
def StartsLater (s : NodeStore) (prevB : Option BlockRecord) (challenge last : Bytes32) : Prop :=
  (prevB=none → s.bundles.head?=some none) ∧ (challenge≠last → ∀ first,s.bundles.head?=some (some first) →
    first.challenge=challenge → ∀ eos,some eos∈s.bundles → eos.ccHash E≠last)

variable {E} {V : BlockView} {s : NodeStore} {prevB : Option BlockRecord} {challenge last : Bytes32}
  {slots : List StoredSlot} {eoss : List EndOfSubSlotBundle}

theorem collectSubSlots_found (h : slots.map (·.subSlot)=eoss.map some) (collected : List EndOfSubSlotBundle) :
    (∃ l rest eos,eoss=l++rest ∧ l.getLast?=some eos ∧ eos.ccHash E=last ∧ collectSubSlots E challenge last true
      collected slots = .ok (some (collected++l))) ∨
    ((∀ eos∈eoss,eos.ccHash E≠last) ∧ collectSubSlots E challenge last true collected slots = .ok none) := by
  induction eoss generalizing slots collected with
  | nil =>
    right
    obtain rfl : slots=[] := by simpa using h
    exact ⟨by simp,rfl⟩
  | cons eos eoss ih =>
    obtain ⟨slot,more,rfl,hslot,hmore⟩ := List.map_eq_cons_iff.mp h
    have hstep : collectSubSlots E challenge last true collected (slot::more) =
        if eos.ccHash E=last then .ok (some (collected++[eos]))
        else collectSubSlots E challenge last true (collected++[eos]) more := by
      have hhash : E.hashChallengeChainSubSlot eos.challengeChain=eos.ccHash E := rfl
      rw [collectSubSlots,hslot]
      by_cases hlast : eos.ccHash E=last <;>
        simp [assertSome,hhash,hlast,bind,Except.bind,pure,Except.pure]
    rw [hstep]
    split_ifs with hlast
    · exact Or.inl ⟨[eos],eoss,eos,rfl,rfl,hlast,rfl⟩
    · rcases ih hmore (collected++[eos]) with ⟨l,rest,e,hl,he,hhash,hrun⟩ | ⟨hnone,hrun⟩
      · left
        refine ⟨eos::l,rest,e,by rw [hl]; rfl,?_,hhash,by simpa using hrun⟩
        rw [List.getLast?_cons,he]
        rfl
      · right
        refine ⟨?_,hrun⟩
        intro e he
        rcases List.mem_cons.mp he with rfl | he
        · exact hlast
        · exact hnone e he

theorem collectSubSlots_search (h : slots.map (·.subSlot)=eoss.map some) :
    (∃ l,l.map some <:+: eoss.map some ∧ Leads E challenge last l ∧
      collectSubSlots E challenge last false [] slots = .ok (some l)) ∨
    ((∀ before l,eoss=before++l → (∃ eos∈l.head?,eos.challenge=challenge) → ∀ eos∈l,eos.ccHash E≠last) ∧
      collectSubSlots E challenge last false [] slots = .ok none) := by
  induction eoss generalizing slots with
  | nil =>
    right
    obtain rfl : slots=[] := by simpa using h
    refine ⟨?_,rfl⟩
    intro before l hl _ eos heos
    have hnil : l=[] := (List.append_eq_nil_iff.mp hl.symm).2
    rw [hnil] at heos
    cases heos
  | cons eos eoss ih =>
    obtain ⟨slot,more,rfl,hslot,hmore⟩ := List.map_eq_cons_iff.mp h
    by_cases hstart : eos.challenge=challenge
    · have hfound : collectSubSlots E challenge last false [] (slot::more) =
          collectSubSlots E challenge last true [] (slot::more) := by
        rw [collectSubSlots,collectSubSlots,hslot]
        simp [assertSome,bind,Except.bind,show
          eos.challengeChain.challengeChainEndOfSlotVdf.challenge=challenge from hstart]
      rw [hfound]
      rcases collectSubSlots_found (E := E) h [] with
        ⟨l,rest,e,hl,he,hhash,hrun⟩ | ⟨hnone,hrun⟩
      · left
        refine ⟨l,?_,⟨?_,e,he,hhash⟩,by simpa using hrun⟩
        · rw [hl,List.map_append]
          exact (List.prefix_append _ _).isInfix
        · cases l with
          | nil => cases he
          | cons first l =>
            obtain rfl : eos=first := (List.cons.inj hl).1
            exact ⟨eos,rfl,hstart⟩
      · right
        refine ⟨?_,hrun⟩
        intro before l hl _ e he
        apply hnone
        rw [hl]
        exact List.mem_append_right before he
    · have hskip : collectSubSlots E challenge last false [] (slot::more) =
          collectSubSlots E challenge last false [] more := by
        rw [collectSubSlots,hslot]
        simp [assertSome,bind,Except.bind,show
          ¬ eos.challengeChain.challengeChainEndOfSlotVdf.challenge=challenge from hstart]
      rw [hskip]
      rcases ih hmore with ⟨l,hl,hleads,hrun⟩ | ⟨hnone,hrun⟩
      · left
        exact ⟨l,hl.trans (List.suffix_cons _ _).isInfix,hleads,hrun⟩
      · right
        refine ⟨?_,hrun⟩
        intro before l hl hhead e he
        cases before with
        | nil =>
          obtain ⟨first,hfirst,hfirstStart⟩ := hhead
          rw [List.nil_append] at hl
          rw [← hl] at hfirst
          cases hfirst
          exact absurd hfirstStart hstart
        | cons b before => exact hnone before l (List.cons.inj hl).2 hhead e he

theorem challengeInChain_ok (hchallenge : ChainChallenge E V prevB challenge)
    (hfirst : prevB=none → s.bundles.head?=some none) : challengeInChain E V s prevB = .ok challenge := by
  cases prevB with
  | some prevB => exact hchallenge
  | none =>
    have hhead := hfirst rfl
    rw [bundles,List.head?_map] at hhead
    obtain ⟨first,hget,hnone⟩ := Option.map_eq_some_iff.mp hhead
    have hindex : index s.finishedSubSlots[0]? = .ok first := by
      rw [index_eq_ok,← List.head?_eq_getElem?,hget]
    have hassert : assertThat (first.subSlot=none) = .ok () := assertThat_eq_ok.mpr hnone
    unfold challengeInChain
    dsimp only
    rw [bind_of_ok hindex,bind_of_ok hassert,show challenge=E.genesisChallenge from hchallenge]
    rfl

theorem getFinishedSubSlots_first {r : Option (List EndOfSubSlotBundle)}
    (h : getFinishedSubSlots E V s none last = .ok r) : s.bundles.head?=some none := by
  obtain ⟨c,hc,-⟩ := bind_ok.mp h
  obtain ⟨first,hfirst,hc⟩ := bind_ok.mp hc
  obtain ⟨_,hassert,-⟩ := bind_ok.mp hc
  rw [index_eq_ok,← List.head?_eq_getElem?] at hfirst
  rw [bundles,List.head?_map,hfirst,Option.map_some,assertThat_eq_ok.mp hassert]

theorem getFinishedSubSlots_collects (hc : challengeInChain E V s prevB = .ok challenge) (hne : challenge≠last) :
    getFinishedSubSlots E V s prevB last=collectSubSlots E challenge last false [] s.finishedSubSlots.tail := by
  unfold getFinishedSubSlots
  rw [bind_of_ok hc,if_neg (Ne.symm hne)]

theorem Linked.tail_slots (h : Linked E s.bundles) :
    ∃ eoss : List EndOfSubSlotBundle,s.finishedSubSlots.tail.map (·.subSlot)=eoss.map some ∧ s.bundles.tail=eoss.map some := by
  obtain ⟨eoss,heoss⟩ := h.tail_bundles
  refine ⟨eoss,?_,heoss⟩
  rwa [List.map_tail]

theorem retrieves_of_startsLater (h : Linked E s.bundles) (hchallenge : ChainChallenge E V prevB challenge)
    (hlater : StartsLater E s prevB challenge last) : Retrieves E V s prevB challenge last := by
  have hc := challengeInChain_ok hchallenge hlater.1
  by_cases hsame : challenge=last
  · left
    refine ⟨[],?_,Or.inl ⟨rfl,hsame⟩⟩
    unfold getFinishedSubSlots
    rw [bind_of_ok hc,if_pos hsame.symm]
    rfl
  · obtain ⟨eoss,hslots,htail⟩ := h.tail_slots
    have hcollect := getFinishedSubSlots_collects hc hsame
    rcases collectSubSlots_search (E := E) hslots with
      ⟨l,hl,hleads,hrun⟩ | ⟨hnone,hrun⟩
    · left
      refine ⟨l,hcollect.trans hrun,Or.inr ⟨?_,hleads⟩⟩
      rw [← htail] at hl
      exact hl.trans (List.tail_suffix _).isInfix
    · right
      refine ⟨hcollect.trans hrun,?_⟩
      rintro l (⟨-,heq⟩ | ⟨⟨before,after,hl⟩,⟨first,hfirst,hstart⟩,eos,heos,hhash⟩)
      · exact hsame heq
      · have hmem : eos∈l := List.mem_of_getLast? heos
        cases before with
        | nil =>
          have hhead : s.bundles.head?=some (some first) := by
            rw [← hl,List.nil_append,List.head?_append,List.head?_map,Option.mem_def.mp hfirst]
            rfl
          have hstored : some eos∈s.bundles := by
            rw [← hl]
            simp [hmem]
          exact hlater.2 hsame first hhead hstart eos hstored hhash
        | cons b before =>
          rw [← hl,List.cons_append,List.cons_append,List.tail_cons] at htail
          obtain ⟨front,rest,hfront,hmapFront,hmapRest⟩ := List.map_eq_append_iff.mp htail.symm
          obtain ⟨before',l',hbefore,-,hmapl⟩ := List.map_eq_append_iff.mp hmapFront
          obtain rfl : l'=l := (Option.some_injective _).list_map hmapl
          refine hnone before' (l'++rest) ?_ ⟨first,?_,hstart⟩ eos (List.mem_append_left _ hmem) hhash
          · rw [hfront,hbefore,List.append_assoc]
          · rw [List.head?_append,Option.mem_def.mp hfirst]
            rfl

def Distinct (s : NodeStore) : Prop := (s.bundles.filterMap fun e => e.map (·.challenge)).Nodup

theorem startsLater_of_retrieves (h : Linked E s.bundles) (hdistinct : s.Distinct)
    (hchallenge : ChainChallenge E V prevB challenge) (hr : Retrieves E V s prevB challenge last) :
    StartsLater E s prevB challenge last := by
  have hfirst : prevB=none → s.bundles.head?=some none := by
    rintro rfl
    rcases hr with ⟨l,hrun,-⟩ | ⟨hrun,-⟩ <;> exact getFinishedSubSlots_first hrun
  refine ⟨hfirst,?_⟩
  intro hne first hhead hstart eos hstored hhash
  obtain ⟨eoss,hslots,htail⟩ := h.tail_slots
  have hbundles : s.bundles=(first::eoss).map some := by
    rw [List.map_cons,← htail]
    exact List.eq_cons_of_mem_head? hhead
  have hrun := getFinishedSubSlots_collects (challengeInChain_ok hchallenge hfirst) hne
  rcases hr with ⟨l,hl,hconnects⟩ | ⟨-,hnone⟩
  · have hsearch : (∃ l,l.map some <:+: eoss.map some ∧ Leads E challenge last l ∧ _) ∨ _ := collectSubSlots_search hslots
    rcases hsearch with
      ⟨l',hl',⟨⟨e,he,hestart⟩,-⟩,-⟩ | ⟨-,hnone⟩
    · have hmem : some e∈eoss.map some := hl'.subset (List.mem_map_of_mem (List.mem_of_head? he))
      have hmem : e∈eoss := by simpa using hmem
      have hnodup : ((first::eoss).map (·.challenge)).Nodup := by
        have hd := hdistinct
        rw [Distinct,hbundles] at hd
        simpa [List.filterMap_map,Function.comp_def] using hd
      rw [List.map_cons,List.nodup_cons] at hnodup
      have hlisted : e.challenge∈eoss.map (·.challenge) := List.mem_map_of_mem hmem
      rw [hestart,← hstart] at hlisted
      exact hnodup.1 hlisted
    · rw [hrun,hnone] at hl
      cases hl
  · rw [hbundles] at hstored
    have hmem : eos∈first::eoss := by simpa using hstored
    obtain ⟨before,after,hsplit⟩ := List.append_of_mem hmem
    refine hnone (before++[eos]) (Or.inr ⟨⟨[],after.map some,?_⟩,⟨first,?_,hstart⟩,eos,by simp,hhash⟩)
    · rw [hbundles,hsplit]
      simp
    · cases before with
      | nil => simpa using (List.cons.inj hsplit).1.symm
      | cons b before => simpa using (List.cons.inj hsplit).1.symm

/-- The stored sub-slots are linked, and the list between two challenges is found exactly when it does not start with the
first stored bundle. -/
theorem getFinishedSubSlots_retrieves_iff (h : SlotRun E s) :
    Linked E s.bundles ∧ ∀ V prevB challenge last,s.Distinct → ChainChallenge E V prevB challenge →
      (Retrieves E V s prevB challenge last ↔ StartsLater E s prevB challenge last) := by
  refine ⟨h.linked,?_⟩
  intro V prevB challenge last hdistinct hchallenge
  constructor
  · exact startsLater_of_retrieves h.linked hdistinct hchallenge
  · exact retrieves_of_startsLater h.linked hchallenge

section Tiny

def slotPeak : BlockRecord :=
  { lateFirstLink.record with
    prevHash := 40
    height := 1
    totalIters := 1073
    finishedChallengeSlotHashes := some [0] }

def slotStore : NodeStore := (new tinyEnv).step tinyEnv 0 (.newPeak lateFirstView slotPeak lateSecond none (some lateEnd) none)

theorem slotStore_run : SlotRun tinyEnv slotStore := by
  apply SlotRun.step .new
  intro V peak block spSubSlot ipSubSlot forkBlock hop eos _ hzero
  cases hop
  rcases hzero with hsome | hzero
  · exact absurd rfl hsome
  · exact absurd hzero (by decide +kernel)

theorem slotStore_bundles : slotStore.bundles=[some lateEnd] := by decide +kernel

theorem slotStore_distinct : slotStore.Distinct := by
  rw [Distinct,slotStore_bundles]
  exact List.nodup_singleton _

theorem getFinishedSubSlots_retrieves_iff_slot : Linked tinyEnv slotStore.bundles ∧
    Retrieves tinyEnv lateFirstView slotStore (some slotPeak) 0 5 := by
  obtain ⟨hlinked,hretrieves⟩ := getFinishedSubSlots_retrieves_iff slotStore_run
  refine ⟨hlinked,(hretrieves lateFirstView (some slotPeak) 0 5 slotStore_distinct rfl).mpr ⟨nofun,?_⟩⟩
  intro _ first hfirst hstart
  rw [slotStore_bundles] at hfirst
  cases hfirst
  exact absurd hstart (by decide)

/-- The bundle between the first block and the second sub-slot is stored, and not found. -/
theorem getFinishedSubSlots_skipsFirst : SlotRun tinyEnv slotStore ∧
    ChainChallenge tinyEnv lateFirstView (some lateFirstLink.record) 1 ∧
    getFinishedSubSlots tinyEnv lateFirstView slotStore (some lateFirstLink.record) 0 = .ok none ∧
    Connects tinyEnv slotStore 1 0 [lateEnd] := by
  refine ⟨slotStore_run,rfl,by decide +kernel,Or.inr ⟨?_,⟨lateEnd,rfl,rfl⟩,lateEnd,rfl,rfl⟩⟩
  rw [slotStore_bundles]
  exact List.infix_rfl

end Tiny

end NodeStore
end RoseChain
