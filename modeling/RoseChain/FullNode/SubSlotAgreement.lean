import RoseChain.FullNode.ForeseenSummary
import RoseChain.FullNode.SubSlotAcceptance

namespace RoseChain
open Lib ClassgroupElement
namespace FullNodeStore
variable {E : Env} {V : BlockView} {ι : Type} {peak : Option (PeakOnChain E V)} {s s' : FullNodeStore ι}
  {eos : EndOfSubSlotBundle}

section Kept

/-- The store's last sub-slot before any that ended after the peak. -/
def slotOfPeak (peak : Option (PeakOnChain E V)) : Option EndOfSubSlotBundle × ℕ :=
  match peak with
  | some p => (p.slot,p.start)
  | none => (none,0)

/-- The bundles that the store has kept behind the slot of the peak. -/
structure Kept (peak : Option (PeakOnChain E V)) (s : FullNodeStore ι) (kept : List (EndOfSubSlotBundle × ℕ)) : Prop where
  slots : ∃ before,s.finishedSubSlots=before++slotOfPeak peak::kept.map (fun e => (some e.1,e.2)) ∧
    ∀ e∈before,∃ p,peak=some p ∧ e.1=p.spSlot
  late : ∀ e∈kept,∀ p,peak=some p → p.record.totalIters≤e.2
  total : ((kept.map fun e => (some e.1,e.2)).getLastD (slotOfPeak peak)).2 =
    (slotOfPeak peak).2+kept.length*slotIters E (peak.map (·.both))

variable {kept : List (EndOfSubSlotBundle × ℕ)}

theorem Kept.last (h : Kept peak s kept) :
    s.finishedSubSlots.getLast?=some ((kept.map fun e => (some e.1,e.2)).getLastD (slotOfPeak peak)) := by
  obtain ⟨before,hslots,-⟩ := h.slots
  rw [hslots,List.getLast?_append]
  simp [List.getLast?_cons,List.getLastD_eq_getLast?]

variable {last : Option EndOfSubSlotBundle × ℕ} {p : PeakOnChain E V}

theorem Kept.total_le (h : Kept peak s kept)
    (hlast : s.finishedSubSlots.getLast?=some last) (hp : peak=some p) :
    p.record.totalIters≤last.2+slotIters E (peak.map (·.both)) := by
  have hlt := p.ipIters_lt
  have htotal := p.totalIters_eq
  subst hp
  rw [h.last] at hlast
  rw [← Option.some.inj hlast]
  show _≤_+p.record.subSlotIters
  obtain rfl | ⟨kept,e,rfl⟩ := List.eq_nil_or_concat kept
  · show _≤p.start+_
    omega
  · have hle := h.late e (by simp) p rfl
    simp
    omega

theorem Kept.concat (h : Kept peak s kept) (hlast : s.finishedSubSlots.getLast?=some last)
    (hs' : s'.finishedSubSlots=s.finishedSubSlots++[(some eos,last.2+slotIters E (peak.map (·.both)))]) :
    Kept peak s' (kept++[(eos,last.2+slotIters E (peak.map (·.both)))]) := by
  obtain ⟨before,hslots,hbefore⟩ := h.slots
  refine ⟨⟨before,?_,hbefore⟩,?_,?_⟩
  · rw [hs',hslots]
    simp
  · intro e he p hp
    rw [List.mem_append,List.mem_singleton] at he
    obtain he | rfl := he
    · exact h.late e he p hp
    · exact h.total_le hlast hp
  · rw [h.last] at hlast
    have htotal := h.total
    rw [Option.some.inj hlast] at htotal
    simp only [List.map_append,List.map_cons,List.map_nil,List.getLastD_concat,List.length_append,List.length_singleton]
    rw [htotal]
    ring

/-- The iterations that a bundle ends its challenge chain with. -/
def ccIters (eos : EndOfSubSlotBundle) : ℕ := eos.challengeChain.challengeChainEndOfSlotVdf.numberOfIterations

variable {challenge : Bytes32} {n : ℕ} {slot : SlotEnd}

theorem ccIters_of_valid (h : challengeVdfsValid E eos challenge n slot=true) : ccIters eos=n := by
  simp only [challengeVdfsValid,Bool.and_eq_true,decide_eq_true_eq] at h
  unfold ccIters
  rw [h.1.1]

variable {added : Option (List ι)}

theorem finishSlot_grows {total : ℕ} (h : finishSlot E s eos challenge n total slot = .ok (added,s')) :
    (added=none ∧ s'=s) ∨ (s'.finishedSubSlots=s.finishedSubSlots++[(some eos,total)] ∧ ccIters eos=n) := by
  unfold finishSlot at h
  split_ifs at h with hvalid
  · obtain ⟨valid,-,h⟩ := bind_ok.mp h
    cases valid with
    | false =>
      cases h
      exact Or.inl ⟨rfl,rfl⟩
    | true =>
      cases h
      exact Or.inr ⟨rfl,ccIters_of_valid hvalid⟩
  · cases h
    exact Or.inl ⟨rfl,rfl⟩

/-- Whatever the bundle, the store stays or gets one sub-slot, with the iterations of the peak. -/
theorem newFinishedSubSlot_grows (h : newFinishedSubSlot E V s eos (peak.map (·.both)) = .ok (added,s')) :
    (s'.finishedSubSlots=s.finishedSubSlots ∧ (added.isSome → ¬ New s eos)) ∨
      ∃ last,s.finishedSubSlots.getLast?=some last ∧
        s'.finishedSubSlots=s.finishedSubSlots++[(some eos,last.2+slotIters E (peak.map (·.both)))] ∧
        ccIters eos=slotIters E (peak.map (·.both)) := by
  unfold newFinishedSubSlot at h
  obtain ⟨last,hlast,h⟩ := bind_ok.mp h
  rw [assertSome_eq_ok] at hlast
  dsimp only at h
  split_ifs at h with hthere
  · cases h
    exact Or.inl ⟨rfl,fun _ hnew => Bool.false_ne_true (hnew.symm.trans hthere)⟩
  · cases h
    exact Or.inl ⟨rfl,fun hsome => absurd hsome Bool.false_ne_true⟩
  · obtain ⟨total,htotal,h⟩ := bind_ok.mp h
    have hsum : total=last.2+slotIters E (peak.map (·.both)) :=
      (Nat.cast_injective ((uint_eq_ok.mp htotal).1.symm.trans (Nat.cast_add _ _).symm))
    have hgrows {n : ℕ} (hn : n=slotIters E (peak.map (·.both)))
        (hs : (added=none ∧ s'=s) ∨ (s'.finishedSubSlots=s.finishedSubSlots++[(some eos,total)] ∧ ccIters eos=n)) :
        (s'.finishedSubSlots=s.finishedSubSlots ∧ (added.isSome → ¬ New s eos)) ∨
          ∃ last,s.finishedSubSlots.getLast?=some last ∧
            s'.finishedSubSlots=s.finishedSubSlots++[(some eos,last.2+slotIters E (peak.map (·.both)))] ∧
            ccIters eos=slotIters E (peak.map (·.both)) := by
      rw [hsum,hn] at hs
      obtain ⟨rfl,rfl⟩ | ⟨hslots,hiters⟩ := hs
      · exact Or.inl ⟨rfl,fun hsome => absurd hsome Bool.false_ne_true⟩
      · exact Or.inr ⟨last,hlast,hslots,hiters⟩
    cases hin : peakIn (peak.map (·.both)) last.2 with
    | none =>
      rw [hin] at h
      exact hgrows rfl (finishSlot_grows h)
    | some q =>
      have hq : q.1.subSlotIters=slotIters E (peak.map (·.both)) := by
        rw [(Option.filter_eq_some_iff.mp hin).1]
        rfl
      rw [hin] at h
      obtain ⟨iters,-,h⟩ := bind_ok.mp h
      split_ifs at h
      · cases h
        exact Or.inl ⟨rfl,fun hsome => absurd hsome Bool.false_ne_true⟩
      · obtain ⟨icc,-,h⟩ := bind_ok.mp h
        obtain ⟨agrees,-,h⟩ := bind_ok.mp h
        cases agrees with
        | false =>
          cases h
          exact Or.inl ⟨rfl,fun hsome => absurd hsome Bool.false_ne_true⟩
        | true => exact hgrows hq (finishSlot_grows h)

/-- The sub-slots are those of the peak, and behind them bundles that have its iterations. -/
def Tidy (peak : Option (PeakOnChain E V)) (s : FullNodeStore ι) : Prop :=
  ∃ kept,Kept peak s kept ∧ ∀ e∈kept,ccIters e.1=slotIters E (peak.map (·.both))

theorem Tidy.grow (h : Tidy peak s)
    (hs' : newFinishedSubSlot E V s eos (peak.map (·.both)) = .ok (added,s')) : Tidy peak s' := by
  obtain ⟨kept,hkept,hiters⟩ := h
  obtain ⟨hsame,-⟩ | ⟨last,hlast,hslots,hone⟩ := newFinishedSubSlot_grows hs'
  · refine ⟨kept,⟨?_,hkept.late,hkept.total⟩,hiters⟩
    rw [hsame]
    exact hkept.slots
  · refine ⟨_,hkept.concat hlast hslots,?_⟩
    intro e he
    rw [List.mem_append,List.mem_singleton] at he
    obtain he | rfl := he
    · exact hiters e he
    · exact hone

theorem Tidy.addWaiting {waiting : List EndOfSubSlotBundle} (h : Tidy peak s)
    (hs' : FullNodeStore.addWaiting E V (peak.map (·.both)) s waiting = .ok s') : Tidy peak s' := by
  induction waiting generalizing s with
  | nil =>
    cases hs'
    exact h
  | cons eos more ih =>
    obtain ⟨⟨added,t⟩,hstep,hs'⟩ := bind_ok.mp hs'
    dsimp only at hs'
    split_ifs at hs'
    · cases hs'
      exact h.grow hstep
    · exact ih (h.grow hstep) hs'

theorem tidy_peakSlots {slots : List (Option EndOfSubSlotBundle × ℕ)}
    (h : peakSlots E p.record p.spSlot p.slot = .ok slots) : Tidy (some p) { s with finishedSubSlots := slots } := by
  have hlast := p.peakSlots_last h
  obtain ⟨before,hslots⟩ := List.getLast?_eq_some_iff.mp hlast
  refine ⟨[],⟨⟨before,hslots,?_⟩,fun e he => absurd he List.not_mem_nil,by simp⟩,
    fun e he => absurd he List.not_mem_nil⟩
  intro e he
  refine ⟨p,rfl,?_⟩
  unfold peakSlots at h
  cases hslot : p.slot with
  | none =>
    rw [hslot] at h
    have hone : [(none,0)]=before++[(p.slot,p.start)] := (Except.ok.inj h).trans hslots
    rw [(List.append_eq_singleton_iff.mp hone.symm).elim (fun h => h.1) fun h => absurd h.2 (by simp)] at he
    cases he
  | some slot =>
    rw [hslot] at h
    obtain ⟨prevTotalIters,-,h⟩ := bind_ok.mp h
    obtain ⟨totalIters,-,h⟩ := bind_ok.mp h
    split_ifs at h
    · obtain ⟨_,-,h⟩ := bind_ok.mp h
      have htwo := (Except.ok.inj h).trans hslots
      have hbefore := congrArg List.dropLast htwo
      rw [List.dropLast_concat] at hbefore
      rw [← hbefore] at he
      rw [List.mem_singleton.mp he]
    · have hone := (Except.ok.inj h).trans hslots
      have hbefore := congrArg List.dropLast hone
      rw [List.dropLast_concat] at hbefore
      rw [← hbefore] at he
      cases he

def PeakOnChain.place (p : PeakOnChain E V) : BlockRecord × FullBlock × Option EndOfSubSlotBundle ×
    Option EndOfSubSlotBundle × ℕ := (p.record,p.block,p.spSlot,p.slot,p.start)

variable {V' : BlockView}

theorem slotIters_samePlace {peak' : Option (PeakOnChain E V')}
    (hplace : peak'.map (·.place)=peak.map (·.place)) :
    slotIters E (peak'.map (·.both))=slotIters E (peak.map (·.both)) := by
  cases peak with
  | none =>
    cases peak' with
    | some p' => cases hplace
    | none => rfl
  | some p =>
    cases peak' with
    | none => cases hplace
    | some p' =>
      have hrecord : p'.record=p.record := congrArg Prod.fst (Option.some.inj hplace)
      simp only [slotIters,PeakOnChain.both,Option.map_some,hrecord]

/-- What is kept behind a peak is kept whatever other blocks there are. -/
theorem Kept.samePlace {peak' : Option (PeakOnChain E V')}
    (h : Kept peak s kept) (hplace : peak'.map (·.place)=peak.map (·.place)) : Kept peak' s kept := by
  obtain ⟨⟨before,hslots,hbefore⟩,hlate,htotal⟩ := h
  have hiters := slotIters_samePlace hplace
  cases peak with
  | none =>
    cases peak' with
    | some p' => cases hplace
    | none =>
      refine ⟨⟨before,hslots,?_⟩,fun _ _ p hp => (by cases hp),htotal⟩
      intro e he
      obtain ⟨p,hp,-⟩ := hbefore e he
      cases hp
  | some p =>
    cases peak' with
    | none => cases hplace
    | some p' =>
      have hsame : p'.place=p.place := Option.some.inj hplace
      unfold PeakOnChain.place at hsame
      simp only [Prod.mk.injEq] at hsame
      obtain ⟨hrecord,-,hsp,hslot,hstart⟩ := hsame
      have hfirst : slotOfPeak (some p')=slotOfPeak (some p) := by simp only [slotOfPeak,hslot,hstart]
      refine ⟨⟨before,?_,?_⟩,?_,?_⟩
      · rw [hslots,hfirst]
      · intro e he
        obtain ⟨q,hq,heq⟩ := hbefore e he
        rw [← Option.some.inj hq] at heq
        exact ⟨p',rfl,heq.trans hsp.symm⟩
      · intro e he q hq
        rw [← Option.some.inj hq,hrecord]
        exact hlate e he p rfl
      · rw [hfirst,hiters]
        exact htotal

/-- All states that calls lead to, whatever bundles are sent: blocks may be added beside the peak.
-/
inductive StoreReached (E : Env) (ι : Type) : (V : BlockView) → Option (PeakOnChain E V) → FullNodeStore ι → Prop
  | genesis {V : BlockView} (s : FullNodeStore ι) : StoreReached E ι V none s.initializeGenesisSubSlot
  | peak {V V' : BlockView} {peak : Option (PeakOnChain E V)} {s s' : FullNodeStore ι} (p : PeakOnChain E V') :
    StoreReached E ι V peak s → newPeak E V' s p.record p.block p.spSlot p.slot = .ok s' →
    StoreReached E ι V' (some p) s'
  | slot {V : BlockView} {peak : Option (PeakOnChain E V)} {s s' : FullNodeStore ι} {eos : EndOfSubSlotBundle}
    {added : Option (List ι)} :
    StoreReached E ι V peak s → newFinishedSubSlot E V s eos (peak.map (·.both)) = .ok (added,s') →
    StoreReached E ι V peak s'
  | block {V V' : BlockView} {peak : Option (PeakOnChain E V)} {peak' : Option (PeakOnChain E V')}
    {s : FullNodeStore ι} :
    StoreReached E ι V peak s → peak'.map (·.place)=peak.map (·.place) → StoreReached E ι V' peak' s

theorem StoreReached.tidy (h : StoreReached E ι V peak s) : Tidy peak s := by
  induction h with
  | genesis s =>
    refine ⟨[],⟨⟨[],rfl,?_⟩,?_,by simp⟩,?_⟩
    · exact fun e he => absurd he List.not_mem_nil
    · exact fun e he => absurd he List.not_mem_nil
    · exact fun e he => absurd he List.not_mem_nil
  | peak p _ hs' _ =>
    unfold newPeak at hs'
    obtain ⟨slots,hslots,hs'⟩ := bind_ok.mp hs'
    obtain ⟨t,ht,hs'⟩ := bind_ok.mp hs'
    cases hs'
    have htidy : Tidy (some p) t := (tidy_peakSlots hslots).addWaiting ht
    obtain ⟨kept,hkept,hiters⟩ := htidy
    exact ⟨kept,⟨hkept.slots,hkept.late,hkept.total⟩,hiters⟩
  | slot _ hstep ih => exact ih.grow hstep
  | block _ hplace ih =>
    obtain ⟨kept,hkept,hiters⟩ := ih
    refine ⟨kept,hkept.samePlace hplace,?_⟩
    rw [slotIters_samePlace hplace]
    exact hiters

end Kept

section Fed
variable {epoch : Bool} {difficulty iters : ℕ} {after : Option Bytes32}

def Fed (peak : Option (PeakOnChain E V)) : FullNodeStore ι → List EndOfSubSlotBundle → FullNodeStore ι → Prop
  | s,[],s' => s'=s
  | s,eos::more,s' => ∃ waiting t,newFinishedSubSlot E V s eos (peak.map (·.both)) = .ok (some waiting,t) ∧
    Fed peak t more s'

theorem fed_known {more known : List EndOfSubSlotBundle} (hs : s.finishedSubSlots≠[])
    (hknown : ∀ eos∈known,¬ New s eos) (h : Fed peak s more s') : Fed peak s (known++more) s' := by
  induction known with
  | nil => exact h
  | cons eos known ih =>
    refine ⟨[],s,?_,ih fun e he => hknown e (List.mem_cons_of_mem eos he)⟩
    have hthere : (s.finishedSubSlots.any fun slot => decide (slot.1=some eos))=true :=
      Bool.not_eq_false _ ▸ hknown eos List.mem_cons_self
    unfold newFinishedSubSlot
    rw [bind_of_ok (assertSome_eq_ok.mpr (List.getLast?_eq_getLast_of_ne_nil hs))]
    dsimp only
    rw [if_pos hthere]
    rfl

theorem new_concat {n : ℕ} {other : EndOfSubSlotBundle} (hnew : New s other) (hne : eos≠other)
    (hs' : s'.finishedSubSlots=s.finishedSubSlots++[(some eos,n)]) : New s' other := by
  unfold New at *
  rw [hs',List.any_append,hnew]
  simp [hne]

theorem fed_new {slots : List EndOfSubSlotBundle} (s : FullNodeStore ι) (last : Option EndOfSubSlotBundle × ℕ)
    (ses : Option Bytes32) (h : LastSlot E V peak last) (hlast : s.finishedSubSlots.getLast?=some last)
    (hv : validateFinishedSubSlots E V (peak.map (·.record)) epoch difficulty iters false (previousSlot peak last) ses
      slots = .ok after) (hlate : ∀ p,peak=some p → p.record.totalIters≤last.2+slotIters E (peak.map (·.both)))
    (hnew : ∀ eos∈slots,New s eos) (honce : slots.Nodup)
    (hsame : slots≠[] → SameIters peak (previousSlot peak last) iters)
    (hmore : 1<slots.length → iters=slotIters E (peak.map (·.both)))
    (hbound : last.2+slots.length*slotIters E (peak.map (·.both))<2^128)
    (hses : ∀ p eos,peak=some p → previousSlot peak last=none → slots.head?=some eos →
      sesAgrees E V p.record p.block eos = .ok true)
    (hproof : ∀ eos∈slots,eos.infusedChallengeChain=none → eos.proofs.infusedChallengeChainSlotProof=none) :
    ∃ s' : FullNodeStore ι,Fed peak s slots s' := by
  induction slots generalizing s last ses with
  | nil => exact ⟨s,rfl⟩
  | cons eos more ih =>
    obtain ⟨ses',hfirst,hrest⟩ := bind_ok.mp hv
    obtain ⟨hchecked,-⟩ := checked_of_ok hfirst
    rw [List.length_cons,Nat.succ_mul] at hbound
    rw [List.nodup_cons] at honce
    obtain ⟨waiting,t,hstep,hslots⟩ := h.accepts hlast (hnew eos List.mem_cons_self) hchecked
      (hsame (List.cons_ne_nil _ _)) (by omega) (fun p hp hnone => hses p eos hp hnone rfl) (hproof eos List.mem_cons_self)
    have hprevious := previousSlot_next eos hlate
    rw [← hprevious] at hrest
    have hfed := ih t (some eos,last.2+slotIters E (peak.map (·.both))) ses' (h.next hchecked hlate)
      (by rw [hslots,List.getLast?_concat]) hrest
      (fun p hp => (hlate p hp).trans (Nat.le_add_right _ _))
      (fun other hother => new_concat (hnew other (List.mem_cons_of_mem eos hother))
        (ne_of_mem_of_not_mem hother honce.1).symm hslots)
      honce.2
      (fun hne _ => hmore (by rw [List.length_cons]; exact Nat.succ_lt_succ (List.length_pos_iff.mpr hne)))
      (fun hlen => hmore (by rw [List.length_cons]; omega)) (by dsimp only; omega)
      (fun p other _ hnone => by rw [hprevious] at hnone; cases hnone)
      (fun other hother => hproof other (List.mem_cons_of_mem eos hother))
    obtain ⟨s',hs'⟩ := hfed
    exact ⟨s',waiting,t,hstep,hs'⟩

theorem LastSlot.kept {kept : List (EndOfSubSlotBundle × ℕ)} {more : List EndOfSubSlotBundle}
    (last : Option EndOfSubSlotBundle × ℕ) (ses : Option Bytes32) (h : LastSlot E V peak last)
    (hlate : ∀ e∈kept,∀ p,peak=some p → p.record.totalIters≤e.2)
    (hv : validateFinishedSubSlots E V (peak.map (·.record)) epoch difficulty iters false (previousSlot peak last) ses
      (kept.map Prod.fst++more) = .ok after) :
    LastSlot E V peak ((kept.map fun e => (some e.1,e.2)).getLastD last) ∧
      ∃ ses',validateFinishedSubSlots E V (peak.map (·.record)) epoch difficulty iters false
        (previousSlot peak ((kept.map fun e => (some e.1,e.2)).getLastD last)) ses' more = .ok after := by
  induction kept generalizing last ses with
  | nil => exact ⟨h,ses,hv⟩
  | cons e kept ih =>
    obtain ⟨ses',hfirst,hrest⟩ := bind_ok.mp hv
    obtain ⟨hchecked,-⟩ := checked_of_ok hfirst
    have hn := hlate e List.mem_cons_self
    rw [← previousSlot_next e.1 hn] at hrest
    rw [List.map_cons,List.getLastD_cons]
    exact ih (some e.1,e.2) ses' (h.next hchecked hn) (fun e' he' => hlate e' (List.mem_cons_of_mem e he')) hrest

theorem slotOfPeak_last (peak : Option (PeakOnChain E V)) : LastSlot E V peak (slotOfPeak peak) := by
  cases peak with
  | none => exact .genesis
  | some p => exact .ofPeak p

theorem previousSlot_slotOfPeak (peak : Option (PeakOnChain E V)) : previousSlot peak (slotOfPeak peak)=none := by
  cases peak with
  | none => rfl
  | some p => simp [previousSlot,slotOfPeak,peakIn_start]

end Fed
section Header
variable {header : UnfinishedHeaderBlock} {filter : Bool} {difficulty iters requiredIters : ℕ} {prevB : Option BlockRecord}

/-- What a header that passes says about its finished sub-slots. -/
structure Passed (E : Env) (V : BlockView) (prevB : Option BlockRecord) (difficulty iters : ℕ)
    (slots : List EndOfSubSlotBundle) (height : ℕ) (se epoch : Bool) (ses : Option Bytes32) : Prop where
  starting : prevB=none → iters=E.subSlotItersStarting
  finishes : ∀ prev,prevB=some prev → height=prev.height+1 ∧ canFinishSubAndFullEpoch E.constants V
    prev.height prev.prevHash prev.deficit prev.subEpochSummaryIncluded.isSome = .ok (se,epoch)
  checked : validateFinishedSubSlots E V prevB epoch difficulty iters false none none slots = .ok ses
  summary : validateSubEpochSummary E V prevB height true se epoch difficulty iters true ses = .ok ()
  total : ∃ ip total,expectedTotalIters E prevB slots.length iters ip = .ok total

variable {c : HeaderCall}

variable {x : HeaderPlace}

theorem place_ok (h : c.place E V = .ok x) (hno : c.skipOverflowLastSsValidation=false) :
    x.skip=false ∧ c.position E V x.overflow false = .ok (x.height,x.canFinishSe,x.canFinishEpoch) := by
  unfold HeaderCall.place at h
  obtain ⟨_,-,h⟩ := bind_ok.mp h
  obtain ⟨overflow,-,h⟩ := bind_ok.mp h
  obtain ⟨skip,hskip,h⟩ := bind_ok.mp h
  obtain ⟨⟨height,se,epoch⟩,hposition,h⟩ := bind_ok.mp h
  unfold HeaderCall.skipSlots at hskip
  rw [hno,if_neg fun hboth => Bool.false_ne_true hboth.1] at hskip
  obtain rfl := Except.ok.inj hskip
  obtain rfl := Except.ok.inj h
  exact ⟨rfl,hposition⟩

variable {overflow skip : Bool}

theorem position_start {p : ℕ × Bool × Bool}
    (h : c.position E V overflow skip = .ok p) (hprev : c.prevB V=none) :
    c.expectedSubSlotIters=E.subSlotItersStarting := by
  unfold HeaderCall.position at h
  rw [hprev] at h
  obtain ⟨_,-,h⟩ := bind_ok.mp h
  obtain ⟨_,hstarting,-⟩ := bind_ok.mp h
  exact assertThat_eq_ok.mp hstarting

variable {se : Bool} {height : ℕ}

theorem position_after {epoch : Bool} {prev : BlockRecord}
    (h : c.position E V overflow skip = .ok (height,se,epoch)) (hprev : c.prevB V=some prev)
    (hnew : c.newSubSlot overflow skip=true) :
    height=prev.height+1 ∧ canFinishSubAndFullEpoch E.constants V prev.height prev.prevHash prev.deficit
      prev.subEpochSummaryIncluded.isSome = .ok (se,epoch) := by
  unfold HeaderCall.position at h
  rw [hprev] at h
  obtain ⟨height',hheight,h⟩ := bind_ok.mp h
  rw [hnew,if_pos rfl] at h
  obtain ⟨⟨se',epoch'⟩,hcan,h⟩ := bind_ok.mp h
  obtain ⟨rfl,rfl,rfl⟩ : height'=height ∧ se'=se ∧ epoch'=epoch := by
    simpa using Except.ok.inj h
  refine ⟨?_,hcan⟩
  exact Nat.cast_injective ((uint_eq_ok.mp hheight).1.symm.trans (Nat.cast_succ _).symm)

theorem total_of_iters {q : ℕ × ℕ} (h : c.iters E V x requiredIters = .ok q) :
    ∃ ip total,expectedTotalIters E (c.prevB V) (c.numSlots x.overflow x.skip) c.expectedSubSlotIters ip = .ok total := by
  unfold HeaderCall.iters at h
  obtain ⟨_,-,h⟩ := bind_ok.mp h
  obtain ⟨_,-,h⟩ := bind_ok.mp h
  obtain ⟨_,-,h⟩ := bind_ok.mp h
  obtain ⟨ip,-,h⟩ := bind_ok.mp h
  obtain ⟨_,-,h⟩ := bind_ok.mp h
  obtain ⟨_,-,h⟩ := bind_ok.mp h
  obtain ⟨total,htotal,-⟩ := bind_ok.mp h
  exact ⟨ip,total,htotal⟩

theorem passed_of_ok (hprev : V.tryBlockRecord header.foliage.prevBlockHash=prevB)
    (h : validateUnfinishedHeaderBlock E V header filter difficulty iters false false true = .ok requiredIters)
    (hne : header.finishedSubSlots≠[]) : ∃ height se epoch ses,
      Passed E V prevB difficulty iters header.finishedSubSlots height se epoch ses := by
  let c : HeaderCall := ⟨header,filter,difficulty,iters,false,false,true⟩
  have hrun : c.run E V = .ok requiredIters := h
  have hprevB : c.prevB V=prevB := hprev
  rw [HeaderCall.run_eq] at hrun
  obtain ⟨x,hplace,hrun⟩ := bind_ok.mp hrun
  obtain ⟨ses,hslots,hrun⟩ := bind_ok.mp hrun
  obtain ⟨_,hsummary,hrun⟩ := bind_ok.mp hrun
  obtain ⟨_,-,hrun⟩ := bind_ok.mp hrun
  obtain ⟨p,-,hrun⟩ := bind_ok.mp hrun
  obtain ⟨q,hiters,-⟩ := bind_ok.mp hrun
  obtain ⟨hskip,hposition⟩ := place_ok hplace rfl
  have htotal := total_of_iters hiters
  have hnew : c.newSubSlot x.overflow false=true := decide_eq_true (List.length_pos_iff.mpr hne)
  unfold HeaderCall.slotLoop at hslots
  unfold HeaderCall.summary at hsummary
  rw [hskip,hnew,hprevB,if_pos ⟨rfl,Bool.false_ne_true⟩] at hslots hsummary
  rw [hskip,hprevB] at htotal
  refine ⟨x.height,x.canFinishSe,x.canFinishEpoch,ses,?_,?_,hslots,hsummary,htotal⟩
  · exact fun hnone => position_start hposition (hprevB.trans hnone)
  · exact fun prev hsome => position_after hposition (hprevB.trans hsome) hnew

variable {slots : List EndOfSubSlotBundle} {ses : Option Bytes32}

theorem summary_of_later {epoch : Bool} {before : EndOfSubSlotBundle} {after : Option Bytes32}
    (h : validateFinishedSubSlots E V prevB epoch difficulty iters false (some before) ses slots = .ok after) :
    after=ses := by
  induction slots generalizing before ses with
  | nil => exact (Except.ok.inj h).symm
  | cons eos more ih =>
    obtain ⟨ses',hfirst,hrest⟩ := bind_ok.mp h
    obtain ⟨hchecked,hsummary⟩ := checked_of_ok hfirst
    unfold SubSlot.summaryHash at hsummary
    rw [hchecked.summary rfl,if_neg (by simp)] at hsummary
    rw [ih hrest]
    exact (Except.ok.inj hsummary).symm

variable {more : List EndOfSubSlotBundle}

theorem summary_of_first {epoch : Bool} {after : Option Bytes32}
    (h : validateFinishedSubSlots E V prevB epoch difficulty iters false none none (eos::more) = .ok after) :
    after=eos.challengeChain.subepochSummaryHash := by
  obtain ⟨ses,hfirst,hrest⟩ := bind_ok.mp h
  obtain ⟨-,hsummary⟩ := checked_of_ok hfirst
  rw [summary_of_later hrest]
  unfold SubSlot.summaryHash at hsummary
  split_ifs at hsummary with hsome
  · obtain ⟨_,-,hsummary⟩ := bind_ok.mp hsummary
    exact (Except.ok.inj hsummary).symm
  · rw [Option.not_isSome_iff_eq_none.mp hsome]
    exact (Except.ok.inj hsummary).symm

def ForeseesRight (p : PeakOnChain E V) : Prop :=
  canFinishSubAndFullEpoch E.constants V p.record.height p.record.prevHash p.record.deficit
    p.record.subEpochSummaryIncluded.isSome = .ok (true,false) →
    heightCanBeFirstInEpoch E.constants (p.record.height+1+E.maxSubSlotBlocks)=false

theorem Passed.sesAgrees {p : PeakOnChain E V} (hb : p.OfBlock) (hC : 2<E.subEpochBlocks) (hf : ForeseesRight p)
    (hnext : getNextSubSlotItersAndDifficulty E.constants V true (some p.record) = .ok (iters,difficulty))
    {epoch : Bool} (h : Passed E V (some p.record) difficulty iters (eos::more) height se epoch ses) :
    FullNodeStore.sesAgrees E V p.record p.block eos = .ok true := by
  obtain ⟨hheight,hcan⟩ := h.finishes p.record rfl
  have hsummary := h.summary
  rw [summary_of_first h.checked,hheight] at hsummary
  unfold FullNodeStore.sesAgrees
  rw [bind_of_ok hcan]
  cases se with
  | false => rfl
  | true =>
    cases hses : eos.challengeChain.subepochSummaryHash with
    | none =>
      rw [hses] at hsummary
      exact absurd ⟨rfl,Or.inl rfl⟩ (reject_eq_ok.mp hsummary)
    | some hash =>
      rw [hses] at hsummary
      obtain ⟨_,-,hsummary⟩ := bind_ok.mp hsummary
      rw [if_pos rfl] at hsummary
      obtain ⟨prev,hprev,hsummary⟩ := bind_ok.mp hsummary
      obtain ⟨expected,hexpected,hsummary⟩ := bind_ok.mp hsummary
      have hforeseen := hb.foreseen hC hcan (fun hno => hf (by rw [hcan,hno])) hnext hprev hexpected
      dsimp only
      rw [if_pos rfl,bind_of_ok hforeseen,Option.map_some,not_not.mp (reject_eq_ok.mp hsummary),decide_eq_true rfl]
      rfl

theorem Passed.bound {epoch : Bool}
    (h : Passed E V (peak.map (·.record)) difficulty iters slots height se epoch ses) (hne : slots≠[])
    (hsame : 1<slots.length → iters=slotIters E (peak.map (·.both))) :
    (slotOfPeak peak).2+slots.length*slotIters E (peak.map (·.both))<2^128 := by
  have hpos := List.length_pos_iff.mpr hne
  obtain ⟨ip,total,hiters⟩ := h.total
  unfold expectedTotalIters at hiters
  cases peak with
  | none =>
    obtain ⟨base,hbase,-⟩ := bind_ok.mp hiters
    obtain ⟨hcast,hlt⟩ := uint_eq_ok.mp hbase
    rw [h.starting rfl] at hcast
    have hmul : E.subSlotItersStarting*slots.length=base := Nat.cast_injective hcast
    show 0+slots.length*E.subSlotItersStarting<2^128
    rw [Nat.zero_add,Nat.mul_comm,hmul]
    exact hlt
  | some p =>
    have htotal := p.totalIters_eq
    dsimp only [Option.map_some] at hiters
    rw [if_pos hpos,bind_of_ok p.ipIters_eq] at hiters
    obtain ⟨rest,hrest,hiters⟩ := bind_ok.mp hiters
    obtain ⟨base,hbase,-⟩ := bind_ok.mp hiters
    obtain ⟨hrest,-⟩ := uint_eq_ok.mp hrest
    obtain ⟨hcast,hlt⟩ := uint_eq_ok.mp hbase
    show p.start+slots.length*p.record.subSlotIters<2^128
    have hrest' : rest=p.start+p.record.subSlotIters := by omega
    obtain ⟨n,hn⟩ := Nat.exists_eq_succ_of_ne_zero hpos.ne'
    rw [hn] at hcast hsame ⊢
    have hmul : iters*n=n*p.record.subSlotIters := by
      by_cases hmore : 1<n.succ
      · rw [hsame hmore,Nat.mul_comm]
        rfl
      · rw [show n=0 by omega,Nat.mul_zero,Nat.zero_mul]
    have hbase' : (rest : ℤ)+((iters*n : ℕ) : ℤ)=base := by
      rw [← hcast]
      push_cast
      ring
    rw [hmul] at hbase'
    rw [Nat.succ_mul]
    omega

/-- What the two sides agree on besides the iterations: what the store has kept starts these slots or goes on
from them, and none of them has a proof of a missing chain. -/
structure Agreeing (peak : Option (PeakOnChain E V)) (s : FullNodeStore ι) (slots : List EndOfSubSlotBundle) : Prop where
  kept : ∀ kept,Kept peak s kept → kept.map Prod.fst <+: slots ∨ slots <+: kept.map Prod.fst
  once : slots.Nodup
  fresh : ∀ eos∈slots,∀ p,peak=some p → p.spSlot≠some eos ∧ p.slot≠some eos
  proofs : ∀ eos∈slots,eos.infusedChallengeChain=none → eos.proofs.infusedChallengeChainSlotProof=none
  foresees : ∀ p,peak=some p → ForeseesRight p

variable {kept : List (EndOfSubSlotBundle × ℕ)}

theorem Kept.new_iff (hk : Kept peak s kept)
    (hc : Agreeing peak s slots) (heos : eos∈slots) : New s eos ↔ eos∉kept.map Prod.fst := by
  obtain ⟨before,hslots,hbefore⟩ := hk.slots
  unfold New
  rw [hslots,List.any_eq_false]
  constructor
  · intro hnew hin
    obtain ⟨e,he,rfl⟩ := List.mem_map.mp hin
    apply hnew (some e.1,e.2)
    · simp [he]
    · exact decide_eq_true rfl
  · intro hout e he heq
    rw [decide_eq_true_eq] at heq
    rw [List.mem_append,List.mem_cons,List.mem_map] at he
    obtain he | rfl | ⟨e',he',rfl⟩ := he
    · obtain ⟨p,hp,hsp⟩ := hbefore e he
      exact (hc.fresh eos heos p hp).1 (hsp.symm.trans heq)
    · cases peak with
      | none => cases heq
      | some p => exact (hc.fresh eos heos p rfl).2 heq
    · exact hout (List.mem_map.mpr ⟨e',he',Option.some.inj heq⟩)

theorem Kept.previous_iff (hk : Kept peak s kept) :
    previousSlot peak ((kept.map fun e => (some e.1,e.2)).getLastD (slotOfPeak peak))=none ↔ kept=[] := by
  obtain rfl | ⟨before,e,rfl⟩ := List.eq_nil_or_concat kept
  · exact iff_of_true (previousSlot_slotOfPeak peak) rfl
  · have hlate := hk.late e (by simp)
    have hlast : ((before.concat e).map fun e => (some e.1,e.2)).getLastD (slotOfPeak peak)=(some e.1,e.2) := by simp
    rw [hlast,previousSlot_next e.1 hlate]
    simp

theorem Kept.feeds_new (hk : Kept peak s kept) (hC : 2<E.subEpochBlocks)
    (hb : ∀ p,peak=some p → p.OfBlock) (hne : slots≠[])
    (hnext : getNextSubSlotItersAndDifficulty E.constants V (!slots.isEmpty) (peak.map (·.record)) =
      .ok (iters,difficulty)) {epoch : Bool}
    (hpassed : Passed E V (peak.map (·.record)) difficulty iters slots height se epoch ses)
    (hc : Agreeing peak s slots) (hsame : 1<slots.length → iters=slotIters E (peak.map (·.both)))
    (hmore : kept.map (·.1)++more=slots) : ∃ s',Fed peak s more s' := by
  have hchecked := hpassed.checked
  have hbound := hpassed.bound hne hsame
  have honce := hc.once
  rw [← hmore] at hchecked hbound honce
  rw [← previousSlot_slotOfPeak peak] at hchecked
  obtain ⟨hlastSlot,ses',hrest⟩ := (slotOfPeak_last peak).kept _ _ hk.late hchecked
  rw [List.length_append,List.length_map,Nat.add_mul,← Nat.add_assoc,← hk.total] at hbound
  rw [List.nodup_append] at honce
  have hin {eos : EndOfSubSlotBundle} (he : eos∈more) : eos∈slots := by
    rw [← hmore]
    exact List.mem_append_right _ he
  refine fed_new s _ ses' hlastSlot hk.last hrest (fun p hp => hk.total_le hk.last hp) ?_ honce.2.1 ?_ ?_ hbound ?_ ?_
  · intro eos he
    rw [hk.new_iff hc (hin he)]
    exact fun hkept => honce.2.2 eos hkept eos he rfl
  · intro hsome hempty
    obtain hnone | hprevious := hempty
    · rw [hpassed.starting (by rw [hnone]; rfl),hnone]
      rfl
    · apply hsame
      have hkept : kept≠[] := fun hnil => by
        rw [hk.previous_iff.mpr hnil] at hprevious
        cases hprevious
      have hfirst := List.length_pos_iff.mpr hkept
      have hsecond := List.length_pos_iff.mpr hsome
      rw [← hmore,List.length_append,List.length_map]
      omega
  · intro hlen
    apply hsame
    rw [← hmore,List.length_append]
    omega
  · intro p eos hp hnone hhead
    obtain ⟨rest,rfl⟩ := List.head?_eq_some_iff.mp hhead
    rw [hk.previous_iff.mp hnone] at hmore
    subst hp
    rw [← hmore] at hpassed hnext
    exact hpassed.sesAgrees (hb p rfl) hC (hc.foresees p rfl) hnext
  · exact fun eos he => hc.proofs eos (hin he)

theorem Kept.finishedSubSlots_ne_nil (h : Kept peak s kept) : s.finishedSubSlots≠[] := by
  intro hnil
  have hlast := h.last
  rw [hnil] at hlast
  cases hlast

theorem Passed.ccIters_second {first second : EndOfSubSlotBundle} {epoch : Bool}
    (h : Passed E V (peak.map (·.record)) difficulty iters (first::second::more) height se epoch ses) :
    ccIters second=iters := by
  obtain ⟨_,-,hrest⟩ := bind_ok.mp h.checked
  obtain ⟨_,hsecond,-⟩ := bind_ok.mp hrest
  obtain ⟨t,-,hvdfs⟩ := (checked_of_ok hsecond).1.vdfs
  rw [ccIters_of_valid (challengeVdfs_of_vdfs hvdfs none none)]
  cases peak with
  | none => exact (h.starting rfl).symm
  | some p => rfl

theorem Tidy.sameIters (h : Tidy peak s) {epoch : Bool}
    (hpassed : Passed E V (peak.map (·.record)) difficulty iters slots height se epoch ses)
    (hc : Agreeing peak s slots) (hfed : Fed peak s slots s') (hlen : 1<slots.length) :
    iters=slotIters E (peak.map (·.both)) := by
  obtain ⟨first,rest,rfl⟩ := List.exists_cons_of_length_pos (Nat.zero_lt_of_lt hlen)
  obtain ⟨second,more,rfl⟩ := List.exists_cons_of_length_pos (Nat.lt_of_succ_lt_succ hlen)
  rw [← hpassed.ccIters_second]
  obtain ⟨kept,hk,hiters⟩ := h
  obtain ⟨_,t,hfirst,_,u,hsecond,-⟩ := hfed
  obtain ⟨-,hthere⟩ | ⟨_,-,-,hone⟩ := newFinishedSubSlot_grows hsecond
  · -- it was there already, and not by the first one
    have hold : ¬ New s second := by
      intro hnew
      apply hthere rfl
      obtain ⟨hsame,-⟩ | ⟨_,-,hslots,-⟩ := newFinishedSubSlot_grows hfirst
      · unfold New
        rw [hsame]
        exact hnew
      · refine new_concat hnew ?_ hslots
        rintro rfl
        exact (List.nodup_cons.mp hc.once).1 List.mem_cons_self
    rw [hk.new_iff hc (List.mem_cons_of_mem _ List.mem_cons_self),not_not,List.mem_map] at hold
    obtain ⟨e,he,rfl⟩ := hold
    exact hiters e he
  · exact hone

/-- In every state, the store takes in all the sub-slots of a header that passes on its peak exactly where the
iterations do not change after it, or one sub-slot is all. -/
theorem subSlots_agree (hC : 2<E.subEpochBlocks) (h : StoreReached E ι V peak s)
    (hb : ∀ p,peak=some p → p.OfBlock)
    (hnext : getNextSubSlotItersAndDifficulty E.constants V (!header.finishedSubSlots.isEmpty)
      (peak.map (·.record)) = .ok (iters,difficulty))
    (hprev : V.tryBlockRecord header.foliage.prevBlockHash=peak.map (·.record))
    (hv : validateUnfinishedHeaderBlock E V header filter difficulty iters false false true = .ok requiredIters)
    (hc : Agreeing peak s header.finishedSubSlots) : (∃ s',Fed peak s header.finishedSubSlots s') ↔
      (1<header.finishedSubSlots.length → iters=slotIters E (peak.map (·.both))) := by
  by_cases hne : header.finishedSubSlots=[]
  · rw [hne]
    exact iff_of_true ⟨s,rfl⟩ fun hlen => absurd hlen (Nat.not_lt_zero 1)
  obtain ⟨height,se,epoch,ses,hpassed⟩ := passed_of_ok hprev hv hne
  constructor
  · rintro ⟨s',hs'⟩ hlen
    exact h.tidy.sameIters hpassed hc hs' hlen
  intro hsame
  obtain ⟨kept,hk,-⟩ := h.tidy
  obtain ⟨more,hmore⟩ | hahead := hc.kept kept hk
  · obtain ⟨s',hs'⟩ := hk.feeds_new hC hb hne hnext hpassed hc hsame hmore
    refine ⟨s',?_⟩
    rw [← hmore]
    apply fed_known hk.finishedSubSlots_ne_nil _ hs'
    intro eos he
    rw [hk.new_iff hc (by rw [← hmore]; exact List.mem_append_left _ he)]
    exact not_not.mpr he
  · -- the store has them all, and more
    have hnone : Fed peak s [] s := rfl
    refine ⟨s,?_⟩
    rw [← List.append_nil header.finishedSubSlots]
    apply fed_known hk.finishedSubSlots_ne_nil _ hnone
    intro eos he
    rw [hk.new_iff hc he]
    exact not_not.mpr (hahead.subset he)

end Header

section Boundary

deriving instance DecidableEq for Dict
deriving instance DecidableEq for FullNodeStore

/-- A network with epochs of nine blocks, where every block is a challenge block. -/
def nineEnv : Env :=
  { tinyEnv with
    subEpochBlocks := 3
    epochBlocks := 9
    minBlocksPerChallengeBlock := 1
    maxSubSlotBlocks := 2
    now := 1000 }

def eighthSlot : EndOfSubSlotBundle where
  challengeChain := ⟨⟨0,1024,getDefaultElement⟩,some 0,none,none,none⟩
  infusedChallengeChain := some ⟨⟨0,975,getDefaultElement⟩⟩
  rewardChain := ⟨⟨0,975,getDefaultElement⟩,0,some 0,1⟩
  proofs := ⟨shortProof,some shortProof,shortProof⟩

def eighth : BlockRecord :=
  { shortRecord 8 (some [0]) none with totalIters := 3121,prevTransactionBlockHeight := 7 }

def eighthBlock : FullBlock :=
  { tinyBlock 9 8 8 63 with
    finishedSubSlots := [eighthSlot]
    rewardChainBlock := ⟨63,8,3121,0,0,⟨0,some [],none,[],32,[]⟩,none,[],⟨0,49,getDefaultElement⟩,none,[],
      ⟨0,49,getDefaultElement⟩,none,false⟩ }

def nineView : BlockView where
  blockRecords := [{ shortRecord 0 (some [1]) none with timestamp := some 0 },
    shortRecord 6 (some [0]) (some ⟨0,0,0,none,none⟩),
    { shortRecord 7 none none with timestamp := some 600,totalIters := 2097 },eighth].foldl
      (fun d b => d.set b.headerHash b) Lib.Dict.empty
  heights := (Lib.Dict.empty.set 0 1).set 7 8

def eighthPeak : PeakOnChain nineEnv nineView where
  record := eighth
  block := eighthBlock
  spSlot := none
  slot := some eighthSlot
  start := 3072
  ipIters := 49
  ipIters_eq := by decide +kernel
  ipIters_pos := Nat.lt_add_left 48 Nat.one_pos
  ipIters_lt := by decide
  subSlotIters_lt := by decide
  totalIters_eq := rfl
  start_zero := fun h => by cases h
  deficit_le := by decide
  challenge := ⟨_,_,rfl,rfl,rfl⟩
  icc := fun _ => ⟨eighth,rfl,by
    rw [if_pos (by decide)]
    exact ⟨49,by decide +kernel,rfl,by decide⟩⟩
  iccStart := fun _ => by decide
  finishes := ⟨(true,true),by decide +kernel⟩
  summary := ⟨some ⟨0,0,0,some 2,some 2048⟩,by decide +kernel⟩

def epochEnd : EndOfSubSlotBundle where
  challengeChain := ⟨⟨0,1024,getDefaultElement⟩,some 0,some 0,some 2048,some 2⟩
  infusedChallengeChain := some ⟨⟨0,975,getDefaultElement⟩⟩
  rewardChain := ⟨⟨0,975,getDefaultElement⟩,0,some 0,1⟩
  proofs := ⟨shortProof,some shortProof,shortProof⟩

def epochSlot : EndOfSubSlotBundle where
  challengeChain := ⟨⟨0,2048,getDefaultElement⟩,none,none,none,none⟩
  infusedChallengeChain := none
  rewardChain := ⟨⟨0,2048,getDefaultElement⟩,0,none,1⟩
  proofs := ⟨shortProof,none,shortProof⟩

def epochHeader (slots : List EndOfSubSlotBundle) (totalIters : ℕ) : UnfinishedHeaderBlock where
  finishedSubSlots := slots
  rewardChainBlock := ⟨totalIters,0,0,⟨0,some [],none,[],32,[]⟩,none,[],none,[]⟩
  challengeChainSpProof := none
  rewardChainSpProof := none
  foliage := ⟨9,0,⟨0,⟨0,0⟩,some [],0,10⟩,[],some 0,some []⟩
  foliageTransactionBlock := some ⟨8,700,0,0,0,0⟩
  transactionsFilter := []

def eighthStore : FullNodeStore ℕ := ⟨[(some eighthSlot,3072)],.empty,.empty⟩

theorem eighthStore_reached : StoreReached nineEnv ℕ nineView (some eighthPeak) eighthStore :=
  .peak (V := genesisView) eighthPeak (.genesis eighthStore) rfl

theorem epoch_accepted :
    getNextSubSlotItersAndDifficulty nineEnv.constants nineView true (some eighth) = .ok (2048,2) ∧
      validateUnfinishedHeaderBlock nineEnv nineView (epochHeader [epochEnd] 4193) true 2 2048 false false true = .ok 1 ∧
      validateUnfinishedHeaderBlock nineEnv nineView (epochHeader [epochEnd,epochSlot] 6241) true 2 2048 false false true =
        .ok 1 := by
  refine ⟨?_,?_,?_⟩
  · decide +kernel
  · decide +kernel
  · decide +kernel

theorem eighth_ofBlock : eighthPeak.OfBlock := by
  refine ⟨by decide +kernel,?_,?_⟩
  · intro prev hprev
    have hseventh : nineView.tryBlockRecord eighthBlock.prevHeaderHash =
      some { shortRecord 7 none none with timestamp := some 600,totalIters := 2097 } := by decide +kernel
    rw [Option.some.inj (hprev.symm.trans hseventh)]
    rfl
  · intro slot hslot _
    rw [List.mem_singleton.mp hslot]
    rfl

theorem epochEnd_agreeing : Agreeing (some eighthPeak) eighthStore [epochEnd] := by
  refine ⟨?_,List.nodup_singleton _,?_,?_,?_⟩
  · intro kept hk
    obtain ⟨before,hslots,-⟩ := hk.slots
    have hlen := congrArg List.length hslots
    rw [List.length_append,List.length_cons,List.length_map] at hlen
    have hone : eighthStore.finishedSubSlots.length=1 := rfl
    have hnil : kept=[] := List.length_eq_zero_iff.mp (by omega)
    rw [hnil]
    exact Or.inl List.nil_prefix
  · intro eos heos p hp
    rw [List.mem_singleton.mp heos,← Option.some.inj hp]
    decide
  · intro eos heos hnone
    rw [List.mem_singleton.mp heos] at hnone
    cases hnone
  · intro p hp hcan
    have hfull : canFinishSubAndFullEpoch nineEnv.constants nineView eighth.height eighth.prevHash eighth.deficit
      eighth.subEpochSummaryIncluded.isSome = .ok (true,true) := by decide +kernel
    rw [← Option.some.inj hp] at hcan
    cases hfull.symm.trans hcan

/-- The header with the end of the epoch's last slot only. -/
theorem subSlots_agree_epochEnd : ∃ s',Fed (some eighthPeak) eighthStore [epochEnd] s' := by
  obtain ⟨hnext,hfirst,-⟩ := epoch_accepted
  have hb : ∀ p,some eighthPeak=some p → p.OfBlock := by
    intro p hp
    rw [← Option.some.inj hp]
    exact eighth_ofBlock
  have hnext' : getNextSubSlotItersAndDifficulty nineEnv.constants nineView
    (!(epochHeader [epochEnd] 4193).finishedSubSlots.isEmpty) ((some eighthPeak).map (·.record)) = .ok (2048,2) := hnext
  exact (subSlots_agree (by decide) eighthStore_reached hb hnext' rfl hfirst epochEnd_agreeing).mpr
    fun hlen => absurd hlen (by decide)

/-- An empty slot of the new epoch is valid, but refused: the store counts with the old iterations.
-/
theorem epochSlot_refused : StoreReached nineEnv ℕ nineView (some eighthPeak) eighthStore ∧
    getNextSubSlotItersAndDifficulty nineEnv.constants nineView true (some eighthPeak.record) = .ok (2048,2) ∧
    nineView.tryBlockRecord (epochHeader [epochEnd,epochSlot] 6241).foliage.prevBlockHash=some eighthPeak.record ∧
    validateUnfinishedHeaderBlock nineEnv nineView (epochHeader [epochEnd,epochSlot] 6241) true 2 2048 false false true =
      .ok 1 ∧ ¬ ∃ s',Fed (some eighthPeak) eighthStore [epochEnd,epochSlot] s' := by
  obtain ⟨hnext,-,hboth⟩ := epoch_accepted
  refine ⟨eighthStore_reached,hnext,rfl,hboth,?_⟩
  intro h
  obtain ⟨s',_,t,hfirst,_,t',hsecond,-⟩ := h
  have hone : newFinishedSubSlot nineEnv nineView eighthStore epochEnd (some eighthPeak.both) =
    .ok (some [],⟨[(some eighthSlot,3072),(some epochEnd,4096)],.empty,.empty⟩) := by decide +kernel
  obtain ⟨-,rfl⟩ := Prod.mk.inj (Except.ok.inj (hone.symm.trans hfirst))
  have htwo : newFinishedSubSlot nineEnv nineView ⟨[(some eighthSlot,3072),(some epochEnd,4096)],.empty,.empty⟩
    epochSlot (some eighthPeak.both) =
    .ok (none,(⟨[(some eighthSlot,3072),(some epochEnd,4096)],.empty,.empty⟩ : FullNodeStore ℕ)) := by decide +kernel
  cases htwo.symm.trans hsecond

end Boundary
end FullNodeStore
end RoseChain
