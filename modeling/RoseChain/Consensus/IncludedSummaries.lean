import RoseChain.Consensus.RewardChain

namespace RoseChain
variable {E : Env} {V : BlockView} {a b p : ChainLink} {l : List ChainLink} {ses : SubEpochSummary}

theorem blockToBlockRecord_summary {requiredIters : ℕ} {block : FullBlock} :
    Yields (fun record => ∀ ses,record.subEpochSummaryIncluded=some ses → ∃ prev prevPrev newDifficulty newSubSlotIters,
      V.tryBlockRecord block.prevHeaderHash=some prev ∧ V.blockRecord prev.prevHash = .ok prevPrev ∧
        makeSubEpochSummary E.constants V E.toOracles block.height prevPrev newDifficulty newSubSlotIters = .ok ses)
      (blockToBlockRecord E V requiredIters block) := by
  unfold blockToBlockRecord
  extract_lets -underBinder prevB
  refine .next fun _ => .next fun x => ?_
  obtain ⟨subSlotIters,_⟩ := x
  dsimp -zeta only
  refine .next fun overflow => .next fun deficit => ?_
  extract_lets -underBinder foundSesHash jp
  have hjp : ∀ found,(∀ ses,found=some ses → ∃ prev prevPrev newDifficulty newSubSlotIters,
      prevB=some prev ∧ V.blockRecord prev.prevHash = .ok prevPrev ∧
        makeSubEpochSummary E.constants V E.toOracles block.height prevPrev newDifficulty newSubSlotIters =
          .ok ses) →
      Yields (fun record => ∀ ses,record.subEpochSummaryIncluded=some ses →
        ∃ prev prevPrev newDifficulty newSubSlotIters,prevB=some prev ∧ V.blockRecord prev.prevHash = .ok prevPrev ∧
          makeSubEpochSummary E.constants V E.toOracles block.height prevPrev newDifficulty newSubSlotIters =
            .ok ses) (jp found) := by
    intro found hfound
    dsimp -zeta only [jp]
    extract_lets -underBinder fuel
    refine .next fun height => ?_
    intro record hrecord
    obtain rfl := Except.ok.inj hrecord
    exact hfound
  clear_value jp foundSesHash
  cases foundSesHash with
  | none =>
    refine .bind fun found hfound => hjp found ?_
    obtain rfl := Except.ok.inj hfound
    simp
  | some hash =>
    refine .bind fun prev hprev => .next fun first => .bind fun prevPrev hprevPrev => .bind fun made hmade => ?_
    refine .next fun _ => .bind fun found hfound => hjp found ?_
    obtain rfl := Except.ok.inj hfound
    intro ses hses
    obtain rfl := Option.some.inj hses
    exact ⟨prev,prevPrev,_,_,assertSome_eq_ok.mp hprev,hprevPrev,hmade⟩

namespace ChainLink

def hasSummary (b : ChainLink) : Bool := b.record.subEpochSummaryIncluded.isSome

def link (b : ChainLink) : Link := ⟨b.record,b.slots⟩

theorem Accepted.follows {prevB : Option BlockRecord} (h : b.Accepted E V prevB) : FollowsChecks E V prevB b.link := by
  obtain ⟨additions,removals,header,ssi,difficulty,required,-,hheader,hvalid,hrecord⟩ := h.validated
  obtain ⟨hslots,-,hfoliage⟩ := getBlockHeader_parts hheader
  have hfollows := validateFinishedHeaderBlock_follows hslots.symm hvalid hrecord
  rw [hslots,hfoliage] at hfollows
  rw [← h.prev]
  exact hfollows

end ChainLink

/-- The blocks of a chain with summaries, the oldest first. -/
def sesLinks (l : List ChainLink) : List ChainLink := l.reverse.filter (·.hasSummary)

@[simp] theorem sesLinks_nil : sesLinks []=[] := rfl

theorem sesLinks_cons (b : ChainLink) (l : List ChainLink) :
    sesLinks (b::l)=sesLinks l++if b.hasSummary then [b] else [] := by
  unfold sesLinks
  rw [List.reverse_cons,List.filter_append]
  cases hb : b.hasSummary <;> simp [hb]

theorem mem_sesLinks : a∈sesLinks l ↔ a∈l ∧ a.hasSummary=true := by
  simp [sesLinks]

def includedSummaries (l : List ChainLink) : List SubEpochSummary :=
  (sesLinks l).filterMap (·.record.subEpochSummaryIncluded)

theorem mem_includedSummaries :
    ses∈includedSummaries l ↔ ∃ b∈sesLinks l,b.record.subEpochSummaryIncluded=some ses := by
  simp [includedSummaries]

theorem getElem?_filterMap_isSome {α β : Type} {f : α → Option β} {l : List α} (h : ∀ a∈l,(f a).isSome) (i : ℕ) :
    (l.filterMap f)[i]?=l[i]?.bind f := by
  induction l generalizing i with
  | nil => simp
  | cons a l ih =>
    obtain ⟨b,hb⟩ := Option.isSome_iff_exists.mp (h a (by simp))
    rw [List.filterMap_cons_some hb]
    cases i with
    | zero => simp [hb]
    | succ i => simpa using ih (fun a ha => h a (by simp [ha])) i

theorem getElem?_includedSummaries {i : ℕ} : (includedSummaries l)[i]?=some ses ↔
    ∃ b,(sesLinks l)[i]?=some b ∧ b.record.subEpochSummaryIncluded=some ses := by
  rw [includedSummaries,getElem?_filterMap_isSome fun b hb => (mem_sesLinks.mp hb).2,Option.bind_eq_some_iff]

theorem finishes_canFinish {C : ConsensusConstants} {prev : BlockRecord} {slots : List EndOfSubSlotBundle} {epoch : Bool}
    (h : finishes C V (some prev) slots = .ok (true,epoch)) : 0<slots.length ∧
      canFinishSubAndFullEpoch C V prev.height prev.prevHash prev.deficit prev.subEpochSummaryIncluded.isSome =
        .ok (true,epoch) := by
  unfold finishes at h
  dsimp only at h
  split_ifs at h with hslots
  · exact ⟨hslots,h⟩
  · cases h

namespace HeaderChain

theorem summaryChain (h : HeaderChain E (b::l)) : SummaryChain E ((b::l).map (·.link)) := by
  induction l generalizing b with
  | nil =>
    have hheight := h.height
    cases h with
    | next V _ _ hb => exact .first _ V hheight hb.follows
  | cons p l ih =>
    have hheight := h.height_succ
    have hprev := h.prevHash
    have hchain := ih h.tail
    cases h with
    | next V _ hknown hb =>
      refine .next _ _ _ V hchain hheight hprev ?_ hb.follows
      simpa [ChainLink.link] using hknown

theorem summary_window (h : HeaderChain E (b::p::l)) (hb : b.hasSummary=true) : p.hasSummary=false ∧
    ∀ a∈p::l,a.hasSummary=true → a.record.height / E.subEpochBlocks<b.record.height / E.subEpochBlocks := by
  have hchain := h.summaryChain
  have hbelow := hchain.height_lt
  have hheight := h.height_succ
  cases hchain with
  | next _ _ _ V hbefore _ _ hknown hchecks =>
    obtain ⟨prev,epoch,hprev,hfinishes⟩ := hchecks.finished (hchecks.recorded.mp hb)
    obtain rfl := Option.some.inj hprev
    have hempty := (hbefore.window_empty hknown hfinishes).1
    have hnone {a : ChainLink} (ha : a∈p::l) (hses : a.hasSummary=true) :
        a.record.height / E.subEpochBlocks≠(p.record.height+1) / E.subEpochBlocks := by
      intro hwindow
      have hno := hempty a.link (List.mem_map_of_mem ha) hwindow
      have hno : a.record.subEpochSummaryIncluded=none := hno
      rw [ChainLink.hasSummary,hno] at hses
      cases hses
    constructor
    · obtain ⟨hslots,hfinish⟩ := finishes_canFinish hfinishes
      obtain ⟨hfalse,-⟩ | ⟨hincluded,-⟩ := canFinish_cases hfinish
      · cases hfalse
      · exact hincluded
    · intro a ha hses
      have hne := hnone ha hses
      have hlt := hbelow a.link (List.mem_map_of_mem ha)
      have hlt : a.record.height<b.record.height := hlt
      have hle := Nat.div_le_div_right (c := E.subEpochBlocks) hlt.le
      rw [hheight] at hle ⊢
      omega

variable {i : ℕ}

section
variable (h : HeaderChain E l)
include h

theorem summary_index (ha : (sesLinks l)[i]?=some a) : i≤a.record.height / E.subEpochBlocks := by
  induction l generalizing i a with
  | nil => simp at ha
  | cons b l ih =>
    rw [sesLinks_cons] at ha
    by_cases hi : i<(sesLinks l).length
    · rw [List.getElem?_append_left hi] at ha
      exact ih h.tail ha
    · rw [List.getElem?_append_right (by omega)] at ha
      cases hb : b.hasSummary with
      | false => simp [hb] at ha
      | true =>
        rw [hb,if_pos rfl] at ha
        obtain ⟨hzero,hab⟩ : i - (sesLinks l).length=0 ∧ b=a := by
          cases hn : i-(sesLinks l).length with
          | zero => simpa [hn] using ha
          | succ n => simp [hn] at ha
        subst hab
        cases i with
        | zero => exact Nat.zero_le _
        | succ j =>
          have hj : j<(sesLinks l).length := by omega
          have hmem := List.getElem_mem hj
          have hle := ih h.tail (List.getElem?_eq_getElem hj)
          cases l with
          | nil => simp at hj
          | cons p l =>
            obtain ⟨hin,hses⟩ := mem_sesLinks.mp hmem
            have hlt := (h.summary_window hb).2 _ hin hses
            omega

theorem heights : l.reverse.map (·.record.height)=List.range l.length := by
  induction l with
  | nil => rfl
  | cons b l ih => simpa [ih h.tail,h.height] using List.range_succ.symm

theorem height_of_getElem? (ha : l.reverse[i]?=some a) : a.record.height=i := by
  have hlt : i<l.length := by simpa using (List.getElem?_eq_some_iff.mp ha).1
  have hat : (l.reverse.map (·.record.height))[i]?=(List.range l.length)[i]? := by rw [h.heights]
  rw [List.getElem?_map,ha,List.getElem?_range hlt] at hat
  exact Option.some.inj hat

theorem getElem?_height (ha : a∈l) : l.reverse[a.record.height]?=some a := by
  obtain ⟨i,hi⟩ := List.getElem?_of_mem (List.mem_reverse.mpr ha)
  rw [h.height_of_getElem? hi]
  exact hi

theorem sesLinks_sorted : ((sesLinks l).map (·.record.height)).Pairwise (· < ·) := by
  have hrange : (l.reverse.map (·.record.height)).Pairwise (· < ·) := by
    rw [h.heights]
    exact List.pairwise_lt_range
  exact hrange.sublist (List.filter_sublist.map _)

theorem sesLinks_lt (ha : (sesLinks l)[i]?=some a) (hb : (sesLinks l)[i+1]?=some b) :
    a.record.height<b.record.height := by
  obtain ⟨hi,rfl⟩ := List.getElem?_eq_some_iff.mp ha
  obtain ⟨hj,rfl⟩ := List.getElem?_eq_some_iff.mp hb
  have hlt := List.pairwise_iff_getElem.mp h.sesLinks_sorted i (i+1) (by simpa using hi) (by simpa using hj) (by omega)
  simpa using hlt

end

theorem walkBack_summary (h : HeaderChain E (p::l))
    (hknown : ∀ q∈p::l,V.blockRecords.get? q.record.headerHash=some q.record)
    (ha : (sesLinks (p::l)).getLast?=some a) : V.walkBack (·.subEpochSummaryIncluded.isSome) p.record = .ok a.record := by
  induction l generalizing p with
  | nil =>
    cases hp : p.hasSummary with
    | false => simp [sesLinks_cons,hp] at ha
    | true =>
      obtain rfl : p=a := by simpa [sesLinks_cons,hp] using ha
      exact BlockView.walkBack_here hp
  | cons q l ih =>
    rw [sesLinks_cons] at ha
    cases hp : p.hasSummary with
    | false =>
      rw [hp,if_neg Bool.false_ne_true,List.append_nil] at ha
      have hprev : V.blockRecord p.record.prevHash = .ok q.record := by
        rw [h.prevHash]
        exact lookup_eq_ok.mpr (hknown q (by simp))
      rw [BlockView.walkBack_prev hp hprev h.height_succ]
      exact ih h.tail (fun r hr => hknown r (List.mem_cons_of_mem p hr)) ha
    | true =>
      obtain rfl : p=a := by simpa [hp] using ha
      exact BlockView.walkBack_here hp

theorem rewardHashes (h : HeaderChain E (b::l)) (hslots : b.slots≠[]) :
    b.record.finishedRewardSlotHashes=some (b.slots.map fun s => E.hashRewardChainSubSlot s.rewardChain) := by
  obtain ⟨_,_,_,_,_,_,hr⟩ := h.recordOf
  rw [hr]
  exact if_pos hslots

theorem slots_of_summary (h : HeaderChain E (b::l)) (hb : b.hasSummary=true) : b.slots≠[] := by
  have hpos : 0<summariesOf b.slots := by
    cases h with
    | next V _ _ haccepted => exact haccepted.follows.recorded.mp hb
  rintro hnil
  rw [hnil] at hpos
  cases hpos

theorem summary_reward (h : HeaderChain E (b::l)) (hses : b.record.subEpochSummaryIncluded=some ses)
    (ha : (sesLinks l).getLast?=some a) (hcount : 2≤(sesLinks l).length) :
    ∃ s,a.slots.getLast?=some s ∧ ses.rewardChainHash=E.hashRewardChainSubSlot s.rewardChain := by
  have hb : b.hasSummary=true := by simp [ChainLink.hasSummary,hses]
  have hlate : 2≤b.record.height / E.subEpochBlocks := by
    have hat : (sesLinks (b::l))[(sesLinks l).length]?=some b := by simp [sesLinks_cons,hb]
    exact hcount.trans (h.summary_index hat)
  have hheight := h.recordOf.height
  obtain ⟨hmem,hases⟩ := mem_sesLinks.mp (List.mem_of_getLast? ha)
  cases l with
  | nil => cases hmem
  | cons p l =>
    have hp := (h.summary_window hb).1
    have hprevHash := h.prevHash
    have htail := h.tail
    have hlast := ha
    rw [sesLinks_cons,hp,if_neg Bool.false_ne_true,List.append_nil] at hlast
    cases h with
    | next V _ hknown haccepted =>
      obtain ⟨additions,removals,header,ssi,difficulty,required,-,-,-,hrecord⟩ := haccepted.validated
      obtain ⟨prev,prevPrev,_,_,hprev,hprevPrev,hmade⟩ := blockToBlockRecord_summary _ hrecord ses hses
      obtain rfl : p.record=prev := Option.some.inj (haccepted.prev.symm.trans hprev)
      have hwalk : V.walkBack (·.subEpochSummaryIncluded.isSome) prevPrev = .ok a.record := by
        cases l with
        | nil => cases hlast
        | cons q l =>
          have hq : V.blockRecord p.record.prevHash = .ok q.record := by
            rw [htail.prevHash]
            exact lookup_eq_ok.mpr (hknown q (by simp))
          obtain rfl : prevPrev=q.record := Except.ok.inj (hprevPrev.symm.trans hq)
          exact htail.tail.walkBack_summary (fun r hr => hknown r (List.mem_cons_of_mem p hr)) hlast
      obtain ⟨l',hal⟩ := htail.of_mem hmem
      have hslots := hal.slots_of_summary hases
      have hdiv : b.record.height / E.subEpochBlocks≤(b.record.height+E.maxSubSlotBlocks) / E.subEpochBlocks :=
        Nat.div_le_div_right (Nat.le_add_right _ _)
      unfold makeSubEpochSummary at hmade
      obtain ⟨_,-,hmade⟩ := bind_ok.mp hmade
      rw [← hheight,if_neg (by omega)] at hmade
      rw [bind_of_ok hwalk] at hmade
      obtain ⟨hashes,hhashes,hmade⟩ := bind_ok.mp hmade
      obtain ⟨prevSes,-,hmade⟩ := bind_ok.mp hmade
      obtain ⟨last,hlastHash,hmade⟩ := bind_ok.mp hmade
      obtain ⟨excess,-,hmade⟩ := bind_ok.mp hmade
      obtain ⟨overflow,-,hmade⟩ := bind_ok.mp hmade
      obtain rfl := Except.ok.inj hmade
      rw [assertSome_eq_ok,hal.rewardHashes hslots] at hhashes
      obtain rfl := Option.some.inj hhashes
      rw [index_eq_ok,List.getLast?_map,Option.map_eq_some_iff] at hlastHash
      obtain ⟨s,hs,rfl⟩ := hlastHash
      exact ⟨s,hs,rfl⟩

theorem of_append {u : List ChainLink} (h : HeaderChain E (u++l)) : HeaderChain E l := by
  induction u with
  | nil => exact h
  | cons c u ih => exact ih h.tail

theorem summary_reward_at (h : HeaderChain E l) (ha : (sesLinks l)[i+1]?=some a)
    (hb : (sesLinks l)[i+2]?=some b) (hses : b.record.subEpochSummaryIncluded=some ses) :
    ∃ u t s,l=u++a::t ∧ a.slots.getLast?=some s ∧
      ses.rewardChainHash=E.hashRewardChainSubSlot s.rewardChain := by
  induction l with
  | nil => simp at hb
  | cons c l ih =>
    rw [sesLinks_cons] at ha hb
    by_cases hi : i+2<(sesLinks l).length
    · rw [List.getElem?_append_left hi] at hb
      rw [List.getElem?_append_left (by omega)] at ha
      obtain ⟨u,t,s,rfl,hs⟩ := ih h.tail ha hb
      exact ⟨c::u,t,s,rfl,hs⟩
    · have hbound := (List.getElem?_eq_some_iff.mp hb).1
      cases hc : c.hasSummary with
      | false =>
        simp only [hc,Bool.false_eq_true,if_false,List.append_nil] at hbound
        exact absurd hbound hi
      | true =>
        simp only [hc,if_true,List.length_append,List.length_singleton] at hbound
        have hlength : (sesLinks l).length=i+2 := by omega
        simp only [hc,if_true] at ha hb
        rw [← hlength,List.getElem?_concat_length] at hb
        obtain rfl := Option.some.inj hb
        rw [List.getElem?_append_left (by omega)] at ha
        have hlast : (sesLinks l).getLast?=some a := by
          rw [List.getLast?_eq_getElem?,hlength]
          exact ha
        obtain ⟨s,hs,hhash⟩ := h.summary_reward hses hlast (by omega)
        obtain ⟨u,t,rfl⟩ := List.append_of_mem (mem_sesLinks.mp (List.mem_of_getLast? hlast)).1
        exact ⟨c::u,t,s,rfl,hs,hhash⟩

end HeaderChain
end RoseChain
