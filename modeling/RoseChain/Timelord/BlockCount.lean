import RoseChain.Consensus.Conservation
import RoseChain.Consensus.RewardChallenges
import RoseChain.Timelord.PeakAgreement

namespace RoseChain
open FullNodeStore FullNode Blockchain
variable {E : Env} {V : BlockView}

/-- Check 9. -/
def HeaderCall.overflowInEpoch (c : HeaderCall) (x : HeaderPlace) : Check Unit :=
  reject (x.overflow ∧ x.canFinishEpoch ∧ c.numSlots x.overflow x.skip<2) .noOverflowsInFirstSubSlotNewEpoch

theorem HeaderCall.iters_eq (c : HeaderCall) (x : HeaderPlace) (requiredIters : ℕ) : c.iters E V x requiredIters=(do
    let C := E.constants
    let rcb := c.header.rewardChainBlock
    reject (decide (rcb.signagePointIndex=0)≠rcb.challengeChainSpVdf.isNone) .invalidSpIndex
    reject (decide (rcb.signagePointIndex=0)≠rcb.rewardChainSpVdf.isNone) .invalidSpIndex
    let spIters ← calculateSpIters C c.expectedSubSlotIters rcb.signagePointIndex
    let ipIters ← calculateIpIters C c.expectedSubSlotIters rcb.signagePointIndex requiredIters
    assertThat (rcb.challengeChainSpVdf.isNone → ¬ x.overflow)
    c.overflowInEpoch x
    let totalIters ← expectedTotalIters E (c.prevB V) (c.numSlots x.overflow x.skip) c.expectedSubSlotIters ipIters
    reject (totalIters≠rcb.totalIters) .invalidTotalIters
    let spTotalIters ← uint128 (totalIters-ipIters+spIters -
      (if x.overflow then c.expectedSubSlotIters else 0 : ℕ))
    return (spIters,spTotalIters)) := rfl

namespace Timelord

/-- The states of the timelord along a valid chain, from the start or from a peak of the node with its recent
challenges; a peak that the timelord makes is the next block of the chain. -/
inductive Follows (E : Env) (V : BlockView) : Option (ChainPeak E V) → List EndOfSubSlotBundle → LastState → Prop
  | first : Follows E V none [] (LastState.init E)
  | received {p : ChainPeak E V} {b : ChainLink} {l : List ChainLink} {s s' : LastState} {sent : NewPeakTimelord}
    {recentRc : List (Bytes32 × ℕ)} : HeaderChain E (b::l) → HasChain V (b::l) → b.record=p.record →
    getRecentRewardChallenges E V (some p.record) = .ok recentRc →
    sendPeakToTimelords E V p.record p.block recentRc = .ok sent → s.setPeak E sent = .ok s' → Follows E V (some p) [] s'
  | slot {peak : Option (ChainPeak E V)} {slots : List EndOfSubSlotBundle} {s s' : LastState} {eos : EndOfSubSlotBundle} :
    Follows E V peak slots s → ValidEnd (peak.map (·.toTimelordPeak)) slots.getLast? eos → s.setSlot E eos = .ok s' →
    Follows E V peak (slots++[eos]) s'
  | infused {p q : ChainPeak E V} {slots : List EndOfSubSlotBundle} {s s' : LastState} {u : NewUnfinishedBlockTimelord}
    {msg : NewPeakTimelord} : Follows E V (some p) slots s → NextBlock p slots u q → Infuses E s u msg →
    PeakMessage q.toTimelordPeak msg → s.setPeak E msg = .ok s' → Follows E V (some q) [] s'

/-- The cache has the challenges of the blocks of the peak's sub-slot behind those of before. -/
structure CacheSplit (E : Env) (start n : ℕ) (cache : List (Bytes32 × ℕ)) (older own : List (Bytes32 × ℕ)) : Prop where
  cache : cache=older++own
  length : own.length=n
  few : n≤E.maxSubSlotBlocks
  own : ∀ e∈own,start<e.2
  older : ∀ e∈older,e.2 ≤ start

/-- What the timelord knows of the sub-slot that it is in. -/
structure Counts (E : Env) (V : BlockView) (peak : Option (ChainPeak E V)) (slots : List EndOfSubSlotBundle)
    (s : LastState) : Prop where
  stands : Stands E V (peak.map (·.toTimelordPeak)) slots.getLast? s
  noEpoch : slots=[] → s.newEpoch=false
  epoch : slots≠[] → ∃ epoch difficulty,
    expectedOnPeak (onChain (peak.map (·.toTimelordPeak))) = .ok (epoch,difficulty,s.subSlotIters) ∧
      (s.newEpoch=true ↔ epoch=true ∧ slots.length=1)
  start : ∀ p,peak=some p → (s.totalIters : ℤ)-s.lastIp=slotStart p.toTimelordPeak slots.length s.subSlotIters
  upper : ∀ p,peak=some p → ∀ e∈s.rewardChallengeCache,e.2 ≤ s.totalIters
  blocks : ∀ p,peak=some p → slots=[] → ∃ n,blocksInSubSlot V (p.record.height+1) p.record = .ok n ∧
    (0<E.maxSubSlotBlocks → ∃ older own,CacheSplit E p.start (n+1) s.rewardChallengeCache older own)

section Cache
variable {s s' : LastState} {start n : ℕ} {cache older own : List (Bytes32 × ℕ)}

theorem remember_cache (h : s.remember E = .ok s') : ∃ challenge,
    s'.rewardChallengeCache=(s.rewardChallengeCache++[(challenge,s.totalIters)]).drop
      ((s.rewardChallengeCache++[(challenge,s.totalIters)]).length-2*E.maxSubSlotBlocks) := by
  unfold LastState.remember at h
  obtain ⟨_,-,h⟩ := bind_ok.mp h
  obtain ⟨challenge,-,h⟩ := bind_ok.mp h
  cases h
  exact ⟨challenge,rfl⟩

theorem remember_le {bound : ℕ} (h : s.remember E = .ok s') (hcache : ∀ e∈s.rewardChallengeCache,e.2≤bound)
    (htotal : s.totalIters≤bound) : ∀ e∈s'.rewardChallengeCache,e.2≤bound := by
  obtain ⟨challenge,hs⟩ := remember_cache h
  intro e he
  rw [hs] at he
  obtain he | he := List.mem_append.mp (List.mem_of_mem_drop he)
  · exact hcache e he
  · rw [List.mem_singleton] at he
    rw [he]
    exact htotal

theorem CacheSplit.drop (h : CacheSplit E start n cache older own) :
    CacheSplit E start n (cache.drop (cache.length-2*E.maxSubSlotBlocks))
      (older.drop (cache.length-2*E.maxSubSlotBlocks)) own where
  cache := by
    have hlength := h.length
    have hfew := h.few
    rw [h.cache,List.drop_append_of_le_length]
    rw [List.length_append]
    omega
  length := h.length
  few := h.few
  own := h.own
  older e he := h.older e (List.mem_of_mem_drop he)

theorem CacheSplit.remember (h : s.remember E = .ok s') (hc : CacheSplit E start n s.rewardChallengeCache older own)
    (hfew : n<E.maxSubSlotBlocks) (htotal : start<s.totalIters) :
    ∃ older own,CacheSplit E start (n+1) s'.rewardChallengeCache older own := by
  obtain ⟨challenge,hs⟩ := remember_cache h
  have hown : ∀ e∈own++[(challenge,s.totalIters)],start<e.2 := by
    intro e he
    obtain he | he := List.mem_append.mp he
    · exact hc.own e he
    · rw [List.mem_singleton] at he
      rw [he]
      exact htotal
  have hadded : CacheSplit E start (n+1) (s.rewardChallengeCache++[(challenge,s.totalIters)]) older
      (own++[(challenge,s.totalIters)]) :=
    ⟨by rw [hc.cache,List.append_assoc],by rw [List.length_append,hc.length,List.length_singleton],hfew,hown,hc.older⟩
  rw [hs]
  exact ⟨_,_,hadded.drop⟩

theorem CacheSplit.countP (h : CacheSplit E start n cache older own) :
    cache.countP (fun e => decide ((e.2 : ℤ) > start))=n := by
  rw [h.cache,List.countP_append,List.countP_eq_zero.mpr,List.countP_eq_length.mpr,h.length,Nat.zero_add]
  · intro e he
    have hlt := h.own e he
    simpa using hlt
  · intro e he
    have hle := h.older e he
    simpa using hle

end Cache

section Step
variable {peak : Option (ChainPeak E V)} {p q : ChainPeak E V} {slots : List EndOfSubSlotBundle} {s s' : LastState}
  {u : NewUnfinishedBlockTimelord} {msg : NewPeakTimelord} {eos : EndOfSubSlotBundle}

theorem newPeak_fields {ipIters : ℕ} {overflow : Bool} {cc rc : VDFInfo} {icc : Option VDFInfo}
    (h : newPeak E s u ipIters overflow cc rc icc = .ok (some msg)) :
    msg.previousRewardChallenges=s.rewardChallengeCache ∧ ipTotalIters s ipIters=msg.rewardChainBlock.totalIters := by
  unfold newPeak at h
  obtain ⟨spIters,-,h⟩ := bind_ok.mp h
  obtain ⟨⟨transaction,height⟩,-,h⟩ := bind_ok.mp h
  dsimp only at h
  split at h
  · cases h
  obtain ⟨_,-,h⟩ := bind_ok.mp h
  obtain ⟨total,htotal,h⟩ := bind_ok.mp h
  obtain ⟨_,-,h⟩ := bind_ok.mp h
  obtain ⟨_,-,h⟩ := bind_ok.mp h
  obtain ⟨_,-,h⟩ := bind_ok.mp h
  cases h
  exact ⟨rfl,(uint_eq_ok.mp htotal).1⟩

theorem sent_recent {peak : BlockRecord} {block : FullBlock} {recentRc : List (Bytes32 × ℕ)}
    (h : sendPeakToTimelords E V peak block recentRc = .ok msg) : msg.previousRewardChallenges=recentRc := by
  unfold sendPeakToTimelords at h
  obtain ⟨_,-,h⟩ := bind_ok.mp h
  obtain ⟨_,-,h⟩ := bind_ok.mp h
  obtain ⟨_,-,h⟩ := bind_ok.mp h
  obtain ⟨_,-,h⟩ := bind_ok.mp h
  cases h
  rfl

theorem Stands.le_slotEnd {peak : Option (TimelordPeak E V)} {before : Option EndOfSubSlotBundle}
    (h : Stands E V peak before s) : (s.totalIters : ℤ) ≤ s.slotEnd := by
  unfold LastState.slotEnd
  cases h with
  | first => exact Int.natCast_nonneg _
  | @peak p msg _ hpeak =>
    have hlt := p.ipIters_lt
    rw [hpeak.peak,Option.isSome_some,if_pos rfl,hpeak.lastIp,hpeak.subSlotIters]
    omega
  | slot hend =>
    rw [hend.noPeak]
    simp

theorem PeakOnChain.start_lt (p : PeakOnChain E V) : p.start<p.record.totalIters := by
  rw [p.totalIters_eq]
  exact Nat.lt_add_of_pos_right p.ipIters_pos

theorem Counts.setPeak {n : ℕ} (hm : PeakMessage p.toTimelordPeak msg) (hs : s.setPeak E msg = .ok s')
    (hupper : ∀ e∈msg.previousRewardChallenges,e.2≤p.record.totalIters)
    (hblocks : blocksInSubSlot V (p.record.height+1) p.record = .ok n)
    (hsplit : 0<E.maxSubSlotBlocks → n<E.maxSubSlotBlocks ∧
      ∃ older own,CacheSplit E p.start n msg.previousRewardChallenges older own) : Counts E V (some p) [] s' := by
  have hpeak := setPeak_atPeak hm hs
  have htotal : msg.rewardChainBlock.totalIters=p.record.totalIters := by rw [hm.rewardChainBlock,p.blockTotalIters]
  unfold LastState.setPeak at hs
  obtain ⟨⟨spIters,ipIters⟩,-,hs⟩ := bind_ok.mp hs
  dsimp only at hs
  have hcache := hs
  obtain ⟨cache,hs'⟩ := remember_ok hs
  refine ⟨.peak hpeak,fun _ => by rw [hs'],fun hne => absurd rfl hne,?_,?_,?_⟩
  · intro p' hp
    obtain rfl := Option.some.inj hp
    have hsum := p.totalIters_eq
    rw [hpeak.totalIters,hpeak.lastIp,slotStart,List.length_nil,if_pos rfl]
    omega
  · intro p' hp
    rw [hpeak.totalIters]
    exact remember_le hcache hupper htotal.le
  · intro p' hp _
    obtain rfl := Option.some.inj hp
    refine ⟨n,hblocks,fun hpos => ?_⟩
    obtain ⟨hlt,older,own,hc⟩ := hsplit hpos
    apply CacheSplit.remember hcache hc hlt
    show p.start < msg.rewardChainBlock.totalIters
    rw [htotal]
    exact PeakOnChain.start_lt p.toPeakOnChain

theorem Counts.setSlot (h : Counts E V peak slots s)
    (hv : ValidEnd (peak.map (·.toTimelordPeak)) slots.getLast? eos) (hs : s.setSlot E eos = .ok s') :
    Counts E V peak (slots++[eos]) s' := by
  have hend := setSlot_atEnd h.stands hv hs
  obtain ⟨epoch,difficulty,iters,he,hadjusted,hdue⟩ := hv.adjusted
  have hiters := hend.iters _ _ _ he
  have hne : slots++[eos]≠[] := List.concat_ne_nil eos slots
  unfold LastState.setSlot at hs
  obtain ⟨totalIters,htotal,hs⟩ := bind_ok.mp hs
  obtain ⟨subSlotIters,-,hs⟩ := bind_ok.mp hs
  have hcache := hs
  obtain ⟨cache,hs'⟩ := remember_ok hs
  have htotal := (uint_eq_ok.mp htotal).1
  have htotal' : s'.totalIters=totalIters := by rw [hs']
  have hstart : ∀ p,peak=some p →
      s.slotEnd=slotStart p.toTimelordPeak (slots.length+1) s'.subSlotIters ∧ s.totalIters≤totalIters := by
    rintro p rfl
    have hslots : slots≠[] → s.subSlotIters=iters := by
      intro hslots
      obtain ⟨_,_,he',-⟩ := h.epoch hslots
      cases he.symm.trans he'
      rfl
    rw [hiters,← slotStart_next h.stands (h.start p rfl) hslots]
    refine ⟨rfl,?_⟩
    have hle := h.stands.le_slotEnd
    omega
  refine ⟨by rw [List.getLast?_concat]; exact .slot hend,fun hnil => absurd hnil hne,fun _ => ?_,?_,?_,
    fun _ _ hnil => absurd hnil hne⟩
  · refine ⟨epoch,difficulty,by rw [hiters]; exact he,?_⟩
    have hnew : s'.newEpoch=eos.challengeChain.newDifficulty.isSome := by rw [hs']
    have hadjusts := hadjusted.adjusts
    rw [hnew,List.length_append,List.length_singleton]
    rcases List.eq_nil_or_concat slots with rfl | ⟨before,last,rfl⟩
    · cases epoch with
      | false =>
        rw [if_neg (by simp)] at hadjusts
        simp [hadjusts.2]
      | true =>
        rw [if_pos ⟨rfl,hdue rfl rfl⟩] at hadjusts
        simp [hadjusts.2]
    · have hnone := hadjusted.summary (by rw [List.concat_eq_append,List.getLast?_concat]; rfl)
      rw [if_neg (by simp [hnone])] at hadjusts
      simp [hadjusts.2]
  · intro p hp
    have hlast : s'.lastIp=0 := hend.lastIp
    rw [htotal',hlast,List.length_append,List.length_singleton,← (hstart p hp).1,← htotal]
    omega
  · intro p hp
    rw [htotal']
    apply remember_le hcache
    · exact fun e he => (h.upper p hp e he).trans (hstart p hp).2
    · exact le_refl _

theorem Counts.infuse (h : Counts E V (some p) slots s) (hn : NextBlock p slots u q) (hi : Infuses E s u msg)
    (hm : PeakMessage q.toTimelordPeak msg) (hs : s.setPeak E msg = .ok s') : Counts E V (some q) [] s' := by
  obtain ⟨spIters,ipIters,overflow,cc,rc,icc,-,hle,hoverflow,hallowed,hmade⟩ := hi.parts
  obtain ⟨hprevious,htotal⟩ := newPeak_fields hmade
  have hsame : msg.rewardChainBlock.totalIters=q.record.totalIters := by rw [hm.rewardChainBlock,q.blockTotalIters]
  have hafter : s.totalIters≤q.record.totalIters := by
    unfold ipTotalIters at htotal
    omega
  have hupper : ∀ e∈msg.previousRewardChallenges,e.2≤q.record.totalIters := by
    rw [hprevious]
    exact fun e he => (h.upper p rfl e he).trans hafter
  rcases List.eq_nil_or_concat slots with rfl | ⟨before,last,rfl⟩
  · obtain ⟨n,hblocks,hsplit⟩ := h.blocks p rfl rfl
    obtain ⟨m,hpeak⟩ := h.stands.atPeak
    have hstart : q.start=p.start := hn.start
    have hblocks' : blocksInSubSlot V (q.record.height+1) q.record = .ok (n+1) := by
      have hfirst : q.record.firstInSubSlot≠true := by
        rw [hn.firstInSubSlot]
        decide
      rw [blocksInSubSlot,if_neg hfirst,bind_of_ok hn.prev,hn.height,bind_of_ok hblocks]
      rfl
    refine Counts.setPeak hm hs hupper hblocks' fun hpos => ?_
    obtain ⟨older,own,hc⟩ := hsplit hpos
    rw [hstart,hprevious]
    refine ⟨?_,older,own,hc⟩
    unfold LastState.canInfuseBlock at hallowed
    rw [h.noEpoch rfl,Bool.and_false,if_neg Bool.false_ne_true,if_pos hpeak.stateType,decide_eq_true_eq] at hallowed
    have hslot : (s.totalIters : ℤ)-s.lastIp=p.start := h.start p rfl
    rw [hslot,hc.countP] at hallowed
    exact hallowed
  · have hend := h.stands
    rw [List.concat_eq_append,List.getLast?_concat] at hend
    have hend := hend.atEnd
    have hfirst : q.record.firstInSubSlot=true := by
      rw [hn.firstInSubSlot]
      simp
    have hblocks : blocksInSubSlot V (q.record.height+1) q.record = .ok 0 := by
      rw [blocksInSubSlot,if_pos hfirst]
    refine Counts.setPeak hm hs hupper hblocks fun hpos => ⟨hpos,msg.previousRewardChallenges,[],?_⟩
    have hne : before.concat last≠[] := by simp
    obtain ⟨epoch,difficulty,he,-⟩ := h.epoch hne
    have hiters := (hn.adjusted hne _ _ _ he).2
    have hstart := h.start p rfl
    rw [hend.lastIp,← hiters,← hn.start] at hstart
    refine ⟨(List.append_nil _).symm,rfl,hpos.le,by simp,?_⟩
    rw [hprevious]
    intro e he
    have hle := h.upper p rfl e he
    omega

theorem Follows.counts (h : Follows E V peak slots s) : Counts E V peak slots s := by
  induction h with
  | first =>
    refine ⟨.first,fun _ => rfl,fun hne => absurd rfl hne,?_,?_,?_⟩ <;> intro p hp <;> cases hp
  | @received p b l s s' sent recentRc hl hv hrecord hrecent hsent hs =>
    obtain ⟨hm,-⟩ := ChainPeak.of_sent hsent
    have hprevious : sent.previousRewardChallenges=recentRc := sent_recent hsent
    have hblocks := blocksInSubSlot_chain hl fun a ha => hv.known a (List.mem_cons_of_mem b ha)
    rw [← hrecord] at hrecent
    have hupper := getRecentRewardChallenges_le hl hv hrecent
    have hstart : b.record.start E.constants=p.start := by
      have htotal := p.totalIters_eq
      have hip := p.ipIters_eq
      have hplaced := hl.placed.total_eq
      rw [← hrecord,hl.placed.ipIters] at hip
      rw [← hrecord] at htotal
      have hip := Except.ok.inj hip
      omega
    rw [hrecord] at hblocks
    refine Counts.setPeak hm hs (by rw [hprevious,← hrecord]; exact hupper) hblocks fun hpos => ?_
    obtain ⟨older,own,hcache,hlength,hown,holder⟩ := getRecentRewardChallenges_split hl hv hpos hrecent
    have hlt : inSubSlot (b::l)<E.maxSubSlotBlocks := by
      by_cases hzero : inSubSlot (b::l)=0
      · omega
      · exact inSubSlot_lt hl hzero
    rw [hstart] at hown holder
    exact ⟨hlt,older,own,hprevious.trans hcache,hlength,hlt.le,hown,holder⟩
  | slot _ hv hs ih => exact ih.setSlot hv hs
  | infused _ hn hi hm hs ih => exact ih.infuse hn hi hm hs

theorem place_epoch {c : HeaderCall} {x : HeaderPlace} (hprev : c.prevB V=peak.map (·.record))
    (hx : c.place E V = .ok x) : (c.numSlots x.overflow x.skip=0 → x.canFinishEpoch=false) ∧
      (c.numSlots x.overflow x.skip≠0 → ∀ epoch difficulty iters,
        expectedOnPeak (onChain (peak.map (·.toTimelordPeak))) = .ok (epoch,difficulty,iters) → x.canFinishEpoch=epoch) := by
  have hposition := (HeaderCall.place_ok hx).2.2
  unfold HeaderCall.position at hposition
  rw [hprev] at hposition
  have hexpected : ∀ epoch difficulty iters,
      expectedOnPeak (onChain (peak.map (·.toTimelordPeak))) = .ok (epoch,difficulty,iters) →
      ∃ se,RoseChain.finishes E.constants V (peak.map (·.record)) [dummySubSlot] = .ok (se,epoch) := by
    intro epoch difficulty iters he
    unfold expectedOnPeak at he
    obtain ⟨⟨se,epoch'⟩,hfinishes,he⟩ := bind_ok.mp he
    obtain ⟨⟨iters',difficulty'⟩,-,he⟩ := bind_ok.mp he
    cases he
    cases peak <;> exact ⟨se,hfinishes⟩
  cases peak with
  | none =>
    obtain ⟨_,-,hposition⟩ := bind_ok.mp hposition
    obtain ⟨_,-,hposition⟩ := bind_ok.mp hposition
    have hfalse : false=x.canFinishEpoch := congrArg (fun y => y.2.2) (Except.ok.inj hposition)
    refine ⟨fun _ => hfalse.symm,fun _ epoch difficulty iters he => ?_⟩
    obtain ⟨se,hfinishes⟩ := hexpected _ _ _ he
    rw [← hfalse]
    exact congrArg Prod.snd (Except.ok.inj hfinishes)
  | some p =>
    obtain ⟨height,-,hposition⟩ := bind_ok.mp hposition
    constructor
    · intro hzero
      rw [HeaderCall.newSubSlot,hzero] at hposition
      exact (congrArg (fun y => y.2.2) (Except.ok.inj hposition)).symm
    · intro hne epoch difficulty iters he
      have hnew : c.newSubSlot x.overflow x.skip=true := decide_eq_true (Nat.pos_of_ne_zero hne)
      rw [if_pos hnew] at hposition
      obtain ⟨⟨se,epoch'⟩,hfinish,hposition⟩ := bind_ok.mp hposition
      obtain ⟨se',hfinishes⟩ := hexpected _ _ _ he
      cases hfinish.symm.trans hfinishes
      exact (congrArg (fun y => y.2.2) (Except.ok.inj hposition)).symm

/-- Along a valid chain, the timelord may infuse a block exactly where the next header passes checks
4 and 9. -/
theorem canInfuseBlock_iff (h : Follows E V peak slots s) {c : HeaderCall} {x : HeaderPlace}
    (hprev : c.prevB V=peak.map (·.record)) (hx : c.place E V = .ok x)
    (hslots : c.numSlots x.overflow x.skip=slots.length) : s.canInfuseBlock E x.overflow=true ↔
      c.blockCount E V x = .ok () ∧ c.overflowInEpoch x = .ok () := by
  have hc := h.counts
  obtain ⟨hsame,hnext⟩ := place_epoch hprev hx
  rw [HeaderCall.overflowInEpoch,reject_eq_ok,hslots]
  rw [hslots] at hsame hnext
  cases slots with
  | nil =>
    have hepoch : ¬ (x.overflow=true ∧ x.canFinishEpoch=true ∧ ([] : List EndOfSubSlotBundle).length<2) := by
      rw [hsame rfl]
      simp
    rw [and_iff_left hepoch,LastState.canInfuseBlock,hc.noEpoch rfl,Bool.and_false,if_neg Bool.false_ne_true,
      HeaderCall.blockCount,hprev,HeaderCall.newSubSlot,hslots]
    cases peak with
    | none =>
      cases hc.stands with
      | first => simp [LastState.init,pure,Except.pure]
    | some p =>
      obtain ⟨msg,hpeak⟩ := hc.stands.atPeak
      obtain ⟨n,hblocks,hsplit⟩ := hc.blocks p rfl rfl
      have hstart : (s.totalIters : ℤ)-s.lastIp=p.start := hc.start p rfl
      have hcheck : (do
          let n ← blocksInSubSlot V (p.record.height+1) p.record
          reject (2+n > E.maxSubSlotBlocks) .tooManyBlocks) = .ok () ↔ ¬ 2+n > E.maxSubSlotBlocks := by
        rw [bind_of_ok hblocks,reject_eq_ok]
      rw [if_pos hpeak.stateType,hstart,decide_eq_true_eq]
      refine Iff.trans ?_ hcheck.symm
      by_cases hpos : 0<E.maxSubSlotBlocks
      · obtain ⟨older,own,hcache⟩ := hsplit hpos
        rw [hcache.countP]
        omega
      · omega
  | cons eos more =>
    have hne : eos::more≠[] := List.cons_ne_nil eos more
    obtain ⟨epoch,difficulty,he,hnew⟩ := hc.epoch hne
    have hstate : s.stateType ≠ .peak := by
      obtain ⟨last,hlast⟩ := Option.ne_none_iff_exists'.mp (mt List.getLast?_eq_none_iff.mp hne)
      have hend := hc.stands
      rw [hlast] at hend
      rw [hend.atEnd.stateType]
      decide
    have hcount : c.blockCount E V x = .ok () := by
      rw [HeaderCall.blockCount,hprev,HeaderCall.newSubSlot,hslots]
      cases peak <;> rfl
    rw [and_iff_right hcount,hnext (Nat.succ_ne_zero _) _ _ _ he,LastState.canInfuseBlock,if_neg hstate]
    rw [List.length_cons] at hnew ⊢
    cases hover : x.overflow with
    | false => simp
    | true =>
      rw [Bool.true_and]
      by_cases hepoch : s.newEpoch=true
      · obtain ⟨htrue,hlen⟩ := hnew.mp hepoch
        simp [hepoch,htrue,hlen]
      · have hnot : ¬ (epoch=true ∧ more.length+1=1) := mt hnew.mpr hepoch
        refine iff_of_true (by simp [hepoch]) fun hboth => hnot ⟨hboth.2.1,?_⟩
        have hlt := hboth.2.2
        omega

end Step

section Crowded

def crowdedEnv : Env := { tinyEnv with maxSubSlotBlocks := 2 }

def crowdedLink (b : FullBlock) (deficit : ℕ) : ChainLink :=
  ⟨b,headerBlockToSubBlockRecord crowdedEnv 1 b 1024 false deficit 0 none⟩

def crowdedView : BlockView :=
  ⟨(Lib.Dict.empty.set 10 (crowdedLink provedGenesis 15).record).set 11 (crowdedLink provedNext 14).record,Lib.Dict.empty⟩

theorem crowdedFirst_accepted : (crowdedLink provedGenesis 15).Accepted crowdedEnv crowdedView none where
  prev := by decide +kernel
  validated := by
    refine ⟨[],[],_,1024,7,1,?_,rfl,?_,?_⟩
    all_goals decide +kernel

theorem crowdedSecond_accepted :
    (crowdedLink provedNext 14).Accepted crowdedEnv crowdedView (some (crowdedLink provedGenesis 15).record) where
  prev := by decide +kernel
  validated := by
    refine ⟨[],[],_,1024,7,1,?_,rfl,?_,?_⟩
    all_goals decide +kernel

theorem crowdedChain : HeaderChain crowdedEnv [crowdedLink provedNext 14,crowdedLink provedGenesis 15] := by
  have hfirst : HeaderChain crowdedEnv [crowdedLink provedGenesis 15] :=
    .next crowdedView .nil (by simp) crowdedFirst_accepted rfl (by simp)
  apply HeaderChain.next crowdedView hfirst
  · intro a ha
    obtain rfl := List.mem_singleton.mp ha
    decide +kernel
  · exact crowdedSecond_accepted
  · rfl
  · intro a ha
    obtain rfl : crowdedLink provedGenesis 15=a := Option.some.inj ha
    rfl

theorem crowdedView_hasChain : HasChain crowdedView [crowdedLink provedNext 14,crowdedLink provedGenesis 15] where
  known := by
    intro a ha
    obtain rfl | ha := List.mem_cons.mp ha
    · decide +kernel
    · obtain rfl := List.mem_singleton.mp ha
      decide +kernel
  ground := by
    intro a ha
    obtain rfl : crowdedLink provedGenesis 15=a := Option.some.inj ha
    decide +kernel

def crowdedOnChain : PeakOnChain crowdedEnv crowdedView where
  record := (crowdedLink provedNext 14).record
  block := provedNext
  spSlot := none
  slot := provedNext.finishedSubSlots.getLast?
  start := 0
  ipIters := 113
  ipIters_eq := by decide +kernel
  ipIters_pos := by decide
  ipIters_lt := by decide
  subSlotIters_lt := by decide
  totalIters_eq := rfl
  start_zero := fun _ => rfl
  deficit_le := by decide
  challenge := ⟨(crowdedLink provedGenesis 15).record,_,by decide +kernel,rfl,rfl⟩
  icc := fun _ => ⟨(crowdedLink provedGenesis 15).record,by decide +kernel,by
    rw [if_pos (by decide)]
    exact ⟨49,by decide +kernel,rfl,by decide⟩⟩
  iccStart := fun _ => by decide
  finishes := ⟨(false,false),by decide +kernel⟩
  summary := ⟨none,by decide +kernel⟩

theorem expectedOnPeak_crowded : expectedOnPeak (some crowdedOnChain) = .ok (false,7,1024) := by decide +kernel

def crowdedPeak : ChainPeak crowdedEnv crowdedView where
  toPeakOnChain := crowdedOnChain
  difficulty := 7
  spIters := 64
  rewardHash := rfl
  blockTotalIters := rfl
  ipOutput := rfl
  ipChallenge := rfl
  infoHash := rfl
  infusedIff := by decide
  infusedOutput := rfl
  infusedChallenge := by
    intro vdf e hvdf he
    have hexpected : (expectedIcc crowdedEnv crowdedView crowdedOnChain.record none).map (·.map (·.challengeHash)) =
      .ok (some 0) := by decide +kernel
    rw [he] at hexpected
    obtain rfl := Option.some.inj hvdf
    exact (Option.some.inj (Except.ok.inj hexpected)).symm
  iters := by decide +kernel
  slotStart := by
    intro curr hwalk hchallenge
    have hfirst : crowdedView.walkBack (fun b => b.isChallengeBlock crowdedEnv.constants || b.firstInSubSlot)
      crowdedOnChain.record = .ok (crowdedLink provedGenesis 15).record := by decide +kernel
    obtain rfl := Except.ok.inj (hfirst.symm.trans hwalk)
    exact absurd hchallenge (by decide)
  sameIters _ _ he := (adjusts_eq expectedOnPeak_crowded he).2
  blockWeight := rfl
  blockHeight := rfl
  transaction := rfl
  nextDifficulty := by decide +kernel
  sameDifficulty _ _ he := (adjusts_eq expectedOnPeak_crowded he).1
def crowdedMessage : NewPeakTimelord :=
  valueOf (sendPeakToTimelords crowdedEnv crowdedView crowdedPeak.record crowdedPeak.block
    (valueOf (getRecentRewardChallenges crowdedEnv crowdedView (some crowdedPeak.record)) [])) genesisMessage

def crowdedState : LastState := valueOf ((LastState.init crowdedEnv).setPeak crowdedEnv crowdedMessage) (.init crowdedEnv)

def crowdedCall : HeaderCall where
  header := ⟨[],{ provedNext.rewardChainBlock.getUnfinished with signagePointIndex := 20 },none,none,
    { provedNext.foliage with prevBlockHash := 11 },none,[]⟩
  checkFilter := false
  expectedDifficulty := 7
  expectedSubSlotIters := 1024
  skipOverflowLastSsValidation := false
  skipVdfIsValid := false
  checkSubEpochSummary := true

theorem crowdedState_follows : Follows crowdedEnv crowdedView (some crowdedPeak) [] crowdedState := by
  have hrecent : getRecentRewardChallenges crowdedEnv crowdedView (some crowdedPeak.record) =
    .ok (valueOf (getRecentRewardChallenges crowdedEnv crowdedView (some crowdedPeak.record)) []) := by decide +kernel
  have hsent : sendPeakToTimelords crowdedEnv crowdedView crowdedPeak.record crowdedPeak.block
    (valueOf (getRecentRewardChallenges crowdedEnv crowdedView (some crowdedPeak.record)) []) = .ok crowdedMessage := by
      decide +kernel
  have hpeak : (LastState.init crowdedEnv).setPeak crowdedEnv crowdedMessage = .ok crowdedState := by decide +kernel
  exact .received crowdedChain crowdedView_hasChain rfl hrecent hsent hpeak

/-- The timelord does not infuse the block, and check 4 refuses it. -/
theorem canInfuseBlock_iff_crowded : crowdedState.canInfuseBlock crowdedEnv false=false ∧
    (crowdedState.canInfuseBlock crowdedEnv false=true ↔
      crowdedCall.blockCount crowdedEnv crowdedView ⟨false,false,2,false,false⟩ = .ok () ∧
        crowdedCall.overflowInEpoch ⟨false,false,2,false,false⟩ = .ok ()) := by
  have hplace : crowdedCall.place crowdedEnv crowdedView = .ok ⟨false,false,2,false,false⟩ := by decide +kernel
  exact ⟨by decide +kernel,canInfuseBlock_iff crowdedState_follows rfl hplace rfl⟩

end Crowded

end Timelord
end RoseChain
