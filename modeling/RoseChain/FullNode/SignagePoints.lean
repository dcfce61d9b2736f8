import RoseChain.Consensus.Runs
import RoseChain.Consensus.SignagePointVdf
import RoseChain.FullNode.FullNodeStore

namespace RoseChain
open Lib ClassgroupElement FullNodeStore
variable {E : Env} {V : BlockView}

structure SignagePoint where
  ccVdf : Option VDFInfo
  ccProof : Option VDFProof
  rcVdf : Option VDFInfo
  rcProof : Option VDFProof
  deriving DecidableEq

/-- A sub-slot that the node keeps, with its signage points; the first sub-slot of all has no bundle before it. -/
structure StoredSlot where
  subSlot : Option EndOfSubSlotBundle
  signagePoints : List (Option SignagePoint)
  startTotalIters : ℕ

/-- What the node keeps of sub-slots and signage points. -/
structure SignagePointStore where
  finishedSubSlots : List StoredSlot
  futureSpCache : Dict Bytes32 (List (ℕ × SignagePoint))
  futureCacheKeyTimes : Dict Bytes32 ℕ
  recentSignagePoints : LRUCache Bytes32 (SignagePoint × ℕ)

namespace SignagePointStore

def inFutureSpCache (s : SignagePointStore) (signagePoint : SignagePoint) (index : ℕ) : Bool :=
  match signagePoint.rcVdf with
  | none => false
  | some rcVdf =>
    match s.futureSpCache.get? rcVdf.challenge with
    | none => false
    | some waiting => waiting.any fun c => decide (c.1=index ∧ c.2.rcVdf=some rcVdf)

/-- A signage point whose block is missing waits for it. -/
def addToFutureSp (s : SignagePointStore) (signagePoint : SignagePoint) (index now : ℕ) : SignagePointStore :=
  match signagePoint.ccVdf,signagePoint.rcVdf,signagePoint.ccProof,signagePoint.rcProof with
  | some _,some rcVdf,some _,some _ =>
    let waiting := (s.futureSpCache.get? rcVdf.challenge).getD []
    let s := { s with futureSpCache := s.futureSpCache.set rcVdf.challenge waiting }
    if s.inFutureSpCache signagePoint index then s
    else { s with
      futureCacheKeyTimes := s.futureCacheKeyTimes.set rcVdf.challenge now
      futureSpCache := s.futureSpCache.set rcVdf.challenge (waiting++[(index,signagePoint)]) }
  | _,_,_,_ => s

variable (E V)

/-- The first stored sub-slot with a challenge, and where it is stored. -/
def findSlot (challenge : Bytes32) : List StoredSlot → Check (Option (ℕ × StoredSlot))
  | [] => return none
  | slot::more => do
    assertThat (slot.subSlot.isSome ∨ slot.startTotalIters=0)
    if ccAfter E slot.subSlot=challenge then return some (0,slot)
    else return (← findSlot challenge more).map fun found => (found.1+1,found.2)

def subSlotItersOf (peak : Option BlockRecord) : ℕ :=
  match peak with
  | none => E.subSlotItersStarting
  | some peak => if peak.height<2 then E.subSlotItersStarting else peak.subSlotIters

def futureSubSlot (peak : Option BlockRecord) (startTotalIters : ℕ) : Bool :=
  peak.any fun peak => decide (startTotalIters > peak.totalIters)

def deltaIters (peak : Option BlockRecord) (nextSubSlotIters startTotalIters index : ℕ) : Check ℕ := do
  let ssi := if futureSubSlot peak startTotalIters then nextSubSlotIters else subSlotItersOf E peak
  let checkpointSize ← uint64 (← floorDiv ssi E.numSpsSubSlot)
  uint64 (checkpointSize*index)

/-- The block that the VDFs start from, back from the peak; none where they start with the sub-slot. -/
def blockBefore (startTotalIters spTotalIters : ℕ) : ℕ → BlockRecord → Check (Option BlockRecord)
  | 0,_ => .error (.raised .diverged)
  | n+1,curr =>
    if curr.totalIters > startTotalIters ∧ curr.totalIters > spTotalIters then
      if curr.firstInSubSlot then return none
      else do blockBefore startTotalIters spTotalIters n (← V.blockRecord curr.prevHash)
    else return some curr

def expectedVdf (peak : Option BlockRecord) (slot : StoredSlot) (deltaIters : ℕ) : Check SignagePointVdfInfo := do
  let spTotalIters := slot.startTotalIters+deltaIters
  let curr ← match peak with
    | none => pure none
    | some peak =>
      if futureSubSlot (some peak) slot.startTotalIters then pure none
      else blockBefore V slot.startTotalIters spTotalIters (peak.height+1) peak
  match curr with
  | none => return ⟨ccAfter E slot.subSlot,rcAfter E slot.subSlot,getDefaultElement,deltaIters⟩
  | some curr =>
    return ⟨ccAfter E slot.subSlot,curr.rewardInfusionNewChallenge,curr.challengeVdfOutput,
      ← uint64 ((spTotalIters : ℤ)-curr.totalIters)⟩

/-- The checks of both VDFs. -/
def vdfsValid (info : SignagePointVdfInfo) (deltaIters : ℕ) (skipVdfValidation : Bool) (ccVdf : VDFInfo)
    (ccProof : VDFProof) (rcVdf : VDFInfo) (rcProof : VDFProof) : Bool :=
  decide (ccVdf=⟨info.ccVdfChallenge,deltaIters,ccVdf.output⟩) &&
    (skipVdfValidation ||
      ccProof.isValidFrom E info.ccVdfInput ⟨info.ccVdfChallenge,info.spVdfIters,ccVdf.output⟩ ccVdf) &&
    decide (info.rcVdfChallenge=rcVdf.challenge) &&
    (skipVdfValidation || rcProof.isValid E getDefaultElement rcVdf
      (some ⟨info.rcVdfChallenge,info.spVdfIters,rcVdf.output⟩))

/-- `sp_arr[index] = signage_point`. -/
def putSp (slot : StoredSlot) (index : ℕ) (signagePoint : SignagePoint) : Check StoredSlot :=
  if index<slot.signagePoints.length then
    .ok { slot with signagePoints := slot.signagePoints.set index (some signagePoint) }
  else .error (.raised .index)

def newSignagePoint (s : SignagePointStore) (index : ℕ) (peak : Option BlockRecord) (nextSubSlotIters : ℕ)
    (signagePoint : SignagePoint) (skipVdfValidation : Bool) (now : ℕ) : Check (Bool × SignagePointStore) := do
  assertThat (s.finishedSubSlots.length ≥ 1)
  if index=0 ∨ index ≥ E.numSpsSubSlot then return (false,s)
  else
    let ccVdf ← assertSome signagePoint.ccVdf
    let ccProof ← assertSome signagePoint.ccProof
    let rcVdf ← assertSome signagePoint.rcVdf
    let rcProof ← assertSome signagePoint.rcProof
    match ← findSlot E ccVdf.challenge s.finishedSubSlots with
    | none => return (false,s.addToFutureSp signagePoint index now)
    | some (n,slot) =>
      let deltaIters ← deltaIters E peak nextSubSlotIters slot.startTotalIters index
      let info ← expectedVdf E V peak slot deltaIters
      if vdfsValid E info deltaIters skipVdfValidation ccVdf ccProof rcVdf rcProof then
        let slot ← putSp slot index signagePoint
        return (true,{ s with
          finishedSubSlots := s.finishedSubSlots.set n slot
          recentSignagePoints := s.recentSignagePoints.put (ccVdf.output.getHash E) (signagePoint,now) })
      else return (false,s.addToFutureSp signagePoint index now)

end SignagePointStore

variable {b p : ChainLink} {l : List ChainLink} {slot : ChainSlot} {sp : ℕ}

section Walk
open SignagePointStore
variable {older : List ChainSlot}

variable {start : ℕ}

variable {r : BlockRecord}

theorem blockBefore_stop {n : ℕ} (h : ¬ (r.totalIters > start ∧ r.totalIters > sp)) :
    blockBefore V start sp (n+1) r = .ok (some r) := by
  rw [blockBefore,if_neg h]
  rfl

theorem blockBefore_first {n : ℕ} (h : r.totalIters > start ∧ r.totalIters > sp)
    (hfirst : r.firstInSubSlot=true) : blockBefore V start sp (n+1) r = .ok none := by
  rw [blockBefore,if_pos h,if_pos hfirst]
  rfl

theorem blockBefore_prev (hl : HeaderChain E (b::p::l)) (hv : HasChain V (b::p::l))
    (h : b.record.totalIters > start ∧ b.record.totalIters > sp) (hfirst : ¬ b.record.firstInSubSlot=true) :
    blockBefore V start sp (b.record.height+1) b.record=blockBefore V start sp (p.record.height+1) p.record := by
  have hprev : V.blockRecord b.record.prevHash = .ok p.record := lookup_eq_ok.mpr (hv.prev hl)
  rw [blockBefore,if_pos h,if_neg hfirst,bind_of_ok hprev,hl.height_succ]

theorem blockBefore_here (hl : HeaderChain E (b::l)) (hslot : recordedSubSlots E (b::l)=slot::older)
    (hne : b.record.totalIters≠sp) (hstop : b.record.firstInSubSlot=true ∨ b.record.totalIters<sp) :
    blockBefore V slot.start sp (b.record.height+1) b.record =
      .ok (((b::l).find? (infusedBefore slot sp)).map (·.record)) := by
  have htotal := hl.placed.total_eq
  have hstart := hl.newest_start hslot
  have hpos : 0<b.record.ipPlace E.constants := hl.placed.timed.ipPlace_pos
  by_cases hlt : b.record.totalIters<sp
  · have hinside : infusedBefore slot sp b=true := decide_eq_true ⟨by omega,hlt⟩
    rw [blockBefore_stop (by omega),List.find?_cons_of_pos hinside]
    rfl
  · have hfirst := hstop.resolve_right hlt
    have hearlier := hl.before_first hfirst
    rw [← hstart] at hearlier
    rw [blockBefore_first (by omega) hfirst,List.find?_cons_of_neg (by simp [infusedBefore,hlt]),find?_earlier hearlier]
    rfl

theorem blockBefore_same (hl : HeaderChain E (b::l)) (hv : HasChain V (b::l))
    (hslot : recordedSubSlots E (b::l)=slot::older)
    (hne : ∀ q l',HeaderChain E (q::l') → q.record.start E.constants=b.record.start E.constants →
      q.record.subSlotIters=b.record.subSlotIters → q.record.totalIters≠sp) :
    blockBefore V slot.start sp (b.record.height+1) b.record =
      .ok (((b::l).find? (infusedBefore slot sp)).map (·.record)) := by
  have hbne := hne b l hl rfl rfl
  induction l generalizing b with
  | nil => exact blockBefore_here hl hslot hbne (Or.inl (by simp [hl.first_iff]))
  | cons p l ih =>
    have htotal := hl.placed.total_eq
    have hstart := hl.newest_start hslot
    by_cases hstop : b.record.firstInSubSlot=true ∨ b.record.totalIters<sp
    · exact blockBefore_here hl hslot hbne hstop
    · rw [not_or] at hstop
      have hslots := hl.slots_nil (by simpa using hstop.1)
      obtain ⟨hsame,-,hssi⟩ := hl.sameSlot hslots
      have hpos : 0<b.record.ipPlace E.constants := hl.placed.timed.ipPlace_pos
      have hgo : b.record.totalIters > slot.start ∧ b.record.totalIters > sp := by omega
      rw [recordedSubSlots_skip hslots] at hslot
      rw [blockBefore_prev hl hv hgo hstop.1,List.find?_cons_of_neg (by simp [infusedBefore,hstop.2])]
      have hpne : ∀ q l',HeaderChain E (q::l') →
          q.record.start E.constants=p.record.start E.constants →
          q.record.subSlotIters=p.record.subSlotIters → q.record.totalIters≠sp := by
        intro q l' hq hqstart hqssi
        exact hne q l' hq (hqstart.trans hsame.symm) (hqssi.trans hssi.symm)
      exact ih hl.tail hv.tail hslot hpne (hpne p l hl.tail rfl rfl)

theorem blockBefore_earlier (hl : HeaderChain E (b::l)) (hv : HasChain V (b::l))
    (hstart : start<b.record.start E.constants) (hsp : sp<b.record.start E.constants) :
    blockBefore V start sp (b.record.height+1) b.record = .ok none := by
  induction l generalizing b with
  | nil =>
    have htotal := hl.placed.total_eq
    apply blockBefore_first (by omega)
    simp [hl.first_iff]
  | cons p l ih =>
    have htotal := hl.placed.total_eq
    have hgo : b.record.totalIters > start ∧ b.record.totalIters > sp := by omega
    by_cases hfirst : b.record.firstInSubSlot=true
    · exact blockBefore_first hgo hfirst
    · have hslots := hl.slots_nil hfirst
      have hsame := (hl.sameSlot hslots).1
      rw [blockBefore_prev hl hv hgo hfirst]
      apply ih hl.tail hv.tail
      · omega
      · omega

end Walk

theorem HeaderCall.numSlots_listed (c : HeaderCall) (overflow skip : Bool) :
    c.numSlots overflow skip=c.header.finishedSubSlots.length ∨
      overflow=true ∧ c.numSlots overflow skip=c.header.finishedSubSlots.length+1 := by
  unfold HeaderCall.numSlots
  split_ifs with hboth
  · exact Or.inr ⟨hboth.2,rfl⟩
  · exact Or.inl rfl

/-- A block after a chain that passes the checks before those of its signage point, and its
sub-slot. -/
structure SignagePointIn (E : Env) (V : BlockView) (l : List ChainLink) (c : HeaderCall) (x : HeaderPlace) (q : ℕ × ℕ)
    (slot : ChainSlot) : Prop where
  prev : c.prevB V=l.head?.map (·.record)
  expected : c.Expected E V
  place : c.place E V = .ok x
  iters : ∃ ccSp,c.space E V x = .ok ccSp ∧ c.iters E V x ccSp.2 = .ok q
  order : c.skipOverflowLastSsValidation=false → ∀ prev,c.prevB V=some prev →
    prev.totalIters ≤ c.header.rewardChainBlock.totalIters
  slot : (newSubSlots E (c.prevB V) c.expectedSubSlotIters c.header.finishedSubSlots++subSlotsOf E l).find?
    (fun s => decide (s.start≤q.2))=some slot

namespace SignagePointIn
variable {c : HeaderCall} {x : HeaderPlace} {q : ℕ × ℕ}

theorem segment (h : SignagePointIn E V l c x q slot) (hextra : E.numSpIntervalsExtra≤E.numSpsSubSlot)
    (hl : HeaderChain E l) (hv : HasChain V l) : slot.start+q.1=q.2 ∧
      getSignagePointVdfInfo E V (c.spSlots x) x.overflow (c.prevB V) q.2 q.1 = .ok (vdfUpTo E slot l q.2) := by
  obtain ⟨ccSp,hspace,hiters⟩ := h.iters
  obtain ⟨slot',hfind,hsum,hresult⟩ := segmentFrom_header hextra hl hv h.prev h.expected h.place hspace hiters fun hflag _ _ => Or.inl (h.order hflag)
  obtain rfl : slot=slot' := Option.some.inj (h.slot.symm.trans hfind)
  exact ⟨hsum,hresult⟩

section
variable (h : SignagePointIn E V (p::l) c x q slot)
include h

theorem timed (hl : HeaderChain E (p::l)) :
    q.1=spPlace E.constants c.expectedSubSlotIters c.header.rewardChainBlock.signagePointIndex ∧
      q.1<c.expectedSubSlotIters ∧ q.1<2^64 ∧ 0 < intervalOf E.constants c.expectedSubSlotIters ∧
      c.header.rewardChainBlock.signagePointIndex<E.numSpsSubSlot := by
  obtain ⟨ccSp,-,hiters⟩ := h.iters
  obtain ⟨htimed,hq,-⟩ := HeaderCall.iters_ok hiters (hl.ipPlace_le h.prev)
  have hlt := htimed.required_lt
  refine ⟨hq,?_,HeaderCall.spIters_lt hiters,by omega,htimed.index_lt⟩
  rw [hq]
  exact htimed.spPlace_lt

theorem cases (hl : HeaderChain E (p::l)) (hsum : slot.start+q.1=q.2) :
    (p.record.totalIters<slot.start ∧ c.header.finishedSubSlots≠[]) ∨
      ((slot.start=p.record.start E.constants ∨ slot.start+p.record.subSlotIters=p.record.start E.constants) ∧
        c.expectedSubSlotIters=p.record.subSlotIters) := by
  obtain ⟨ccSp,-,hiters⟩ := h.iters
  obtain ⟨-,-,hepoch,-,hspTotal,-⟩ := HeaderCall.iters_ok hiters (hl.ipPlace_le h.prev)
  have htotal := hl.placed.total_eq
  have hlt : p.record.ipPlace E.constants<p.record.subSlotIters := hl.placed.timed.ipPlace_lt
  have hsame : c.header.finishedSubSlots=[] ∨ x.overflow=true ∧ c.numSlots x.overflow x.skip<2 →
      c.expectedSubSlotIters=p.record.subSlotIters := HeaderCall.sameIters hl h.prev h.expected h.place hepoch
  rw [h.prev,List.head?_cons,Option.map_some] at hspTotal
  have hlisted := c.numSlots_listed x.overflow x.skip
  have hnil := List.length_eq_zero_iff (l := c.header.finishedSubSlots)
  cases hover : x.overflow with
  | false =>
    rw [hover] at hspTotal hlisted
    have hlen := hlisted.resolve_right (by simp)
    obtain hzero | hpos := Nat.eq_zero_or_pos (c.numSlots false x.skip)
    · right
      rw [hzero,startAfter_zero,if_neg Bool.false_ne_true] at hspTotal
      exact ⟨Or.inl (by omega),hsame (Or.inl (hnil.mp (by omega)))⟩
    · left
      obtain ⟨n,hn⟩ := Nat.exists_eq_succ_of_ne_zero hpos.ne'
      rw [hn,startAfter_succ,if_neg Bool.false_ne_true] at hspTotal
      refine ⟨by omega,?_⟩
      intro hslots
      rw [hnil.mpr hslots] at hlen
      omega
  | true =>
    rw [hover,if_pos rfl] at hspTotal
    rw [hover] at hlisted hsame
    obtain hzero | hone | ⟨n,hn⟩ : c.numSlots true x.skip=0 ∨ c.numSlots true x.skip=1 ∨
        ∃ n,c.numSlots true x.skip=n+2 := by
      by_cases htwo : 2 ≤ c.numSlots true x.skip
      · exact Or.inr (Or.inr ⟨_,(Nat.sub_add_cancel htwo).symm⟩)
      · omega
    · right
      have hiters := hsame (Or.inr ⟨rfl,by omega⟩)
      rw [hzero,startAfter_zero] at hspTotal
      exact ⟨Or.inr (by omega),hiters⟩
    · right
      have hiters := hsame (Or.inr ⟨rfl,by omega⟩)
      rw [hone,startAfter_succ] at hspTotal
      exact ⟨Or.inl (by omega),hiters⟩
    · left
      rw [hn,startAfter_next,startAfter_succ] at hspTotal
      refine ⟨by omega,?_⟩
      intro hslots
      rw [hnil.mpr hslots] at hlisted
      omega

theorem newest (hl : HeaderChain E (p::l))
    (hstart : slot.start=p.record.start E.constants) (hsum : slot.start+q.1=q.2) :
    ∃ older,recordedSubSlots E (p::l)=slot::older := by
  obtain ⟨slot',older,hslot,hstart'⟩ := hl.newestSubSlot
  obtain ⟨rest,hrest⟩ := subSlotsOf_recorded (E := E) (l := p::l)
  have htotal := hl.placed.total_eq
  have hlt : p.record.ipPlace E.constants<p.record.subSlotIters := hl.placed.timed.ipPlace_lt
  have hfind := h.slot
  rw [List.find?_append] at hfind
  cases hnew : (newSubSlots E (c.prevB V) c.expectedSubSlotIters c.header.finishedSubSlots).find?
      (fun s => decide (s.start≤q.2)) with
  | some s =>
    rw [hnew,Option.some_or] at hfind
    obtain rfl := Option.some.inj hfind
    obtain ⟨i,-,hi⟩ := mem_newSubSlots (List.mem_of_find?_eq_some hnew)
    rw [h.prev,List.head?_cons,Option.map_some,startAfter_succ] at hi
    omega
  | none =>
    rw [hnew,Option.none_or,hrest,hslot,List.cons_append,List.find?_cons_of_pos (by simp; omega)] at hfind
    obtain rfl := Option.some.inj hfind
    exact ⟨older,hslot⟩

theorem mem_subSlotsOf (hle : slot.start≤p.record.start E.constants) (hpos : 0<p.record.subSlotIters) :
    slot∈subSlotsOf E (p::l) := by
  have hmem := List.mem_of_find?_eq_some h.slot
  rw [List.mem_append] at hmem
  apply hmem.resolve_left
  intro hnew
  obtain ⟨i,-,hi⟩ := mem_newSubSlots hnew
  rw [h.prev,List.head?_cons,Option.map_some,startAfter_succ] at hi
  omega

end

end SignagePointIn

section Store
open SignagePointStore
variable {c : HeaderCall} {x : HeaderPlace} {q : ℕ × ℕ} {stored : StoredSlot}

theorem findSlot_ok {challenge : Bytes32} {slots : List StoredSlot}
    (hground : ∀ s∈slots,s.subSlot=none → s.startTotalIters=0)
    (hfind : slots.find? (fun s => decide (ccAfter E s.subSlot=challenge))=some stored) :
    ∃ n,findSlot E challenge slots = .ok (some (n,stored)) := by
  induction slots with
  | nil => simp at hfind
  | cons s more ih =>
    have hs : assertThat (s.subSlot.isSome ∨ s.startTotalIters=0) = .ok () := by
      rw [assertThat_eq_ok]
      cases hslot : s.subSlot with
      | none => exact Or.inr (hground s List.mem_cons_self hslot)
      | some eos => exact Or.inl rfl
    rw [findSlot,bind_of_ok hs]
    by_cases hc : ccAfter E s.subSlot=challenge
    · rw [List.find?_cons_of_pos (by simp [hc])] at hfind
      obtain rfl := Option.some.inj hfind
      rw [if_pos hc]
      exact ⟨0,rfl⟩
    · rw [List.find?_cons_of_neg (by simp [hc])] at hfind
      obtain ⟨n,hn⟩ := ih (fun s hs => hground s (List.mem_cons_of_mem _ hs)) hfind
      rw [if_neg hc,bind_of_ok hn]
      exact ⟨n+1,rfl⟩

theorem deltaIters_ok {peak : Option BlockRecord} {next start index ssi : ℕ} (hindex : index≠0)
    (hn : 0<E.numSpsSubSlot) (hbits : spPlace E.constants ssi index<2^64)
    (hssi : (if futureSubSlot peak start then next else subSlotItersOf E peak)=ssi) :
    deltaIters E peak next start index = .ok (spPlace E.constants ssi index) := by
  have hdiv : floorDiv (ssi : ℤ) (E.numSpsSubSlot : ℤ) = .ok ((intervalOf E.constants ssi : ℕ) : ℤ) := by
    unfold floorDiv intervalOf
    rw [if_neg (by omega),← Int.ofNat_fdiv]
  have hle : intervalOf E.constants ssi ≤ spPlace E.constants ssi index :=
    Nat.le_mul_of_pos_right _ (Nat.pos_of_ne_zero hindex)
  have hinterval : uint64 ((intervalOf E.constants ssi : ℕ) : ℤ) = .ok (intervalOf E.constants ssi) :=
    uint_eq_ok.mpr ⟨rfl,by omega⟩
  unfold deltaIters
  dsimp only
  rw [hssi,bind_of_ok hdiv,bind_of_ok hinterval]
  apply uint_eq_ok.mpr
  exact ⟨by push_cast [spPlace]; rfl,hbits⟩

/-- A stored sub-slot is one of a chain. Only that of the peak and the one before it need their own iterations:
for a later one, the node has added up those of the peak. -/
structure StoredSlot.Of (E : Env) (peak : BlockRecord) (slot : ChainSlot) (s : StoredSlot) : Prop where
  challenge : ccAfter E s.subSlot=slot.challenge
  rewardChallenge : rcAfter E s.subSlot=slot.rewardChallenge
  start : s.startTotalIters=slot.start ∨ peak.totalIters<s.startTotalIters ∧ peak.totalIters<slot.start

theorem peakIters (hl : HeaderChain E (p::l)) (hepoch : 2≤E.epochBlocks) :
    subSlotItersOf E (some p.record)=p.record.subSlotIters := by
  unfold subSlotItersOf
  dsimp only
  split_ifs with hheight
  · exact (hl.earlyIters (by omega)).symm
  · rfl

def walkable (E : Env) (sp : ℕ) : List ChainLink → List ChainLink
  | [] => []
  | p::l => if sp<p.record.start E.constants then [] else p::l

theorem expectedVdf_future {iters : ℕ} (hfuture : futureSubSlot (some p.record) stored.startTotalIters=true)
    (hs : stored.Of E p.record slot) : expectedVdf E V (some p.record) stored iters =
      .ok ⟨slot.challenge,slot.rewardChallenge,getDefaultElement,iters⟩ := by
  unfold expectedVdf
  dsimp only
  rw [if_pos hfuture,pure_bind,hs.challenge,hs.rewardChallenge]
  rfl

theorem expectedVdf_walked {iters : ℕ} {m : List ChainLink}
    (hfuture : futureSubSlot (some p.record) stored.startTotalIters=false) (hs : stored.Of E p.record slot)
    (hstart : stored.startTotalIters=slot.start) (hsum : slot.start+iters=sp) (hbits : iters<2^64)
    (hm : ∀ a∈m,a.record.rewardInfusionNewChallenge=E.hashRewardChainBlock a.block.rewardChainBlock ∧
      a.record.challengeVdfOutput=a.block.rewardChainBlock.challengeChainIpVdf.output)
    (hwalk : blockBefore V slot.start sp (p.record.height+1) p.record =
      .ok ((m.find? (infusedBefore slot sp)).map (·.record))) :
    expectedVdf E V (some p.record) stored iters = .ok (vdfUpTo E slot m sp) := by
  have hnot : ¬ futureSubSlot (some p.record) slot.start=true := by
    rw [← hstart,hfuture]
    exact Bool.false_ne_true
  unfold expectedVdf vdfUpTo
  dsimp only
  rw [hstart,if_neg hnot,hsum,bind_of_ok hwalk,hs.challenge,hs.rewardChallenge]
  cases hfind : m.find? (infusedBefore slot sp) with
  | none =>
    have hfrom : sp-slot.start=iters := by omega
    rw [Option.map_none,hfrom]
    rfl
  | some a =>
    have hinside := List.find?_some hfind
    simp only [infusedBefore,decide_eq_true_eq] at hinside
    obtain ⟨hchallenge,houtput⟩ := hm a (List.mem_of_find?_eq_some hfind)
    have hrest : uint64 ((sp : ℤ)-a.record.totalIters) = .ok (sp-a.record.totalIters) :=
      uint_eq_ok.mpr ⟨by omega,by omega⟩
    rw [Option.map_some]
    dsimp only
    rw [bind_of_ok hrest,hchallenge,houtput]
    rfl

theorem walkable_subset : ∀ a∈walkable E sp (p::l),a∈p::l := by
  intro a ha
  rw [walkable] at ha
  split_ifs at ha
  · cases ha
  · exact ha

theorem blockBefore_walkable (hl : HeaderChain E (p::l)) (hv : HasChain V (p::l))
    (h : SignagePointIn E V (p::l) c x q slot) (hsum : slot.start+q.1=q.2)
    (hplace : slot.start=p.record.start E.constants ∨
      slot.start+p.record.subSlotIters=p.record.start E.constants)
    (hiters : c.expectedSubSlotIters=p.record.subSlotIters) :
    blockBefore V slot.start q.2 (p.record.height+1) p.record =
      .ok (((walkable E q.2 (p::l)).find? (infusedBefore slot q.2)).map (·.record)) := by
  obtain ⟨hq,hqlt,-⟩ := h.timed hl
  rw [walkable]
  obtain hsame | hbefore := hplace
  · obtain ⟨older,hslot⟩ := h.newest hl hsame hsum
    rw [if_neg (by omega)]
    apply blockBefore_same hl hv hslot
    intro b l' hb hbstart hbssi
    have hbtotal := hb.placed.total_eq
    have hbne : b.record.ipPlace E.constants≠q.1 := by
      rw [hq,hiters,← hbssi]
      exact hb.placed.timed.ipPlace_ne_spPlace
    omega
  · rw [if_pos (by omega)]
    apply blockBefore_earlier hl hv
    · omega
    · omega

theorem expectedVdf_ok (hextra : E.numSpIntervalsExtra≤E.numSpsSubSlot) (hepoch : 2≤E.epochBlocks)
    (hl : HeaderChain E (p::l)) (hv : HasChain V (p::l)) (h : SignagePointIn E V (p::l) c x q slot)
    (hindex : c.header.rewardChainBlock.signagePointIndex≠0) {next difficulty : ℕ}
    (hnext : getNextSubSlotItersAndDifficulty E.constants V true (some p.record) = .ok (next,difficulty))
    (hs : stored.Of E p.record slot) :
    deltaIters E (some p.record) next stored.startTotalIters c.header.rewardChainBlock.signagePointIndex = .ok q.1 ∧
      expectedVdf E V (some p.record) stored q.1 = .ok (vdfUpTo E slot (walkable E q.2 (p::l)) q.2) := by
  obtain ⟨hsum,-⟩ := h.segment hextra hl hv
  obtain ⟨hq,-,hbits,-,hindexLt⟩ := h.timed hl
  have htotal := hl.placed.total_eq
  have hn : 0<E.numSpsSubSlot := Nat.zero_lt_of_lt hindexLt
  have hspBits := hbits
  rw [hq] at hspBits
  obtain ⟨hlater,hslots⟩ | ⟨hplace,hiters⟩ := h.cases hl hsum
  · have hfuture : futureSubSlot (some p.record) stored.startTotalIters=true := by
      apply decide_eq_true
      obtain hsame | ⟨hstored,-⟩ := hs.start
      · omega
      · exact hstored
    have hssi : next=c.expectedSubSlotIters := by
      have hexpected := h.expected
      unfold HeaderCall.Expected at hexpected
      rw [h.prev,List.isEmpty_eq_false_iff.mpr hslots] at hexpected
      exact congrArg Prod.fst (Except.ok.inj (hnext.symm.trans hexpected))
    have hwalk : ∀ a∈walkable E q.2 (p::l),a.record.totalIters<slot.start := by
      intro a ha
      obtain rfl | ha := List.mem_cons.mp (walkable_subset a ha)
      · exact hlater
      · exact (hl.total_le_of_mem a ha).trans_lt hlater
    refine ⟨?_,?_⟩
    · rw [hq]
      apply deltaIters_ok hindex hn hspBits
      rw [if_pos hfuture]
      exact hssi
    · rw [vdfUpTo_start hwalk hsum.symm]
      exact expectedVdf_future hfuture hs
  · have hstart : stored.startTotalIters=slot.start := by
      obtain hsame | ⟨-,hlater⟩ := hs.start
      · exact hsame
      · omega
    have hfuture : futureSubSlot (some p.record) stored.startTotalIters=false := by
      apply decide_eq_false
      omega
    refine ⟨?_,?_⟩
    · rw [hq]
      apply deltaIters_ok hindex hn hspBits
      rw [hfuture,if_neg Bool.false_ne_true,peakIters hl hepoch,hiters]
    · apply expectedVdf_walked hfuture hs hstart hsum hbits
      · intro a ha
        obtain ⟨l',hal⟩ := hl.of_mem (walkable_subset a ha)
        exact hal.infusion
      · exact blockBefore_walkable hl hv h hsum hplace hiters

/-- All parts of a signage point are there, and its VDFs are valid. -/
def SignagePoint.Valid (E : Env) (info : SignagePointVdfInfo) (iters : ℕ) (signagePoint : SignagePoint) : Prop :=
  ∃ ccVdf ccProof rcVdf rcProof,signagePoint=⟨some ccVdf,some ccProof,some rcVdf,some rcProof⟩ ∧
    vdfsValid E info iters false ccVdf ccProof rcVdf rcProof=true

def SignagePoint.InSlot (slot : ChainSlot) (signagePoint : SignagePoint) : Prop :=
  ∃ ccVdf,signagePoint.ccVdf=some ccVdf ∧ ccVdf.challenge=slot.challenge

def UnfinishedHeaderBlock.withSp (header : UnfinishedHeaderBlock) (signagePoint : SignagePoint) : UnfinishedHeaderBlock :=
  { header with
    rewardChainBlock := { header.rewardChainBlock with
      challengeChainSpVdf := signagePoint.ccVdf
      rewardChainSpVdf := signagePoint.rcVdf }
    challengeChainSpProof := signagePoint.ccProof
    rewardChainSpProof := signagePoint.rcProof }

/-- The checks that header validation makes of the VDFs of a signage point of the block. -/
def HeaderCall.signagePointVdfs (E : Env) (V : BlockView) (c : HeaderCall) (x : HeaderPlace) (q : ℕ × ℕ)
    (signagePoint : SignagePoint) : Check Unit := do
  let info ← getSignagePointVdfInfo E V (c.spSlots x) x.overflow (c.prevB V) q.2 q.1
  let header := c.header.withSp signagePoint
  let _ ← validateRcSp E V header (c.prevB V) (c.newSubSlot x.overflow x.skip) info q.1 false
  validateCcSp E header info q.1 false

def SignagePointStore.Accepts (E : Env) (V : BlockView) (s : SignagePointStore) (index : ℕ) (peak : BlockRecord) (next : ℕ)
    (signagePoint : SignagePoint) : Prop :=
  ∀ now,∃ s',newSignagePoint E V s index (some peak) next signagePoint false now = .ok (true,s')

variable {s : SignagePointStore} {index next iters n : ℕ} {peak : BlockRecord} {info : SignagePointVdfInfo}
  {signagePoint : SignagePoint}

theorem isValid_target {proof : VDFProof} {input : ClassgroupElement} {vdf target : VDFInfo}
    (h : proof.isValid E input vdf (some target)=true) : vdf=target := by
  unfold VDFProof.isValid at h
  simp only [Option.all_some,Bool.and_eq_true,decide_eq_true_eq] at h
  exact h.1.1

variable {ccVdf rcVdf : VDFInfo} {ccProof rcProof : VDFProof}

theorem vdfsValid_iff : vdfsValid E info iters false ccVdf ccProof rcVdf rcProof=true ↔
      rcProof.isValid E getDefaultElement rcVdf (some ⟨info.rcVdfChallenge,info.spVdfIters,rcVdf.output⟩)=true ∧
        ccVdf=⟨info.ccVdfChallenge,iters,ccVdf.output⟩ ∧
        ccProof.isValidFrom E info.ccVdfInput ⟨info.ccVdfChallenge,info.spVdfIters,ccVdf.output⟩ ccVdf=true := by
  unfold vdfsValid
  simp only [Bool.false_or,Bool.and_eq_true,decide_eq_true_eq]
  constructor
  · intro h
    exact ⟨h.2,h.1.1.1,h.1.1.2⟩
  · intro h
    have hrc := congrArg VDFInfo.challenge (isValid_target h.1)
    exact ⟨⟨⟨h.2.1,h.2.2⟩,hrc.symm⟩,h.1⟩

theorem signagePointVdfs_ok (hinfo : getSignagePointVdfInfo E V (c.spSlots x) x.overflow (c.prevB V) q.2 q.1 = .ok info)
    (hq : q.1≠0) : c.signagePointVdfs E V x q signagePoint = .ok () ↔ signagePoint.Valid E info q.1 := by
  obtain ⟨ccVdf,ccProof,rcVdf,rcProof⟩ := signagePoint
  unfold HeaderCall.signagePointVdfs
  rw [bind_of_ok hinfo]
  unfold validateRcSp validateCcSp UnfinishedHeaderBlock.withSp
  dsimp only
  rw [if_pos hq,if_pos hq]
  constructor
  · intro h
    obtain ⟨hash,hrc,hcc⟩ := bind_ok.mp h
    obtain ⟨rcVdf,hrcVdf,hrc⟩ := bind_ok.mp hrc
    obtain ⟨rcProof,hrcProof,hrc⟩ := bind_ok.mp hrc
    obtain ⟨_,hrcValid,-⟩ := bind_ok.mp hrc
    obtain ⟨ccVdf,hccVdf,hcc⟩ := bind_ok.mp hcc
    obtain ⟨ccProof,hccProof,hcc⟩ := bind_ok.mp hcc
    obtain ⟨_,hccEq,hccValid⟩ := bind_ok.mp hcc
    rw [assertSome_eq_ok] at hrcVdf hrcProof hccVdf hccProof
    subst hrcVdf hrcProof hccVdf hccProof
    refine ⟨ccVdf,ccProof,rcVdf,rcProof,rfl,vdfsValid_iff.mpr ?_⟩
    simp only [reject_eq_ok,Bool.false_eq_true,not_false_eq_true,true_and,not_not] at hrcValid hccEq hccValid
    exact ⟨hrcValid,hccEq,hccValid⟩
  · intro h
    obtain ⟨ccVdf,ccProof,rcVdf,rcProof,heq,hvalid⟩ := h
    cases heq
    obtain ⟨hrc,hccEq,hcc⟩ := vdfsValid_iff.mp hvalid
    have hrcValid : reject (¬ false=true ∧ ¬ rcProof.isValid E getDefaultElement rcVdf
        (some ⟨info.rcVdfChallenge,info.spVdfIters,rcVdf.output⟩)=true) .invalidRcSpVdf = .ok () :=
      reject_eq_ok.mpr (by simp [hrc])
    have hccSame : reject (ccVdf≠⟨info.ccVdfChallenge,q.1,ccVdf.output⟩) .invalidCcSpVdf = .ok () :=
      reject_eq_ok.mpr (not_not_intro hccEq)
    apply bind_ok.mpr
    refine ⟨rcVdf.output.getHash E,?_,?_⟩
    · rw [bind_of_ok (assertSome_eq_ok.mpr rfl),bind_of_ok (assertSome_eq_ok.mpr rfl),bind_of_ok hrcValid]
      rfl
    · rw [bind_of_ok (assertSome_eq_ok.mpr rfl),bind_of_ok (assertSome_eq_ok.mpr rfl),bind_of_ok hccSame]
      exact reject_eq_ok.mpr (by simp [hcc])

theorem newSignagePoint_whole (hindex : index≠0)
    (hlt : index<E.numSpsSubSlot) (hfind : findSlot E ccVdf.challenge s.finishedSubSlots = .ok (some (n,stored)))
    (hdelta : deltaIters E (some peak) next stored.startTotalIters index = .ok iters)
    (hinfo : expectedVdf E V (some peak) stored iters = .ok info) (hlen : stored.signagePoints.length=E.numSpsSubSlot)
    (now : ℕ) : ∃ s',newSignagePoint E V s index (some peak) next
      ⟨some ccVdf,some ccProof,some rcVdf,some rcProof⟩ false now =
        .ok (vdfsValid E info iters false ccVdf ccProof rcVdf rcProof,s') := by
  have hstored : assertThat (s.finishedSubSlots.length ≥ 1) = .ok () := by
    rw [assertThat_eq_ok]
    cases hslots : s.finishedSubSlots with
    | nil =>
      rw [hslots] at hfind
      cases hfind
    | cons t more => exact Nat.succ_le_succ (Nat.zero_le _)
  have hput : putSp stored index ⟨some ccVdf,some ccProof,some rcVdf,some rcProof⟩ = .ok { stored with
      signagePoints := stored.signagePoints.set index (some ⟨some ccVdf,some ccProof,some rcVdf,some rcProof⟩) } :=
    if_pos (by omega)
  have hplace : ¬ (index=0 ∨ index ≥ E.numSpsSubSlot) := by omega
  unfold newSignagePoint
  rw [bind_of_ok hstored,if_neg hplace]
  dsimp only
  rw [bind_of_ok (assertSome_eq_ok.mpr rfl),bind_of_ok (assertSome_eq_ok.mpr rfl),
    bind_of_ok (assertSome_eq_ok.mpr rfl),bind_of_ok (assertSome_eq_ok.mpr rfl),bind_of_ok hfind]
  dsimp only
  rw [bind_of_ok hdelta,bind_of_ok hinfo]
  cases hvalid : vdfsValid E info iters false ccVdf ccProof rcVdf rcProof with
  | true =>
    rw [if_pos rfl,bind_of_ok hput]
    exact ⟨_,rfl⟩
  | false => exact ⟨_,rfl⟩

theorem newSignagePoint_parts {now : ℕ} {s' : SignagePointStore}
    (h : newSignagePoint E V s index (some peak) next signagePoint false now = .ok (true,s')) :
    ∃ ccVdf ccProof rcVdf rcProof,signagePoint=⟨some ccVdf,some ccProof,some rcVdf,some rcProof⟩ := by
  obtain ⟨ccVdf,ccProof,rcVdf,rcProof⟩ := signagePoint
  unfold newSignagePoint at h
  obtain ⟨_,-,h⟩ := bind_ok.mp h
  split_ifs at h
  · cases h
  · obtain ⟨ccVdf,hccVdf,h⟩ := bind_ok.mp h
    obtain ⟨ccProof,hccProof,h⟩ := bind_ok.mp h
    obtain ⟨rcVdf,hrcVdf,h⟩ := bind_ok.mp h
    obtain ⟨rcProof,hrcProof,-⟩ := bind_ok.mp h
    rw [assertSome_eq_ok] at hccVdf hccProof hrcVdf hrcProof
    subst hccVdf hccProof hrcVdf hrcProof
    exact ⟨ccVdf,ccProof,rcVdf,rcProof,rfl⟩

theorem accepts_iff (hindex : index≠0) (hlt : index<E.numSpsSubSlot)
    (hfind : findSlot E slot.challenge s.finishedSubSlots = .ok (some (n,stored)))
    (hdelta : deltaIters E (some peak) next stored.startTotalIters index = .ok iters)
    (hinfo : expectedVdf E V (some peak) stored iters = .ok info) (hlen : stored.signagePoints.length=E.numSpsSubSlot)
    (hin : signagePoint.InSlot slot) :
    s.Accepts E V index peak next signagePoint ↔ signagePoint.Valid E info iters := by
  obtain ⟨ccVdf,hcc,hchallenge⟩ := hin
  rw [← hchallenge] at hfind
  constructor
  · intro h
    obtain ⟨s',h⟩ := h 0
    obtain ⟨ccVdf',ccProof,rcVdf,rcProof,rfl⟩ := newSignagePoint_parts h
    obtain rfl : ccVdf'=ccVdf := Option.some.inj hcc
    have hanswer : ∃ s'',.ok (true,s')=(.ok (vdfsValid E info iters false ccVdf' ccProof rcVdf rcProof,s'') :
        Check (Bool × SignagePointStore)) := by
      rw [← h]
      exact newSignagePoint_whole hindex hlt hfind hdelta hinfo hlen 0
    obtain ⟨s'',hanswer⟩ := hanswer
    exact ⟨ccVdf',ccProof,rcVdf,rcProof,rfl,(congrArg Prod.fst (Except.ok.inj hanswer)).symm⟩
  · intro h now
    obtain ⟨ccVdf',ccProof,rcVdf,rcProof,rfl,hvalid⟩ := h
    obtain rfl : ccVdf'=ccVdf := Option.some.inj hcc
    rw [← hvalid]
    exact newSignagePoint_whole hindex hlt hfind hdelta hinfo hlen now

/-- A sub-slot of the chain of the peak is the first that the node keeps with its challenge. -/
structure SignagePointStore.Keeps (E : Env) (s : SignagePointStore) (peak : BlockRecord) (slot : ChainSlot)
    (stored : StoredSlot) : Prop where
  found : s.finishedSubSlots.find? (fun t => decide (ccAfter E t.subSlot=slot.challenge))=some stored
  place : stored.Of E peak slot
  ground : ∀ t∈s.finishedSubSlots,t.subSlot=none → t.startTotalIters=0
  length : stored.signagePoints.length=E.numSpsSubSlot

/-- The same program with another VDF check. -/
def Env.withVdf (E : Env) (verifyVdf : Bytes32 → Bytes → Bytes → ℕ → ℕ → Bool) : Env := { E with verifyVdf := verifyVdf }

theorem vdfUpTo_ccVdfChallenge : (vdfUpTo E slot l sp).ccVdfChallenge=slot.challenge := by
  unfold vdfUpTo
  split <;> rfl

theorem vdfUpTo_missed {a : ChainLink} (ha : a∈l) (hinside : infusedBefore slot sp a=true)
    (hne : ∀ b∈l,b.record.totalIters≠slot.start) :
    (vdfUpTo E slot l sp).spVdfIters≠(vdfUpTo E slot [] sp).spVdfIters := by
  unfold vdfUpTo
  rw [List.find?_nil]
  cases hfind : l.find? (infusedBefore slot sp) with
  | none => exact absurd hinside (List.find?_eq_none.mp hfind a ha)
  | some b =>
    have hb := List.find?_some hfind
    have hbne := hne b (List.mem_of_find?_eq_some hfind)
    simp only [infusedBefore,decide_eq_true_eq] at hb
    dsimp only
    omega

theorem vdfUpTo_walkable (h : ¬ (sp<p.record.start E.constants ∧ ∃ a∈p::l,infusedBefore slot sp a=true)) :
    vdfUpTo E slot (walkable E sp (p::l)) sp=vdfUpTo E slot (p::l) sp := by
  rw [walkable]
  split_ifs with hbefore
  · have hnone : (p::l).find? (infusedBefore slot sp)=none := by
      apply List.find?_eq_none.mpr
      intro a ha hinside
      exact h ⟨hbefore,a,ha,hinside⟩
    unfold vdfUpTo
    rw [hnone,List.find?_nil]
  · rfl

def exactSp (info : SignagePointVdfInfo) (iters : ℕ) : SignagePoint where
  ccVdf := some ⟨info.ccVdfChallenge,iters,getDefaultElement⟩
  ccProof := some ⟨0,[],false⟩
  rcVdf := some ⟨info.rcVdfChallenge,info.spVdfIters,getDefaultElement⟩
  rcProof := some ⟨0,[],false⟩

theorem exactSp_valid (hwitness : 0<E.maxVdfWitnessSize) (hverify : ∀ c d w i t,E.verifyVdf c d w i t=true) :
    (exactSp info iters).Valid E info iters := by
  refine ⟨_,_,_,_,rfl,vdfsValid_iff.mpr ?_⟩
  have hsize : 0+1≤E.maxVdfWitnessSize := hwitness
  simp [VDFProof.isValidFrom,VDFProof.isValid,hverify,hsize]

theorem exactSp_iters {info' : SignagePointVdfInfo} {iters' : ℕ} (h : (exactSp info iters).Valid E info' iters') :
    info.spVdfIters=info'.spVdfIters := by
  obtain ⟨ccVdf,ccProof,rcVdf,rcProof,heq,hvalid⟩ := h
  obtain ⟨hrc,-⟩ := vdfsValid_iff.mp hvalid
  have hiters := congrArg VDFInfo.numberOfIterations (isValid_target hrc)
  cases heq
  exact hiters

/-- Whatever the VDF check, the node adds exactly the signage points whose VDFs pass header validation, unless
their sub-slot is before that of the peak and has a block infused before the signage point. -/
theorem newSignagePoint_agrees_iff (hextra : E.numSpIntervalsExtra≤E.numSpsSubSlot) (hepoch : 2≤E.epochBlocks)
    (hwitness : 0<E.maxVdfWitnessSize) (hl : HeaderChain E (p::l)) (hv : HasChain V (p::l))
    (hc : SignagePointIn E V (p::l) c x q slot) (hindex : c.header.rewardChainBlock.signagePointIndex≠0)
    {difficulty : ℕ} (hnext : getNextSubSlotItersAndDifficulty E.constants V true (some p.record) =
      .ok (next,difficulty)) (hs : s.Keeps E p.record slot stored) :
    (∀ verifyVdf signagePoint,signagePoint.InSlot slot →
      (s.Accepts (E.withVdf verifyVdf) V c.header.rewardChainBlock.signagePointIndex p.record next signagePoint ↔
        c.signagePointVdfs (E.withVdf verifyVdf) V x q signagePoint = .ok ())) ↔
      ¬ (q.2<p.record.start E.constants ∧ ∃ a∈p::l,infusedBefore slot q.2 a=true) := by
  obtain ⟨hsum,hinfo⟩ := hc.segment hextra hl hv
  obtain ⟨hq,-,-,hinterval,hindexLt⟩ := hc.timed hl
  obtain ⟨hdelta,hexpected⟩ := expectedVdf_ok hextra hepoch hl hv hc hindex hnext hs.place
  have hpositive : q.1≠0 := by
    rw [hq]
    exact (Nat.mul_pos hinterval (Nat.pos_of_ne_zero hindex)).ne'
  have haccept : ∀ verifyVdf signagePoint,signagePoint.InSlot slot →
      (s.Accepts (E.withVdf verifyVdf) V c.header.rewardChainBlock.signagePointIndex p.record next signagePoint ↔
        signagePoint.Valid (E.withVdf verifyVdf) (vdfUpTo E slot (walkable E q.2 (p::l)) q.2) q.1) := by
    intro verifyVdf signagePoint hin
    obtain ⟨n,hfind⟩ := findSlot_ok (E := E.withVdf verifyVdf) hs.ground hs.found
    exact accepts_iff (E := E.withVdf verifyVdf) hindex hindexLt hfind hdelta hexpected hs.length hin
  have hvalid : ∀ verifyVdf signagePoint,c.signagePointVdfs (E.withVdf verifyVdf) V x q signagePoint = .ok () ↔
      signagePoint.Valid (E.withVdf verifyVdf) (vdfUpTo E slot (p::l) q.2) q.1 := by
    intro verifyVdf signagePoint
    exact signagePointVdfs_ok (E := E.withVdf verifyVdf) hinfo hpositive
  constructor
  · intro hagree hmissed
    obtain ⟨hbefore,a,ha,hinside⟩ := hmissed
    have hin : (exactSp (vdfUpTo E slot (p::l) q.2) q.1).InSlot slot := ⟨_,rfl,vdfUpTo_ccVdfChallenge⟩
    have hright : (exactSp (vdfUpTo E slot (p::l) q.2) q.1).Valid (E.withVdf fun _ _ _ _ _ => true)
        (vdfUpTo E slot (p::l) q.2) q.1 := exactSp_valid hwitness fun _ _ _ _ _ => rfl
    have hboth := (haccept _ _ hin).mp ((hagree _ _ hin).mpr ((hvalid _ _).mpr hright))
    have hiters := exactSp_iters hboth
    rw [walkable,if_pos hbefore] at hiters
    have hle : slot.start≤p.record.start E.constants := by omega
    have hssi : 0<p.record.subSlotIters := Nat.zero_lt_of_lt hl.placed.timed.ipPlace_lt
    exact vdfUpTo_missed ha hinside (hl.total_ne_start (hc.mem_subSlotsOf hle hssi)) hiters
  · intro hseen verifyVdf signagePoint hin
    rw [haccept verifyVdf signagePoint hin,hvalid verifyVdf signagePoint,vdfUpTo_walkable hseen]

end Store

section Late

/-- The last signage point before the overflow block, which arrives after that. -/
def lateSp : SignagePoint where
  ccVdf := some ⟨1,1008,getDefaultElement⟩
  ccProof := some tinyProof
  rcVdf := some ⟨0,959,getDefaultElement⟩
  rcProof := some tinyProof

def lateStored : StoredSlot := ⟨none,List.replicate 64 none,0⟩

def lateStore : SignagePointStore where
  finishedSubSlots := [lateStored,⟨some lateEnd,List.replicate 64 none,1024⟩]
  futureSpCache := Dict.empty
  futureCacheKeyTimes := Dict.empty
  recentSignagePoints := .new 500

theorem lateCall_in : SignagePointIn tinyEnv lateView [lateSecondLink,lateFirstLink] lateCall latePlace (1008,1008)
    (firstSubSlot tinyEnv) where
  prev := rfl
  expected := by
    unfold HeaderCall.Expected
    decide +kernel
  place := rfl
  iters := by
    refine ⟨(0,1),?_,?_⟩
    all_goals decide +kernel
  order _ := lateCall_order
  slot := rfl

theorem lateStore_keeps : lateStore.Keeps tinyEnv lateSecondLink.record (firstSubSlot tinyEnv) lateStored where
  found := rfl
  place := ⟨rfl,rfl,Or.inl rfl⟩
  ground := by
    intro t ht hnone
    obtain rfl | ht := List.mem_cons.mp ht
    · rfl
    · obtain rfl := List.mem_singleton.mp ht
      cases hnone
  length := rfl

theorem late_results :
    getNextSubSlotItersAndDifficulty tinyEnv.constants lateView true (some lateSecondLink.record) = .ok (1024,7) ∧
    lateCall.signagePointVdfs tinyEnv lateView latePlace (1008,1008) lateSp = .ok () ∧
    (lateStore.newSignagePoint tinyEnv lateView 63 (some lateSecondLink.record) 1024 lateSp false 0).map (·.1) =
      .ok false := by decide +kernel

/-- The node does not add it: it does not see the first block, from which the VDFs start. -/
theorem newSignagePoint_missesInfusion : HeaderChain tinyEnv [lateSecondLink,lateFirstLink] ∧
    HasChain lateView [lateSecondLink,lateFirstLink] ∧
    SignagePointIn tinyEnv lateView [lateSecondLink,lateFirstLink] lateCall latePlace (1008,1008) (firstSubSlot tinyEnv) ∧
    getNextSubSlotItersAndDifficulty tinyEnv.constants lateView true (some lateSecondLink.record) = .ok (1024,7) ∧
    lateStore.Keeps tinyEnv lateSecondLink.record (firstSubSlot tinyEnv) lateStored ∧
    lateSp.InSlot (firstSubSlot tinyEnv) ∧
    lateCall.signagePointVdfs tinyEnv lateView latePlace (1008,1008) lateSp = .ok () ∧
    (lateStore.newSignagePoint tinyEnv lateView 63 (some lateSecondLink.record) 1024 lateSp false 0).map (·.1) = .ok false := by
  obtain ⟨hnext,hvdfs,hadded⟩ := late_results
  exact ⟨lateChain,lateView_hasChain,lateCall_in,hnext,lateStore_keeps,⟨_,rfl,rfl⟩,hvdfs,hadded⟩

theorem newSignagePoint_agrees_iff_late : (∀ verifyVdf signagePoint,signagePoint.InSlot (firstSubSlot tinyEnv) →
      (lateStore.Accepts (tinyEnv.withVdf verifyVdf) lateView 63 lateSecondLink.record 1024 signagePoint ↔
        lateCall.signagePointVdfs (tinyEnv.withVdf verifyVdf) lateView latePlace (1008,1008) signagePoint = .ok ())) ↔
      ¬ (1008<lateSecondLink.record.start tinyEnv.constants ∧
        ∃ a∈[lateSecondLink,lateFirstLink],infusedBefore (firstSubSlot tinyEnv) 1008 a=true) := by
  exact newSignagePoint_agrees_iff (by decide) (by decide) (by decide) lateChain lateView_hasChain lateCall_in (by decide)
    late_results.1 lateStore_keeps

end Late

end RoseChain
