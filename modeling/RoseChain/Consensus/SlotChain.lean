import RoseChain.Consensus.ChainState
import RoseChain.Consensus.HeaderStages
import RoseChain.Consensus.SubEpochs

namespace RoseChain
open Lib
variable {E : Env} {V : BlockView} {C : ConsensusConstants} {ssi index required : ℕ}

section Places
variable (C) (ssi index required : ℕ)

def intervalOf : ℕ := ssi / C.numSpsSubSlot

/-- Iterations from the start of the sub-slot to a signage point. -/
def spPlace : ℕ := intervalOf C ssi*index

/-- Iterations from the start of the sub-slot, the next one for an overflow block, to an infusion point. -/
def ipPlace : ℕ := intervalOf C ssi*((index+C.numSpIntervalsExtra) % C.numSpsSubSlot)+required

/-- Signage point and required iterations of a block that has an infusion point. -/
structure Timed : Prop where
  index_lt : index<C.numSpsSubSlot
  divides : intervalOf C ssi*C.numSpsSubSlot=ssi
  required_pos : 0 < required
  required_lt : required < intervalOf C ssi

end Places

variable {a : ℕ} {z : ℤ}

theorem floorMod_eq_ok {b : ℕ} (h : floorMod a b = .ok z) : 0<b ∧ z=(a % b : ℕ) := by
  unfold floorMod at h
  split_ifs at h with hb
  have hz := Except.ok.inj h
  refine ⟨by omega,?_⟩
  rw [← hz,← Int.ofNat_fmod]

theorem floorDiv_eq_ok {b : ℕ} (h : floorDiv a b = .ok z) : z=(a / b : ℕ) := by
  unfold floorDiv at h
  split_ifs at h with hb
  rw [← Except.ok.inj h,← Int.ofNat_fdiv]

variable {n : ℕ}

theorem calculateSpIntervalIters_ok (h : calculateSpIntervalIters C ssi = .ok n) :
    n=intervalOf C ssi ∧ intervalOf C ssi*C.numSpsSubSlot=ssi := by
  unfold calculateSpIntervalIters at h
  obtain ⟨r,hr,h⟩ := bind_ok.mp h
  obtain ⟨_,hzero,h⟩ := bind_ok.mp h
  obtain ⟨q,hq,h⟩ := bind_ok.mp h
  obtain ⟨-,hr⟩ := floorMod_eq_ok hr
  have hq := floorDiv_eq_ok hq
  have hn := (uint_eq_ok.mp h).1
  rw [assertThat_eq_ok] at hzero
  have hmod : ssi % C.numSpsSubSlot=0 := by omega
  have hn : n=intervalOf C ssi := by
    unfold intervalOf
    omega
  exact ⟨hn,Nat.div_mul_cancel (Nat.dvd_of_mod_eq_zero hmod)⟩

theorem calculateSpIters_ok (h : calculateSpIters C ssi index = .ok n) :
    n=spPlace C ssi index ∧ index<C.numSpsSubSlot ∧ intervalOf C ssi*C.numSpsSubSlot=ssi := by
  unfold calculateSpIters at h
  obtain ⟨_,hindex,h⟩ := bind_ok.mp h
  obtain ⟨interval,hinterval,h⟩ := bind_ok.mp h
  obtain ⟨rfl,hdiv⟩ := calculateSpIntervalIters_ok hinterval
  rw [raiseIf_eq_ok] at hindex
  have hn := (uint_eq_ok.mp h).1
  refine ⟨?_,by omega,hdiv⟩
  unfold spPlace
  exact_mod_cast hn.symm

theorem isOverflowBlock_ok {overflow : Bool} (h : isOverflowBlock C index = .ok overflow) :
    overflow=decide (C.numSpsSubSlot ≤ index+C.numSpIntervalsExtra) := by
  unfold isOverflowBlock at h
  obtain ⟨_,-,h⟩ := bind_ok.mp h
  rw [← Except.ok.inj h]
  apply decide_eq_decide.mpr
  omega

theorem Timed.place_mod (h : Timed C ssi index required) :
    (spPlace C ssi index+C.numSpIntervalsExtra*intervalOf C ssi+required) % ssi=ipPlace C ssi index required := by
  have hreq := h.required_lt
  have hsum : spPlace C ssi index+C.numSpIntervalsExtra*intervalOf C ssi+required =
      intervalOf C ssi*(index+C.numSpIntervalsExtra)+required := by
    unfold spPlace
    ring
  rw [hsum]
  unfold ipPlace
  nth_rewrite 2 [← h.divides]
  rw [Nat.mod_mul,Nat.mul_add_mod,Nat.mod_eq_of_lt hreq,Nat.mul_add_div (by omega),Nat.div_eq_of_lt hreq,
    Nat.add_zero,Nat.add_comm]

theorem calculateIpIters_ok (h : calculateIpIters C ssi index required = .ok n) :
    n=ipPlace C ssi index required ∧ Timed C ssi index required := by
  unfold calculateIpIters at h
  obtain ⟨sp,hsp,h⟩ := bind_ok.mp h
  obtain ⟨interval,hinterval,h⟩ := bind_ok.mp h
  obtain ⟨r,hr,h⟩ := bind_ok.mp h
  obtain ⟨_,-,h⟩ := bind_ok.mp h
  obtain ⟨_,hrequired,h⟩ := bind_ok.mp h
  obtain ⟨z,hz,h⟩ := bind_ok.mp h
  obtain ⟨rfl,hindex,hdiv⟩ := calculateSpIters_ok hsp
  obtain ⟨rfl,-⟩ := calculateSpIntervalIters_ok hinterval
  rw [raiseIf_eq_ok,not_or] at hrequired
  have htimed : Timed C ssi index required := ⟨hindex,hdiv,by omega,by omega⟩
  refine ⟨?_,htimed⟩
  have hcast : (spPlace C ssi index+C.numSpIntervalsExtra*intervalOf C ssi+required : ℤ) =
      (spPlace C ssi index+C.numSpIntervalsExtra*intervalOf C ssi+required : ℕ) := by push_cast; rfl
  rw [hcast] at hz
  obtain ⟨-,rfl⟩ := floorMod_eq_ok hz
  have hn := (uint_eq_ok.mp h).1
  rw [htimed.place_mod] at hn
  omega

section
variable (h : Timed C ssi index required)
include h

theorem Timed.ipPlace_pos : 0 < ipPlace C ssi index required :=
  Nat.add_pos_right _ h.required_pos

theorem Timed.ipPlace_lt : ipPlace C ssi index required<ssi := by
  have hlt : (index+C.numSpIntervalsExtra) % C.numSpsSubSlot+1≤C.numSpsSubSlot :=
    Nat.mod_lt _ (Nat.zero_lt_of_lt h.index_lt)
  have hmul := Nat.mul_le_mul_left (intervalOf C ssi) hlt
  have hreq := h.required_lt
  rw [h.divides,Nat.mul_add,Nat.mul_one] at hmul
  unfold ipPlace
  omega

theorem Timed.spPlace_lt : spPlace C ssi index<ssi := by
  have hmul := Nat.mul_le_mul_left (intervalOf C ssi) (Nat.succ_le_of_lt h.index_lt)
  have hreq := h.required_lt
  rw [h.divides,Nat.mul_succ] at hmul
  unfold spPlace
  omega

end

/-- Where a block is infused in its sub-slot, and where that starts. -/
def BlockRecord.ipPlace (C : ConsensusConstants) (r : BlockRecord) : ℕ :=
  RoseChain.ipPlace C r.subSlotIters r.signagePointIndex r.requiredIters

def BlockRecord.start (C : ConsensusConstants) (r : BlockRecord) : ℕ := r.totalIters-r.ipPlace C

/-- Where the sub-slot starts that is the `n`-th one after a previous block. -/
def startAfter (C : ConsensusConstants) (prevB : Option BlockRecord) (n ssi : ℕ) : ℕ :=
  match prevB,n with
  | none,n => ssi*n
  | some prev,0 => prev.start C
  | some prev,n+1 => prev.start C+prev.subSlotIters+ssi*n

@[simp] theorem startAfter_none (n : ℕ) : startAfter C none n ssi=ssi*n := rfl

@[simp] theorem startAfter_zero (prev : BlockRecord) : startAfter C (some prev) 0 ssi=prev.start C := rfl

@[simp] theorem startAfter_succ (prev : BlockRecord) (n : ℕ) :
    startAfter C (some prev) (n+1) ssi=prev.start C+prev.subSlotIters+ssi*n := rfl

/-- A block of a chain and its record. -/
structure ChainLink where
  block : FullBlock
  record : BlockRecord

namespace ChainLink
variable (b : ChainLink)

def slots : List EndOfSubSlotBundle := b.block.finishedSubSlots

/-- What has been checked of the header of a block after `prevB`, and how its record is made. -/
structure Accepted (E : Env) (V : BlockView) (prevB : Option BlockRecord) : Prop where
  prev : V.tryBlockRecord b.block.prevHeaderHash=prevB
  validated : ∃ additions removals header subSlotIters difficulty requiredIters,
    getNextSubSlotItersAndDifficulty E.constants V (!b.slots.isEmpty) prevB = .ok (subSlotIters,difficulty) ∧
      getBlockHeader E b.block additions removals = .ok header ∧
      validateFinishedHeaderBlock E V header false difficulty subSlotIters true = .ok requiredIters ∧
      blockToBlockRecord E V requiredIters b.block = .ok b.record

end ChainLink

/-- A chain of validated blocks, the newest first, each over records that have those before it. -/
inductive HeaderChain (E : Env) : List ChainLink → Prop
  | nil : HeaderChain E []
  | next {b : ChainLink} {l : List ChainLink} (V : BlockView) : HeaderChain E l →
    (∀ a∈l,V.blockRecords.get? a.record.headerHash=some a.record) →
    b.Accepted E V (l.head?.map (·.record)) → b.record.height=l.length →
    (∀ a∈l.head?,b.record.prevHash=a.record.headerHash) → HeaderChain E (b::l)

section Accepted
variable {prevB : Option BlockRecord} {b : ChainLink}

variable {block : FullBlock}

theorem blockToBlockRecord_ok : Yields (fun record => ∃ subSlotIters difficulty overflow deficit height ses,
    getNextSubSlotItersAndDifficulty E.constants V (!block.finishedSubSlots.isEmpty)
      (V.tryBlockRecord block.prevHeaderHash) = .ok (subSlotIters,difficulty) ∧
    isOverflowBlock E.constants block.rewardChainBlock.signagePointIndex = .ok overflow ∧
    calculateDeficit E.constants block.height (V.tryBlockRecord block.prevHeaderHash) overflow
      block.finishedSubSlots.length = .ok deficit ∧
    record=headerBlockToSubBlockRecord E required block subSlotIters overflow deficit height ses)
      (blockToBlockRecord E V required block) := by
  unfold blockToBlockRecord
  extract_lets -underBinder prevB
  refine .next fun _ => .bind fun x hx => ?_
  obtain ⟨subSlotIters,difficulty⟩ := x
  dsimp -zeta only
  refine .bind fun overflow hoverflow => .bind fun deficit hdeficit => ?_
  extract_lets -underBinder foundSesHash jp
  have hjp : ∀ ses,Yields (fun record => ∃ subSlotIters difficulty overflow deficit height ses,
      getNextSubSlotItersAndDifficulty E.constants V (!block.finishedSubSlots.isEmpty)
        (V.tryBlockRecord block.prevHeaderHash) = .ok (subSlotIters,difficulty) ∧
      isOverflowBlock E.constants block.rewardChainBlock.signagePointIndex = .ok overflow ∧
      calculateDeficit E.constants block.height (V.tryBlockRecord block.prevHeaderHash) overflow
        block.finishedSubSlots.length = .ok deficit ∧
      record=headerBlockToSubBlockRecord E required block subSlotIters overflow deficit height ses) (jp ses) := by
    intro ses
    dsimp -zeta only [jp]
    extract_lets -underBinder fuel
    refine .next fun height => ?_
    intro record hrecord
    exact ⟨_,_,_,_,_,_,hx,hoverflow,hdeficit,(Except.ok.inj hrecord).symm⟩
  clear_value jp foundSesHash
  cases foundSesHash with
  | none => exact .next fun ses => hjp ses
  | some found =>
    exact .next fun prev => .next fun first => .next fun prevPrev => .next fun made => .next fun _ => .next fun ses => hjp ses

variable {prev : BlockRecord} {n : ℕ}

theorem validateIp_order {header : HeaderBlock} {ipIters : ℕ} (hslots : header.finishedSubSlots=[])
    (h : validateIp E V header (some prev) ipIters = .ok n) : prev.totalIters≤header.rewardChainBlock.totalIters := by
  unfold validateIp at h
  rw [hslots] at h
  obtain ⟨iters,hiters,-⟩ := bind_ok.mp h
  have hsub := (uint_eq_ok.mp hiters).1
  omega

variable {difficulty : ℕ}

theorem validateFinishedHeaderBlock_ok {header : HeaderBlock} {filter summary : Bool} {iters : ℕ}
    (h : validateFinishedHeaderBlock E V header filter difficulty iters summary = .ok n) :
    validateUnfinishedHeaderBlock E V header.unfinished filter difficulty iters false false summary = .ok n ∧
      ∀ prev,header.rewardChainBlock.height≠0 → V.blockRecord header.foliage.prevBlockHash = .ok prev →
        header.finishedSubSlots=[] → prev.totalIters≤header.rewardChainBlock.totalIters := by
  unfold validateFinishedHeaderBlock at h
  obtain ⟨required,hrequired,h⟩ := bind_ok.mp h
  rw [hrequired]
  by_cases hz : header.rewardChainBlock.height=0
  · rw [if_pos hz] at h
    dsimp only at h
    obtain ⟨prev,hprev,h⟩ := bind_ok.mp h
    obtain ⟨_,-,h⟩ := bind_ok.mp h
    obtain rfl : none=prev := Except.ok.inj hprev
    obtain ⟨_,-,h⟩ := bind_ok.mp h
    obtain ⟨_,-,h⟩ := bind_ok.mp h
    obtain ⟨_,-,h⟩ := bind_ok.mp h
    obtain ⟨_,-,h⟩ := bind_ok.mp h
    obtain ⟨_,-,h⟩ := bind_ok.mp h
    obtain ⟨_,-,h⟩ := bind_ok.mp h
    exact ⟨h,fun prev hne => absurd hz hne⟩
  · rw [if_neg hz] at h
    dsimp only at h
    obtain ⟨prev,hprev,h⟩ := bind_ok.mp h
    obtain ⟨_,-,h⟩ := bind_ok.mp h
    cases hrec : V.blockRecord header.foliage.prevBlockHash with
    | error e =>
      rw [hrec] at hprev
      cases hprev
    | ok p =>
      rw [hrec] at hprev
      obtain rfl : some p=prev := Except.ok.inj hprev
      obtain ⟨_,-,h⟩ := bind_ok.mp h
      obtain ⟨_,-,h⟩ := bind_ok.mp h
      obtain ⟨_,hip,h⟩ := bind_ok.mp h
      obtain ⟨_,-,h⟩ := bind_ok.mp h
      obtain ⟨_,-,h⟩ := bind_ok.mp h
      obtain ⟨_,-,h⟩ := bind_ok.mp h
      refine ⟨h,fun prev _ hprev hslots => ?_⟩
      obtain rfl := Except.ok.inj hprev
      exact validateIp_order hslots hip

deriving instance DecidableEq for HeaderPlace

/-- The header of a block as it was validated, and what of it is in the record. -/
structure PassedHeader (E : Env) (V : BlockView) (prevB : Option BlockRecord) (b : ChainLink) (c : HeaderCall)
    (x : HeaderPlace) : Prop where
  prev : c.prevB V=prevB
  slots : c.header.finishedSubSlots=b.slots
  numSlots : c.numSlots x.overflow x.skip=b.slots.length
  place : c.place E V = .ok x
  count : c.blockCount E V x = .ok ()
  iters : ∃ q,c.iters E V x b.record.requiredIters = .ok q
  totalIters : c.header.rewardChainBlock.totalIters=b.record.totalIters
  index : c.header.rewardChainBlock.signagePointIndex=b.record.signagePointIndex
  overflow : x.overflow=b.record.overflow
  subSlotIters : c.expectedSubSlotIters=b.record.subSlotIters
  order : ∀ prev,prevB=some prev → b.record.height≠0 → b.slots=[] → prev.totalIters≤b.record.totalIters
  next : ∃ difficulty,getNextSubSlotItersAndDifficulty E.constants V (!b.slots.isEmpty) prevB =
    .ok (b.record.subSlotIters,difficulty)

theorem getBlockHeader_parts {header : HeaderBlock} {additions : List Coin} {removals : List Bytes32}
    (h : getBlockHeader E block additions removals = .ok header) : header.finishedSubSlots=block.finishedSubSlots ∧
      header.rewardChainBlock=block.rewardChainBlock ∧ header.foliage=block.foliage := by
  unfold getBlockHeader at h
  obtain ⟨_,-,h⟩ := bind_ok.mp h
  cases h
  exact ⟨rfl,rfl,rfl⟩

theorem ChainLink.Accepted.header (h : b.Accepted E V prevB) : RecordOf E b.block b.record ∧
    ∃ c x,PassedHeader E V prevB b c x := by
  obtain ⟨additions,removals,header,ssi,difficulty,required,hnext,hheader,hvalid,hrecord⟩ := h.validated
  obtain ⟨ssi',difficulty',overflow,deficit,height,ses,hnext',hoverflow,-,hr⟩ := blockToBlockRecord_ok _ hrecord
  rw [h.prev] at hnext'
  cases hnext.symm.trans hnext'
  refine ⟨⟨_,_,_,_,_,_,hr⟩,?_⟩
  obtain ⟨hslots,hrcb,hfoliage⟩ := getBlockHeader_parts hheader
  obtain ⟨hrun,horder⟩ := validateFinishedHeaderBlock_ok hvalid
  let c : HeaderCall := ⟨header.unfinished,false,difficulty,ssi,false,false,true⟩
  have hc : c.run E V = .ok required := hrun
  rw [HeaderCall.run_eq] at hc
  obtain ⟨x,hx,hc⟩ := bind_ok.mp hc
  obtain ⟨sesHash,-,hc⟩ := bind_ok.mp hc
  obtain ⟨_,-,hc⟩ := bind_ok.mp hc
  obtain ⟨_,hcount,hc⟩ := bind_ok.mp hc
  obtain ⟨⟨sp,required'⟩,-,hc⟩ := bind_ok.mp hc
  unfold HeaderCall.rest at hc
  obtain ⟨q,hiters,hc⟩ := bind_ok.mp hc
  obtain ⟨_,-,hc⟩ := bind_ok.mp hc
  obtain ⟨_,-,hc⟩ := bind_ok.mp hc
  cases hc
  have hplace := hx
  unfold HeaderCall.place at hplace
  obtain ⟨_,-,hplace⟩ := bind_ok.mp hplace
  obtain ⟨overflow',hoverflow',hplace⟩ := bind_ok.mp hplace
  obtain ⟨skip,hskip,hplace⟩ := bind_ok.mp hplace
  obtain ⟨⟨x1,x2,x3⟩,-,hplace⟩ := bind_ok.mp hplace
  cases hplace
  have hfalse : c.skipSlots V overflow' = .ok false := if_neg (by simp [c])
  obtain rfl : false=skip := Except.ok.inj (hfalse.symm.trans hskip)
  have hunfinished : c.header.rewardChainBlock=b.block.rewardChainBlock.getUnfinished := by rw [← hrcb]; rfl
  obtain rfl : overflow=overflow' := by
    rw [hunfinished] at hoverflow'
    exact Except.ok.inj (hoverflow.symm.trans hoverflow')
  have hfields : b.record.totalIters=b.block.rewardChainBlock.totalIters ∧
      b.record.signagePointIndex=b.block.rewardChainBlock.signagePointIndex ∧ b.record.overflow=overflow ∧
      b.record.subSlotIters=ssi ∧ b.record.requiredIters=required' ∧ b.record.height=b.block.rewardChainBlock.height := by
    rw [hr]
    exact ⟨rfl,rfl,rfl,rfl,rfl,rfl⟩
  obtain ⟨htotal,hindex,hover,hssi,hrequired,hheight⟩ := hfields
  have hprev : c.prevB V=prevB := by
    rw [← h.prev]
    show V.tryBlockRecord header.foliage.prevBlockHash=V.tryBlockRecord b.block.foliage.prevBlockHash
    rw [hfoliage]
  have hnum : c.numSlots overflow false=b.slots.length := by
    rw [HeaderCall.numSlots,if_neg (by simp)]
    exact congrArg List.length hslots
  refine ⟨c,_,hprev,hslots,hnum,hx,hcount,⟨q,?_⟩,?_,?_,hover.symm,hssi.symm,?_,difficulty,?_⟩
  · rw [hrequired]
    exact hiters
  · rw [hunfinished,htotal]
    rfl
  · rw [hunfinished,hindex]
    rfl
  · intro prev hprevB hne hnil
    rw [htotal,← hrcb]
    refine horder prev (by rw [hrcb,← hheight]; exact hne) (lookup_eq_ok.mpr ?_) (hslots.trans hnil)
    exact hprev.trans hprevB
  · rw [hssi]
    exact hnext

/-- A block stands where check 10 says. -/
structure InPlace (C : ConsensusConstants) (prevB : Option BlockRecord) (n : ℕ) (r : BlockRecord) : Prop where
  timed : Timed C r.subSlotIters r.signagePointIndex r.requiredIters
  ipIters : r.ipIters C = .ok (r.ipPlace C)
  total : r.totalIters=startAfter C prevB n r.subSlotIters+r.ipPlace C
  overflow : r.overflow=decide (C.numSpsSubSlot ≤ r.signagePointIndex+C.numSpIntervalsExtra)

variable {r : BlockRecord}

theorem InPlace.start (h : InPlace C prevB n r) : r.start C=startAfter C prevB n r.subSlotIters := by
  unfold BlockRecord.start
  rw [h.total,Nat.add_sub_cancel]

theorem InPlace.total_eq (h : InPlace C prevB n r) : r.totalIters=r.start C+r.ipPlace C := by
  rw [h.start,h.total]

theorem expectedTotalIters_ok {ip total : ℕ} (h : expectedTotalIters E prevB n ssi ip = .ok total)
    (hprev : ∀ prev,prevB=some prev → prev.ipPlace E.constants≤prev.totalIters) :
    total=startAfter E.constants prevB n ssi+ip := by
  unfold expectedTotalIters at h
  cases prevB with
  | none =>
    obtain ⟨base,hbase,h⟩ := bind_ok.mp h
    have hb := (uint_eq_ok.mp hbase).1
    have ht := (uint_eq_ok.mp h).1
    rw [startAfter_none]
    push_cast at hb
    zify
    rw [← ht,← hb]
  | some prev =>
    have hle := hprev prev rfl
    cases n with
    | zero =>
      obtain ⟨ip',hip,h⟩ := bind_ok.mp h
      obtain ⟨rfl,-⟩ := calculateIpIters_ok hip
      obtain ⟨base,hbase,h⟩ := bind_ok.mp h
      have hb := (uint_eq_ok.mp hbase).1
      have ht := (uint_eq_ok.mp h).1
      unfold BlockRecord.ipPlace at hle
      rw [startAfter_zero]
      unfold BlockRecord.start BlockRecord.ipPlace
      omega
    | succ n =>
      obtain ⟨ip',hip,h⟩ := bind_ok.mp h
      obtain ⟨rfl,-⟩ := calculateIpIters_ok hip
      obtain ⟨rest,hrest,h⟩ := bind_ok.mp h
      obtain ⟨base,hbase,h⟩ := bind_ok.mp h
      have hr := (uint_eq_ok.mp hrest).1
      have hb := (uint_eq_ok.mp hbase).1
      have ht := (uint_eq_ok.mp h).1
      unfold BlockRecord.ipPlace at hle
      rw [startAfter_succ]
      unfold BlockRecord.start BlockRecord.ipPlace
      have hsub : ((prev.totalIters-ipPlace E.constants prev.subSlotIters prev.signagePointIndex
          prev.requiredIters : ℕ) : ℤ)=prev.totalIters-ipPlace E.constants prev.subSlotIters
          prev.signagePointIndex prev.requiredIters := Nat.cast_sub hle
      push_cast at hb
      zify
      rw [hsub,← ht,← hb,← hr]
      ring

variable {c : HeaderCall} {x : HeaderPlace} {q : ℕ × ℕ}

theorem HeaderCall.iters_ok (h : c.iters E V x required = .ok q)
    (hprev : ∀ prev,c.prevB V=some prev → prev.ipPlace E.constants≤prev.totalIters) :
    Timed E.constants c.expectedSubSlotIters c.header.rewardChainBlock.signagePointIndex required ∧
      q.1=spPlace E.constants c.expectedSubSlotIters c.header.rewardChainBlock.signagePointIndex ∧
      ¬ (x.overflow ∧ x.canFinishEpoch ∧ c.numSlots x.overflow x.skip<2) ∧
      c.header.rewardChainBlock.totalIters =
        startAfter E.constants (c.prevB V) (c.numSlots x.overflow x.skip) c.expectedSubSlotIters +
          ipPlace E.constants c.expectedSubSlotIters c.header.rewardChainBlock.signagePointIndex required ∧
      q.2+(if x.overflow then c.expectedSubSlotIters else 0) =
        startAfter E.constants (c.prevB V) (c.numSlots x.overflow x.skip) c.expectedSubSlotIters+q.1 ∧
      calculateIpIters E.constants c.expectedSubSlotIters c.header.rewardChainBlock.signagePointIndex required =
        .ok (ipPlace E.constants c.expectedSubSlotIters c.header.rewardChainBlock.signagePointIndex required) := by
  unfold HeaderCall.iters at h
  obtain ⟨_,-,h⟩ := bind_ok.mp h
  obtain ⟨_,-,h⟩ := bind_ok.mp h
  obtain ⟨sp,hsp,h⟩ := bind_ok.mp h
  obtain ⟨ip,hip,h⟩ := bind_ok.mp h
  obtain ⟨_,-,h⟩ := bind_ok.mp h
  obtain ⟨_,hepoch,h⟩ := bind_ok.mp h
  obtain ⟨total,htotal,h⟩ := bind_ok.mp h
  obtain ⟨_,hsame,h⟩ := bind_ok.mp h
  obtain ⟨spTotal,hspTotal,h⟩ := bind_ok.mp h
  cases h
  rw [reject_eq_ok] at hepoch hsame
  obtain ⟨hipEq,htimed⟩ := calculateIpIters_ok hip
  have htotal := expectedTotalIters_ok htotal hprev
  have hspTotal := (uint_eq_ok.mp hspTotal).1
  subst hipEq
  refine ⟨htimed,(calculateSpIters_ok hsp).1,hepoch,?_,?_,hip⟩
  · omega
  · dsimp only
    split_ifs at hspTotal ⊢ <;> omega

theorem HeaderCall.spIters_lt (h : c.iters E V x required = .ok q) : q.1<2^64 := by
  unfold HeaderCall.iters at h
  obtain ⟨_,-,h⟩ := bind_ok.mp h
  obtain ⟨_,-,h⟩ := bind_ok.mp h
  obtain ⟨sp,hsp,h⟩ := bind_ok.mp h
  obtain ⟨ip,-,h⟩ := bind_ok.mp h
  obtain ⟨_,-,h⟩ := bind_ok.mp h
  obtain ⟨_,-,h⟩ := bind_ok.mp h
  obtain ⟨total,-,h⟩ := bind_ok.mp h
  obtain ⟨_,-,h⟩ := bind_ok.mp h
  obtain ⟨spTotal,-,h⟩ := bind_ok.mp h
  cases h
  unfold calculateSpIters at hsp
  obtain ⟨_,-,hsp⟩ := bind_ok.mp hsp
  obtain ⟨interval,-,hsp⟩ := bind_ok.mp hsp
  exact (uint_eq_ok.mp hsp).2

theorem HeaderCall.place_ok (h : c.place E V = .ok x) :
    x.overflow=decide (E.numSpsSubSlot ≤ c.header.rewardChainBlock.signagePointIndex+E.numSpIntervalsExtra) ∧
      c.skipSlots V x.overflow = .ok x.skip ∧
      c.position E V x.overflow x.skip = .ok (x.height,x.canFinishSe,x.canFinishEpoch) := by
  unfold HeaderCall.place at h
  obtain ⟨_,-,h⟩ := bind_ok.mp h
  obtain ⟨overflow,hoverflow,h⟩ := bind_ok.mp h
  obtain ⟨skip,hskip,h⟩ := bind_ok.mp h
  obtain ⟨⟨height,se,epoch⟩,hposition,h⟩ := bind_ok.mp h
  cases h
  refine ⟨?_,hskip,hposition⟩
  exact isOverflowBlock_ok hoverflow

theorem PassedHeader.placed (hc : PassedHeader E V prevB b c x)
    (hprev : ∀ prev,prevB=some prev → prev.ipPlace E.constants≤prev.totalIters) :
    InPlace E.constants prevB b.slots.length b.record := by
  obtain ⟨q,hq⟩ := hc.iters
  have hchecks := HeaderCall.iters_ok hq (by rw [hc.prev]; exact hprev)
  rw [hc.subSlotIters,hc.index,hc.totalIters,hc.prev,hc.numSlots] at hchecks
  have hplace := (HeaderCall.place_ok hc.place).1
  rw [hc.overflow,hc.index] at hplace
  exact ⟨hchecks.1,hchecks.2.2.2.2.2,hchecks.2.2.2.1,hplace⟩

theorem getNextSubSlotIters_cases {prevHash : Bytes32} {height curr deficit sp : ℕ} {ses newSlot : Bool}
    (h : getNextSubSlotIters C V prevHash height curr deficit ses newSlot sp false = .ok ssi) :
    ssi=curr ∨ (height+1<C.epochBlocks ∧ ssi=C.subSlotItersStarting) ∨ (C.epochBlocks≤height+1 ∧ newSlot=true ∧
        ∃ se,canFinishSubAndFullEpoch C V height prevHash deficit ses = .ok (se,true)) := by
  unfold getNextSubSlotIters at h
  obtain ⟨nextHeight,hnext,h⟩ := bind_ok.mp h
  have hnext := (uint_eq_ok.mp hnext).1
  by_cases hearly : nextHeight<C.epochBlocks
  · rw [if_pos hearly] at h
    have hn := (uint_eq_ok.mp h).1
    exact Or.inr (Or.inl ⟨by omega,by omega⟩)
  · rw [if_neg hearly] at h
    obtain ⟨_,-,h⟩ := bind_ok.mp h
    obtain ⟨prevB,-,h⟩ := bind_ok.mp h
    rw [if_neg Bool.false_ne_true] at h
    obtain ⟨⟨se,epoch⟩,hfinish,h⟩ := bind_ok.mp h
    obtain ⟨same,hsame,h⟩ := bind_ok.mp h
    cases hsame
    dsimp only at h
    by_cases hepoch : (!newSlot || !epoch)=true
    · rw [if_pos hepoch] at h
      exact Or.inl (Except.ok.inj h).symm
    · simp only [Bool.or_eq_true,Bool.not_eq_true',not_or,Bool.not_eq_false] at hepoch
      refine Or.inr (Or.inr ⟨by omega,hepoch.1,se,?_⟩)
      rw [hfinish,hepoch.2]

theorem nextSubSlotIters_cases {first : Bool} (h : getNextSubSlotItersAndDifficulty C V first (some prev) = .ok (ssi,difficulty)) :
    ssi=prev.subSlotIters ∨ (prev.height+1<C.epochBlocks ∧ ssi=C.subSlotItersStarting) ∨
      (C.epochBlocks≤prev.height+1 ∧ first=true ∧ ∃ se,canFinishSubAndFullEpoch C V prev.height prev.prevHash
        prev.deficit prev.subEpochSummaryIncluded.isSome = .ok (se,true)) := by
  unfold getNextSubSlotItersAndDifficulty at h
  dsimp only at h
  have htail : ∀ d,(if prev.subEpochSummaryIncluded.isSome then pure (prev.subSlotIters,d) else (do
      let spTotalIters ← prev.spTotalIters C
      let difficulty ← getNextDifficulty C V prev.prevHash prev.height d prev.deficit false first spTotalIters false
      let subSlotIters ← getNextSubSlotIters C V prev.prevHash prev.height prev.subSlotIters prev.deficit false first
        spTotalIters false
      return (subSlotIters,difficulty)) : Check (ℕ × ℕ)) = .ok (ssi,difficulty) →
      ssi=prev.subSlotIters ∨ (prev.height+1<C.epochBlocks ∧ ssi=C.subSlotItersStarting) ∨
      (C.epochBlocks≤prev.height+1 ∧ first=true ∧ ∃ se,canFinishSubAndFullEpoch C V prev.height prev.prevHash
        prev.deficit prev.subEpochSummaryIncluded.isSome = .ok (se,true)) := by
    intro d h
    by_cases hses : prev.subEpochSummaryIncluded.isSome
    · rw [if_pos hses] at h
      exact Or.inl (congrArg Prod.fst (Except.ok.inj h)).symm
    · rw [if_neg hses] at h
      obtain ⟨_,-,h⟩ := bind_ok.mp h
      obtain ⟨_,-,h⟩ := bind_ok.mp h
      obtain ⟨_,hiters,h⟩ := bind_ok.mp h
      cases h
      rw [Bool.eq_false_iff.mpr hses]
      exact getNextSubSlotIters_cases hiters
  by_cases hheight : prev.height≠0
  · rw [if_pos hheight] at h
    obtain ⟨_,-,h⟩ := bind_ok.mp h
    obtain ⟨_,-,h⟩ := bind_ok.mp h
    exact htail _ h
  · rw [if_neg hheight] at h
    obtain ⟨_,-,h⟩ := bind_ok.mp h
    exact htail _ h

end Accepted

namespace HeaderChain
variable {b p : ChainLink} {l : List ChainLink}

theorem tail (h : HeaderChain E (b::l)) : HeaderChain E l := by
  cases h with
  | next _ hl => exact hl

theorem height (h : HeaderChain E (b::l)) : b.record.height=l.length := by
  cases h with
  | next _ _ _ _ hheight => exact hheight

theorem height_succ (h : HeaderChain E (b::p::l)) : b.record.height=p.record.height+1 := by
  rw [h.height,h.tail.height,List.length_cons]

theorem prevHash (h : HeaderChain E (b::p::l)) : b.record.prevHash=p.record.headerHash := by
  cases h with
  | next _ _ _ _ _ hprev => exact hprev p rfl

section
variable (h : HeaderChain E (b::l))
include h

theorem recordOf : RecordOf E b.block b.record := by
  cases h with
  | next _ _ _ hb => exact hb.header.1

theorem passed : ∃ V c x,(∀ a∈l,V.blockRecords.get? a.record.headerHash=some a.record) ∧
      PassedHeader E V (l.head?.map (·.record)) b c x := by
  cases h with
  | next V _ hknown hb =>
    obtain ⟨-,c,x,hc⟩ := hb.header
    exact ⟨V,c,x,hknown,hc⟩

theorem placed : InPlace E.constants (l.head?.map (·.record)) b.slots.length b.record := by
  induction l generalizing b with
  | nil =>
    obtain ⟨V,c,x,-,hc⟩ := h.passed
    apply hc.placed
    intro prev hprev
    cases hprev
  | cons p l ih =>
    have hp := (ih h.tail).total_eq
    obtain ⟨V,c,x,-,hc⟩ := h.passed
    apply hc.placed
    intro prev hprev
    obtain rfl : p.record=prev := Option.some.inj hprev
    omega

theorem earlyIters (hheight : b.record.height<E.epochBlocks) :
    b.record.subSlotIters=E.subSlotItersStarting := by
  induction l generalizing b with
  | nil =>
    obtain ⟨V,c,x,-,hc⟩ := h.passed
    obtain ⟨difficulty,hnext⟩ := hc.next
    exact (congrArg Prod.fst (Except.ok.inj hnext)).symm
  | cons p l ih =>
    obtain ⟨V,c,x,-,hc⟩ := h.passed
    obtain ⟨difficulty,hnext⟩ := hc.next
    have hb := h.height
    have hp := h.tail.height
    rw [List.length_cons] at hb
    obtain hsame | ⟨-,hearly⟩ | ⟨hlate,-⟩ := nextSubSlotIters_cases hnext
    · exact hsame.trans (ih h.tail (by omega))
    · exact hearly
    · have hlate : E.epochBlocks≤p.record.height+1 := hlate
      omega

end

theorem sameIters (h : HeaderChain E (p::l)) {first : Bool} {difficulty : ℕ}
    (hnext : getNextSubSlotItersAndDifficulty E.constants V first (some p.record) = .ok (ssi,difficulty))
    (hepoch : first=true → ∃ se,canFinishSubAndFullEpoch E.constants V p.record.height p.record.prevHash
      p.record.deficit p.record.subEpochSummaryIncluded.isSome = .ok (se,false)) : ssi=p.record.subSlotIters := by
  obtain hsame | ⟨hearly,hiters⟩ | ⟨-,hfirst,se,hfinish⟩ := nextSubSlotIters_cases hnext
  · exact hsame
  · rw [hiters,h.earlyIters (Nat.lt_of_succ_lt hearly)]
  · obtain ⟨se',hnot⟩ := hepoch hfirst
    cases hfinish.symm.trans hnot

theorem first_iff (h : HeaderChain E (b::l)) : b.record.firstInSubSlot=(!b.slots.isEmpty || l.isEmpty) := by
  have hheight := h.recordOf.height.symm.trans h.height
  obtain ⟨_,_,_,_,_,_,hr⟩ := h.recordOf
  rw [hr]
  unfold BlockRecord.firstInSubSlot headerBlockToSubBlockRecord ChainLink.slots
  dsimp only
  rw [hheight]
  cases b.block.finishedSubSlots <;> cases l <;> rfl

section
variable (h : HeaderChain E (b::p::l))
include h

theorem slots_nil (hfirst : ¬ b.record.firstInSubSlot) : b.slots=[] := by
  simpa [h.first_iff] using hfirst

theorem sameSlot (hslots : b.slots=[]) :
    b.record.start E.constants=p.record.start E.constants ∧
      p.record.totalIters≤b.record.totalIters ∧ b.record.subSlotIters=p.record.subSlotIters := by
  have hstart := h.placed.start
  rw [hslots] at hstart
  obtain ⟨V,c,x,-,hc⟩ := h.passed
  obtain ⟨difficulty,hnext⟩ := hc.next
  refine ⟨hstart,hc.order _ rfl ?_ hslots,h.tail.sameIters hnext ?_⟩
  · rw [h.height]
    exact Nat.succ_ne_zero _
  · intro hfirst
    rw [hslots] at hfirst
    cases hfirst

theorem laterSlot (hslots : b.slots≠[]) :
    p.record.totalIters<b.record.start E.constants := by
  obtain ⟨n,hn⟩ := Nat.exists_eq_succ_of_ne_zero (List.length_pos_iff.mpr hslots).ne'
  have hstart := h.placed.start
  have htotal := h.tail.placed.total_eq
  have hlt := h.tail.placed.timed.ipPlace_lt
  have hip : p.record.ipPlace E.constants<p.record.subSlotIters := hlt
  rw [hn] at hstart
  have hstart : b.record.start E.constants=p.record.start E.constants+p.record.subSlotIters +
      b.record.subSlotIters*n := hstart
  omega

theorem total_le : p.record.totalIters≤b.record.totalIters := by
  by_cases hslots : b.slots=[]
  · exact (h.sameSlot hslots).2.1
  · have htotal := h.placed.total_eq
    have hle := h.laterSlot hslots
    omega

end

theorem total_le_of_mem (h : HeaderChain E (b::l)) : ∀ a∈l,a.record.totalIters≤b.record.totalIters := by
  induction l generalizing b with
  | nil => simp
  | cons p l ih =>
    intro a ha
    obtain rfl | ha := List.mem_cons.mp ha
    · exact h.total_le
    · exact (ih h.tail a ha).trans h.total_le

theorem before_next (h : HeaderChain E l) (n ssi : ℕ) : ∀ a∈l,
    a.record.totalIters<startAfter E.constants (l.head?.map (·.record)) (n+1) ssi := by
  cases l with
  | nil => simp
  | cons p l =>
    intro a ha
    have htotal := h.placed.total_eq
    have hlt : p.record.ipPlace E.constants<p.record.subSlotIters := h.placed.timed.ipPlace_lt
    have hle : a.record.totalIters≤p.record.totalIters := by
      obtain rfl | ha := List.mem_cons.mp ha
      · exact le_rfl
      · exact h.total_le_of_mem a ha
    rw [List.head?_cons,Option.map_some,startAfter_succ]
    omega

theorem earlier (h : HeaderChain E (b::l)) (hslots : b.slots≠[]) :
    ∀ a∈l,a.record.totalIters<b.record.start E.constants := by
  obtain ⟨n,hn⟩ := Nat.exists_eq_succ_of_ne_zero (List.length_pos_iff.mpr hslots).ne'
  rw [h.placed.start,hn]
  exact h.tail.before_next n b.record.subSlotIters

theorem before_first (h : HeaderChain E (b::l)) (hfirst : b.record.firstInSubSlot=true) :
    ∀ a∈l,a.record.totalIters<b.record.start E.constants := by
  cases l with
  | nil => simp
  | cons p l =>
    apply h.earlier
    intro hslots
    simp [h.first_iff,hslots] at hfirst

theorem ipPlace_le {prevB : Option BlockRecord} (h : HeaderChain E l) (hprev : prevB=l.head?.map (·.record)) :
    ∀ prev,prevB=some prev → prev.ipPlace E.constants≤prev.totalIters := by
  intro prev hp
  cases l with
  | nil => cases hprev.symm.trans hp
  | cons p l =>
    have htotal := h.placed.total_eq
    obtain rfl : p.record=prev := Option.some.inj (hprev.symm.trans hp)
    omega

theorem of_mem (h : HeaderChain E l) {a : ChainLink} (ha : a∈l) : ∃ l',HeaderChain E (a::l') := by
  induction l with
  | nil => cases ha
  | cons b l ih =>
    obtain rfl | ha := List.mem_cons.mp ha
    · exact ⟨l,h⟩
    · exact ih h.tail ha

end HeaderChain

/-- A view has the records of a chain, and nothing before it. -/
structure HasChain (V : BlockView) (l : List ChainLink) : Prop where
  known : ∀ a∈l,V.blockRecords.get? a.record.headerHash=some a.record
  ground : ∀ a,l.getLast?=some a → V.tryBlockRecord a.record.prevHash=none

section HasChain
variable {b p : ChainLink} {l : List ChainLink}

theorem HasChain.tail (h : HasChain V (b::p::l)) : HasChain V (p::l) where
  known a ha := h.known a (List.mem_cons_of_mem b ha)
  ground a ha := h.ground a ((List.getLast?_cons_cons).trans ha)

theorem HasChain.prev (h : HasChain V (b::p::l)) (hl : HeaderChain E (b::p::l)) :
    V.tryBlockRecord b.record.prevHash=some p.record := by
  rw [hl.prevHash]
  exact h.known p (List.mem_cons_of_mem b List.mem_cons_self)

/-- Blocks of a chain back to the first one in the sub-slot, that one left out. -/
def inSubSlot : List ChainLink → ℕ
  | [] => 0
  | b::l => if b.record.firstInSubSlot then 0 else inSubSlot l+1

theorem blocksInSubSlot_chain (hl : HeaderChain E (b::l)) (hknown : ∀ a∈l,V.blockRecords.get? a.record.headerHash=some a.record) :
    blocksInSubSlot V (b.record.height+1) b.record = .ok (inSubSlot (b::l)) := by
  induction l generalizing b with
  | nil =>
    have hfirst := hl.first_iff
    simp only [List.isEmpty_nil,Bool.or_true] at hfirst
    rw [blocksInSubSlot,inSubSlot,if_pos hfirst,if_pos hfirst]
  | cons p l ih =>
    rw [blocksInSubSlot,inSubSlot]
    by_cases hfirst : b.record.firstInSubSlot
    · rw [if_pos hfirst,if_pos hfirst]
    · have hprev : V.blockRecord b.record.prevHash = .ok p.record := by
        rw [hl.prevHash]
        exact lookup_eq_ok.mpr (hknown p List.mem_cons_self)
      rw [if_neg hfirst,if_neg hfirst,bind_of_ok hprev,hl.height_succ,
        bind_of_ok (ih hl.tail fun a ha => hknown a (List.mem_cons_of_mem p ha))]
      rfl

theorem inSubSlot_lt (hl : HeaderChain E (b::l)) (hne : inSubSlot (b::l)≠0) :
    inSubSlot (b::l)<E.maxSubSlotBlocks := by
  have hfirst : b.record.firstInSubSlot≠true := by
    intro hfirst
    rw [inSubSlot,if_pos hfirst] at hne
    exact hne rfl
  have hslots := hl.first_iff
  cases l with
  | nil =>
    simp only [List.isEmpty_nil,Bool.or_true] at hslots
    exact absurd hslots hfirst
  | cons p l =>
    have hnil : b.slots=[] := by
      simpa [hslots] using hfirst
    obtain ⟨V,c,x,hknown,hc⟩ := hl.passed
    have hcount := hc.count
    have hnew : c.newSubSlot x.overflow x.skip=false := by
      rw [HeaderCall.newSubSlot,hc.numSlots,hnil]
      rfl
    unfold HeaderCall.blockCount at hcount
    rw [hc.prev,hnew] at hcount
    have hblocks := blocksInSubSlot_chain hl.tail fun a ha => hknown a (List.mem_cons_of_mem p ha)
    have hcount : (do
        let n ← blocksInSubSlot V (p.record.height+1) p.record
        reject (2+n > E.maxSubSlotBlocks) .tooManyBlocks) = .ok () := hcount
    rw [bind_of_ok hblocks,reject_eq_ok] at hcount
    rw [inSubSlot,if_neg hfirst]
    omega

end HasChain

/-- What the callers of header validation expect of a block after the previous one. -/
def HeaderCall.Expected (E : Env) (V : BlockView) (c : HeaderCall) : Prop :=
  getNextSubSlotItersAndDifficulty E.constants V (!c.header.finishedSubSlots.isEmpty) (c.prevB V) =
    .ok (c.expectedSubSlotIters,c.expectedDifficulty)

theorem HeaderCall.sameIters {c : HeaderCall} {x : HeaderPlace} {p : ChainLink} {l : List ChainLink}
    (hl : HeaderChain E (p::l)) (hprev : c.prevB V=some p.record) {difficulty : ℕ}
    (hexpected : getNextSubSlotItersAndDifficulty E.constants V (!c.header.finishedSubSlots.isEmpty) (c.prevB V) =
      .ok (c.expectedSubSlotIters,difficulty))
    (hx : c.place E V = .ok x) (hepoch : ¬ (x.overflow ∧ x.canFinishEpoch ∧ c.numSlots x.overflow x.skip<2))
    (hslots : c.header.finishedSubSlots=[] ∨ x.overflow=true ∧ c.numSlots x.overflow x.skip<2) :
    c.expectedSubSlotIters=p.record.subSlotIters := by
  rw [hprev] at hexpected
  apply hl.sameIters hexpected
  intro hfirst
  have hne : c.header.finishedSubSlots≠[] := by
    intro hnil
    rw [hnil] at hfirst
    cases hfirst
  obtain hnil | ⟨hoverflow,hlt⟩ := hslots
  · exact absurd hnil hne
  have hposition := (HeaderCall.place_ok hx).2.2
  have hnew : c.newSubSlot x.overflow x.skip=true := by
    have hpos := List.length_pos_iff.mpr hne
    unfold HeaderCall.newSubSlot HeaderCall.numSlots
    apply decide_eq_true
    split_ifs <;> omega
  unfold HeaderCall.position at hposition
  rw [hprev] at hposition
  obtain ⟨height,-,hposition⟩ := bind_ok.mp hposition
  rw [if_pos hnew] at hposition
  obtain ⟨⟨se,epoch⟩,hfinish,hposition⟩ := bind_ok.mp hposition
  have hfalse : epoch=false := by
    rw [Bool.eq_false_iff]
    intro htrue
    have hsame : epoch=x.canFinishEpoch := congrArg (fun y => y.2.2) (Except.ok.inj hposition)
    exact hepoch ⟨hoverflow,hsame.symm.trans htrue,hlt⟩
  rw [hfalse] at hfinish
  exact ⟨se,hfinish⟩

end RoseChain
