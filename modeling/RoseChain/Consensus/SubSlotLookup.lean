import RoseChain.Consensus.GeneratorRaises

namespace RoseChain
open Lib Blockchain
variable {E : Env} {w : World} {b p : FullBlock} {l : List FullBlock} {r : BlockRecord} {α : Type}

namespace Blockchain

def readChain (f : BlockView → Check α) : NodeM α := do
  let w ← Eff.get
  Eff.lift (f w.chain.view)

section Model
variable (E : Env)

/-- The block of a record if it is to be loaded, else the one there is. -/
def loadedOr (load : Prop) [Decidable load] (record : BlockRecord) (block : FullBlock) : NodeM FullBlock :=
  if load then do Eff.lift (assertSome (← BlockStore.getFullBlock record.headerHash)) else return block

/-- The block before with its record; for the first block that block itself. -/
def prevOrSelf (curr : FullBlock) : NodeM (FullBlock × BlockRecord) := do
  match ← BlockStore.getFullBlock curr.prevHeaderHash with
  | none => do
    Eff.lift (assertThat (curr.height=0))
    return (curr,← readChain (·.blockRecord (curr.headerHash E)))
  | some prev => return (prev,← readChain (·.blockRecord curr.prevHeaderHash))

/-- From the block that has only the infusion point's sub-slot, back to the last one before that. -/
def subSlotOfPrev (curr : FullBlock) : NodeM (Option EndOfSubSlotBundle) := do
  let (prevCurr,prevCurrBr) ← prevOrSelf E curr
  let prevCurrBr ← readChain (·.walkBack (fun b => decide (b.height=0) || b.firstInSubSlot) prevCurrBr)
  -- the loop ends at height zero before it looks whether that block has finished sub-slots
  let prevCurr ← loadedOr (prevCurrBr.height > 0) prevCurrBr prevCurr
  return prevCurr.finishedSubSlots.getLast?

def getSpAndIpSubSlots (headerHash : Bytes32) :
    NodeM (Option (Option EndOfSubSlotBundle × Option EndOfSubSlotBundle)) := do
  match ← BlockStore.getFullBlock headerHash with
  | none => return none
  | some block => do
    let currBr ← readChain (·.blockRecord (block.headerHash E))
    let isOverflow := currBr.overflow
    let currBr ← readChain (·.walkBack (fun b => b.firstInSubSlot || decide (b.height=0)) currBr)
    let curr ← loadedOr currBr.firstInSubSlot currBr block
    match curr.finishedSubSlots.getLast? with
    | none => return some (none,none)
    | some ipSubSlot =>
      if ¬ isOverflow then return some (none,some ipSubSlot)
      else if curr.finishedSubSlots.length > 1 then
        return some (curr.finishedSubSlots[curr.finishedSubSlots.length-2]?,some ipSubSlot)
      else return some (← subSlotOfPrev E curr,some ipSubSlot)

end Model

end Blockchain

/-- The last finished sub-slots, the oldest block first: for an overflow block the one before the last, and the last. -/
def expectedSubSlots (overflow : Bool) (l : List FullBlock) : Option EndOfSubSlotBundle × Option EndOfSubSlotBundle :=
  let slots := l.flatMap (·.finishedSubSlots)
  (if overflow then slots.dropLast.getLast? else none,slots.getLast?)

section Lists

/-- From the first block of a sub-slot on, the newest block first. -/
def slotStart : List FullBlock → List FullBlock
  | [] => []
  | b::l => if b.finishedSubSlots.isEmpty && !l.isEmpty then slotStart l else b::l

/-- What the second walk gives as the sub-slot before the only one finished at a block. -/
def subSlotBefore (ip : EndOfSubSlotBundle) : List FullBlock → Option EndOfSubSlotBundle
  | [] => some ip
  | p::rest =>
    match slotStart (p::rest) with
    | d::_::_ => d.finishedSubSlots.getLast?
    | _ => p.finishedSubSlots.getLast?

def subSlotsRead (overflow : Bool) (l : List FullBlock) : Option EndOfSubSlotBundle × Option EndOfSubSlotBundle :=
  match slotStart l with
  | [] => (none,none)
  | c::rest =>
    match c.finishedSubSlots.getLast? with
    | none => (none,none)
    | some ip => (if ¬ overflow then none
      else if c.finishedSubSlots.length > 1 then c.finishedSubSlots[c.finishedSubSlots.length-2]?
      else subSlotBefore ip rest,some ip)

/-- An overflow block after exactly one finished sub-slot where only the first block has some: it is that block
itself, or further back than the next one. -/
def MisreadSubSlots (overflow : Bool) (l : List FullBlock) : Prop :=
  overflow=true ∧ ∃ c rest,slotStart l=c::rest ∧ c.finishedSubSlots.length=1 ∧
    (rest=[] ∨ ∃ root,1 < rest.length ∧ slotStart rest=[root] ∧ root.finishedSubSlots≠[])

variable {c : FullBlock} {rest : List FullBlock} {overflow : Bool}

theorem slotStart_ne_nil : slotStart (b::l)≠[] := by
  induction l generalizing b with
  | nil => simp [slotStart]
  | cons p l ih =>
    rw [slotStart]
    split_ifs
    · exact ih
    · simp

theorem getLast?_slotStart : (slotStart l).getLast?=l.getLast? := by
  induction l with
  | nil => rfl
  | cons b l ih =>
    rw [slotStart]
    split_ifs with hskip
    · rw [Bool.and_eq_true,Bool.not_eq_true',List.isEmpty_eq_false_iff] at hskip
      obtain ⟨p,l,rfl⟩ := List.exists_cons_of_ne_nil hskip.2
      rw [ih,List.getLast?_cons_cons]
    · rfl

theorem slotStart_ground (h : slotStart l=c::rest) (hslots : c.finishedSubSlots=[]) : rest=[] := by
  induction l with
  | nil => cases h
  | cons b l ih =>
    rw [slotStart] at h
    split_ifs at h with hskip
    · exact ih h
    · obtain ⟨rfl,rfl⟩ := List.cons.inj h
      simpa [hslots] using hskip

theorem flatMap_slotStart :
    (slotStart l).reverse.flatMap (·.finishedSubSlots)=l.reverse.flatMap (·.finishedSubSlots) := by
  induction l with
  | nil => rfl
  | cons b l ih =>
    rw [slotStart]
    split_ifs with hskip
    · have hslots : b.finishedSubSlots=[] := by
        rw [Bool.and_eq_true,List.isEmpty_iff] at hskip
        exact hskip.1
      rw [ih,List.reverse_cons,List.flatMap_append]
      simp [hslots]
    · rfl

theorem getLast?_before (hstart : slotStart l=c::rest) (hslots : c.finishedSubSlots≠[] ∨ rest=[]) :
    (l.reverse.flatMap (·.finishedSubSlots)).getLast?=c.finishedSubSlots.getLast? := by
  rw [← flatMap_slotStart,hstart,List.reverse_cons,List.flatMap_append,List.flatMap_singleton]
  obtain hne | rfl := hslots
  · exact List.getLast?_append_of_ne_nil _ hne
  · simp

theorem subSlotBefore_eq_iff {ip : EndOfSubSlotBundle} :
    subSlotBefore ip rest=(rest.reverse.flatMap (·.finishedSubSlots)).getLast? ↔
      ¬ (rest=[] ∨ ∃ root,1 < rest.length ∧ slotStart rest=[root] ∧ root.finishedSubSlots≠[]) := by
  cases rest with
  | nil => simp [subSlotBefore]
  | cons p rest =>
    rw [subSlotBefore]
    match hstart : slotStart (p::rest) with
    | [] => exact absurd hstart slotStart_ne_nil
    | d::e::more =>
      have hne : d.finishedSubSlots≠[] := by
        intro hnil
        cases slotStart_ground hstart hnil
      rw [getLast?_before hstart (Or.inl hne)]
      simp
    | [d] =>
      rw [getLast?_before hstart (Or.inr rfl)]
      cases rest with
      | nil =>
        simp only [slotStart,List.isEmpty_nil,Bool.not_true,Bool.and_false] at hstart
        obtain ⟨rfl,-⟩ := List.cons.inj hstart
        simp
      | cons q rest =>
        have hslots : p.finishedSubSlots=[] := by
          by_contra hne
          rw [slotStart,if_neg (by simp [hne])] at hstart
          cases hstart
        rw [hslots]
        simp [eq_comm]

theorem subSlotsRead_eq_iff : subSlotsRead overflow l=expectedSubSlots overflow l.reverse ↔
    ¬ MisreadSubSlots overflow l := by
  unfold subSlotsRead expectedSubSlots MisreadSubSlots
  dsimp only
  rw [← flatMap_slotStart]
  cases hstart : slotStart l with
  | nil => simp
  | cons c rest =>
    have hparts : (∃ c' rest',c::rest=c'::rest' ∧ c'.finishedSubSlots.length=1 ∧
        (rest'=[] ∨ ∃ root,1 < rest'.length ∧ slotStart rest'=[root] ∧ root.finishedSubSlots≠[])) ↔
        c.finishedSubSlots.length=1 ∧
          (rest=[] ∨ ∃ root,1 < rest.length ∧ slotStart rest=[root] ∧ root.finishedSubSlots≠[]) := by
      constructor
      · intro h
        obtain ⟨c',rest',heq,h⟩ := h
        cases heq
        exact h
      · intro h
        exact ⟨c,rest,rfl,h⟩
    rw [hparts,List.reverse_cons,List.flatMap_append,List.flatMap_singleton]
    obtain hslots | ⟨slots,ip,hslots⟩ := List.eq_nil_or_concat c.finishedSubSlots
    · obtain rfl := slotStart_ground hstart hslots
      simp [hslots]
    · have hlast : c.finishedSubSlots.getLast?=some ip := by simp [hslots]
      rw [List.concat_eq_append] at hslots
      dsimp only
      rw [hlast,hslots,← List.append_assoc,List.getLast?_concat,List.dropLast_concat]
      dsimp only
      rw [Prod.mk.injEq,and_iff_left rfl]
      cases overflow with
      | false => simp
      | true =>
        rw [if_neg (by simp),if_pos rfl]
        obtain rfl | ⟨slots,sp,rfl⟩ := List.eq_nil_or_concat slots
        · rw [List.nil_append,if_neg (by simp),List.append_nil,subSlotBefore_eq_iff]
          simp
        · rw [List.concat_eq_append,if_pos (by simp),← List.append_assoc,List.getLast?_concat]
          simp

-- the walk ends at the first block without its sub-slot, where the last but one is looked for
example : (subSlotsRead true [{ tinyBlock 3 2 2 9 with finishedSubSlots := [dummySubSlot] },tinyBlock 2 1 1 8,
    { tinyFirst 1 with finishedSubSlots := [dummySubSlot] }]).1=none := rfl

end Lists

section Lineage

/-- Stored blocks down to one at height zero, the newest first. -/
inductive Lineage (E : Env) (w : World) : List FullBlock → Prop
  | first {b : FullBlock} : w.block? (b.headerHash E)=some b → b.height=0 → Lineage E w [b]
  | next {b p : FullBlock} {l : List FullBlock} : w.block? (b.headerHash E)=some b →
    b.prevHeaderHash=p.headerHash E → b.height=l.length+1 → Lineage E w (p::l) → Lineage E w (b::p::l)

theorem lineage_of_path (hi : Indexed E w) {k : Bytes32} (h : (w.forest E).Path k l) : Lineage E w l.reverse := by
  have hstored : ∀ k b,w.block? k=some b → w.block? (b.headerHash E)=some b := by
    intro k b hb
    rw [hi.key k b hb]
    exact hb
  induction h with
  | root hb hh => exact .first (hstored _ _ hb) hh
  | @step k b l hb hh hp ih =>
    rw [List.reverse_append,List.reverse_singleton,List.singleton_append]
    obtain ⟨p,m,hfind,rfl,-⟩ := Forest.path_iff.mp hp
    rw [List.reverse_append,List.reverse_singleton,List.singleton_append] at ih ⊢
    refine .next (hstored _ _ hb) (hi.key _ p hfind).symm ?_ ih
    have hheight : b.height=(m++[p]).length := hh
    rw [hheight,List.length_append,List.length_reverse]
    rfl

namespace Lineage
variable (h : Lineage E w (b::l))
include h

theorem stored : w.block? (b.headerHash E)=some b := by
  cases h with
  | first hb => exact hb
  | next hb => exact hb

theorem height : b.height=l.length := by
  cases h with
  | first _ hh => exact hh
  | next _ _ hh => exact hh

theorem record (hi : Indexed E w) : ∃ r,RecordOf E b r ∧ w.chain.blockRecords.get? (b.headerHash E)=some r := by
  obtain ⟨r,hr,hrec⟩ := hi.record h.stored
  exact ⟨r,hr,(hi.memory _).trans hrec⟩

end Lineage

theorem Lineage.tail (h : Lineage E w (b::p::l)) : Lineage E w (p::l) := by
  cases h with
  | next _ _ _ hl => exact hl

theorem Lineage.prevHash (h : Lineage E w (b::p::l)) : b.prevHeaderHash=p.headerHash E := by
  cases h with
  | next _ hp => exact hp

theorem RecordOf.firstInSubSlot (h : RecordOf E b r) :
    r.firstInSubSlot=(!b.finishedSubSlots.isEmpty || decide (b.height=0)) := by
  obtain ⟨_,_,_,_,_,_,rfl⟩ := h
  unfold BlockRecord.firstInSubSlot headerBlockToSubBlockRecord
  cases b.finishedSubSlots <;> by_cases hheight : b.height=0 <;> simp [hheight]

theorem Lineage.walkBack (hi : Indexed E w) {stop : BlockRecord → Bool}
    (hstop : ∀ b r,RecordOf E b r → stop r=(!b.finishedSubSlots.isEmpty || decide (b.height=0)))
    (h : Lineage E w (b::l)) (hr : RecordOf E b r) : ∃ c rest rc,slotStart (b::l)=c::rest ∧ Lineage E w (c::rest) ∧
      RecordOf E c rc ∧ stop rc=true ∧ w.chain.view.walkBack stop r = .ok rc := by
  have hstopped := hstop b r hr
  rw [h.height] at hstopped
  induction l generalizing b r with
  | nil =>
    have hend : stop r=true := by simp [hstopped]
    exact ⟨b,[],r,by simp [slotStart],h,hr,hend,BlockView.walkBack_here hend⟩
  | cons p l ih =>
    by_cases hslots : b.finishedSubSlots=[]
    · have hgo : stop r=false := by simp [hstopped,hslots]
      obtain ⟨rp,hrp,hmem⟩ := h.tail.record hi
      have hprev : w.chain.view.blockRecord r.prevHash = .ok rp := by
        rw [hr.prevHash,h.prevHash]
        exact lookup_eq_ok.mpr hmem
      have hheight : r.height=rp.height+1 := by
        rw [hr.height,hrp.height,h.height,h.tail.height,List.length_cons]
      have hpstopped := hstop p rp hrp
      rw [h.tail.height] at hpstopped
      rw [BlockView.walkBack_prev hgo hprev hheight,slotStart,if_pos (by simp [hslots])]
      exact ih h.tail hrp hpstopped
    · have hend : stop r=true := by simp [hstopped,hslots]
      refine ⟨b,p::l,r,?_,h,hr,hend,BlockView.walkBack_here hend⟩
      rw [slotStart,if_neg (by simp [hslots])]

end Lineage

section Reads

theorem Reads.ofChain {f : BlockView → Check α} : Reads w (readChain f) (f w.chain.view) := by
  apply Reads.chain
  intro v hv
  rw [hv]
  exact Reads.lift _

theorem Reads.congr {m : NodeM α} {x y : Check α} (h : Reads w m x) (heq : x=y) : Reads w m y := heq ▸ h

variable {k : Bytes32}

theorem Reads.getRecord (hr : w.chain.blockRecords.get? k=some r) :
    Reads w (readChain (·.blockRecord k)) (.ok r) := Reads.ofChain.congr (lookup_eq_ok.mpr hr)

theorem Reads.getStored (hb : w.block? k=some b) :
    Reads w (BlockStore.getFullBlock k) (.ok (some b)) := (Reads.getFullBlock k).congr (congrArg Except.ok hb)

theorem loadedOr_reads {load : Prop} [Decidable load] {c : FullBlock} (hr : RecordOf E c r)
    (hc : w.block? (c.headerHash E)=some c) : Reads w (loadedOr load r b) (.ok (if load then c else b)) := by
  unfold loadedOr
  by_cases hload : load
  · rw [if_pos hload,if_pos hload,hr.headerHash]
    exact (Reads.getStored hc).bind_ok (Reads.lift (.ok c))
  · rw [if_neg hload,if_neg hload]
    exact Reads.pure b

theorem prevOrSelf_first (hi : Indexed E w) (h : Lineage E w [b]) (hground : w.block? b.prevHeaderHash=none) :
    ∃ r,RecordOf E b r ∧ Reads w (prevOrSelf E b) (.ok (b,r)) := by
  obtain ⟨r,hr,hmem⟩ := h.record hi
  have hzero : assertThat (b.height=0) = .ok () := assertThat_eq_ok.mpr h.height
  refine ⟨r,hr,?_⟩
  apply Reads.bind_ok ((Reads.getFullBlock _).congr (congrArg Except.ok hground))
  apply Reads.bind_ok ((Reads.lift _).congr hzero)
  exact (Reads.getRecord hmem).bind_ok (Reads.pure _)

theorem prevOrSelf_next (hi : Indexed E w) (h : Lineage E w (b::p::l)) :
    ∃ r,RecordOf E p r ∧ Reads w (prevOrSelf E b) (.ok (p,r)) := by
  obtain ⟨r,hr,hmem⟩ := h.tail.record hi
  have hstored := h.tail.stored
  rw [← h.prevHash] at hmem hstored
  refine ⟨r,hr,?_⟩
  apply (Reads.getStored hstored).bind_ok
  exact (Reads.getRecord hmem).bind_ok (Reads.pure _)

theorem subSlotOfPrev_reads (hi : Indexed E w) (h : Lineage E w (b::l)) {ip : EndOfSubSlotBundle}
    (hip : b.finishedSubSlots.getLast?=some ip)
    (hground : ∀ root,(b::l).getLast?=some root → w.block? root.prevHeaderHash=none) :
    Reads w (subSlotOfPrev E b) (.ok (subSlotBefore ip l)) := by
  have hstop : ∀ b r,RecordOf E b r → (decide (r.height=0) || r.firstInSubSlot) =
      (!b.finishedSubSlots.isEmpty || decide (b.height=0)) := by
    intro b r hr
    rw [hr.firstInSubSlot,hr.height]
    cases decide (b.height=0) <;> simp
  unfold subSlotOfPrev
  cases l with
  | nil =>
    obtain ⟨r,hr,hprev⟩ := prevOrSelf_first hi h (hground b rfl)
    obtain ⟨c,rest,rc,hstart,hc,hrc,-,hwalk⟩ := h.walkBack hi hstop hr
    simp only [slotStart,List.isEmpty_nil,Bool.not_true,Bool.and_false,Bool.false_eq_true,if_false] at hstart
    obtain ⟨rfl,rfl⟩ := List.cons.inj hstart
    apply hprev.bind_ok
    apply (Reads.ofChain.congr hwalk).bind_ok
    apply (loadedOr_reads hrc hc.stored).bind_ok
    rw [ite_self,subSlotBefore,← hip]
    exact Reads.pure _
  | cons p l =>
    obtain ⟨r,hr,hprev⟩ := prevOrSelf_next hi h
    obtain ⟨c,rest,rc,hstart,hc,hrc,-,hwalk⟩ := h.tail.walkBack hi hstop hr
    apply hprev.bind_ok
    apply (Reads.ofChain.congr hwalk).bind_ok
    apply (loadedOr_reads hrc hc.stored).bind_ok
    rw [subSlotBefore,hstart,hrc.height,hc.height]
    cases rest with
    | nil => exact Reads.pure _
    | cons q rest => exact Reads.pure _

theorem getSpAndIpSubSlots_reads (hi : Indexed E w) (h : Lineage E w (b::l))
    (hground : ∀ root,(b::l).getLast?=some root → w.block? root.prevHeaderHash=none)
    (hr : w.chain.blockRecords.get? (b.headerHash E)=some r) :
    Reads w (getSpAndIpSubSlots E (b.headerHash E)) (.ok (some (subSlotsRead r.overflow (b::l)))) := by
  have hrec : RecordOf E b r := by
    obtain ⟨r',hr',hmem⟩ := h.record hi
    cases hr.symm.trans hmem
    exact hr'
  have hstop : ∀ b r,RecordOf E b r → (r.firstInSubSlot || decide (r.height=0)) =
      (!b.finishedSubSlots.isEmpty || decide (b.height=0)) := by
    intro b r hr
    rw [hr.firstInSubSlot,hr.height]
    cases decide (b.height=0) <;> simp
  obtain ⟨c,rest,rc,hstart,hc,hrc,hend,hwalk⟩ := h.walkBack hi hstop hrec
  have hfirst : rc.firstInSubSlot=true := by
    rw [hrc.firstInSubSlot,← hstop c rc hrc,hend]
  have hcground : ∀ root,(c::rest).getLast?=some root → w.block? root.prevHeaderHash=none := by
    rw [← hstart,getLast?_slotStart]
    exact hground
  unfold getSpAndIpSubSlots subSlotsRead
  rw [hstart]
  apply (Reads.getStored h.stored).bind_ok
  apply (Reads.getRecord hr).bind_ok
  apply (Reads.ofChain.congr hwalk).bind_ok
  apply (loadedOr_reads hrc hc.stored).bind_ok
  rw [if_pos hfirst]
  dsimp only
  cases hip : c.finishedSubSlots.getLast? with
  | none => exact Reads.pure _
  | some ip =>
    dsimp only
    by_cases hover : r.overflow=true
    · rw [if_neg (not_not_intro hover),if_neg (not_not_intro hover)]
      by_cases hlen : c.finishedSubSlots.length > 1
      · rw [if_pos hlen,if_pos hlen]
        exact Reads.pure _
      · rw [if_neg hlen,if_neg hlen]
        exact (subSlotOfPrev_reads hi hc hip hcground).bind_ok (Reads.pure _)
    · rw [if_pos hover,if_pos hover]
      exact Reads.pure _

end Reads

variable {hash : Bytes32}

/-- In every reached state, the lookup for a stored block gives the last sub-slots finished on its own ancestry,
exactly where it does not pass over those of the first block. -/
theorem getSpAndIpSubSlots_exact_iff (h : Received E w) (hp : (w.forest E).Path hash l)
    (hground : ∀ root,l[0]?=some root → w.block? root.prevHeaderHash=none)
    (hr : w.chain.blockRecords.get? hash=some r) :
    (getSpAndIpSubSlots E hash (w.due none)).1 = .ok (some (expectedSubSlots r.overflow l)) ↔
      ¬ MisreadSubSlots r.overflow l.reverse := by
  obtain ⟨P,hrest,-⟩ := h.filed
  have hi := hrest.indexed
  obtain ⟨b,m,hb,rfl,-⟩ := Forest.path_iff.mp hp
  have hline := lineage_of_path hi hp
  have hkey : b.headerHash E=hash := hi.key hash b hb
  rw [← hkey] at hr ⊢
  have hlast : ∀ root,(m++[b]).reverse.getLast?=some root → w.block? root.prevHeaderHash=none := by
    intro root hroot
    apply hground
    rw [← hroot,List.getLast?_reverse,List.head?_eq_getElem?]
  rw [List.reverse_append,List.reverse_singleton,List.singleton_append] at hline hlast
  obtain ⟨v,hrun,-⟩ := getSpAndIpSubSlots_reads hi hline hlast hr (w.due none) (hrest.atRest none) rfl
  have heq : subSlotsRead r.overflow (b::m.reverse)=expectedSubSlots r.overflow (m++[b]) ↔
      ¬ MisreadSubSlots r.overflow (b::m.reverse) := by
    rw [← subSlotsRead_eq_iff,List.reverse_cons,List.reverse_reverse]
  rw [hrun,List.reverse_append,List.reverse_singleton,List.singleton_append,← heq,Except.ok.injEq,Option.some.injEq]

def firstEnd : EndOfSubSlotBundle where
  challengeChain := ⟨⟨1,1024,.getDefaultElement⟩,none,none,none,none⟩
  infusedChallengeChain := none
  rewardChain := ⟨⟨1,1024,.getDefaultElement⟩,0,none,16⟩
  proofs := ⟨tinyProof,none,tinyProof⟩

/-- A first block with its signage point in the first sub-slot and its infusion point after it. -/
def overflowFirst : FullBlock :=
  { tinyFirst 40 with
    finishedSubSlots := [firstEnd]
    rewardChainBlock := ⟨7,0,1041,62,1,⟨0,some [],none,[],32,[]⟩,some ⟨1,992,.getDefaultElement⟩,[],
      ⟨0,17,.getDefaultElement⟩,some ⟨1,992,.getDefaultElement⟩,[],⟨0,17,.getDefaultElement⟩,none,true⟩
    challengeChainSpProof := some tinyProof
    rewardChainSpProof := some tinyProof
    foliage := { (tinyFirst 40).foliage with foliageTransactionBlockSignature := some [] }
    foliageTransactionBlock := some ⟨1,1,0,0,0,0⟩ }

def overflowState : World := (receiveBlock tinyEnv overflowFirst none none ((World.empty 5 5).due none)).2

theorem overflowState_received : Received tinyEnv overflowState :=
  .call (.start 5 5) (fun _ h => by cases h) none

theorem overflowState_block : overflowState.block? 40=some overflowFirst ∧ overflowState.block? 1=none ∧
    (overflowState.chain.blockRecords.get? 40).map (·.overflow)=some true := by decide +kernel

theorem overflowState_path : (overflowState.forest tinyEnv).Path 40 [overflowFirst] :=
  .root overflowState_block.1 rfl

theorem overflowState_ground : ∀ root,[overflowFirst][0]?=some root → overflowState.block? root.prevHeaderHash=none := by
  intro root hroot
  obtain rfl := Option.some.inj hroot
  exact overflowState_block.2.1

/-- The only sub-slot is found twice: the loop for the one before it starts at the first block again. -/
theorem getSpAndIpSubSlots_firstTwice : ∃ w hash l r,Received tinyEnv w ∧ (w.forest tinyEnv).Path hash l ∧
    (∀ root,l[0]?=some root → w.block? root.prevHeaderHash=none) ∧ w.chain.blockRecords.get? hash=some r ∧
    r.overflow=true ∧ expectedSubSlots true l=(none,some firstEnd) ∧
    (getSpAndIpSubSlots tinyEnv hash (w.due none)).1 = .ok (some (some firstEnd,some firstEnd)) := by
  obtain ⟨r,hr,hover⟩ := Option.map_eq_some_iff.mp overflowState_block.2.2
  refine ⟨overflowState,40,[overflowFirst],r,overflowState_received,overflowState_path,overflowState_ground,hr,hover,
    rfl,?_⟩
  decide +kernel

theorem getSpAndIpSubSlots_exact_iff_overflow : ∃ r,overflowState.chain.blockRecords.get? 40=some r ∧
    ((getSpAndIpSubSlots tinyEnv 40 (overflowState.due none)).1 =
      .ok (some (expectedSubSlots r.overflow [overflowFirst])) ↔ ¬ MisreadSubSlots r.overflow [overflowFirst].reverse) := by
  obtain ⟨r,hr,-⟩ := Option.map_eq_some_iff.mp overflowState_block.2.2
  exact ⟨r,hr,getSpAndIpSubSlots_exact_iff overflowState_received overflowState_path overflowState_ground hr⟩

end RoseChain
