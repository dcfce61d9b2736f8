import RoseChain.Consensus.RewardChain
import RoseChain.Consensus.Runs

namespace RoseChain
variable {E : Env} {V : BlockView} {C : ConsensusConstants} {b p : ChainLink} {l : List ChainLink}

theorem suffix_of_tail {α : Type} {P : List α → Prop} (htail : ∀ {a l},P (a::l) → P l) {l l' : List α} (h : P l)
    (hs : l' <:+ l) : P l' := by
  induction l with
  | nil => exact List.suffix_nil.mp hs ▸ h
  | cons a l ih =>
    obtain rfl | hs := List.suffix_cons_iff.mp hs
    · exact h
    · exact ih (htail h) hs

/-- A chain of blocks, the newest first, whose deficits are those that `calculateDeficit` gives. -/
inductive DeficitChain (C : ConsensusConstants) : List ChainLink → Prop
  | nil : DeficitChain C []
  | next {b : ChainLink} {l : List ChainLink} : DeficitChain C l → b.record.height=l.length →
    calculateDeficit C b.record.height (l.head?.map (·.record)) b.record.overflow b.slots.length =
      .ok b.record.deficit → DeficitChain C (b::l)

/-- What a block can do to the deficit, of an overflow block or not and after some finished sub-slots. -/
inductive DeficitStep (C : ConsensusConstants) (overflow : Bool) (n : ℕ) : ℕ → ℕ → Prop
  | pays (d : ℕ) : DeficitStep C overflow n (d+1) d
  | waits : overflow=true → DeficitStep C overflow n C.minBlocksPerChallengeBlock C.minBlocksPerChallengeBlock
  | paid : DeficitStep C overflow n 0 0
  | resets (d : ℕ) : 0<n → d=C.minBlocksPerChallengeBlock ∧ overflow=true ∨ d+1=C.minBlocksPerChallengeBlock →
    DeficitStep C overflow n 0 d

theorem calculateDeficit_step {height n d : ℕ} {overflow : Bool} {prev : BlockRecord} (hheight : height≠0)
    (h : calculateDeficit C height (some prev) overflow n = .ok d) : DeficitStep C overflow n prev.deficit d := by
  unfold calculateDeficit at h
  rw [if_neg hheight] at h
  obtain ⟨_,hprev,h⟩ := bind_ok.mp h
  obtain rfl := Option.some.inj (assertSome_eq_ok.mp hprev)
  have hpays : uint8 (prev.deficit-1) = .ok d → DeficitStep C overflow n prev.deficit d := by
    intro h
    have hd := (uint_eq_ok.mp h).1
    rw [show prev.deficit=d+1 by omega]
    exact .pays d
  have hresets : 0<n → uint8 (C.minBlocksPerChallengeBlock-1) = .ok d → DeficitStep C overflow n 0 d := by
    intro hn h
    have hd := (uint_eq_ok.mp h).1
    exact .resets d hn (Or.inr (by omega))
  by_cases hfull : prev.deficit=C.minBlocksPerChallengeBlock
  · rw [if_pos hfull] at h
    by_cases hover : overflow=true
    · rw [if_pos hover] at h
      split_ifs at h with hn
      · exact hpays h
      · have hd := (uint_eq_ok.mp h).1
        rw [show d=prev.deficit by omega,hfull]
        exact .waits hover
    · rw [if_neg hover] at h
      exact hpays h
  rw [if_neg hfull] at h
  by_cases hzero : prev.deficit=0
  · rw [if_pos hzero] at h
    rw [hzero]
    split_ifs at h with hn hone hover
    · have hd := (uint_eq_ok.mp h).1
      obtain rfl : d=0 := by omega
      exact .paid
    · have hd := (uint_eq_ok.mp h).1
      exact .resets d (by omega) (Or.inl ⟨by omega,hover⟩)
    · exact hresets (by omega) h
    · exact hresets (by omega) h
  · rw [if_neg hzero] at h
    exact hpays h

namespace DeficitChain

theorem tail (h : DeficitChain C (b::l)) : DeficitChain C l := by
  cases h with
  | next hl => exact hl

theorem height (h : DeficitChain C (b::l)) : b.record.height=l.length := by
  cases h with
  | next _ hheight => exact hheight

theorem step (h : DeficitChain C (b::p::l)) :
    DeficitStep C b.record.overflow b.slots.length p.record.deficit b.record.deficit := by
  cases h with
  | next _ hheight hdeficit => exact calculateDeficit_step (by simp [hheight]) hdeficit

theorem first (h : DeficitChain C [b]) : b.record.deficit+1=C.minBlocksPerChallengeBlock := by
  cases h with
  | next _ hheight hdeficit =>
    unfold calculateDeficit at hdeficit
    rw [if_pos (by simpa using hheight)] at hdeficit
    have hd := (uint_eq_ok.mp hdeficit).1
    omega

theorem of_suffix {l' : List ChainLink} (h : DeficitChain C l) (hs : l' <:+ l) : DeficitChain C l' := suffix_of_tail tail h hs

theorem height_lt (h : DeficitChain C l) : ∀ a∈l,a.record.height<l.length := by
  intro a ha
  induction l with
  | nil => cases ha
  | cons b l ih =>
    obtain rfl | ha := List.mem_cons.mp ha
    · simp [h.height]
    · exact (ih h.tail ha).trans (by simp)

theorem bounds (h : DeficitChain C (b::l)) : 0<C.minBlocksPerChallengeBlock ∧
    b.record.deficit≤C.minBlocksPerChallengeBlock ∧
      (b.record.deficit=C.minBlocksPerChallengeBlock → b.record.overflow=true) := by
  induction l generalizing b with
  | nil =>
    have hfirst := h.first
    exact ⟨by omega,by omega,fun hd => by omega⟩
  | cons p l ih =>
    obtain ⟨hpos,hle,-⟩ := ih h.tail
    have hstep := h.step
    generalize b.record.deficit=d,p.record.deficit=d' at hstep hle
    cases hstep with
    | pays => exact ⟨hpos,by omega,fun hd => by omega⟩
    | waits hover => exact ⟨hpos,le_rfl,fun _ => hover⟩
    | paid => exact ⟨hpos,hle,fun hd => by omega⟩
    | resets _ _ hd =>
      obtain ⟨rfl,hover⟩ | hd := hd
      · exact ⟨hpos,le_rfl,fun _ => hover⟩
      · exact ⟨hpos,by omega,fun hd => by omega⟩

theorem since_challenge (h : DeficitChain C (b::l)) {a : ChainLink} (ha : a∈l)
    (hchallenge : a.record.deficit+1=C.minBlocksPerChallengeBlock) :
    a.record.height+C.minBlocksPerChallengeBlock≤b.record.height ∨
      b.record.deficit+1+b.record.height=a.record.height+C.minBlocksPerChallengeBlock := by
  induction l generalizing b with
  | nil => cases ha
  | cons p l ih =>
    have hb := h.height
    have hp := h.tail.height
    have hstep := h.step
    have hprev : a.record.height+C.minBlocksPerChallengeBlock≤p.record.height ∨
        p.record.deficit+1+p.record.height=a.record.height+C.minBlocksPerChallengeBlock ∧
          a.record.height≤p.record.height := by
      obtain rfl | ha := List.mem_cons.mp ha
      · right
        omega
      · have hlt := h.tail.tail.height_lt a ha
        obtain hfar | hnear := ih h.tail ha
        · exact Or.inl hfar
        · exact Or.inr ⟨hnear,by omega⟩
    rw [List.length_cons] at hb
    generalize b.record.deficit=d,p.record.deficit=d' at hstep hprev
    cases hstep <;> omega

theorem spacing (h : DeficitChain C l) : ∀ a∈l,∀ b∈l,a.record.isChallengeBlock C → b.record.isChallengeBlock C →
    a.record.height<b.record.height → a.record.height+C.minBlocksPerChallengeBlock≤b.record.height := by
  have hdeficit {r : BlockRecord} (hr : r.isChallengeBlock C) : r.deficit+1=C.minBlocksPerChallengeBlock := by
    simp only [BlockRecord.isChallengeBlock,decide_eq_true_eq] at hr
    omega
  induction l with
  | nil => simp
  | cons c l ih =>
    intro a ha b hb hca hcb hlt
    have hbelow := h.tail.height_lt
    have hheight := h.height
    rw [List.mem_cons] at ha hb
    obtain rfl | hb := hb
    · obtain rfl | ha := ha
      · omega
      · have hpaid := hdeficit hcb
        have hsince := h.since_challenge ha (hdeficit hca)
        omega
    · obtain rfl | ha := ha
      · have hbl := hbelow b hb
        omega
      · exact ih h.tail a ha b hb hca hcb hlt

theorem grows (h : DeficitChain C (b::p::l)) (hlt : p.record.deficit<b.record.deficit) :
    p.record.deficit=0 ∧ ∃ slot more,b.slots=slot::more := by
  have hstep := h.step
  generalize b.record.deficit=d,p.record.deficit=d' at hstep hlt
  cases hstep with
  | pays => omega
  | waits => omega
  | paid => omega
  | resets _ hn => exact ⟨rfl,List.exists_cons_of_length_pos hn⟩

end DeficitChain

section Slots
variable {prev : BlockRecord} {slot : EndOfSubSlotBundle} {previous : Option EndOfSubSlotBundle}
  {slots : List EndOfSubSlotBundle} {epoch skip : Bool} {difficulty iters : ℕ} {before after : Option Bytes32}

theorem validateFinishedSubSlot_deficit
    (h : validateFinishedSubSlot E V (some prev) previous epoch difficulty iters skip before slot = .ok after) :
    slot.rewardChain.deficit=if prev.deficit=0 then E.minBlocksPerChallengeBlock else prev.deficit := by
  rw [SubSlot.validateFinishedSubSlot_eq] at h
  obtain ⟨_,-,h⟩ := bind_ok.mp h
  obtain ⟨_,-,h⟩ := bind_ok.mp h
  obtain ⟨_,-,h⟩ := bind_ok.mp h
  obtain ⟨_,-,h⟩ := bind_ok.mp h
  obtain ⟨t,-,h⟩ := bind_ok.mp h
  obtain ⟨_,hvdfs,-⟩ := bind_ok.mp h
  unfold SubSlot.vdfs at hvdfs
  obtain ⟨_,-,hvdfs⟩ := bind_ok.mp hvdfs
  obtain ⟨_,-,hvdfs⟩ := bind_ok.mp hvdfs
  obtain ⟨_,-,hvdfs⟩ := bind_ok.mp hvdfs
  dsimp only at hvdfs
  split_ifs at hvdfs ⊢ <;> simpa using hvdfs

theorem validateFinishedSubSlots_deficit
    (h : validateFinishedSubSlots E V (some prev) epoch difficulty iters skip previous before slots = .ok after) :
    ∀ s∈slots,s.rewardChain.deficit=if prev.deficit=0 then E.minBlocksPerChallengeBlock else prev.deficit := by
  induction slots generalizing previous before with
  | nil => simp
  | cons slot slots ih =>
    unfold validateFinishedSubSlots at h
    obtain ⟨found,hslot,hmore⟩ := bind_ok.mp h
    intro s hs
    obtain rfl | hs := List.mem_cons.mp hs
    · exact validateFinishedSubSlot_deficit hslot
    · exact ih hmore s hs

/-- The infused challenge chain of a sub-slot ends with it, and the challenge chain commits to that. -/
def EndsIcc (E : Env) (slot : EndOfSubSlotBundle) : Prop :=
  ∃ icc,slot.infusedChallengeChain=some icc ∧
    slot.challengeChain.infusedChallengeChainSubSlotHash=some (E.hashInfusedChallengeChainSubSlot icc)

theorem expectedIcc_isSome (hlt : prev.deficit<E.minBlocksPerChallengeBlock) :
    Yields (fun expected => expected.isSome=true) (expectedIcc E V prev none) := by
  unfold expectedIcc
  rw [if_neg (Nat.not_le.mpr hlt)]
  refine .next fun curr => ?_
  extract_lets -underBinder jp
  have hjp (x : Bytes32 × ℕ) : Yields (fun expected => expected.isSome=true) (jp x) := by
    refine .next fun ip => .next fun proof => ?_
    intro expected hexpected
    rw [← Except.ok.inj hexpected]
    rfl
  clear_value jp
  split_ifs
  · exact .next fun _ => .next fun _ => .next hjp
  · exact .next fun _ => .next fun _ => .next hjp

theorem validateIcc_ends (hlt : prev.deficit<E.minBlocksPerChallengeBlock)
    (hdeficit : slot.rewardChain.deficit=E.minBlocksPerChallengeBlock)
    (h : validateIcc E V (some prev) none slot skip = .ok ()) : EndsIcc E slot := by
  unfold validateIcc at h
  dsimp only at h
  obtain ⟨expected,hexpected,hrest⟩ := bind_ok.mp h
  have hsome := expectedIcc_isSome hlt expected hexpected
  obtain ⟨_,hpresent,hrest⟩ := bind_ok.mp hrest
  rw [assertThat_eq_ok] at hpresent
  cases hicc : slot.infusedChallengeChain with
  | none =>
    rw [hicc,Option.isSome_iff_exists.mp hsome |>.choose_spec] at hpresent
    cases hpresent
  | some icc =>
    rw [hicc] at hrest
    obtain ⟨e,-,hrest⟩ := bind_ok.mp hrest
    obtain ⟨input,-,hrest⟩ := bind_ok.mp hrest
    obtain ⟨proof,-,hrest⟩ := bind_ok.mp hrest
    obtain ⟨_,-,hrest⟩ := bind_ok.mp hrest
    obtain ⟨_,-,hrest⟩ := bind_ok.mp hrest
    rw [if_pos hdeficit] at hrest
    obtain ⟨_,hhash,-⟩ := bind_ok.mp hrest
    rw [reject_eq_ok,not_not] at hhash
    exact ⟨icc,hicc,hhash.symm⟩

theorem validateFinishedSubSlots_ends {more : List EndOfSubSlotBundle} (hpos : 0<E.minBlocksPerChallengeBlock)
    (hzero : prev.deficit=0)
    (h : validateFinishedSubSlots E V (some prev) epoch difficulty iters skip none before (slot::more) = .ok after) :
    EndsIcc E slot := by
  have hdeficit := validateFinishedSubSlots_deficit h slot List.mem_cons_self
  rw [if_pos hzero] at hdeficit
  unfold validateFinishedSubSlots at h
  obtain ⟨found,hslot,-⟩ := bind_ok.mp h
  rw [SubSlot.validateFinishedSubSlot_eq] at hslot
  obtain ⟨_,-,hslot⟩ := bind_ok.mp hslot
  obtain ⟨_,hicc,-⟩ := bind_ok.mp hslot
  exact validateIcc_ends (by rw [hzero]; exact hpos) hdeficit hicc

end Slots

namespace HeaderChain

theorem deficit_ok (h : HeaderChain E (b::l)) : calculateDeficit E.constants b.record.height
    (l.head?.map (·.record)) b.record.overflow b.slots.length = .ok b.record.deficit := by
  have hheight := h.recordOf.height
  cases h with
  | next V _ _ hb =>
    obtain ⟨_,_,_,_,_,_,-,-,-,hrecord⟩ := hb.validated
    obtain ⟨_,_,overflow,deficit,_,_,-,-,hdeficit,hr⟩ := blockToBlockRecord_ok _ hrecord
    rw [hb.prev] at hdeficit
    have hfields : b.record.overflow=overflow ∧ b.record.deficit=deficit := by
      rw [hr]
      exact ⟨rfl,rfl⟩
    rw [hfields.1,hfields.2,hheight]
    exact hdeficit

theorem deficitChain (h : HeaderChain E l) : DeficitChain E.constants l := by
  induction l with
  | nil => exact .nil
  | cons b l ih => exact .next (ih h.tail) h.height h.deficit_ok

theorem slots_ok (h : HeaderChain E (b::l)) : ∃ V epoch difficulty iters ses,
    validateFinishedSubSlots E V (l.head?.map (·.record)) epoch difficulty iters false none none b.slots = .ok ses := by
  cases h with
  | next V _ _ hb =>
    obtain ⟨_,_,header,iters,difficulty,_,-,hheader,hvalid,-⟩ := hb.validated
    obtain ⟨hslots,-,hfoliage⟩ := getBlockHeader_parts hheader
    have hrun := (validateFinishedHeaderBlock_ok hvalid).1
    obtain ⟨epoch,ses,hpassed⟩ := HeaderCall.run_slots (c := ⟨header.unfinished,false,difficulty,iters,false,false,true⟩)
      rfl hrun
    have hprev : HeaderCall.prevB V ⟨header.unfinished,false,difficulty,iters,false,false,true⟩ =
        l.head?.map (·.record) := by
      rw [← hb.prev]
      exact congrArg (fun f : Foliage => V.tryBlockRecord f.prevBlockHash) hfoliage
    rw [hprev] at hpassed
    refine ⟨V,epoch,difficulty,iters,ses,?_⟩
    rw [ChainLink.slots,← hslots]
    exact hpassed

theorem of_suffix {l' : List ChainLink} (h : HeaderChain E l) (hs : l' <:+ l) : HeaderChain E l' := suffix_of_tail tail h hs

end HeaderChain

/-- How the deficit goes along a chain; the checks on finished sub-slots are those of `validateFinishedSubSlots`. -/
structure DeficitLaw (E : Env) (l : List ChainLink) : Prop where
  bounds : ∀ b∈l,b.record.deficit≤E.minBlocksPerChallengeBlock ∧
    (b.record.deficit=E.minBlocksPerChallengeBlock → b.record.overflow=true)
  spacing : ∀ a∈l,∀ b∈l,a.record.isChallengeBlock E.constants →
    b.record.isChallengeBlock E.constants → a.record.height<b.record.height →
      a.record.height+E.minBlocksPerChallengeBlock≤b.record.height
  resets : ∀ b p l',b::p::l' <:+ l → p.record.deficit<b.record.deficit → p.record.deficit=0 ∧
    ∃ slot more,b.slots=slot::more ∧ ∀ V epoch difficulty iters skip ses,
      validateFinishedSubSlots E V (some p.record) epoch difficulty iters skip none none b.slots = .ok ses →
        EndsIcc E slot ∧ ∀ s∈b.slots,s.rewardChain.deficit=E.minBlocksPerChallengeBlock

/-- The law holds along any chain of such deficits, as an accepted chain is, with its finished sub-slots. -/
theorem deficit_law : (∀ l,DeficitChain E.constants l → DeficitLaw E l) ∧
    ∀ l,HeaderChain E l → DeficitChain E.constants l ∧ ∀ b p l',b::p::l' <:+ l → ∃ V epoch difficulty iters ses,
        validateFinishedSubSlots E V (some p.record) epoch difficulty iters false none none b.slots = .ok ses := by
  constructor
  · intro l h
    refine ⟨?_,h.spacing,?_⟩
    · intro b hb
      obtain ⟨older,newer,rfl⟩ := List.append_of_mem hb
      exact (h.of_suffix (List.suffix_append older (b::newer))).bounds.2
    · intro b p l' hs hlt
      have hb := h.of_suffix hs
      obtain ⟨hzero,slot,more,hslots⟩ := hb.grows hlt
      refine ⟨hzero,slot,more,hslots,?_⟩
      intro V epoch difficulty iters skip ses hpassed
      have hdeficit := validateFinishedSubSlots_deficit hpassed
      rw [if_pos hzero] at hdeficit
      rw [hslots] at hpassed
      exact ⟨validateFinishedSubSlots_ends hb.bounds.1 hzero hpassed,hdeficit⟩
  · intro l h
    refine ⟨h.deficitChain,?_⟩
    intro b p l' hs
    exact (h.of_suffix hs).slots_ok

def pairsEnv : Env := { tinyEnv with minBlocksPerChallengeBlock := 2 }

def pairsLink (height deficit : ℕ) (slots : List EndOfSubSlotBundle) : ChainLink :=
  let block := { tinyBlock (BitVec.ofNat 256 (height+1)) (BitVec.ofNat 256 height) height (height+1) with
    finishedSubSlots := slots }
  ⟨block,headerBlockToSubBlockRecord pairsEnv 1 block 1024 false deficit 0 none⟩

theorem deficit_law_pairs : DeficitLaw pairsEnv [pairsLink 2 1 [dummySubSlot],pairsLink 1 0 [],pairsLink 0 1 []] := by
  apply deficit_law.1
  exact .next (.next (.next .nil rfl rfl) rfl rfl) rfl rfl

end RoseChain
