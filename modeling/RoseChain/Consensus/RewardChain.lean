import RoseChain.Consensus.SlotChain
import RoseChain.Lib.HashChain

namespace RoseChain
open Lib
variable {E : Env} {V : BlockView} {b p : ChainLink} {l : List ChainLink}

/-- What the reward chain is made of. -/
abbrev RewardItem := RewardChainSubSlot ⊕ RewardChainBlock

namespace RewardItem

def hash (E : Env) : RewardItem → Bytes32 := Sum.elim E.hashRewardChainSubSlot E.hashRewardChainBlock

/-- The challenge that the VDF up to an item starts from. -/
def challenge : RewardItem → Bytes32 := Sum.elim (·.endOfSlotVdf.challenge) (·.rewardChainIpVdf.challenge)

end RewardItem

/-- The finished sub-slots of a block, the newest first. -/
def slotItems (slots : List EndOfSubSlotBundle) : List RewardItem := (slots.map fun s => .inl s.rewardChain).reverse

/-- The reward chain of a chain of blocks, the newest item first. -/
def rewardItems : List ChainLink → List RewardItem
  | [] => []
  | b::l => .inr b.block.rewardChainBlock::(slotItems b.slots++rewardItems l)

@[simp] theorem slotItems_cons (s : EndOfSubSlotBundle) (slots : List EndOfSubSlotBundle) :
    slotItems (s::slots)=slotItems slots++[.inl s.rewardChain] := by
  simp [slotItems]

theorem mem_rewardItems_append {u : List ChainLink} {x : RewardItem} (h : x∈rewardItems l) :
    x∈rewardItems (u++l) := by
  induction u with
  | nil => exact h
  | cons b u ih => simp [rewardItems,ih]

def rewardTop (E : Env) : List ChainLink → Bytes32
  | [] => E.genesisChallenge
  | p::_ => E.hashRewardChainBlock p.block.rewardChainBlock

/-- The challenge that goes on after finished sub-slots. -/
def slotsTop (E : Env) (start : Bytes32) (slots : List EndOfSubSlotBundle) : Bytes32 :=
  (slots.getLast?.map fun s => E.hashRewardChainSubSlot s.rewardChain).getD start

theorem slotsTop_cons (start : Bytes32) (s : EndOfSubSlotBundle) (slots : List EndOfSubSlotBundle) :
    slotsTop E start (s::slots)=slotsTop E (E.hashRewardChainSubSlot s.rewardChain) slots := by
  cases slots <;> simp [slotsTop,List.getLast?_cons]

theorem VDFProof.eq_of_isValid {proof : VDFProof} {inputEl : ClassgroupElement} {info target : VDFInfo}
    (h : proof.isValid E inputEl info (some target)=true) : info=target := by
  simp only [VDFProof.isValid,Option.all_some,Bool.and_eq_true,decide_eq_true_eq] at h
  exact h.1.1

section Slots
variable {prevB : Option BlockRecord} {canFinishEpoch : Bool} {difficulty iters : ℕ}

/-- Where the reward chain of a finished sub-slot starts. -/
def rewardStart (E : Env) (prevB : Option BlockRecord) : Option EndOfSubSlotBundle → Bytes32
  | none => (prevB.map (·.rewardInfusionNewChallenge)).getD E.genesisChallenge
  | some previous => E.hashRewardChainSubSlot previous.rewardChain

variable {previous : Option EndOfSubSlotBundle} {before after : Option Bytes32}

theorem validateFinishedSubSlot_challenge {subSlot : EndOfSubSlotBundle}
    (h : validateFinishedSubSlot E V prevB previous canFinishEpoch difficulty iters false before subSlot = .ok after) :
    subSlot.rewardChain.endOfSlotVdf.challenge=rewardStart E prevB previous := by
  rw [SubSlot.validateFinishedSubSlot_eq] at h
  obtain ⟨_,-,h⟩ := bind_ok.mp h
  obtain ⟨_,-,h⟩ := bind_ok.mp h
  obtain ⟨_,-,h⟩ := bind_ok.mp h
  obtain ⟨_,-,h⟩ := bind_ok.mp h
  obtain ⟨t,ht,h⟩ := bind_ok.mp h
  obtain ⟨_,hvdfs,-⟩ := bind_ok.mp h
  have hstart : t.1=rewardStart E prevB previous := by
    unfold SubSlot.chains at ht
    cases previous with
    | some previous =>
      rw [← Except.ok.inj ht]
      rfl
    | none =>
      cases prevB with
      | none =>
        rw [← Except.ok.inj ht]
        rfl
      | some prev =>
        obtain ⟨_,-,ht⟩ := bind_ok.mp ht
        obtain ⟨_,-,ht⟩ := bind_ok.mp ht
        rw [← Except.ok.inj ht]
        rfl
  unfold SubSlot.vdfs at hvdfs
  obtain ⟨_,hvalid,-⟩ := bind_ok.mp hvdfs
  have heq := VDFProof.eq_of_isValid (by simpa using hvalid)
  rw [← hstart,heq]

theorem validateFinishedSubSlots_named {slots : List EndOfSubSlotBundle}
    (h : validateFinishedSubSlots E V prevB canFinishEpoch difficulty iters false previous before slots = .ok after) :
    NamesBack (RewardItem.hash E) RewardItem.challenge (rewardStart E prevB previous)
      (slotsTop E (rewardStart E prevB previous) slots) (slotItems slots) := by
  induction slots generalizing previous before with
  | nil => rfl
  | cons s slots ih =>
    unfold validateFinishedSubSlots at h
    obtain ⟨found,hslot,hmore⟩ := bind_ok.mp h
    rw [slotItems_cons,namesBack_append,slotsTop_cons]
    refine ⟨_,ih hmore,rfl,?_⟩
    exact validateFinishedSubSlot_challenge hslot

end Slots

variable {header : HeaderBlock}

theorem validateIp_challenge {prevB : Option BlockRecord} {ipIters : ℕ} :
    Yields (fun _ => header.rewardChainBlock.rewardChainIpVdf.challenge =
      slotsTop E (rewardStart E prevB none) header.finishedSubSlots) (validateIp E V header prevB ipIters) := by
  unfold validateIp
  extract_lets -underBinder rcb jp
  have hjp : ∀ x : Bytes32 × ℕ × ClassgroupElement × Bytes32,
      x.1=slotsTop E (rewardStart E prevB none) header.finishedSubSlots →
      Yields (fun _ => rcb.rewardChainIpVdf.challenge=slotsTop E (rewardStart E prevB none) header.finishedSubSlots)
        (jp x) := by
    intro x hx
    obtain ⟨rcChallenge,ipVdfIters,ccInput,ccChallenge⟩ := x
    dsimp -zeta only [jp]
    extract_lets -underBinder ccVdf
    refine .next fun _ => .next fun _ => ?_
    extract_lets -underBinder rcVdf
    refine .bind fun _ hvalid => ?_
    have heq := VDFProof.eq_of_isValid (by simpa using hvalid)
    intro n _
    exact (congrArg (·.challenge) heq).trans hx
  clear_value jp
  have hnone (hlast : header.finishedSubSlots.getLast?=none) :
      slotsTop E (rewardStart E prevB none) header.finishedSubSlots=rewardStart E prevB none := by
    rw [slotsTop,hlast]
    rfl
  cases hlast : header.finishedSubSlots.getLast? with
  | some last =>
    refine .bind fun x hx => hjp x ?_
    rw [← Except.ok.inj hx,slotsTop,hlast]
    rfl
  | none =>
    cases prevB with
    | none =>
      refine .bind fun x hx => hjp x ?_
      rw [← Except.ok.inj hx,hnone hlast]
      rfl
    | some prev =>
      refine .next fun iters => .next fun curr => .next fun hashes => .next fun last => ?_
      refine .bind fun x hx => hjp x ?_
      rw [← Except.ok.inj hx,hnone hlast]
      rfl

variable {n : ℕ}

variable {c : HeaderCall}

theorem HeaderCall.run_slots (hskip : c.skipOverflowLastSsValidation=false)
    (h : c.run E V = .ok n) : ∃ epoch ses,validateFinishedSubSlots E V (c.prevB V) epoch c.expectedDifficulty
      c.expectedSubSlotIters c.skipVdfIsValid none none c.header.finishedSubSlots = .ok ses := by
  rw [HeaderCall.run_eq] at h
  obtain ⟨x,hx,h⟩ := bind_ok.mp h
  obtain ⟨sesHash,hslots,-⟩ := bind_ok.mp h
  have hfalse : x.skip=false := by
    have hskipped := (HeaderCall.place_ok hx).2.1
    unfold HeaderCall.skipSlots at hskipped
    rw [hskip] at hskipped
    exact (Except.ok.inj hskipped).symm
  cases hempty : c.header.finishedSubSlots with
  | nil => exact ⟨x.canFinishEpoch,none,rfl⟩
  | cons s slots =>
    have hnew : c.newSubSlot x.overflow x.skip=true := by
      simp [HeaderCall.newSubSlot,HeaderCall.numSlots,hfalse,hempty]
    unfold HeaderCall.slotLoop at hslots
    rw [if_pos ⟨hnew,by simp [hfalse]⟩,hempty] at hslots
    exact ⟨x.canFinishEpoch,sesHash,hslots⟩

theorem HeaderCall.run_named (hskip : c.skipOverflowLastSsValidation=false)
    (hvdf : c.skipVdfIsValid=false) (h : c.run E V = .ok n) :
    NamesBack (RewardItem.hash E) RewardItem.challenge (rewardStart E (c.prevB V) none)
      (slotsTop E (rewardStart E (c.prevB V) none) c.header.finishedSubSlots) (slotItems c.header.finishedSubSlots) := by
  obtain ⟨epoch,ses,hslots⟩ := HeaderCall.run_slots hskip h
  rw [hvdf] at hslots
  exact validateFinishedSubSlots_named hslots

theorem validateFinishedHeaderBlock_named {filter summary : Bool} {difficulty iters : ℕ}
    {prevB : Option BlockRecord} (hprev : V.tryBlockRecord header.foliage.prevBlockHash=prevB)
    (hheight : header.rewardChainBlock.height=0 ↔ prevB=none)
    (h : validateFinishedHeaderBlock E V header filter difficulty iters summary = .ok n) :
    NamesBack (RewardItem.hash E) RewardItem.challenge (rewardStart E prevB none)
      (E.hashRewardChainBlock header.rewardChainBlock)
      (.inr header.rewardChainBlock::slotItems header.finishedSubSlots) := by
  have hrun := (validateFinishedHeaderBlock_ok h).1
  have hslots := HeaderCall.run_named (c := ⟨header.unfinished,filter,difficulty,iters,false,false,summary⟩)
    rfl rfl hrun
  have hprevB : HeaderCall.prevB V ⟨header.unfinished,filter,difficulty,iters,false,false,summary⟩=prevB := hprev
  rw [hprevB] at hslots
  have hchallenge : header.rewardChainBlock.rewardChainIpVdf.challenge =
      slotsTop E (rewardStart E prevB none) header.finishedSubSlots := by
    unfold validateFinishedHeaderBlock at h
    obtain ⟨required,-,h⟩ := bind_ok.mp h
    cases prevB with
    | none =>
      rw [if_pos (hheight.mpr rfl)] at h
      obtain ⟨prev,hnone,h⟩ := bind_ok.mp h
      obtain rfl : none=prev := Except.ok.inj hnone
      obtain ⟨_,-,h⟩ := bind_ok.mp h
      obtain ⟨_,-,h⟩ := bind_ok.mp h
      obtain ⟨_,-,h⟩ := bind_ok.mp h
      obtain ⟨iters,hip,-⟩ := bind_ok.mp h
      exact validateIp_challenge iters hip
    | some p =>
      rw [if_neg (fun hz => by cases hheight.mp hz)] at h
      obtain ⟨prev,hsome,h⟩ := bind_ok.mp h
      rw [show V.blockRecord header.foliage.prevBlockHash = .ok p from lookup_eq_ok.mpr hprev] at hsome
      obtain rfl : some p=prev := Except.ok.inj hsome
      obtain ⟨_,-,h⟩ := bind_ok.mp h
      obtain ⟨_,-,h⟩ := bind_ok.mp h
      obtain ⟨_,-,h⟩ := bind_ok.mp h
      obtain ⟨iters,hip,-⟩ := bind_ok.mp h
      exact validateIp_challenge iters hip
  refine ⟨rfl,?_⟩
  have hname : RewardItem.challenge (.inr header.rewardChainBlock) =
    header.rewardChainBlock.rewardChainIpVdf.challenge := rfl
  rw [hname,hchallenge]
  exact hslots

namespace HeaderChain

theorem infusionChallenge (h : HeaderChain E (b::l)) :
    b.record.rewardInfusionNewChallenge=E.hashRewardChainBlock b.block.rewardChainBlock := by
  obtain ⟨_,_,_,_,_,_,hr⟩ := h.recordOf
  rw [hr]
  rfl

theorem rewardStart_eq (h : HeaderChain E l) : rewardStart E (l.head?.map (·.record)) none=rewardTop E l := by
  cases l with
  | nil => rfl
  | cons p l => exact h.infusionChallenge

theorem rewardNamed (h : HeaderChain E l) :
    NamesBack (RewardItem.hash E) RewardItem.challenge E.genesisChallenge (rewardTop E l) (rewardItems l) := by
  induction l with
  | nil => rfl
  | cons b l ih =>
    have hl := h.tail
    have hblock := h.recordOf.height.symm.trans h.height
    cases h with
    | next V _ _ hb _ _ =>
      obtain ⟨additions,removals,header,ssi,difficulty,required,-,hheader,hvalid,-⟩ := hb.validated
      obtain ⟨hslots,hrcb,hfoliage⟩ := getBlockHeader_parts hheader
      have hprev : V.tryBlockRecord header.foliage.prevBlockHash=l.head?.map (·.record) := by
        rw [hfoliage]
        exact hb.prev
      have hzero : header.rewardChainBlock.height=0 ↔ l.head?.map (·.record)=none := by
        have hheight : header.rewardChainBlock.height=l.length := by
          rw [hrcb]
          exact hblock
        rw [hheight]
        simp
      have hnamed := validateFinishedHeaderBlock_named hprev hzero hvalid
      rw [hl.rewardStart_eq,hrcb,hslots] at hnamed
      show NamesBack _ _ _ _ ((.inr b.block.rewardChainBlock::slotItems b.slots)++rewardItems l)
      rw [namesBack_append]
      exact ⟨_,hnamed,ih hl⟩

end HeaderChain

def ChainLink.reward (b : ChainLink) : RewardChainBlock × List RewardChainSubSlot :=
  (b.block.rewardChainBlock,b.slots.map (·.rewardChain))

section Decoding
variable {slots slots' : List EndOfSubSlotBundle} {l' : List ChainLink}

theorem slotItems_isLeft : ∀ x∈slotItems slots,x.isLeft=true := by
  simp [slotItems]

theorem takeWhile_items : (slotItems slots++rewardItems l).takeWhile (·.isLeft)=slotItems slots := by
  rw [List.takeWhile_append_of_pos slotItems_isLeft]
  cases l <;> simp [rewardItems]

theorem dropWhile_items : (slotItems slots++rewardItems l).dropWhile (·.isLeft)=rewardItems l := by
  rw [List.dropWhile_append_of_pos slotItems_isLeft]
  cases l <;> simp [rewardItems]

theorem slotItems_inj (h : slotItems slots=slotItems slots') : slots.map (·.rewardChain)=slots'.map (·.rewardChain) := by
  have hinj : Function.Injective (Sum.inl : RewardChainSubSlot → RewardItem) := Sum.inl_injective
  apply List.map_injective_iff.mpr hinj
  simpa [slotItems,Function.comp_def] using h

theorem rewardItems_inj (h : rewardItems l=rewardItems l') : l.map (·.reward)=l'.map (·.reward) := by
  induction l generalizing l' with
  | nil =>
    cases l' with
    | nil => rfl
    | cons b' l' => cases h
  | cons b l ih =>
    cases l' with
    | nil => cases h
    | cons b' l' =>
      obtain ⟨hblock,hrest⟩ := List.cons.inj h
      have hslots := congrArg (List.takeWhile (·.isLeft)) hrest
      have hitems := congrArg (List.dropWhile (·.isLeft)) hrest
      rw [takeWhile_items,takeWhile_items] at hslots
      rw [dropWhile_items,dropWhile_items] at hitems
      have hreward : b.reward=b'.reward := Prod.ext (Sum.inr.inj hblock) (slotItems_inj hslots)
      rw [List.map_cons,List.map_cons,hreward,ih hitems]

end Decoding

theorem HeaderChain.sameReward {b' : ChainLink} {l' : List ChainLink} {s s' : EndOfSubSlotBundle}
    (h : HeaderChain E (b::l)) (h' : HeaderChain E (b'::l'))
    (hinj : Set.InjOn (RewardItem.hash E) {x | x∈rewardItems (b::l) ∨ x∈rewardItems (b'::l')})
    (hstart : ∀ x,x∈rewardItems (b::l) ∨ x∈rewardItems (b'::l') → RewardItem.hash E x≠E.genesisChallenge)
    (hs : b.slots.getLast?=some s) (hs' : b'.slots.getLast?=some s')
    (hhash : E.hashRewardChainSubSlot s.rewardChain=E.hashRewardChainSubSlot s'.rewardChain) :
    l.map (·.reward)=l'.map (·.reward) := by
  have hnamed {b : ChainLink} {l : List ChainLink} {s : EndOfSubSlotBundle} (h : HeaderChain E (b::l))
      (hs : b.slots.getLast?=some s) : NamesBack (RewardItem.hash E) RewardItem.challenge E.genesisChallenge
        (E.hashRewardChainSubSlot s.rewardChain) (slotItems b.slots++rewardItems l) := by
    obtain ⟨slots,hslots⟩ := List.getLast?_eq_some_iff.mp hs
    have hitems := h.rewardNamed.2
    rw [hslots,slotItems,List.map_append,List.reverse_append] at hitems ⊢
    exact ⟨rfl,hitems.2⟩
  have hsame : slotItems b.slots++rewardItems l=slotItems b'.slots++rewardItems l' := by
    apply NamesBack.unique (hinj.mono _) _ (hnamed h hs) (hhash ▸ hnamed h' hs')
    · intro x hx
      exact hx.imp (List.mem_cons_of_mem _) (List.mem_cons_of_mem _)
    · intro x hx
      exact hstart x (hx.imp (List.mem_cons_of_mem _) (List.mem_cons_of_mem _))
  have hitems := congrArg (List.dropWhile (·.isLeft)) hsame
  rw [dropWhile_items,dropWhile_items] at hitems
  exact rewardItems_inj hitems

end RoseChain
