import RoseChain.Consensus.FullBlockToBlockRecord
import RoseChain.Consensus.HeaderChecks

namespace RoseChain
variable {E : Env} {V : BlockView}

/-- What a check answers when it is passed. -/
def Yields {α : Type} (R : α → Prop) (m : Check α) : Prop := ∀ a,m = .ok a → R a

variable {α : Type}

variable {β : Type}

theorem Yields.bind {R : β → Prop} {m : Check α} {f : α → Check β}
    (h : ∀ a,m = .ok a → Yields R (f a)) : Yields R (m >>= f) := by
  intro b hb
  obtain ⟨a,ha,hb⟩ := bind_ok.mp hb
  exact h a ha b hb

theorem Yields.next {R : β → Prop} {m : Check α} {f : α → Check β}
    (h : ∀ a,Yields R (f a)) : Yields R (m >>= f) := Yields.bind fun a _ => h a

theorem Yields.ite {R : α → Prop} {c : Prop} [Decidable c] {m m' : Check α}
    (h : c → Yields R m) (h' : ¬ c → Yields R m') : Yields R (if c then m else m') := by
  by_cases hc : c
  · rw [if_pos hc]
    exact h hc
  · rw [if_neg hc]
    exact h' hc

namespace EndOfSubSlotBundle

def sesHash (s : EndOfSubSlotBundle) : Option Bytes32 := s.challengeChain.subepochSummaryHash

def adjusts (s : EndOfSubSlotBundle) : Bool :=
  s.challengeChain.newSubSlotIters.isSome || s.challengeChain.newDifficulty.isSome

end EndOfSubSlotBundle

/-- What the checks on one finished sub-slot say about its summary and its adjustment. -/
structure SlotSummary (previousSlot : Option EndOfSubSlotBundle) (canFinishEpoch : Bool)
    (before : Option Bytes32) (subSlot : EndOfSubSlotBundle) (after : Option Bytes32) : Prop where
  first : subSlot.sesHash.isSome → previousSlot=none ∧ after=subSlot.sesHash
  kept : subSlot.sesHash=none → after=before
  adjusted : subSlot.adjusts=true → canFinishEpoch=true ∧ subSlot.sesHash.isSome

theorem validateFinishedSubSlot_summary {prevB : Option BlockRecord}
    {previousSlot : Option EndOfSubSlotBundle} {canFinishEpoch : Bool} {difficulty iters : ℕ}
    {skip : Bool} {before : Option Bytes32} {subSlot : EndOfSubSlotBundle} :
    Yields (SlotSummary previousSlot canFinishEpoch before subSlot)
      (validateFinishedSubSlot E V prevB previousSlot canFinishEpoch difficulty iters skip before subSlot) := by
  unfold validateFinishedSubSlot
  extract_lets -underBinder C cc rc challengeHash jp
  have hjp : ∀ u,Yields (SlotSummary previousSlot canFinishEpoch before subSlot) (jp u) := by
    intro u
    dsimp -zeta only [jp]
    refine .next fun _ => ?_
    extract_lets -underBinder jp
    have hjp : ∀ found,(subSlot.sesHash.isSome → found=subSlot.sesHash) →
        (subSlot.sesHash=none → found=before) →
        Yields (SlotSummary previousSlot canFinishEpoch before subSlot) (jp found) := by
      intro found hfound hkept
      dsimp -zeta only [jp]
      refine .bind fun _ hempty => ?_
      rw [reject_eq_ok] at hempty
      extract_lets -underBinder jp
      have hjp : (subSlot.adjusts=true → canFinishEpoch=true ∧ subSlot.sesHash.isSome) → ∀ u,
          Yields (SlotSummary previousSlot canFinishEpoch before subSlot) (jp u) := by
        intro hadjusted u
        have hall : SlotSummary previousSlot canFinishEpoch before subSlot found := by
          refine ⟨fun hsome => ⟨?_,hfound hsome⟩,hkept,hadjusted⟩
          cases previousSlot with
          | none => rfl
          | some _ => exact absurd ⟨rfl,hsome⟩ hempty
        dsimp -zeta only [jp]
        refine .next fun _ => ?_
        extract_lets -underBinder jp
        have hjp : ∀ x,Yields (SlotSummary previousSlot canFinishEpoch before subSlot) (jp x) := by
          intro x
          obtain ⟨rcChallenge,eosVdfIters,ccStart⟩ := x
          dsimp -zeta only [jp]
          refine .next fun _ => ?_
          extract_lets -underBinder ccVdf ccIters
          refine .next fun _ => .next fun _ => ?_
          extract_lets -underBinder jp
          have hjp : ∀ u,Yields (SlotSummary previousSlot canFinishEpoch before subSlot) (jp u) := by
            intro u after hafter
            obtain rfl := Except.ok.inj hafter
            exact hall
          clear_value jp
          cases prevB with
          | none => exact .next hjp
          | some prev => exact .ite (fun _ => .next hjp) (fun _ => .next hjp)
        clear_value jp
        cases previousSlot with
        | some previous => exact .next hjp
        | none =>
          cases prevB with
          | none => exact .next hjp
          | some prev => exact .next fun _ => .next fun _ => .next hjp
      clear_value jp
      refine .ite (fun hboth => ?_) (fun _ => ?_)
      · exact .next fun _ => .next (hjp fun _ => hboth)
      · refine .bind fun _ hiters => .bind fun _ hdifficulty => hjp ?_ _
        rw [reject_eq_ok] at hiters hdifficulty
        intro hadjusts
        unfold EndOfSubSlotBundle.adjusts at hadjusts
        rw [Bool.or_eq_true] at hadjusts
        exact absurd hadjusts (not_or.mpr ⟨hiters,hdifficulty⟩)
    clear_value jp
    refine .ite (fun hsome => ?_) (fun hnone => ?_)
    · refine .next fun _ => .bind fun found hfound => ?_
      obtain rfl := Except.ok.inj hfound
      refine hjp _ (fun _ => rfl) fun hnone => ?_
      have hsome' : subSlot.sesHash.isSome=true := hsome
      rw [hnone] at hsome'
      exact absurd hsome' Bool.false_ne_true
    · refine .bind fun found hfound => ?_
      obtain rfl := Except.ok.inj hfound
      exact hjp _ (fun hsome => absurd hsome hnone) fun _ => rfl
  clear_value jp
  cases previousSlot with
  | some previous => exact .next hjp
  | none =>
    cases prevB with
    | none => exact .next hjp
    | some prev => exact .next fun _ => .next fun _ => .next fun _ => .next hjp

/-- How many of the sub-slots carry a sub-epoch summary. -/
def summariesOf (slots : List EndOfSubSlotBundle) : ℕ := slots.countP (·.sesHash.isSome)

def adjustmentsOf (slots : List EndOfSubSlotBundle) : ℕ := slots.countP (·.adjusts)

section Slots
variable {prevB : Option BlockRecord} {canFinishEpoch : Bool} {difficulty iters : ℕ} {skip : Bool}

variable {slots : List EndOfSubSlotBundle}

theorem validateFinishedSubSlots_later : ∀ {previous : EndOfSubSlotBundle} {before after : Option Bytes32},
      validateFinishedSubSlots E V prevB canFinishEpoch difficulty iters skip (some previous) before
        slots = .ok after → (∀ s∈slots,s.sesHash=none ∧ s.adjusts=false) ∧ after=before := by
  induction slots with
  | nil =>
    intro previous before after h
    refine ⟨?_,(Except.ok.inj h).symm⟩
    intro s hs
    cases hs
  | cons slot slots ih =>
    intro previous before after h
    unfold validateFinishedSubSlots at h
    obtain ⟨found,hslot,hmore⟩ := bind_ok.mp h
    have hsummary := validateFinishedSubSlot_summary found hslot
    have hnone : slot.sesHash=none := by
      by_contra hsome
      have hprevious := (hsummary.first (Option.isSome_iff_ne_none.mpr hsome)).1
      cases hprevious
    obtain ⟨hrest,hafter⟩ := ih hmore
    refine ⟨?_,hafter.trans (hsummary.kept hnone)⟩
    intro s hs
    rcases List.mem_cons.mp hs with rfl | hs
    · refine ⟨hnone,?_⟩
      rw [Bool.eq_false_iff]
      intro hadjusts
      have hsome := (hsummary.adjusted hadjusts).2
      rw [hnone] at hsome
      exact Bool.false_ne_true hsome
    · exact hrest s hs

theorem validateFinishedSubSlots_summary {after : Option Bytes32}
    (h : validateFinishedSubSlots E V prevB canFinishEpoch difficulty iters skip none none slots =
      .ok after) : summariesOf slots=(if after.isSome then 1 else 0) ∧
    ∀ s∈slots,s.adjusts=true → canFinishEpoch=true ∧ s.sesHash.isSome := by
  cases slots with
  | nil =>
    obtain rfl := Except.ok.inj h
    refine ⟨rfl,?_⟩
    intro s hs
    cases hs
  | cons slot slots =>
    unfold validateFinishedSubSlots at h
    obtain ⟨found,hslot,hmore⟩ := bind_ok.mp h
    have hsummary := validateFinishedSubSlot_summary found hslot
    obtain ⟨hrest,hafter⟩ := validateFinishedSubSlots_later hmore
    have hzero : summariesOf slots=0 := by
      apply List.countP_eq_zero.mpr
      intro s hs
      rw [(hrest s hs).1]
      exact Bool.false_ne_true
    constructor
    · show (slot::slots).countP _=_
      rw [List.countP_cons]
      show summariesOf slots+_=_
      rw [hzero,Nat.zero_add]
      cases hses : slot.sesHash with
      | none =>
        rw [hafter,hsummary.kept hses]
      | some hash =>
        have hsome : slot.sesHash.isSome=true := by rw [hses]; rfl
        rw [hafter,(hsummary.first hsome).2,hses]
    · intro s hs hadjusts
      rcases List.mem_cons.mp hs with rfl | hs
      · exact hsummary.adjusted hadjusts
      · rw [(hrest s hs).2] at hadjusts
        exact absurd hadjusts Bool.false_ne_true

end Slots

variable {height : ℕ} {check : Bool}

theorem validateSubEpochSummary_some {prevB : Option BlockRecord} {difficulty iters : ℕ}
    {newSubSlot canFinishSe canFinishEpoch : Bool} {ses : Option Bytes32} {u : Unit}
    (h : validateSubEpochSummary E V prevB height newSubSlot canFinishSe canFinishEpoch difficulty
      iters check ses = .ok u) (hses : ses.isSome) : prevB.isSome ∧ newSubSlot=true ∧ canFinishSe=true := by
  unfold validateSubEpochSummary at h
  cases ses with
  | none => exact absurd hses Bool.false_ne_true
  | some hash =>
    cases prevB with
    | none => cases h
    | some prev =>
      obtain ⟨_,hreject,_⟩ := bind_ok.mp h
      rw [reject_eq_ok,not_or,not_not,not_not] at hreject
      exact ⟨rfl,hreject⟩

section Windows
variable {s m n : ℕ}

theorem div_lt_of_mod_zero (h : n % s=0) (hlt : m<n) : m / s<n / s := by
  by_contra hle
  have hn : n / s*s=n := Nat.div_mul_cancel (Nat.dvd_of_mod_eq_zero h)
  have hm : m / s*s ≤ m := Nat.div_mul_le_self m s
  have hmul : n / s*s ≤ m / s*s := Nat.mul_le_mul_right s (not_lt.mp hle)
  omega

theorem sub_one_div (h : 0<n % s) : (n-1) / s=n / s := by
  rcases Nat.eq_zero_or_pos s with rfl | hs
  · rw [Nat.div_zero,Nat.div_zero]
  · have hsum : s*(n / s)+n % s=n := Nat.div_add_mod n s
    have hlt : n % s<s := Nat.mod_lt n hs
    apply Nat.div_eq_of_lt_le
    · rw [Nat.mul_comm]
      omega
    · rw [Nat.succ_mul,Nat.mul_comm]
      omega

theorem mod_pos_of_succ (h : (n+1) % s > 1) : 0<n % s := by
  by_contra hzero
  have hmod : (n+1) % s=(n % s+1 % s) % s := Nat.add_mod n 1 s
  rw [Nat.eq_zero_of_not_pos hzero,Nat.zero_add,Nat.mod_mod] at hmod
  have hle : 1 % s≤1 := Nat.mod_le 1 s
  omega

theorem div_lt_of_succ_mod (h : (n+1) % s≤1) (hlt : m<n) : m / s<(n+1) / s := by
  by_cases hzero : (n+1) % s=0
  · exact div_lt_of_mod_zero hzero (by omega)
  · have hsum : s*((n+1) / s)+(n+1) % s=n+1 := Nat.div_add_mod (n+1) s
    have hn : n=s*((n+1) / s) := by omega
    have hmod : n % s=0 := by
      rw [hn]
      exact Nat.mul_mod_right _ _
    have hdiv : n / s=(n+1) / s := by
      rw [← sub_one_div (Nat.pos_of_ne_zero hzero),Nat.add_sub_cancel]
    rw [← hdiv]
    exact div_lt_of_mod_zero hmod hlt

end Windows

/-- A block of a chain, by its record and the sub-slots finished before it. -/
structure Link where
  record : BlockRecord
  slots : List EndOfSubSlotBundle

/-- Whether a block after `prevB` can finish a sub-epoch and an epoch: not without a finished sub-slot. -/
def finishes (C : ConsensusConstants) (V : BlockView) (prevB : Option BlockRecord)
    (slots : List EndOfSubSlotBundle) : Check (Bool × Bool) :=
  match prevB with
  | none => .ok (false,false)
  | some prev =>
    if slots.length > 0 then
      canFinishSubAndFullEpoch C V prev.height prev.prevHash prev.deficit
        prev.subEpochSummaryIncluded.isSome
    else .ok (false,false)

def Summarised (E : Env) (V : BlockView) (prevB : Option BlockRecord)
    (slots : List EndOfSubSlotBundle) : Prop :=
  ∃ (se epoch : Bool) (height difficulty iters : ℕ) (skip check : Bool) (ses : Option Bytes32),
    finishes E.constants V prevB slots = .ok (se,epoch) ∧
    validateFinishedSubSlots E V prevB epoch difficulty iters skip none none slots = .ok ses ∧
    validateSubEpochSummary E V prevB height (decide (slots.length > 0)) se epoch difficulty iters
      check ses = .ok ()

theorem summarised_nil (prevB : Option BlockRecord) : Summarised E V prevB [] := by
  refine ⟨false,false,0,0,0,true,true,none,?_,rfl,?_⟩
  · cases prevB <;> rfl
  · cases prevB with
    | none => rfl
    | some prev =>
      show reject (decide (0 > 0)=true ∧ (false=true ∨ false=true)) _=_
      rw [reject_eq_ok]
      exact fun h => h.2.elim Bool.false_ne_true Bool.false_ne_true

variable {filter : Bool}

theorem validateUnfinishedHeaderBlock_summarised {header : UnfinishedHeaderBlock}
    {difficulty iters : ℕ} {skipVdf : Bool} {before : Option BlockRecord}
    (hbefore : V.tryBlockRecord header.foliage.prevBlockHash=before) :
    Leads (Summarised E V before header.finishedSubSlots)
      (validateUnfinishedHeaderBlock E V header filter difficulty iters false skipVdf check) := by
  by_cases hslots : header.finishedSubSlots.length > 0
  swap
  · rw [List.length_eq_zero_iff.mp (Nat.eq_zero_of_not_pos hslots)]
    exact fun _ _ => summarised_nil _
  unfold validateUnfinishedHeaderBlock
  extract_lets -underBinder C rcb prevHash prevB genesisBlock
  have hprevB : prevB=before := hbefore
  clear_value prevB
  subst hprevB
  refine .next fun _ => .next fun overflow => ?_
  extract_lets -underBinder jp
  rw [if_neg (fun h => Bool.false_ne_true h.1)]
  refine .bind fun skip hskip => ?_
  obtain rfl := Except.ok.inj hskip
  dsimp -zeta only [jp]
  extract_lets -underBinder finished newSubSlot jp
  have hnew : newSubSlot=true := by
    apply decide_eq_true
    show (if false=true ∧ overflow=true then _ else _) > 0
    rw [if_neg fun h => Bool.false_ne_true h.1]
    exact hslots
  have hnew' : newSubSlot=decide (header.finishedSubSlots.length > 0) := by
    rw [hnew,decide_eq_true hslots]
  have hboth : newSubSlot=true ∧ ¬ false=true := ⟨hnew,Bool.false_ne_true⟩
  have hjp : ∀ height se epoch,finishes C V prevB header.finishedSubSlots = .ok (se,epoch) →
      Leads (Summarised E V prevB header.finishedSubSlots) (jp (height,se,epoch)) := by
    intro height se epoch hfinishes
    dsimp -zeta only [jp]
    extract_lets -underBinder jp
    rw [if_pos hboth]
    refine .bind fun ses hses => ?_
    dsimp -zeta only [jp]
    extract_lets -underBinder jp
    rw [if_pos hboth]
    refine .bind fun u hsummary => ?_
    rw [hnew'] at hsummary
    exact fun _ _ => ⟨se,epoch,height,difficulty,iters,skipVdf,check,ses,hfinishes,hses,hsummary⟩
  clear_value jp newSubSlot
  cases prevB with
  | none =>
    refine .next fun _ => .next fun _ => .bind fun x hx => ?_
    obtain rfl := Except.ok.inj hx
    exact hjp 0 false false rfl
  | some prev =>
    refine .next fun height => ?_
    rw [if_pos hnew]
    refine .bind fun x hx => ?_
    obtain ⟨se,epoch⟩ := x
    refine .bind fun y hy => ?_
    obtain rfl := Except.ok.inj hy
    apply hjp height se epoch
    unfold finishes
    dsimp only
    rw [if_pos hslots]
    exact hx

/-- The sub-slots of a block follow the checks on summaries and adjustments, and its record tells. -/
structure FollowsChecks (E : Env) (V : BlockView) (prevB : Option BlockRecord) (b : Link) : Prop where
  checked : Summarised E V prevB b.slots
  recorded : b.record.subEpochSummaryIncluded.isSome=true ↔ 0<summariesOf b.slots

variable {requiredIters : ℕ} {block : FullBlock}

theorem blockToBlockRecord_recorded : Yields (fun record => record.subEpochSummaryIncluded.isSome=true ↔
      0<summariesOf block.finishedSubSlots) (blockToBlockRecord E V requiredIters block) := by
  unfold blockToBlockRecord
  extract_lets -underBinder prevB
  refine .next fun _ => .next fun x => ?_
  obtain ⟨subSlotIters,_⟩ := x
  dsimp -zeta only
  refine .next fun overflow => .next fun deficit => ?_
  extract_lets -underBinder foundSesHash jp
  have hfound : foundSesHash.isSome=true ↔ 0<summariesOf block.finishedSubSlots := by
    unfold summariesOf
    rw [List.countP_pos_iff,List.getLast?_isSome]
    constructor
    · intro hne
      obtain ⟨hash,hmem⟩ := List.exists_mem_of_ne_nil _ hne
      obtain ⟨s,hs,hsome⟩ := List.mem_filterMap.mp hmem
      exact ⟨s,hs,Option.isSome_iff_exists.mpr ⟨hash,hsome⟩⟩
    · rintro ⟨s,hs,hsome⟩
      obtain ⟨hash,hhash⟩ := Option.isSome_iff_exists.mp hsome
      exact List.ne_nil_of_mem (List.mem_filterMap.mpr ⟨s,hs,hhash⟩)
  have hjp : ∀ ses,(ses.isSome=true ↔ foundSesHash.isSome=true) →
      Yields (fun record => record.subEpochSummaryIncluded.isSome=true ↔
        0<summariesOf block.finishedSubSlots) (jp ses) := by
    intro ses hses
    dsimp -zeta only [jp]
    extract_lets -underBinder fuel
    refine .next fun height => ?_
    intro record hrecord
    obtain rfl := Except.ok.inj hrecord
    exact hses.trans hfound
  clear_value jp foundSesHash
  cases foundSesHash with
  | none =>
    refine .bind fun ses hses => hjp ses ?_
    obtain rfl := Except.ok.inj hses
    exact Iff.rfl
  | some found =>
    refine .next fun prev => .next fun first => .next fun prevPrev => .next fun made => .next fun _ => ?_
    refine .bind fun ses hses => hjp ses ?_
    obtain rfl := Except.ok.inj hses
    exact Iff.rfl

theorem validateFinishedHeaderBlock_follows {header : HeaderBlock}
    {record : BlockRecord} {difficulty iters n : ℕ} (hslots : block.finishedSubSlots=header.finishedSubSlots)
    (h : validateFinishedHeaderBlock E V header filter difficulty iters check = .ok n)
    (hrecord : blockToBlockRecord E V requiredIters block = .ok record) :
    FollowsChecks E V (V.tryBlockRecord header.foliage.prevBlockHash) ⟨record,header.finishedSubSlots⟩ := by
  refine ⟨?_,?_⟩
  · unfold validateFinishedHeaderBlock at h
    obtain ⟨required,hrequired,-⟩ := bind_ok.mp h
    exact validateUnfinishedHeaderBlock_summarised rfl required hrequired
  · have hiff := blockToBlockRecord_recorded record hrecord
    rw [hslots] at hiff
    exact hiff

/-- A chain whose blocks all follow the checks over the records before them, the newest first. -/
inductive SummaryChain (E : Env) : List Link → Prop
  | first (b : Link) (V : BlockView) (hheight : b.record.height=0)
      (hchecks : FollowsChecks E V none b) : SummaryChain E [b]
  | next (b prev : Link) (l : List Link) (V : BlockView) (hchain : SummaryChain E (prev::l))
      (hheight : b.record.height=prev.record.height+1)
      (hprev : b.record.prevHash=prev.record.headerHash)
      (hknown : ∀ p∈prev::l,V.blockRecords.get? p.record.headerHash=some p.record)
      (hchecks : FollowsChecks E V (some prev.record) b) : SummaryChain E (b::prev::l)

variable {b : Link} {l : List Link}

theorem SummaryChain.height_lt (h : SummaryChain E (b::l)) : ∀ p∈l,p.record.height<b.record.height := by
  induction l generalizing b with
  | nil =>
    intro p hp
    cases hp
  | cons prev l ih =>
    cases h with
    | next _ _ _ V hchain hheight hprev hknown hchecks =>
      intro p hp
      rcases List.mem_cons.mp hp with rfl | hp
      · omega
      · have hlt := ih hchain p hp
        omega

variable {C : ConsensusConstants}

theorem SummaryChain.sesSince_none : ∀ {b : Link} {n : ℕ},SummaryChain E (b::l) →
      (∀ p∈b::l,V.blockRecords.get? p.record.headerHash=some p.record) → sesSince C V n b.record = .ok false →
      ∀ p∈b::l,p.record.height / C.subEpochBlocks=b.record.height / C.subEpochBlocks →
        p.record.subEpochSummaryIncluded=none := by
  induction l with
  | nil =>
    intro b n hchain hknown hwalk p hp _
    obtain rfl := List.mem_singleton.mp hp
    cases n with
    | zero => cases hwalk
    | succ n =>
      unfold sesSince at hwalk
      by_cases hses : p.record.subEpochSummaryIncluded.isSome=true
      · rw [if_pos hses] at hwalk
        cases hwalk
      · exact Option.not_isSome_iff_eq_none.mp hses
  | cons prev l ih =>
    intro b n hchain hknown hwalk
    cases n with
    | zero => cases hwalk
    | succ n =>
      have hbelow := hchain.height_lt
      cases hchain with
      | next _ _ _ V' hchain hheight hprev _ _ =>
        unfold sesSince at hwalk
        by_cases hses : b.record.subEpochSummaryIncluded.isSome=true
        · rw [if_pos hses] at hwalk
          cases hwalk
        · rw [if_neg hses] at hwalk
          intro p hp hwindow
          rcases List.mem_cons.mp hp with rfl | hp
          · exact Option.not_isSome_iff_eq_none.mp hses
          · by_cases hmod : b.record.height % C.subEpochBlocks > 0
            · rw [if_pos hmod] at hwalk
              have hrecord : V.blockRecord b.record.prevHash = .ok prev.record := by
                unfold BlockView.blockRecord
                rw [hprev,hknown prev (by simp)]
                rfl
              rw [hrecord] at hwalk
              have hprevWindow : prev.record.height / C.subEpochBlocks =
                  b.record.height / C.subEpochBlocks := by
                rw [← sub_one_div hmod,hheight,Nat.add_sub_cancel]
              exact ih hchain (fun q hq => hknown q (List.mem_cons_of_mem _ hq)) hwalk p hp
                (hwindow.trans hprevWindow.symm)
            · have hlt := div_lt_of_mod_zero (Nat.eq_zero_of_not_pos hmod) (hbelow p hp)
              omega

variable {se epoch : Bool}

theorem canFinish_cases {deficit : ℕ} {prevHash : Bytes32} {included : Bool}
    (h : canFinishSubAndFullEpoch C V height prevHash deficit included = .ok (se,epoch)) :
    (se=false ∧ epoch=false) ∨ (included=false ∧ epoch=heightCanBeFirstInEpoch C (height+1) ∧
      ((height+1) % C.subEpochBlocks > 1 → ∃ curr,V.blockRecord prevHash = .ok curr ∧
        sesSince C V (curr.height+1) curr = .ok false)) := by
  have hrefused : (Except.ok (false,false) : Check (Bool × Bool)) = .ok (se,epoch) →
      se=false ∧ epoch=false := by
    intro heq
    have hpair := Prod.mk.inj (Except.ok.inj heq)
    exact ⟨hpair.1.symm,hpair.2.symm⟩
  unfold canFinishSubAndFullEpoch at h
  by_cases hheight : (height : ℤ)<C.subEpochBlocks-1
  · rw [if_pos hheight] at h
    exact Or.inl (hrefused h)
  rw [if_neg hheight] at h
  by_cases hdeficit : deficit > 0
  · rw [if_pos hdeficit] at h
    exact Or.inl (hrefused h)
  rw [if_neg hdeficit] at h
  cases included with
  | true =>
    rw [if_pos rfl] at h
    exact Or.inl (hrefused h)
  | false =>
    rw [if_neg Bool.false_ne_true] at h
    by_cases hmod : (height+1) % C.subEpochBlocks > 1
    · rw [if_pos hmod] at h
      obtain ⟨curr,hcurr,h⟩ := bind_ok.mp h
      obtain ⟨found,hfound,h⟩ := bind_ok.mp h
      cases found with
      | true => exact Or.inl (hrefused h)
      | false =>
        have hpair := Except.ok.inj h
        exact Or.inr ⟨rfl,(Prod.mk.inj hpair).2.symm,fun _ => ⟨curr,hcurr,hfound⟩⟩
    · rw [if_neg hmod] at h
      have hpair := Except.ok.inj h
      exact Or.inr ⟨rfl,(Prod.mk.inj hpair).2.symm,fun hgt => absurd hgt hmod⟩

variable {slots : List EndOfSubSlotBundle}

theorem SummaryChain.window_empty {prev : Link} (hchain : SummaryChain E (prev::l))
    (hknown : ∀ p∈prev::l,V.blockRecords.get? p.record.headerHash=some p.record)
    (h : finishes C V (some prev.record) slots = .ok (true,epoch)) :
    (∀ p∈prev::l,p.record.height / C.subEpochBlocks=(prev.record.height+1) / C.subEpochBlocks →
      p.record.subEpochSummaryIncluded=none) ∧ epoch=heightCanBeFirstInEpoch C (prev.record.height+1) := by
  unfold finishes at h
  by_cases hslots : slots.length > 0
  · dsimp only at h
    rw [if_pos hslots] at h
    rcases canFinish_cases h with ⟨hfalse,-⟩ | ⟨hincluded,hepoch,hwalk⟩
    · cases hfalse
    refine ⟨?_,hepoch⟩
    have hbelow := hchain.height_lt
    have hhead : prev.record.subEpochSummaryIncluded=none := by
      apply Option.not_isSome_iff_eq_none.mp
      rw [hincluded]
      exact Bool.false_ne_true
    intro p hp hwindow
    rcases List.mem_cons.mp hp with rfl | hp
    · exact hhead
    · have hlt := hbelow p hp
      by_cases hmod : (prev.record.height+1) % C.subEpochBlocks > 1
      · obtain ⟨curr,hcurr,hnone⟩ := hwalk hmod
        cases hchain with
        | first => cases hp
        | next _ before l' V' hbefore hheight hprev _ _ =>
          have hrecord : V.blockRecord prev.record.prevHash = .ok before.record := by
            unfold BlockView.blockRecord
            rw [hprev,hknown before (by simp)]
            rfl
          obtain rfl := Except.ok.inj (hrecord.symm.trans hcurr)
          have hsame : prev.record.height / C.subEpochBlocks =
              (prev.record.height+1) / C.subEpochBlocks := by
            rw [← sub_one_div (n := prev.record.height+1) (by omega),Nat.add_sub_cancel]
          have hmod' : 0<prev.record.height % C.subEpochBlocks := mod_pos_of_succ hmod
          have hbeforeWindow : before.record.height / C.subEpochBlocks =
              prev.record.height / C.subEpochBlocks := by
            rw [← sub_one_div hmod',hheight,Nat.add_sub_cancel]
          exact hbefore.sesSince_none (fun q hq => hknown q (List.mem_cons_of_mem _ hq)) hnone p hp
            (hwindow.trans (hsame.symm.trans hbeforeWindow.symm))
      · have hlast := div_lt_of_succ_mod (not_lt.mp hmod) hlt
        omega
  · dsimp only at h
    rw [if_neg hslots] at h
    cases h

theorem finishes_epoch {prevB : Option BlockRecord} (h : finishes C V prevB slots = .ok (se,true)) :
    ∃ prev,prevB=some prev ∧ heightCanBeFirstInEpoch C (prev.height+1)=true := by
  unfold finishes at h
  cases prevB with
  | none => cases h
  | some prev =>
    dsimp only at h
    by_cases hslots : slots.length > 0
    · rw [if_pos hslots] at h
      rcases canFinish_cases h with ⟨-,hfalse⟩ | ⟨-,hepoch,-⟩
      · cases hfalse
      · exact ⟨prev,rfl,hepoch.symm⟩
    · rw [if_neg hslots] at h
      cases h

theorem FollowsChecks.summaries_le {prevB : Option BlockRecord}
    (h : FollowsChecks E V prevB b) : summariesOf b.slots≤1 := by
  obtain ⟨se,epoch,height,difficulty,iters,skip,check,ses,-,hslots,-⟩ := h.checked
  rw [(validateFinishedSubSlots_summary hslots).1]
  split_ifs <;> omega

theorem FollowsChecks.finished {prevB : Option BlockRecord}
    (h : FollowsChecks E V prevB b) (hses : 0<summariesOf b.slots) : ∃ prev epoch,prevB=some prev ∧
      finishes E.constants V (some prev) b.slots = .ok (true,epoch) := by
  obtain ⟨se,epoch,height,difficulty,iters,skip,check,ses,hfinishes,hslots,hsummary⟩ :=
    h.checked
  rw [(validateFinishedSubSlots_summary hslots).1] at hses
  have hsome : ses.isSome=true := by
    by_contra hnone
    rw [if_neg hnone] at hses
    omega
  obtain ⟨hprev,-,hse⟩ := validateSubEpochSummary_some hsummary hsome
  obtain ⟨prev,rfl⟩ := Option.isSome_iff_exists.mp hprev
  rw [hse] at hfinishes
  exact ⟨prev,epoch,rfl,hfinishes⟩

theorem FollowsChecks.adjusted {prevB : Option BlockRecord}
    (h : FollowsChecks E V prevB b) {s : EndOfSubSlotBundle} (hs : s∈b.slots)
    (hadjusts : s.adjusts=true) : s.sesHash.isSome ∧ ∃ prev,prevB=some prev ∧
        heightCanBeFirstInEpoch E.constants (prev.height+1)=true := by
  obtain ⟨se,epoch,height,difficulty,iters,skip,check,ses,hfinishes,hslots,-⟩ := h.checked
  obtain ⟨hepoch,hsome⟩ := (validateFinishedSubSlots_summary hslots).2 s hs hadjusts
  rw [hepoch] at hfinishes
  exact ⟨hsome,finishes_epoch hfinishes⟩

theorem FollowsChecks.adjustments_le {prevB : Option BlockRecord}
    (h : FollowsChecks E V prevB b) : adjustmentsOf b.slots ≤ summariesOf b.slots := by
  apply List.countP_mono_left
  intro s hs hadjusts
  exact (h.adjusted hs hadjusts).1

/-- What is counted in the blocks at the heights of one window. -/
def countIn (C : ConsensusConstants) (f : List EndOfSubSlotBundle → ℕ) (k : ℕ) (chain : List Link) : ℕ :=
  ((chain.filter fun b => b.record.height / C.subEpochBlocks=k).map fun b => f b.slots).sum

def summariesIn (C : ConsensusConstants) (k : ℕ) (chain : List Link) : ℕ := countIn C summariesOf k chain

def adjustmentsIn (C : ConsensusConstants) (k : ℕ) (chain : List Link) : ℕ :=
  countIn C adjustmentsOf k chain

theorem countIn_cons (C : ConsensusConstants) (f : List EndOfSubSlotBundle → ℕ) (k : ℕ) (b : Link)
    (chain : List Link) : countIn C f k (b::chain) =
      (if b.record.height / C.subEpochBlocks=k then f b.slots else 0)+countIn C f k chain := by
  unfold countIn
  by_cases h : b.record.height / C.subEpochBlocks=k
  · rw [List.filter_cons_of_pos (by simpa using h),List.map_cons,List.sum_cons,if_pos h]
  · rw [List.filter_cons_of_neg (by simpa using h),if_neg h,Nat.zero_add]

variable {chain : List Link}

variable {f : List EndOfSubSlotBundle → ℕ} {k : ℕ}

theorem countIn_eq_zero (h : ∀ p∈chain,p.record.height / C.subEpochBlocks=k → f p.slots=0) :
    countIn C f k chain=0 := by
  induction chain with
  | nil => rfl
  | cons b chain ih =>
    rw [countIn_cons,ih fun p hp => h p (List.mem_cons_of_mem _ hp)]
    by_cases hk : b.record.height / C.subEpochBlocks=k
    · rw [if_pos hk,h b List.mem_cons_self hk]
    · rw [if_neg hk]

theorem countIn_mono {g : List EndOfSubSlotBundle → ℕ} (h : ∀ p∈chain,f p.slots≤g p.slots) :
    countIn C f k chain ≤ countIn C g k chain := by
  induction chain with
  | nil => exact Nat.le_refl _
  | cons b chain ih =>
    have hb := h b List.mem_cons_self
    have hrest := ih fun p hp => h p (List.mem_cons_of_mem _ hp)
    rw [countIn_cons,countIn_cons]
    by_cases hk : b.record.height / C.subEpochBlocks=k
    · rw [if_pos hk,if_pos hk]
      omega
    · rw [if_neg hk,if_neg hk]
      omega

theorem SummaryChain.follows (h : SummaryChain E chain) : ∀ p∈chain,∃ V prevB,FollowsChecks E V prevB p ∧
      ∀ prev,prevB=some prev → p.record.height=prev.height+1 := by
  induction h with
  | first b V hheight hchecks =>
    intro p hp
    obtain rfl := List.mem_singleton.mp hp
    exact ⟨V,none,hchecks,fun prev hnone => by cases hnone⟩
  | next b prev l V hchain hheight hprev hknown hchecks ih =>
    intro p hp
    rcases List.mem_cons.mp hp with rfl | hp
    · refine ⟨V,some prev.record,hchecks,?_⟩
      intro before hbefore
      obtain rfl := Option.some.inj hbefore
      exact hheight
    · exact ih p hp

theorem SummaryChain.summaries_le (h : SummaryChain E chain) (k : ℕ) : summariesIn E.constants k chain≤1 := by
  induction h with
  | first b V hheight hchecks =>
    have hzero : summariesOf b.slots=0 := by
      by_contra hsome
      obtain ⟨prev,_,hprev,-⟩ := hchecks.finished (Nat.pos_of_ne_zero hsome)
      cases hprev
    unfold summariesIn
    rw [countIn_cons,hzero,ite_self]
    exact Nat.zero_le 1
  | next b prev l V hchain hheight hprev hknown hchecks ih =>
    unfold summariesIn at ih ⊢
    rw [countIn_cons]
    by_cases hk : b.record.height / E.subEpochBlocks=k
    · rw [if_pos hk]
      by_cases hnone : summariesOf b.slots=0
      · rw [hnone,Nat.zero_add]
        exact ih
      · obtain ⟨before,epoch,hbefore,hfinishes⟩ := hchecks.finished (Nat.pos_of_ne_zero hnone)
        obtain rfl := Option.some.inj hbefore
        have hempty : countIn E.constants summariesOf k (prev::l)=0 := by
          apply countIn_eq_zero
          intro p hp hwindow
          have hses := (hchain.window_empty hknown hfinishes).1 p hp (by rw [hwindow,← hk,hheight])
          obtain ⟨V',prevB,hp,-⟩ := hchain.follows p hp
          by_contra hpos
          have hincluded := hp.recorded.mpr (Nat.pos_of_ne_zero hpos)
          rw [hses] at hincluded
          exact Bool.false_ne_true hincluded
        rw [hempty]
        exact hchecks.summaries_le
    · rw [if_neg hk,Nat.zero_add]
      exact ih

theorem firstInEpoch_dvd (h : heightCanBeFirstInEpoch C height=true) :
    C.epochBlocks ∣ height / C.subEpochBlocks*C.subEpochBlocks := by
  unfold heightCanBeFirstInEpoch at h
  rw [beq_iff_eq] at h
  have hstart : height / C.subEpochBlocks*C.subEpochBlocks=height-height % C.subEpochBlocks := by
    have hsum := Nat.div_add_mod' height C.subEpochBlocks
    omega
  rw [hstart]
  exact Nat.dvd_of_mod_eq_zero h

/-- A window of heights has at most one sub-epoch summary, and adjusts only with one that starts an
epoch. -/
theorem subEpochs_once (E : Env) (chain : List Link) (h : SummaryChain E chain) :
    (∀ k,summariesIn E.constants k chain≤1) ∧ (∀ b∈chain,∀ s∈b.slots,s.adjusts=true → s.sesHash.isSome ∧
      E.epochBlocks ∣ b.record.height / E.subEpochBlocks*E.subEpochBlocks) ∧
    ∀ k,adjustmentsIn E.constants k chain≤1 := by
  refine ⟨h.summaries_le,?_,?_⟩
  · intro b hb s hs hadjusts
    obtain ⟨V,prevB,hchecks,hheight⟩ := h.follows b hb
    obtain ⟨hses,prev,hprev,hfirst⟩ := hchecks.adjusted hs hadjusts
    refine ⟨hses,?_⟩
    rw [hheight prev hprev]
    exact firstInEpoch_dvd hfirst
  · intro k
    apply le_trans _ (h.summaries_le k)
    apply countIn_mono
    intro p hp
    obtain ⟨V,prevB,hchecks,-⟩ := h.follows p hp
    exact hchecks.adjustments_le

def summariesAfter (C : ConsensusConstants) (k : ℕ) (chain : List Link) : ℕ :=
  ((chain.filter fun b => b.record.height≠0 ∧ (b.record.height-1) / C.subEpochBlocks=k).map
    fun b => summariesOf b.slots).sum

/-- A network with sub-epochs of three blocks, where every block is a challenge block. -/
def shortEnv : Env := { tinyEnv with subEpochBlocks := 3,minBlocksPerChallengeBlock := 1,maxSubSlotBlocks := 1 }

def shortProof : VDFProof := ⟨0,[],false⟩

/-- A sub-slot that carries the summary of its sub-epoch, after a slot with the given hash. -/
def shortSlot (challenge : Bytes32) : EndOfSubSlotBundle where
  challengeChain := ⟨⟨challenge,1024,.getDefaultElement⟩,some 0,some 0,none,none⟩
  infusedChallengeChain := some ⟨⟨0,975,.getDefaultElement⟩⟩
  rewardChain := ⟨⟨0,975,.getDefaultElement⟩,0,some 0,1⟩
  proofs := ⟨shortProof,some shortProof,shortProof⟩

/-- A block of the short network, with the hashes of the sub-slots finished before it. -/
def shortRecord (height : ℕ) (hashes : Option (List Bytes32)) (ses : Option SubEpochSummary) :
    BlockRecord where
  headerHash := BitVec.ofNat 256 (height+1)
  prevHash := BitVec.ofNat 256 height
  height := height
  weight := 7*(height+1)
  totalIters := 49
  signagePointIndex := 0
  challengeVdfOutput := .getDefaultElement
  infusedChallengeVdfOutput := none
  rewardInfusionNewChallenge := 0
  challengeBlockInfoHash := 0
  subSlotIters := 1024
  poolPuzzleHash := 0
  farmerPuzzleHash := 0
  requiredIters := 1
  deficit := 0
  overflow := false
  prevTransactionBlockHeight := 0
  timestamp := none
  prevTransactionBlockHash := none
  fees := none
  rewardClaimsIncorporated := none
  finishedChallengeSlotHashes := hashes
  finishedInfusedChallengeSlotHashes := hashes
  finishedRewardSlotHashes := hashes
  subEpochSummaryIncluded := ses

def shortLinks : List Link :=
  [⟨shortRecord 0 (some [1]) none,[]⟩,⟨shortRecord 1 none none,[]⟩,⟨shortRecord 2 none none,[]⟩,
    ⟨shortRecord 3 none none,[]⟩,⟨shortRecord 4 (some [0]) (some ⟨1,1,0,none,none⟩),[shortSlot 1]⟩,
    ⟨shortRecord 5 none none,[]⟩,⟨shortRecord 6 (some [0]) (some ⟨0,0,1,none,none⟩),[shortSlot 0]⟩]

def shortView : BlockView where
  blockRecords := shortLinks.foldl (fun d b => d.set b.record.headerHash b.record) Lib.Dict.empty
  heights := Lib.Dict.empty

def shortPasses (prevB : Option BlockRecord) (b : Link) : Bool :=
  match finishes shortEnv.constants shortView prevB b.slots with
  | .error _ => false
  | .ok (se,epoch) =>
    match validateFinishedSubSlots shortEnv shortView prevB epoch 7 1024 false none none b.slots with
    | .error _ => false
    | .ok ses =>
      (validateSubEpochSummary shortEnv shortView prevB b.record.height (decide (b.slots.length > 0))
        se epoch 7 1024 true ses).isOk &&
      (b.record.subEpochSummaryIncluded.isSome == decide (0<summariesOf b.slots))

theorem shortPasses_follows {prevB : Option BlockRecord}
    (h : shortPasses prevB b=true) : FollowsChecks shortEnv shortView prevB b := by
  unfold shortPasses at h
  rcases hfinishes : finishes shortEnv.constants shortView prevB b.slots with e | ⟨se,epoch⟩
  · rw [hfinishes] at h
    cases h
  rw [hfinishes] at h
  dsimp only at h
  rcases hslots : validateFinishedSubSlots shortEnv shortView prevB epoch 7 1024 false none none b.slots
    with e | ses
  · rw [hslots] at h
    cases h
  rw [hslots] at h
  dsimp only at h
  rw [Bool.and_eq_true,beq_iff_eq] at h
  rcases hsummary : validateSubEpochSummary shortEnv shortView prevB b.record.height
    (decide (b.slots.length > 0)) se epoch 7 1024 true ses with e | u
  · rw [hsummary] at h
    exact absurd h.1 Bool.false_ne_true
  · refine ⟨⟨se,epoch,_,7,1024,false,true,ses,hfinishes,hslots,hsummary⟩,?_⟩
    rw [h.2,decide_eq_true_eq]

/-- The checks on a whole chain of the short network, the newest block first. -/
def shortChainPasses : List Link → Bool
  | [] => false
  | [b] => b.record.height == 0 && shortPasses none b
  | b::prev::l =>
    b.record.height == prev.record.height+1 && (b.record.prevHash == prev.record.headerHash &&
      ((prev::l).all (fun p => shortView.blockRecords.get? p.record.headerHash == some p.record) &&
        (shortPasses (some prev.record) b && shortChainPasses (prev::l))))

theorem shortChainPasses_chain (h : shortChainPasses l=true) : SummaryChain shortEnv l := by
  induction l with
  | nil => exact absurd h Bool.false_ne_true
  | cons b l ih =>
    cases l with
    | nil =>
      unfold shortChainPasses at h
      rw [Bool.and_eq_true,beq_iff_eq] at h
      exact .first b shortView h.1 (shortPasses_follows h.2)
    | cons prev l =>
      unfold shortChainPasses at h
      rw [Bool.and_eq_true,Bool.and_eq_true,Bool.and_eq_true,Bool.and_eq_true,beq_iff_eq,
        beq_iff_eq,List.all_eq_true] at h
      obtain ⟨hheight,hprev,hknown,hpasses,hrest⟩ := h
      apply SummaryChain.next b prev l shortView (ih hrest) hheight hprev _ (shortPasses_follows hpasses)
      intro p hp
      exact beq_iff_eq.mp (hknown p hp)

theorem shortChain : SummaryChain shortEnv shortLinks.reverse :=
  shortChainPasses_chain (by decide +kernel)

theorem subEpochs_once_short : (∀ k,summariesIn shortEnv.constants k shortLinks.reverse≤1) ∧
    (∀ b∈shortLinks.reverse,∀ s∈b.slots,s.adjusts=true → s.sesHash.isSome ∧ shortEnv.epochBlocks ∣
        b.record.height / shortEnv.subEpochBlocks*shortEnv.subEpochBlocks) ∧
    ∀ k,adjustmentsIn shortEnv.constants k shortLinks.reverse≤1 :=
  subEpochs_once shortEnv shortLinks.reverse shortChain

/-- Two summaries in blocks that follow the heights 3 and 5, of the same three. -/
theorem summaries_twice_after :
    ∃ chain,SummaryChain shortEnv chain ∧ summariesAfter shortEnv.constants 1 chain=2 :=
  ⟨shortLinks.reverse,shortChain,by decide +kernel⟩

end RoseChain
