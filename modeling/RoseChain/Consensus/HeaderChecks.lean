import RoseChain.Consensus.BlockHeaderValidation

namespace RoseChain
variable {E : Env}

/-- A check that is passed only if something holds. -/
def Leads {α : Type} (Q : Prop) (m : Check α) : Prop := ∀ a,m = .ok a → Q

variable {α : Type} {Q : Prop}

variable {m : Check α}

theorem Leads.apply (h : Leads Q m) {a : α} (ha : m = .ok a) : Q := h a ha

variable {β : Type}

theorem Leads.bind {f : α → Check β} (h : ∀ a,m = .ok a → Leads Q (f a)) : Leads Q (m >>= f) := by
  intro b hb
  obtain ⟨a,ha,hb⟩ := bind_ok.mp hb
  exact h a ha b hb

theorem Leads.next {f : α → Check β} (h : ∀ a,Leads Q (f a)) : Leads Q (m >>= f) := Leads.bind fun a _ => h a

theorem Leads.ite {c : Prop} [Decidable c] {m' : Check α} (h : Leads Q m) (h' : Leads Q m') :
    Leads Q (if c then m else m') := by
  split_ifs <;> assumption

variable {V : BlockView} {filter : Bool} {difficulty iters n : ℕ}

variable {a c b : Bool} {prev : BlockRecord}

/-- An unfinished header that passes has passed the check of its kind and those of its foliage; the
join points of the definition are gone through one by one. -/
theorem validateUnfinishedHeaderBlock_leads {header : UnfinishedHeaderBlock}
    (hQ : ∀ sp,validateIsTransactionBlock V (V.tryBlockRecord header.foliage.prevBlockHash) header.foliage sp = .ok () →
      validateFoliage E V (V.tryBlockRecord header.foliage.prevBlockHash) header filter = .ok () → Q) :
    Leads Q (validateUnfinishedHeaderBlock E V header filter difficulty iters a b c) := by
  unfold validateUnfinishedHeaderBlock
  extract_lets -underBinder C rcb prevHash prevB genesisBlock
  refine .next fun _ => .next fun overflow => ?_
  extract_lets -underBinder jp
  have hjp : ∀ skip,Leads Q (jp skip) := by
    intro skip
    dsimp -zeta only [jp]
    extract_lets -underBinder finished newSubSlot jp
    have hjp : ∀ x,Leads Q (jp x) := by
      intro x
      obtain ⟨height,se,epoch⟩ := x
      dsimp -zeta only [jp]
      extract_lets -underBinder jp
      have hjp : ∀ x,Leads Q (jp x) := by
        intro sesHash
        dsimp -zeta only [jp]
        extract_lets -underBinder jp
        have hjp : ∀ x,Leads Q (jp x) := by
          intro u
          dsimp -zeta only [jp]
          extract_lets -underBinder jp
          have hjp : ∀ x,Leads Q (jp x) := by
            intro u
            dsimp -zeta only [jp]
            refine .next fun challenge => .next fun _ => ?_
            extract_lets -underBinder ccSpHash
            refine .next fun quality => ?_
            extract_lets -underBinder jp
            have hjp : ∀ q,Leads Q (jp q) := by
              intro q
              dsimp -zeta only [jp]
              refine .next fun _ => .next fun required => .next fun _ => .next fun _ => .next fun _ =>
                .next fun _ => .next fun spIters => .next fun ipIters => .next fun _ => .next fun _ =>
                .next fun total => .next fun _ => .next fun sp => ?_
              extract_lets -underBinder subSlots
              refine .next fun info => .next fun rcSp => ?_
              extract_lets -underBinder plotKey
              refine .next fun _ => .next fun _ => .next fun _ => .bind fun _ hTx => ?_
              extract_lets -underBinder data
              refine .next fun _ => ?_
              extract_lets -underBinder jp
              have hjp : ∀ u,Leads Q (jp u) := by
                intro u
                dsimp -zeta only [jp]
                refine .next fun _ => .next fun _ => .next fun _ => .bind fun _ hF => ?_
                exact fun _ _ => hQ sp hTx hF
              clear_value jp
              cases header.foliage.foliageTransactionBlockHash with
              | none => exact hjp ()
              | some hash => exact .next fun _ => .next hjp
            clear_value jp
            cases quality with
            | none => exact .next hjp
            | some q => exact .next hjp
          clear_value jp
          cases prevB with
          | none => exact hjp ()
          | some prev =>
            exact .ite (.next fun _ => .next hjp) (hjp ())
        clear_value jp
        exact .ite (.next hjp) (hjp ())
      clear_value jp
      exact .ite (.next hjp) (.next hjp)
    clear_value jp
    cases prevB with
    | none => exact .next fun _ => .next fun _ => .next hjp
    | some prev =>
      refine .next fun _ => .ite (.next fun x => ?_) (.next hjp)
      exact .next hjp
  clear_value jp
  exact .ite (.next fun _ => .next hjp) (.next hjp)
theorem validateUnfinishedHeaderBlock_height {header : UnfinishedHeaderBlock}
        (hprev : V.tryBlockRecord header.foliage.prevBlockHash=some prev)
    (h : validateUnfinishedHeaderBlock E V header filter difficulty iters a b c = .ok n) :
    ∃ height,uint32 (prev.height+1) = .ok height := by
  apply Leads.apply ?_ h
  unfold validateUnfinishedHeaderBlock
  extract_lets -underBinder C rcb prevHash prevB genesisBlock
  have hsome : prevB=some prev := hprev
  clear_value prevB
  subst hsome
  refine .next fun _ => .next fun overflow => ?_
  extract_lets -underBinder jp
  have hjp : ∀ skip,Leads (∃ height,uint32 (prev.height+1) = .ok height) (jp skip) := by
    intro skip
    dsimp -zeta only [jp]
    extract_lets -underBinder finished newSubSlot jp
    exact .bind fun height hheight => fun _ _ => ⟨height,hheight⟩
  clear_value jp
  exact .ite (.next fun _ => .next hjp) (.next hjp)

variable {header : HeaderBlock} {summary : Bool}

theorem validateFinishedHeaderBlock_foliage (h : validateFinishedHeaderBlock E V header filter difficulty iters summary = .ok n) : ∃ sp,
      validateIsTransactionBlock V (V.tryBlockRecord header.foliage.prevBlockHash) header.foliage sp = .ok () ∧
        validateFoliage E V (V.tryBlockRecord header.foliage.prevBlockHash) header.unfinished filter = .ok () := by
  unfold validateFinishedHeaderBlock at h
  obtain ⟨required,hrequired,-⟩ := bind_ok.mp h
  exact validateUnfinishedHeaderBlock_leads (fun sp hTx hF => ⟨sp,hTx,hF⟩) required hrequired

theorem validateFinishedHeaderBlock_height (hprev : V.tryBlockRecord header.foliage.prevBlockHash=some prev)
    (h : validateFinishedHeaderBlock E V header filter difficulty iters summary = .ok n) :
    prev.height+1<2^32 := by
  unfold validateFinishedHeaderBlock at h
  obtain ⟨required,hrequired,-⟩ := bind_ok.mp h
  obtain ⟨height,hheight⟩ := validateUnfinishedHeaderBlock_height hprev hrequired
  unfold uint32 uint at hheight
  split_ifs at hheight with hlt
  omega

theorem validateFinishedHeaderBlock_first (hz : header.rewardChainBlock.height=0)
    (h : validateFinishedHeaderBlock E V header filter difficulty iters summary = .ok n) :
    header.foliage.prevBlockHash=E.genesisChallenge := by
  unfold validateFinishedHeaderBlock at h
  obtain ⟨_,_,h⟩ := bind_ok.mp h
  rw [if_pos hz] at h
  dsimp only at h
  obtain ⟨prev,hprev,h⟩ := bind_ok.mp h
  obtain ⟨_,_,h⟩ := bind_ok.mp h
  have hnone : none=prev := Except.ok.inj hprev
  subst hnone
  obtain ⟨_,_,h⟩ := bind_ok.mp h
  obtain ⟨_,hhash,_⟩ := bind_ok.mp h
  rwa [reject_eq_ok,Classical.not_not] at hhash

end RoseChain
