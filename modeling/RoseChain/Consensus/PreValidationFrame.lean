import RoseChain.Consensus.ForkChoice
import RoseChain.Consensus.MultiprocessValidation

namespace RoseChain
open Lib Blockchain PreValidate
variable {E : Env} {w : World} {wpSummaries : Option (List SubEpochSummary)} {c c' : Chain}

def World.withChain (w : World) (c : Chain) : World := { w with chain := c }

@[simp] theorem withChain_chain (w : World) (c : Chain) : (w.withChain c).chain=c := rfl

theorem modifyChain_withChain (w : World) (f : Chain → Chain) :
    modifyChain f (w.withChain c)=(.ok (),w.withChain (f c)) := rfl

/-- The chain after a valid block: its record is there. -/
def addTemporary (r : BlockRecord) (c : Chain) : Chain :=
  match c.view.tryBlockRecord r.headerHash with
  | none => addBlockRecord r c
  | some _ => c

variable (E wpSummaries) in
/-- The blocks of a list one after another are valid. -/
inductive AllValid : Chain → PreValidation → List FullBlock → Chain → PreValidation → Prop
  | nil (c : Chain) (s : PreValidation) : AllValid c s [] c s
  | cons {c c' : Chain} {s s' : PreValidation} {b : FullBlock} {more : List FullBlock} {r : BlockRecord}
      {difficulty subSlotIters : ℕ} (hb : checkBlock E c.view wpSummaries s b = .ok (.valid r difficulty subSlotIters))
      (hmore : AllValid (addTemporary r c) (nextState s r ((c.view.tryBlockRecord r.headerHash).getD r) difficulty subSlotIters)
        more c' s') : AllValid c s (b::more) c' s'

def Seated (c : Chain) (h : Bytes32) : Prop :=
  ∃ r hashes,c.blockRecords.get? h=some r ∧ c.heightsInCache.get? r.height=some hashes ∧ h∈hashes

variable {s : PreValidation} {b : FullBlock} {r : BlockRecord} {difficulty subSlotIters : ℕ}

theorem checkBlock_recordOf {V : BlockView} (h : checkBlock E V wpSummaries s b = .ok (.valid r difficulty subSlotIters)) : RecordOf E b r := by
  unfold checkBlock at h
  obtain ⟨prevB,-,h⟩ := bind_ok.mp h
  obtain ⟨⟨ssi,d⟩,-,h⟩ := bind_ok.mp h
  obtain ⟨overflow,-,h⟩ := bind_ok.mp h
  obtain ⟨challenge,-,h⟩ := bind_ok.mp h
  obtain ⟨qStr,-,h⟩ := bind_ok.mp h
  cases qStr with
  | none => cases h
  | some q =>
    obtain ⟨iters,-,h⟩ := bind_ok.mp h
    obtain ⟨rec,hrec,h⟩ := bind_ok.mp h
    obtain ⟨other,-,h⟩ := bind_ok.mp h
    split_ifs at h with hother
    · cases h
    · cases h
      exact recordOf_of_ok hrec

/-- Between two states of the index: what was there is, what is new stands at its height and is one of the
blocks. -/
structure Temporary (E : Env) (c c' : Chain) (blocks : List FullBlock) : Prop where
  old : ∀ h r,c.blockRecords.get? h=some r → c'.blockRecords.get? h=some r
  new : ∀ h,c.blockRecords.get? h=none → (c'.blockRecords.get? h).isSome →
    Seated c' h ∧ h∈blocks.map (·.headerHash E)

theorem Temporary.refl (c : Chain) (blocks : List FullBlock) : Temporary E c c blocks :=
  ⟨fun _ _ h => h,fun h hn hs => by rw [hn] at hs; cases hs⟩

theorem addBlockRecord_get? (r : BlockRecord) (c : Chain) (h : Bytes32) :
    (addBlockRecord r c).blockRecords.get? h=if r.headerHash=h then some r else c.blockRecords.get? h :=
  Dict.get?_set _ _ _ _

theorem addBlockRecord_seated (r : BlockRecord) (c : Chain) : Seated (addBlockRecord r c) r.headerHash :=
  ⟨r,_,Dict.get?_set_self _ _ _,Dict.get?_set_self _ _ _,by simp⟩

variable {h : Bytes32}

theorem Seated.addBlockRecord (hs : Seated c h) (r : BlockRecord) (hne : r.headerHash≠h) :
    Seated (Blockchain.addBlockRecord r c) h := by
  obtain ⟨r',hashes,hr',hget,hmem⟩ := hs
  refine ⟨r',if r.height=r'.height then hashes.insert r.headerHash else hashes,?_,?_,?_⟩
  · rw [addBlockRecord_get?,if_neg hne,hr']
  · rw [Blockchain.addBlockRecord,Dict.get?_set]
    split_ifs with hh
    · rw [hh,hget]
      rfl
    · exact hget
  · split_ifs
    · exact List.mem_insert_of_mem hmem
    · exact hmem

variable {c₀ : Chain} {blocks : List FullBlock}

theorem Temporary.added (h : Temporary E c₀ c blocks) (hr : r.headerHash=b.headerHash E) :
    Temporary E c₀ (addTemporary r c) (blocks++[b]) ∧ ((addTemporary r c).blockRecords.get? (b.headerHash E)).isSome ∧
      ∀ k,(c.blockRecords.get? k).isSome → ((addTemporary r c).blockRecords.get? k).isSome := by
  unfold addTemporary
  cases hknown : c.view.tryBlockRecord r.headerHash with
  | some seen =>
    have hget : c.blockRecords.get? r.headerHash=some seen := hknown
    refine ⟨⟨h.old,fun k hn hs => ⟨(h.new k hn hs).1,?_⟩⟩,?_,fun _ hs => hs⟩
    · simp [(h.new k hn hs).2]
    · dsimp only
      rw [← hr,hget]
      rfl
  | none =>
    have hget : c.blockRecords.get? r.headerHash=none := hknown
    dsimp only
    refine ⟨⟨fun k x hx => ?_,fun k hn hs => ?_⟩,?_,fun k hs => ?_⟩
    · have hold := h.old k x hx
      have hne : r.headerHash≠k := by
        rintro rfl
        rw [hget] at hold
        cases hold
      rw [addBlockRecord_get?,if_neg hne,hold]
    · by_cases hk : r.headerHash=k
      · subst hk
        exact ⟨addBlockRecord_seated r c,by simp [hr]⟩
      · rw [addBlockRecord_get?,if_neg hk] at hs
        obtain ⟨hseat,hmem⟩ := h.new k hn hs
        exact ⟨hseat.addBlockRecord r hk,by simp [hmem]⟩
    · rw [addBlockRecord_get?,if_pos hr]
      rfl
    · rw [addBlockRecord_get?]
      split_ifs
      · rfl
      · exact hs

variable {s' : PreValidation} {before : List FullBlock}

theorem AllValid.temporary (h : AllValid E wpSummaries c s blocks c' s') (ht : Temporary E c₀ c before) :
    Temporary E c₀ c' (before++blocks) ∧ (∀ b∈blocks,(c'.blockRecords.get? (b.headerHash E)).isSome) ∧
      ∀ k,(c.blockRecords.get? k).isSome → (c'.blockRecords.get? k).isSome := by
  induction h generalizing before with
  | nil c s => exact ⟨by simpa using ht,by simp,fun _ hs => hs⟩
  | @cons c c' s s' b more r difficulty subSlotIters hb hmore ih =>
    obtain ⟨hadded,hhere,hkeep⟩ := ht.added ((checkBlock_recordOf hb).headerHash)
    obtain ⟨hrest,hall,hkeep'⟩ := ih hadded
    refine ⟨by simpa using hrest,fun x hx => ?_,fun k hs => hkeep' k (hkeep k hs)⟩
    obtain rfl | hx := List.mem_cons.mp hx
    · exact hkeep' _ hhere
    · exact hall x hx

theorem Seated.remove (hs : Seated c h) (w : World) :
    ∃ c₁,removeBlockRecord h (w.withChain c)=(.ok (),w.withChain c₁) ∧
      c₁.blockRecords=c.blockRecords.erase h ∧ ∀ k,k≠h → Seated c k → Seated c₁ k := by
  obtain ⟨r,hashes,hr,hget,hmem⟩ := hs
  refine ⟨{ c with
    blockRecords := c.blockRecords.erase h
    heightsInCache := c.heightsInCache.set r.height (hashes.erase h) },?_,rfl,fun k hk hseat => ?_⟩
  · have hlook : c.view.blockRecord h = .ok r := lookup_eq_ok.mpr hr
    unfold removeBlockRecord
    rw [Eff.bind_get,withChain_chain,hlook,Eff.lift_ok_bind,
      Eff.bind_of_ok (modifyChain_withChain _ _),hget,lookup,Eff.lift_ok_bind,
      if_pos (List.contains_iff_mem.mpr hmem),Eff.lift_ok_bind]
    rfl
  · obtain ⟨r',hashes',hr',hget',hmem'⟩ := hseat
    refine ⟨r',if r.height=r'.height then hashes.erase h else hashes',?_,?_,?_⟩
    · rw [Dict.get?_erase,if_neg (Ne.symm hk),hr']
    · rw [Dict.get?_set]
      split_ifs
      · rfl
      · exact hget'
    · split_ifs with hh
      · rw [← hh,hget] at hget'
        rw [Option.some.inj hget']
        exact (List.mem_erase_of_ne hk).mpr hmem'
      · exact hmem'

theorem removeBlockRecord_unknown (hn : c.blockRecords.get? h=none) (w : World) :
    removeBlockRecord h (w.withChain c)=(.error (.raised .key),w.withChain c) := by
  have hlook : c.view.blockRecord h = .error (.raised .key) := by
    change lookup (c.blockRecords.get? h)=_
    rw [hn]
    rfl
  unfold removeBlockRecord
  rw [Eff.bind_get,withChain_chain,hlook]
  rfl

variable {c₁ : Chain}

theorem Temporary.removed (h : Temporary E c₀ c (b::blocks)) (hunknown : c₀.blockRecords.get? (b.headerHash E)=none)
    (hrec : c₁.blockRecords=c.blockRecords.erase (b.headerHash E))
    (hseat : ∀ k,k≠b.headerHash E → Seated c k → Seated c₁ k) : Temporary E c₀ c₁ blocks := by
  refine ⟨fun k r hr => ?_,fun k hn hs => ?_⟩
  · have hne : b.headerHash E≠k := by
      rintro rfl
      rw [hunknown] at hr
      cases hr
    rw [hrec,Dict.get?_erase,if_neg hne,h.old k r hr]
  · rw [hrec,Dict.get?_erase] at hs
    split_ifs at hs with hk
    · cases hs
    · obtain ⟨hseated,hmem⟩ := h.new k hn hs
      refine ⟨hseat k (Ne.symm hk) hseated,?_⟩
      rw [List.map_cons,List.mem_cons] at hmem
      exact hmem.resolve_left (Ne.symm hk)

def SameRecords (c c' : Chain) : Prop := ∀ h,c'.blockRecords.get? h=c.blockRecords.get? h

theorem Temporary.sameRecords (h : Temporary E c c' []) : SameRecords c c' := by
  intro k
  cases hk : c.blockRecords.get? k with
  | some r => exact h.old k r hk
  | none =>
    by_contra hne
    have hsome := Option.isSome_iff_ne_none.mpr hne
    obtain ⟨-,hmem⟩ := h.new k hk hsome
    cases hmem

/-- The blocks with the mark whether they were there at first. -/
def marked (E : Env) (c : Chain) (blocks : List FullBlock) : List (FullBlock × Bool) :=
  blocks.map fun b => (b,c.view.containsBlock (b.headerHash E))

theorem containsBlock_eq_false : c.view.containsBlock h=false ↔ c.blockRecords.get? h=none := by
  change (c.blockRecords.get? h).isSome=false ↔ _
  simp

theorem undo_run (h : Temporary E c₀ c blocks) (w : World) :
    ∃ c₁,undo E (marked E c₀ blocks) (w.withChain c)=(.ok (),w.withChain c₁) ∧ SameRecords c₀ c₁ := by
  induction blocks generalizing c with
  | nil => exact ⟨c,rfl,h.sameRecords⟩
  | cons b blocks ih =>
    rw [marked,List.map_cons,undo,Eff.bind_get,withChain_chain]
    by_cases hdo : c₀.view.containsBlock (b.headerHash E)=false ∧ c.view.containsBlock (b.headerHash E)=true
    · have hunknown := containsBlock_eq_false.mp hdo.1
      obtain ⟨hseated,-⟩ := h.new _ hunknown hdo.2
      obtain ⟨c₁,hrun,hrec,hseat⟩ := hseated.remove w
      rw [if_pos hdo,Eff.bind_of_ok hrun]
      exact ih (h.removed hunknown hrec hseat)
    · rw [if_neg hdo]
      refine ih ⟨h.old,fun k hn hs => ?_⟩
      obtain ⟨hseated,hmem⟩ := h.new k hn hs
      rw [List.map_cons,List.mem_cons] at hmem
      refine ⟨hseated,hmem.resolve_left ?_⟩
      rintro rfl
      exact hdo ⟨containsBlock_eq_false.mpr hn,hs⟩

def Unknown (E : Env) (c : Chain) (b : FullBlock) : Prop := c.blockRecords.get? (b.headerHash E)=none

/-- After some blocks an unknown one comes again, and after it another one for the first time. -/
def Stray (E : Env) (c : Chain) (before blocks : List FullBlock) : Prop :=
  ∃ first b last,blocks=first++b::last ∧ Unknown E c b ∧
    b.headerHash E∈(before++first).map (·.headerHash E) ∧
    ∃ y∈last,Unknown E c y ∧ y.headerHash E∉(before++first).map (·.headerHash E)

variable {more : List FullBlock}

theorem stray_cons (h : Unknown E c b → b.headerHash E∉before.map (·.headerHash E)) :
    Stray E c before (b::more) ↔ Stray E c (before++[b]) more := by
  constructor
  · rintro ⟨first,x,last,heq,hx,hagain,y,hy,hunknown,hnew⟩
    cases first with
    | nil =>
      obtain ⟨rfl,rfl⟩ := List.cons.inj heq
      exact absurd (by simpa using hagain) (h hx)
    | cons z first =>
      obtain ⟨rfl,rfl⟩ := List.cons.inj heq
      exact ⟨first,x,last,rfl,hx,by simpa using hagain,y,hy,hunknown,by simpa using hnew⟩
  · rintro ⟨first,x,last,rfl,hx,hagain,y,hy,hunknown,hnew⟩
    exact ⟨b::first,x,last,rfl,hx,by simpa using hagain,y,hy,hunknown,by simpa using hnew⟩

/-- What is still to be removed is there, and what has been removed is not. -/
structure Removing (E : Env) (c₀ c : Chain) (before blocks : List FullBlock) : Prop where
  temporary : Temporary E c₀ c blocks
  there : ∀ b∈blocks,Unknown E c₀ b → ((c.blockRecords.get? (b.headerHash E)).isSome ↔
    b.headerHash E∉before.map (·.headerHash E))
  gone : ∀ b∈before,Unknown E c₀ b → c.blockRecords.get? (b.headerHash E)=none

theorem removeTemporary_run (h : Removing E c₀ c before blocks)
    (w : World) : ∃ a c₁,removeTemporary E (marked E c₀ blocks) (w.withChain c)=(a,w.withChain c₁) ∧
      (SameRecords c₀ c₁ ↔ ¬ Stray E c₀ before blocks) ∧ (a = .ok () → SameRecords c₀ c₁) := by
  induction blocks generalizing c before with
  | nil =>
    refine ⟨_,c,rfl,⟨fun _ hstray => ?_,fun _ => h.temporary.sameRecords⟩,fun _ => h.temporary.sameRecords⟩
    obtain ⟨first,b,last,heq,-⟩ := hstray
    simp at heq
  | cons b blocks ih =>
    rw [marked,List.map_cons,removeTemporary]
    by_cases hunknown : Unknown E c₀ b
    · rw [if_pos (containsBlock_eq_false.mpr hunknown)]
      by_cases hagain : b.headerHash E∈before.map (·.headerHash E)
      · -- The block comes again: its record is gone, and the rest stays.
        obtain ⟨x,hx,hxb⟩ := List.mem_map.mp hagain
        have hgone : c.blockRecords.get? (b.headerHash E)=none := by
          rw [← hxb]
          refine h.gone x hx ?_
          unfold Unknown
          rw [hxb]
          exact hunknown
        rw [Eff.bind_of_error (removeBlockRecord_unknown hgone w)]
        refine ⟨_,c,rfl,⟨?_,?_⟩,fun hok => by cases hok⟩
        · rintro hsame ⟨first,z,last,heq,-,-,y,hy,hyunknown,hynew⟩
          have hmem : y∈b::blocks := by
            rw [heq]
            simp [hy]
          have hthere := (h.there y hmem hyunknown).mpr fun hin => hynew (by
            rw [List.map_append,List.mem_append]
            exact Or.inl hin)
          rw [hsame] at hthere
          rw [hyunknown] at hthere
          cases hthere
        · intro hstray k
          cases hk : c₀.blockRecords.get? k with
          | some r => exact h.temporary.old k r hk
          | none =>
            by_contra hne
            have hsome := Option.isSome_iff_ne_none.mpr hne
            obtain ⟨-,hmem⟩ := h.temporary.new k hk hsome
            obtain ⟨y,hy,rfl⟩ := List.mem_map.mp hmem
            have hnew := (h.there y hy hk).mp hsome
            refine hstray ⟨[],b,blocks,rfl,hunknown,by simpa using hagain,y,?_,hk,by simpa using hnew⟩
            obtain rfl | hy := List.mem_cons.mp hy
            · exact absurd hagain hnew
            · exact hy
      · have hsome := (h.there b List.mem_cons_self hunknown).mpr hagain
        obtain ⟨hseated,-⟩ := h.temporary.new _ hunknown hsome
        obtain ⟨c₁,hrun,hrec,hseat⟩ := hseated.remove w
        rw [Eff.bind_of_ok hrun,stray_cons fun _ => hagain]
        refine ih ⟨h.temporary.removed hunknown hrec hseat,fun x hx hxunknown => ?_,fun x hx hxunknown => ?_⟩
        · rw [hrec,Dict.get?_erase,List.map_append,List.mem_append,List.map_singleton,List.mem_singleton]
          by_cases hsame : b.headerHash E=x.headerHash E
          · simp [hsame]
          · rw [if_neg hsame,h.there x (List.mem_cons_of_mem _ hx) hxunknown]
            simp [Ne.symm hsame]
        · rw [hrec,Dict.get?_erase]
          split_ifs with hsame
          · rfl
          · refine h.gone x ((List.mem_append.mp hx).resolve_right fun hin => hsame ?_) hxunknown
            rw [List.mem_singleton.mp hin]
    · have hflag : ¬ c₀.view.containsBlock (b.headerHash E)=false := fun hf =>
        hunknown (containsBlock_eq_false.mp hf)
      have hother {x : FullBlock} (hx : Unknown E c₀ x) : x.headerHash E≠b.headerHash E := fun he =>
        hunknown (by unfold Unknown; rw [← he]; exact hx)
      rw [if_neg hflag,stray_cons fun hb => absurd hb hunknown]
      refine ih ⟨⟨h.temporary.old,fun k hn hs => ?_⟩,fun x hx hxunknown => ?_,fun x hx hxunknown => ?_⟩
      · obtain ⟨hseated,hmem⟩ := h.temporary.new k hn hs
        rw [List.map_cons,List.mem_cons] at hmem
        refine ⟨hseated,hmem.resolve_left ?_⟩
        rintro rfl
        exact hunknown hn
      · rw [h.there x (List.mem_cons_of_mem _ hx) hxunknown]
        simp [hother hxunknown]
      · refine h.gone x ((List.mem_append.mp hx).resolve_right fun hin => ?_) hxunknown
        exact hother hxunknown (by rw [List.mem_singleton.mp hin])

variable (E wpSummaries) in
def Rejected (c : Chain) (s : PreValidation) (b : FullBlock) : Prop :=
  ∀ r difficulty subSlotIters,checkBlock E c.view wpSummaries s b ≠ .ok (.valid r difficulty subSlotIters)

variable (E wpSummaries) in
/-- A block at which the loop ends and nothing is undone. -/
def Abandoned (c : Chain) (s : PreValidation) (b : FullBlock) : Prop :=
  checkBlock E c.view wpSummaries s b = .ok .otherSummary ∨
    ∃ e,checkBlock E c.view wpSummaries s b = .error e

theorem Abandoned.rejected (h : Abandoned E wpSummaries c s b) : Rejected E wpSummaries c s b := by
  intro r difficulty subSlotIters hvalid
  obtain h | ⟨e,h⟩ := h <;> rw [h] at hvalid <;> cases hvalid

variable {s₁ : PreValidation}

theorem AllValid.unique {c₂ : Chain} {s₂ : PreValidation} {pre₁ pre₂ post₁ post₂ : List FullBlock}
    {b₁ b₂ : FullBlock} (h₁ : AllValid E wpSummaries c s pre₁ c₁ s₁) (h₂ : AllValid E wpSummaries c s pre₂ c₂ s₂)
    (heq : pre₁++b₁::post₁=pre₂++b₂::post₂) (hr₁ : Rejected E wpSummaries c₁ s₁ b₁)
    (hr₂ : Rejected E wpSummaries c₂ s₂ b₂) : pre₁=pre₂ ∧ b₁=b₂ ∧ c₁=c₂ ∧ s₁=s₂ := by
  induction h₁ generalizing pre₂ with
  | nil c s =>
    cases h₂ with
    | nil => exact ⟨rfl,(List.cons.inj heq).1,rfl,rfl⟩
    | cons hb _ =>
      obtain ⟨rfl,-⟩ := List.cons.inj heq
      exact absurd hb (hr₁ _ _ _)
  | @cons c c' s s' b more r difficulty subSlotIters hb hmore ih =>
    cases h₂ with
    | nil =>
      obtain ⟨rfl,-⟩ := List.cons.inj heq
      exact absurd hb (hr₂ _ _ _)
    | cons hb₂ hmore₂ =>
      obtain ⟨rfl,htail⟩ := List.cons.inj heq
      rw [hb] at hb₂
      cases hb₂
      obtain ⟨rfl,hrest⟩ := ih hmore₂ htail hr₁
      exact ⟨rfl,hrest⟩

theorem AllValid.not_rejected {pre post : List FullBlock}
    (h : AllValid E wpSummaries c s blocks c' s') (hpre : AllValid E wpSummaries c s pre c₁ s₁)
    (heq : blocks=pre++b::post) : ¬ Rejected E wpSummaries c₁ s₁ b := by
  intro hr
  induction hpre generalizing blocks with
  | nil c s =>
    cases h with
    | nil => cases heq
    | cons hb _ =>
      obtain ⟨rfl,-⟩ := List.cons.inj heq
      exact hr _ _ _ hb
  | @cons c c₂ s s₂ x more r difficulty subSlotIters hb hmore ih =>
    cases h with
    | nil => cases heq
    | cons hb₂ hmore₂ =>
      obtain ⟨rfl,htail⟩ := List.cons.inj heq
      rw [hb] at hb₂
      cases hb₂
      exact ih hmore₂ htail hr

theorem loop_valid {all : List (FullBlock × Bool)} (w : World) (more : List FullBlock)
    (h : checkBlock E c.view wpSummaries s b = .ok (.valid r difficulty subSlotIters)) :
    loop E all wpSummaries (b::more) s (w.withChain c) = loop E all wpSummaries more
        (nextState s r ((c.view.tryBlockRecord r.headerHash).getD r) difficulty subSlotIters)
        (w.withChain (addTemporary r c)) := by
  rw [loop,Eff.bind_get,withChain_chain,h,Eff.lift_ok_bind,addTemporary]
  dsimp only
  cases c.view.tryBlockRecord r.headerHash with
  | none =>
    dsimp only
    rw [Eff.bind_of_ok (modifyChain_withChain _ _)]
    rfl
  | some seen => rfl

theorem loop_run (all : List (FullBlock × Bool)) (w : World) (blocks : List FullBlock) (c : Chain)
    (s : PreValidation) : (∃ c' s',AllValid E wpSummaries c s blocks c' s' ∧
      loop E all wpSummaries blocks s (w.withChain c)=(.ok (some s'),w.withChain c')) ∨
    ∃ pre b post c' s',blocks=pre++b::post ∧ AllValid E wpSummaries c s pre c' s' ∧
      (checkBlock E c'.view wpSummaries s' b = .ok .badProof ∧
          loop E all wpSummaries blocks s (w.withChain c)=(undo E all >>= fun _ => pure none) (w.withChain c') ∨
        Abandoned E wpSummaries c' s' b ∧ ∃ a,(∀ s,a ≠ .ok (some s)) ∧
          loop E all wpSummaries blocks s (w.withChain c)=(a,w.withChain c')) := by
  induction blocks generalizing c s with
  | nil => exact Or.inl ⟨c,s,.nil c s,rfl⟩
  | cons b more ih =>
    have hhead := congrFun (loop.eq_2 E all wpSummaries s b more) (w.withChain c)
    rw [Eff.bind_get,withChain_chain] at hhead
    cases hcheck : checkBlock E c.view wpSummaries s b with
    | error e =>
      rw [hcheck] at hhead
      refine Or.inr ⟨[],b,more,c,s,rfl,.nil c s,Or.inr ⟨Or.inr ⟨e,hcheck⟩,.error e,?_,hhead⟩⟩
      intro s h
      cases h
    | ok verdict =>
      rw [hcheck,Eff.lift_ok_bind] at hhead
      cases verdict with
      | badProof => exact Or.inr ⟨[],b,more,c,s,rfl,.nil c s,Or.inl ⟨hcheck,hhead⟩⟩
      | otherSummary =>
        refine Or.inr ⟨[],b,more,c,s,rfl,.nil c s,Or.inr ⟨Or.inl hcheck,.ok none,?_,hhead⟩⟩
        intro s h
        cases h
      | valid r difficulty subSlotIters =>
        have hstep : ∀ {blocks c' s'},AllValid E wpSummaries (addTemporary r c) (nextState s r
            ((c.view.tryBlockRecord r.headerHash).getD r) difficulty subSlotIters) blocks c' s' →
            AllValid E wpSummaries c s (b::blocks) c' s' := AllValid.cons hcheck
        rw [loop_valid w more hcheck]
        have hnext := ih (addTemporary r c)
          (nextState s r ((c.view.tryBlockRecord r.headerHash).getD r) difficulty subSlotIters)
        obtain ⟨c',s',hpass,hrun⟩ | ⟨pre,x,post,c',s',rfl,hpass,hend⟩ := hnext
        · exact Or.inl ⟨c',s',hstep hpass,hrun⟩
        · exact Or.inr ⟨b::pre,x,post,c',s',rfl,hstep hpass,hend⟩

/-- A computation that leaves the chain in memory alone. -/
def KeepsChain {α : Type} (m : NodeM α) : Prop := ∀ w,(m w).2.chain=w.chain

variable {α : Type}

theorem keepsChain_pure (a : α) : KeepsChain (pure a) := fun _ => rfl

theorem keepsChain_lift (x : Check α) : KeepsChain (Eff.lift x) := fun _ => rfl

theorem KeepsChain.bind {β : Type} {m : NodeM α} {f : α → NodeM β} (hm : KeepsChain m)
    (hf : ∀ a,KeepsChain (f a)) : KeepsChain (m >>= f) := by
  intro w
  have hchain := hm w
  cases hrun : m w with
  | mk a w' =>
    rw [hrun] at hchain
    cases a with
    | error e => rw [Eff.bind_of_error hrun,hchain]
    | ok a => rw [Eff.bind_of_ok hrun,hf a w',hchain]

theorem keepsChain_noneOnValueError {m : NodeM α} (hm : KeepsChain m) : KeepsChain (noneOnValueError m) := by
  intro w
  have h := hm w
  unfold noneOnValueError
  split <;> rw [← h,‹m w=_›]

theorem keepsChain_await : KeepsChain await := by
  intro w
  obtain ⟨i,h | ⟨e,h⟩⟩ := await_cases w <;> rw [h] <;> rfl

theorem keepsChain_batchGenerators (blockDict : Dict Bytes32 FullBlock) (blocks : List FullBlock) :
    KeepsChain (batchGenerators E blockDict blocks) := by
  induction blocks with
  | nil => exact keepsChain_pure _
  | cons b blocks ih =>
    refine (keepsChain_lift _).bind fun before => ?_
    refine KeepsChain.bind (keepsChain_noneOnValueError fun w => ?_) fun g => ?_
    · exact ((getBlockGenerator_observes (E := E) b.body (some b.height) before).quiet w).chain
    · cases g with
      | none => exact keepsChain_pure _
      | some g => exact ih.bind fun _ => keepsChain_pure _

theorem keepsChain_poolBatches (blockDict : Dict Bytes32 FullBlock) (s : PreValidation)
    (batches : List (List (FullBlock × (ℕ × ℕ)))) : KeepsChain (poolBatches E blockDict s batches) := by
  induction batches with
  | nil => exact keepsChain_pure _
  | cons batch batches ih =>
    refine (keepsChain_batchGenerators blockDict _).bind fun generators => ?_
    cases generators with
    | none => exact keepsChain_pure _
    | some generators => exact ih.bind fun _ => keepsChain_pure _

variable (E) in
def toPool (blocks : List FullBlock) (batchSize : ℕ) (pool : List PoolBatch → Check (List PreValidationResult))
    (s : PreValidation) : NodeM (Option (List PreValidationResult)) := do
  let blockDict := blocks.foldl (fun d b => d.set (b.headerHash E) b) Dict.empty
  let batches ← Eff.lift (inBatches batchSize (blocks.zip s.diffSsis))
  match (← poolBatches E blockDict s batches) with
  | none => return none
  | some batches =>
    await
    return some (← Eff.lift (pool batches))

theorem keepsChain_toPool (blocks : List FullBlock) (batchSize : ℕ)
    (pool : List PoolBatch → Check (List PreValidationResult)) (s : PreValidation) :
    KeepsChain (toPool E blocks batchSize pool s) := by
  refine (keepsChain_lift _).bind fun batches => ?_
  refine (keepsChain_poolBatches _ _ _).bind fun results => ?_
  cases results with
  | none => exact keepsChain_pure _
  | some results => exact keepsChain_await.bind fun _ => (keepsChain_lift _).bind fun _ => keepsChain_pure _

variable (E) in
def afterLoop (all : List (FullBlock × Bool)) (blocks : List FullBlock) (batchSize : ℕ)
    (pool : List PoolBatch → Check (List PreValidationResult)) :
    Option PreValidation → NodeM (Option (List PreValidationResult))
  | none => return none
  | some s => do
    removeTemporary E all
    toPool E blocks batchSize pool s

theorem preValidate_of_recent {recent : RecentBlocks} (w : World) (batchSize : ℕ)
    (pool : List PoolBatch → Check (List PreValidationResult))
    (h : recentBlocks E w.chain.view blocks = .ok (some recent)) :
    preValidateBlocksMultiprocessing E blocks batchSize wpSummaries pool w =
      (loop E (marked E w.chain blocks) wpSummaries blocks ⟨none,recent,[]⟩ >>=
        afterLoop E (marked E w.chain blocks) blocks batchSize pool) (w.withChain w.chain) := by
  unfold preValidateBlocksMultiprocessing
  rw [Eff.bind_get,h,Eff.lift_ok_bind]
  change (loop E (marked E w.chain blocks) wpSummaries blocks ⟨none,recent,[]⟩ >>= _) (w.withChain w.chain)=_
  congr 2

theorem preValidate_of_unknown (w : World) (batchSize : ℕ)
    (pool : List PoolBatch → Check (List PreValidationResult))
    (h : ∀ recent,recentBlocks E w.chain.view blocks ≠ .ok (some recent)) :
    (preValidateBlocksMultiprocessing E blocks batchSize wpSummaries pool w).2=w := by
  unfold preValidateBlocksMultiprocessing
  rw [Eff.bind_get]
  cases hrecent : recentBlocks E w.chain.view blocks with
  | error e => rfl
  | ok recent =>
    rw [Eff.lift_ok_bind]
    cases recent with
    | none => rfl
    | some recent => exact absurd hrecent (h recent)

theorem Temporary.mono (h : Temporary E c c' blocks) : Temporary E c c' (blocks++more) := by
  refine ⟨h.old,fun k hn hs => ⟨(h.new k hn hs).1,?_⟩⟩
  rw [List.map_append]
  exact List.mem_append_left _ (h.new k hn hs).2

theorem SameRecords.refl (c : Chain) : SameRecords c c := fun _ => rfl

theorem AllValid.sameRecords_iff (h : AllValid E wpSummaries c s blocks c' s') : SameRecords c c' ↔ ∀ x∈blocks,¬ Unknown E c x := by
  obtain ⟨htemp,hall,-⟩ := h.temporary (Temporary.refl (E := E) c [])
  constructor
  · intro hsame x hx hunknown
    have hsome := hall x hx
    rw [hsame,hunknown] at hsome
    cases hsome
  · intro hknown k
    cases hk : c.blockRecords.get? k with
    | some r => exact htemp.old k r hk
    | none =>
      by_contra hne
      obtain ⟨-,hmem⟩ := htemp.new k hk (Option.isSome_iff_ne_none.mpr hne)
      obtain ⟨x,hx,rfl⟩ := List.mem_map.mp hmem
      exact hknown x hx hk

theorem AllValid.removing (h : AllValid E wpSummaries c s blocks c' s') : Removing E c c' [] blocks := by
  obtain ⟨htemp,hall,-⟩ := h.temporary (Temporary.refl (E := E) c [])
  exact ⟨htemp,fun b hb _ => ⟨fun _ => List.not_mem_nil,fun _ => hall b hb⟩,fun b hb => by cases hb⟩

variable (E wpSummaries) in
/-- The loop ends at a block where nothing is undone, after a block that the chain did not know; or an unknown
block comes again before another one comes first. -/
def LeavesBehind (c : Chain) (blocks : List FullBlock) : Prop :=
  ∃ recent,recentBlocks E c.view blocks = .ok (some recent) ∧
    ((∃ pre b post c' s',blocks=pre++b::post ∧ AllValid E wpSummaries c ⟨none,recent,[]⟩ pre c' s' ∧
        Abandoned E wpSummaries c' s' b ∧ ∃ x∈pre,Unknown E c x) ∨
      (∃ c' s',AllValid E wpSummaries c ⟨none,recent,[]⟩ blocks c' s') ∧ Stray E c [] blocks)

/-- The chain knows the same blocks after the pre-validation just where none is left behind. -/
theorem preValidate_sameRecords (w : World) (blocks : List FullBlock) (batchSize : ℕ)
    (wpSummaries : Option (List SubEpochSummary)) (pool : List PoolBatch → Check (List PreValidationResult)) :
    SameRecords w.chain (preValidateBlocksMultiprocessing E blocks batchSize wpSummaries pool w).2.chain ↔
      ¬ LeavesBehind E wpSummaries w.chain blocks := by
  by_cases hex : ∃ recent,recentBlocks E w.chain.view blocks = .ok (some recent)
  · obtain ⟨recent,hrecent⟩ := hex
    rw [preValidate_of_recent w batchSize pool hrecent]
    have hleft : LeavesBehind E wpSummaries w.chain blocks ↔ _ :=
      ⟨fun ⟨recent',hrecent',h⟩ => by rw [hrecent] at hrecent'; cases hrecent'; exact h,
        fun h => ⟨recent,hrecent,h⟩⟩
    rw [hleft]
    obtain ⟨c',s',hpass,hrun⟩ | ⟨pre,b,post,c',s',heq,hpass,hend⟩ :=
      loop_run (marked E w.chain blocks) w blocks w.chain ⟨none,recent,[]⟩
    · -- The loop reaches the end.
      obtain ⟨a,c₁,hremove,hsame,-⟩ := removeTemporary_run hpass.removing w
      have hchain : ((loop E (marked E w.chain blocks) wpSummaries blocks ⟨none,recent,[]⟩ >>=
          afterLoop E (marked E w.chain blocks) blocks batchSize pool) (w.withChain w.chain)).2.chain=c₁ := by
        rw [Eff.bind_of_ok hrun,afterLoop]
        cases a with
        | error e => rw [Eff.bind_of_error hremove]; rfl
        | ok u => rw [Eff.bind_of_ok hremove,keepsChain_toPool]; rfl
      rw [hchain,hsame,not_iff_not]
      refine ⟨fun hstray => Or.inr ⟨⟨c',s',hpass⟩,hstray⟩,?_⟩
      rintro (⟨pre,b,post,c₂,s₂,heq,hpre,habandoned,-⟩ | ⟨-,hstray⟩)
      · exact absurd habandoned.rejected (hpass.not_rejected hpre heq)
      · exact hstray
    · have hother : Rejected E wpSummaries c' s' b → ¬ ∃ c' s',AllValid E wpSummaries w.chain ⟨none,recent,[]⟩ blocks c' s' :=
        fun hr ⟨_,_,hall⟩ => hall.not_rejected hpass heq hr
      obtain ⟨hbad,hrun⟩ | ⟨habandoned,a,ha,hrun⟩ := hend
      · -- A bad proof.
        have hrejected : Rejected E wpSummaries c' s' b := by
          intro r difficulty subSlotIters hvalid
          rw [hbad] at hvalid
          cases hvalid
        obtain ⟨htemp,-,-⟩ := hpass.temporary (Temporary.refl (E := E) w.chain [])
        have hall : Temporary E w.chain c' blocks := by
          rw [heq]
          exact htemp.mono
        obtain ⟨c₁,hundo,hsame⟩ := undo_run hall w
        rw [Eff.bind_of_ok hundo] at hrun
        rw [Eff.bind_of_ok hrun]
        refine iff_of_true hsame ?_
        rintro (⟨pre₂,b₂,post₂,c₂,s₂,heq₂,hpre₂,habandoned,-⟩ | ⟨hpasses,-⟩)
        · obtain ⟨rfl,rfl,rfl,rfl⟩ := hpass.unique hpre₂ (heq.symm.trans heq₂) hrejected habandoned.rejected
          obtain h | ⟨e,h⟩ := habandoned <;> rw [hbad] at h <;> cases h
        · exact hother hrejected hpasses
      · have hchain : ((loop E (marked E w.chain blocks) wpSummaries blocks ⟨none,recent,[]⟩ >>=
            afterLoop E (marked E w.chain blocks) blocks batchSize pool) (w.withChain w.chain)).2.chain=c' := by
          cases a with
          | error e => rw [Eff.bind_of_error hrun]; rfl
          | ok o =>
            cases o with
            | none => rw [Eff.bind_of_ok hrun]; rfl
            | some s => exact absurd rfl (ha s)
        rw [hchain,hpass.sameRecords_iff,not_or]
        constructor
        · intro hknown
          refine ⟨?_,fun ⟨hpasses,_⟩ => hother habandoned.rejected hpasses⟩
          rintro ⟨pre₂,b₂,post₂,c₂,s₂,heq₂,hpre₂,habandoned₂,x,hx,hunknown⟩
          obtain ⟨rfl,rfl,rfl,rfl⟩ :=
            hpass.unique hpre₂ (heq.symm.trans heq₂) habandoned.rejected habandoned₂.rejected
          exact hknown x hx hunknown
        · rintro ⟨hnone,-⟩ x hx hunknown
          exact hnone ⟨pre,b,post,c',s',heq,hpass,habandoned,x,hx,hunknown⟩
  · rw [preValidate_of_unknown w batchSize pool fun recent h => hex ⟨recent,h⟩]
    exact iff_of_true (SameRecords.refl _) fun ⟨recent,hrecent,_⟩ => hex ⟨recent,hrecent⟩

theorem preValidate_cases (w : World) (batchSize : ℕ)
    (pool : List PoolBatch → Check (List PreValidationResult)) :
    SameRecords w.chain (preValidateBlocksMultiprocessing E blocks batchSize wpSummaries pool w).2.chain ∨
      LeavesBehind E wpSummaries w.chain blocks ∧
        ∀ results,(preValidateBlocksMultiprocessing E blocks batchSize wpSummaries pool w).1 ≠ .ok (some results) := by
  by_cases hex : ∃ recent,recentBlocks E w.chain.view blocks = .ok (some recent)
  · obtain ⟨recent,hrecent⟩ := hex
    rw [preValidate_of_recent w batchSize pool hrecent]
    obtain ⟨c',s',hpass,hrun⟩ | ⟨pre,b,post,c',s',heq,hpass,⟨-,hrun⟩ | ⟨habandoned,a,ha,hrun⟩⟩ :=
      loop_run (marked E w.chain blocks) w blocks w.chain ⟨none,recent,[]⟩
    · obtain ⟨a,c₁,hremove,hsame,hok⟩ := removeTemporary_run hpass.removing w
      rw [Eff.bind_of_ok hrun,afterLoop]
      cases a with
      | error e =>
        rw [Eff.bind_of_error hremove]
        by_cases hstray : Stray E w.chain [] blocks
        · exact Or.inr ⟨⟨recent,hrecent,Or.inr ⟨⟨c',s',hpass⟩,hstray⟩⟩,fun _ h => by cases h⟩
        · exact Or.inl (hsame.mpr hstray)
      | ok u =>
        rw [Eff.bind_of_ok hremove,keepsChain_toPool]
        exact Or.inl (hok rfl)
    · obtain ⟨htemp,-,-⟩ := hpass.temporary (Temporary.refl (E := E) w.chain [])
      obtain ⟨c₁,hundo,hsame⟩ := undo_run (heq ▸ htemp.mono : Temporary E w.chain c' blocks) w
      rw [Eff.bind_of_ok hundo] at hrun
      rw [Eff.bind_of_ok hrun]
      exact Or.inl hsame
    · have hcase : SameRecords w.chain c' ∨ LeavesBehind E wpSummaries w.chain blocks := by
        rw [hpass.sameRecords_iff,or_iff_not_imp_left]
        intro hknown
        push Not at hknown
        obtain ⟨x,hx,hunknown⟩ := hknown
        exact ⟨recent,hrecent,Or.inl ⟨pre,b,post,c',s',heq,hpass,habandoned,x,hx,hunknown⟩⟩
      obtain e | _ | s := a
      · rw [Eff.bind_of_error hrun]
        exact hcase.imp_right fun h => ⟨h,fun _ h => by cases h⟩
      · rw [Eff.bind_of_ok hrun]
        exact hcase.imp_right fun h => ⟨h,fun _ h => by cases h⟩
      · exact absurd rfl (ha s)
  · rw [preValidate_of_unknown w batchSize pool fun recent h => hex ⟨recent,h⟩]
    exact Or.inl (SameRecords.refl _)

theorem preValidate_returned {w w' : World} {batchSize : ℕ}
    {pool : List PoolBatch → Check (List PreValidationResult)} {results : List PreValidationResult}
    (h : preValidateBlocksMultiprocessing E blocks batchSize wpSummaries pool w=(.ok (some results),w')) :
    SameRecords w.chain w'.chain := by
  have hcases := @preValidate_cases E wpSummaries blocks w batchSize pool
  rw [h] at hcases
  exact hcases.resolve_right fun hleft => hleft.2 results rfl

def proofBlock (hash prev : Bytes32) (height weight signagePointIndex : ℕ) : FullBlock :=
  { tinyBlock hash prev height weight with
    rewardChainBlock := { (tinyBlock hash prev height weight).rewardChainBlock with
      signagePointIndex := signagePointIndex
      proofOfSpace := ⟨0,some [],none,[],32,[]⟩ } }

/-- The signage point index of the second block is too high: the first stays behind, and is known
when it comes. -/
theorem preValidate_leaves_first : ∃ accepted w blocks,Ran tinyEnv accepted w ∧
    ¬ SameRecords w.chain (preValidateBlocksMultiprocessing tinyEnv blocks 4 none (fun _ => .ok []) w).2.chain ∧
    ∃ b∈blocks,b∉accepted ∧ (receiveBlock tinyEnv b tinyPre none w).1 = .ok (.newPeak,none,some 0) ∧
      (receiveBlock tinyEnv b tinyPre none
        (preValidateBlocksMultiprocessing tinyEnv blocks 4 none (fun _ => .ok []) w).2).1 =
          .ok (.alreadyHaveBlock,none,none) := by
  have hran : Ran tinyEnv _ (tinyState [tinyGenesis]) := (Ran.start 5 5).call (tinyFirst_call _ 10) none
  refine ⟨_,_,[proofBlock 11 10 1 8 0,proofBlock 12 11 2 9 64],hran,fun hsame => ?_,
    proofBlock 11 10 1 8 0,List.mem_cons_self,?_,?_,?_⟩
  · have hleft : ((preValidateBlocksMultiprocessing tinyEnv [proofBlock 11 10 1 8 0,proofBlock 12 11 2 9 64] 4
        none (fun _ => .ok []) (tinyState [tinyGenesis])).2.chain.blockRecords.get? 11).isSome ∧
        ((tinyState [tinyGenesis]).chain.blockRecords.get? 11)=none := by decide +kernel
    rw [hsame,hleft.2] at hleft
    cases hleft.1
  · intro hmem
    have hheight : ∀ b∈[]++nowAccepted (tinyFirst 10)
        (receiveBlock tinyEnv (tinyFirst 10) tinyPre none ((World.empty 5 5).due none)).1,b.height=0 := by
      decide +kernel
    exact absurd (hheight _ hmem) (by decide)
  · decide +kernel
  · decide +kernel

end RoseChain
