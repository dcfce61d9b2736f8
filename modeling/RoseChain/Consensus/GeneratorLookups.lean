import RoseChain.Consensus.GeneratorRefs
import RoseChain.FullNode.NoRaise

namespace RoseChain
open Lib Blockchain
variable {E : Env} {w v : World} {P l : List FullBlock} {additionalBlocks : Dict Bytes32 FullBlock} {α β : Type}

/-- In a node at rest that nothing interrupts, the computation answers `x` and leaves the node at rest. -/
def Reads (w : World) (m : NodeM α) (x : Check α) : Prop :=
  ∀ v,AtRest w v → v.interrupt=none → ∃ v',m v=(x,v') ∧ AtRest w v' ∧ v'.interrupt=none

section Rules

theorem Reads.lift (x : Check α) : Reads w (Eff.lift x) x := fun v hv hcalm => ⟨v,rfl,hv,hcalm⟩

theorem Reads.pure (a : α) : Reads w (pure a : NodeM α) (.ok a) := Reads.lift (.ok a)

variable {f : α → NodeM β}

variable {m : NodeM α} {x : Check α} {g : α → Check β}

theorem Reads.bind (hm : Reads w m x)
    (hf : ∀ a,x = .ok a → Reads w (f a) (g a)) : Reads w (m >>= f) (x >>= g) := by
  intro v hv hcalm
  obtain ⟨v',hrun,hv',hcalm'⟩ := hm v hv hcalm
  cases x with
  | error e => exact ⟨v',Eff.bind_of_error hrun f,hv',hcalm'⟩
  | ok a =>
    rw [Eff.bind_of_ok hrun]
    exact hf a rfl v' hv' hcalm'

theorem Reads.bind_ok {a : α} {y : Check β} (hm : Reads w m (.ok a))
    (hf : Reads w (f a) y) : Reads w (m >>= f) y :=
  hm.bind (g := fun _ => y) fun b hb => by rwa [← Except.ok.inj hb]

theorem Reads.chain {f : World → NodeM α}
    (hf : ∀ v,v.chain=w.chain → Reads w (f v) x) : Reads w (Eff.get >>= f) x := by
  intro v hv hcalm
  rw [Eff.bind_get]
  exact hf v hv.chain v hv hcalm

theorem Reads.mapM (h : ∀ a,Reads w (f a) (g a)) (l : List α) : Reads w (l.mapM f) (l.mapM g) := by
  induction l with
  | nil => exact Reads.pure []
  | cons a l ih =>
    rw [List.mapM_cons,List.mapM_cons]
    exact (h a).bind fun _ _ => ih.bind fun _ _ => Reads.pure _

theorem Reads.getFullBlock (hash : Bytes32) : Reads w (BlockStore.getFullBlock hash) (.ok (w.block? hash)) := by
  intro v hv hcalm
  have hb : v.block?=w.block? := by
    unfold World.block?
    rw [hv.db]
  have hmoved : modifyBlockCache (fun c => (c.get hash).2) v =
      (.ok (),{ v with blockCache := (v.blockCache.get hash).2 }) := rfl
  unfold BlockStore.getFullBlock
  rw [Eff.bind_get,Eff.bind_of_ok hmoved,LRUCache.get_fst]
  cases hc : v.blockCache.cache.get? hash with
  | some b =>
    rw [hv.blocks hash b hc]
    exact ⟨_,rfl,⟨hv.db,hv.saved,hv.chain,hv.blocks.get hash⟩,hcalm⟩
  | none =>
    dsimp only
    rw [Eff.bind_of_ok (fetch_calm (by exact hcalm) _)]
    cases hr : v.db.fullBlocks.get? hash with
    | none =>
      have hnone : w.block? hash=none := by
        rw [← hb]
        simp [World.block?,hr]
      rw [hnone]
      exact ⟨_,rfl,⟨hv.db,hv.saved,hv.chain,hv.blocks.get hash⟩,hcalm⟩
    | some row =>
      have hsome : w.block? hash=some row.block := by
        rw [← hb]
        simp [World.block?,hr]
      rw [hsome]
      exact ⟨_,rfl,⟨hv.db,hv.saved,hv.chain,(hv.blocks.get hash).put hsome⟩,hcalm⟩

theorem Reads.getBlockRecord (hash : Bytes32) :
    Reads w (BlockStore.getBlockRecord hash) (.ok (w.record? hash)) := by
  intro v hv hcalm
  refine ⟨v,?_,hv,hcalm⟩
  rw [BlockStore.getBlockRecord_calm hcalm,World.record?,World.record?,hv.db]

end Rules

def World.indexedBlock (w : World) (height : ℕ) : Option FullBlock :=
  (w.chain.heightToHash.get? height).bind w.block?

/-- `generator_arg` of a reference, as a matter of the state only. -/
def World.referredArg (w : World) (branch : Dict ℕ FullBlock) (refHeight : ℕ) : Check GeneratorArg := do
  match branch.get? refHeight with
  | some refBlock => generatorArg refBlock
  | none => generatorArg (← assertSome (w.block? (← lookup (w.chain.heightToHash.get? refHeight))))

theorem generatorArgAt_reads (branch : Dict ℕ FullBlock) (refHeight : ℕ) :
    Reads w (generatorArgAt branch refHeight) (w.referredArg branch refHeight) := by
  unfold generatorArgAt World.referredArg
  cases branch.get? refHeight with
  | some b => exact Reads.lift _
  | none =>
    dsimp only
    rw [← bind_assoc]
    refine Reads.bind ?_ fun _ _ => Reads.lift _
    refine Reads.chain fun v hv => ?_
    rw [hv]
    refine (Reads.lift _).bind fun h _ => ?_
    exact (Reads.getFullBlock h).bind_ok (Reads.lift _)

variable (E) in
/-- The header of the block fits its ancestors `l`: they are known, from a first block that builds on nothing known,
and the height counts on. -/
structure FitsAncestors (w : World) (additionalBlocks : Dict Bytes32 FullBlock) (prevHeaderHash : Bytes32)
    (height : Option ℕ) (l : List FullBlock) : Prop where
  path : l=[] ∧ (w.forestWith E additionalBlocks).find prevHeaderHash=none ∨
    (w.forestWith E additionalBlocks).Path prevHeaderHash l
  ground : ∀ root,l[0]?=some root → (w.forestWith E additionalBlocks).find root.prevHeaderHash=none
  height : ∀ h,height=some h → h=l.length

theorem forestWith_none {h : Bytes32} (hf : (w.forestWith E additionalBlocks).find h=none) :
    additionalBlocks.get? h=none ∧ w.block? h=none := Option.or_eq_none_iff.mp hf

variable {height : Option ℕ}

theorem FitsAncestors.ancestors {prevHeaderHash : Bytes32}
    (h : FitsAncestors E w additionalBlocks prevHeaderHash height l) : Ancestors E w additionalBlocks prevHeaderHash l :=
  ⟨h.path.imp_left And.left,fun root hroot => (forestWith_none (h.ground root hroot)).2⟩

variable {n : ℕ} {hash : Bytes32}

/-- The walk through the additional blocks goes down strictly, so that it ends and never asserts. -/
theorem additionalAncestors_total (found : Dict ℕ FullBlock)
    (hl : FitsAncestors E w additionalBlocks hash height l)
    (hn : (additionalBlocks.entries.filter fun e => decide (e.2.height<l.length)).length<n) :
    ∃ p,additionalAncestors additionalBlocks n hash height found = .ok p := by
  induction n generalizing hash height found l with
  | zero => omega
  | succ n ih =>
    unfold additionalAncestors
    cases hadd : additionalBlocks.get? hash with
    | none => exact ⟨_,rfl⟩
    | some prev =>
      have hbp : (w.forestWith E additionalBlocks).find hash=some prev := by
        change (additionalBlocks.get? hash).or (w.block? hash)=some prev
        rw [hadd]
        rfl
      have hpath : (w.forestWith E additionalBlocks).Path hash l := by
        refine hl.path.resolve_left fun h => ?_
        rw [h.2] at hbp
        cases hbp
      obtain ⟨b,m,hb,rfl,htop⟩ := Forest.path_iff.mp hpath
      obtain rfl : b=prev := Option.some.inj (hb.symm.trans hbp)
      have hh : b.height=m.length := htop.1
      have hassert : assertThat (∀ h,height=some h → h=b.height+1) = .ok () := by
        rw [assertThat_eq_ok]
        intro h hsome
        rw [hl.height h hsome,hh,List.length_append,List.length_singleton]
      dsimp only
      rw [bind_of_ok hassert]
      have hroot (hm : m=[]) : (w.forestWith E additionalBlocks).find b.prevHeaderHash=none :=
        hl.ground b (by rw [hm]; rfl)
      refine ih (found.set b.height b) (l := m) ⟨?_,fun root hr => ?_,fun h hsome => ?_⟩ ?_
      · exact htop.2.imp_left fun hm => ⟨hm,hroot hm⟩
      · refine hl.ground root ?_
        rw [List.getElem?_append_left (List.getElem?_eq_some_iff.mp hr).1]
        exact hr
      · rw [← Option.some.inj hsome,hh]
      · refine lt_of_lt_of_le ?_ (Nat.le_of_lt_succ hn)
        have hsub : (additionalBlocks.entries.filter fun e => decide (e.2.height < m.length)) =
            (additionalBlocks.entries.filter fun e => decide (e.2.height<(m++[b]).length)).filter
              fun e => decide (e.2.height < m.length) := by
          rw [List.filter_filter]
          refine List.filter_congr fun e _ => ?_
          rw [List.length_append,List.length_singleton]
          by_cases hlt : e.2.height < m.length
          · simp [hlt,Nat.lt_succ_of_lt hlt]
          · simp [hlt]
        rw [hsub]
        refine List.length_filter_lt_length_iff_exists.mpr ⟨(hash,b),?_,?_⟩
        · refine List.mem_filter.mpr ⟨(additionalBlocks.mem_entries hash b).mpr hadd,?_⟩
          simp [hh]
        · simp [hh]

theorem reorgChain_reads (fork : ℤ) {curr : FullBlock} {k : Bytes32} (hp : (w.forest E).Path k l)
    (hcurr : w.block? k=some curr) (hn : curr.height<n) (found : Dict ℕ FullBlock) :
    ∃ branch,Reads w (reorgChain fork n curr found) (.ok branch) := by
  induction n generalizing curr found k l with
  | zero => omega
  | succ n ih =>
    obtain ⟨b,m,hb,rfl,htop⟩ := Forest.path_iff.mp hp
    obtain rfl : b=curr := Option.some.inj (hb.symm.trans hcurr)
    have hh : b.height=m.length := htop.1
    unfold reorgChain
    dsimp only
    split_ifs with hmore
    · have hpath : (w.forest E).Path b.prevHeaderHash m := htop.path (by rw [worldForest_height]; omega)
      obtain ⟨prev,hprev,-,hlen⟩ := hpath.last
      have hph : prev.height+1=m.length := hlen
      obtain ⟨branch,hread⟩ := ih hpath hprev (by omega) (found.set b.height b)
      refine ⟨branch,(Reads.getFullBlock _).bind_ok ?_⟩
      have hstored : w.block? b.prevHeaderHash=some prev := hprev
      rw [hstored]
      exact (Reads.lift (.ok prev)).bind_ok hread
    · exact ⟨_,Reads.pure _⟩

variable {hash' : Bytes32} {found found' : Dict ℕ FullBlock}

theorem additionalAncestors_none (hnone : additionalBlocks.get? hash=none)
    (hrun : additionalAncestors additionalBlocks n hash height found = .ok (found',hash')) :
    found'=found ∧ hash'=hash := by
  cases n with
  | zero => cases hrun
  | succ n =>
    unfold additionalAncestors at hrun
    rw [hnone] at hrun
    obtain ⟨hfound,hhash⟩ := Prod.mk.inj (Except.ok.inj hrun)
    exact ⟨hfound.symm,hhash.symm⟩

theorem additionalAncestors_high (hl : FitsAncestors E w additionalBlocks hash height l)
    (hrun : additionalAncestors additionalBlocks n hash height found = .ok (found',hash')) {h : ℕ}
    (hh : l.length≤h) : found'.get? h=found.get? h := by
  obtain ⟨rfl,hnone⟩ | hpath := hl.path
  · rw [(additionalAncestors_none (forestWith_none hnone).1 hrun).1]
  · obtain ⟨l₁,l₂,rfl,-,-,hget⟩ := additionalAncestors_ok hpath hrun
    rw [hget,if_neg (by omega)]

theorem FitsAncestors.stored (ha : Additional w additionalBlocks) (hi : Indexed E w) (hl : FitsAncestors E w additionalBlocks hash height l)
    (hrun : additionalAncestors additionalBlocks n hash height found = .ok (found',hash')) {c : FullBlock}
    (hc : w.block? hash'=some c) : ∃ l₁ : List FullBlock,l₁.length≤l.length ∧ (w.forest E).Path hash' l₁ := by
  obtain ⟨rfl,hnone⟩ | hpath := hl.path
  · rw [(additionalAncestors_none (forestWith_none hnone).1 hrun).2,(forestWith_none hnone).2] at hc
    cases hc
  · obtain ⟨l₁,l₂,rfl,-,hend,-⟩ := additionalAncestors_ok hpath hrun
    refine ⟨l₁,by simp,ha.stored hi hc (hend.resolve_left fun h => ?_)⟩
    obtain ⟨-,root,hroot,heq⟩ := h
    rw [heq,(forestWith_none (hl.ground root hroot)).2] at hc
    cases hc

theorem sideBranchBlocks_reads (hrest : Resting E w P) (ha : Additional w additionalBlocks) {block : BlockBody}
    (hl : FitsAncestors E w additionalBlocks block.prevHeaderHash height l) :
    ∃ branch,Reads w (sideBranchBlocks block height additionalBlocks) (.ok branch) ∧
      (∀ h,h<l.length → branch.get? h=l[h]? ∨ branch.get? h=none ∧ P[h]?=l[h]?) ∧
      ∀ h,l.length≤h → branch.get? h=none := by
  obtain ⟨⟨found,hash⟩,hwalk⟩ : ∃ p,additionalAncestors additionalBlocks (additionalBlocks.size+1)
      block.prevHeaderHash height Dict.empty = .ok p :=
    additionalAncestors_total Dict.empty hl (Nat.lt_succ_of_le (List.length_filter_le _ _))
  have hhigh (h : ℕ) (hh : l.length≤h) : found.get? h=none := additionalAncestors_high hl hwalk hh
  obtain ⟨peak,hpeak⟩ : ∃ peak,getPeak w.chain = .ok peak := by
    rcases List.eq_nil_or_concat P with rfl | ⟨P',p,rfl⟩
    · exact ⟨none,getPeak_nil hrest.main⟩
    · rw [List.concat_eq_append] at hrest
      obtain ⟨rp,hp,-⟩ := getPeak_concat hrest.indexed hrest.main
      exact ⟨some rp,hp⟩
  have hread : ∃ branch,Reads w (sideBranchBlocks block height additionalBlocks) (.ok branch) ∧
      ∀ h,l.length≤h → branch.get? h=none := by
    unfold sideBranchBlocks
    rw [hwalk]
    cases hb : w.block? hash with
    | none =>
      have hcontains : w.chain.view.containsBlock hash=false := by
        rw [Bool.eq_false_iff,Ne,hrest.indexed.contains_iff,hb]
        simp
      refine ⟨found,(Reads.lift (.ok (found,hash))).bind_ok (Reads.chain fun v hv => ?_),hhigh⟩
      rw [hv,hpeak]
      refine (Reads.lift (.ok peak)).bind_ok ?_
      cases peak with
      | none => exact Reads.pure found
      | some peak =>
        dsimp only
        rw [hcontains,if_neg Bool.false_ne_true]
        exact Reads.pure found
    | some c =>
      obtain ⟨l₁,hle,hown⟩ := hl.stored ha hrest.indexed hwalk hb
      obtain ⟨y,hy,-,hlen⟩ := hown.last
      obtain rfl : y=c := Option.some.inj (hy.symm.trans hb)
      have hyh : y.height+1=l₁.length := hlen
      have hcontains : w.chain.view.containsBlock hash=true :=
        (hrest.indexed.contains_iff hash).mpr (by rw [hb]; rfl)
      obtain ⟨r,hr,hrec⟩ := hrest.indexed.record hb
      obtain ⟨peak,k,rfl,hk,hat⟩ := hrest.fork_of_stored hb hrec hown hpeak
      have hright := hat.right
      obtain ⟨branch,hbranch⟩ := reorgChain_reads ((k : ℤ) - 1) hown hb (Nat.lt_succ_self _) found
      refine ⟨branch,(Reads.lift (.ok (found,hash))).bind_ok (Reads.chain fun v hv => ?_),fun h hh => ?_⟩
      · rw [hv,hpeak]
        refine (Reads.lift (.ok (some peak))).bind_ok ?_
        dsimp only
        rw [hcontains,if_pos rfl]
        refine (Reads.getBlockRecord hash).bind_ok ((Reads.getFullBlock hash).bind_ok ?_)
        rw [hb,hrec]
        refine (Reads.lift (.ok y)).bind_ok ((Reads.lift (.ok r)).bind_ok ?_)
        rw [hk]
        exact (Reads.lift (.ok _)).bind_ok hbranch
      · obtain ⟨v',hrun,-⟩ := hbranch (w.due none) (hrest.atRest none) rfl
        have hget := ((hrest.atRest none).reorgChain hown hb (by omega) hrun).1 h
        rw [hget,if_neg (by omega)]
        exact hhigh h hh
  obtain ⟨branch,hbranch,hbhigh⟩ := hread
  refine ⟨branch,hbranch,?_,hbhigh⟩
  intro h hh
  have hne : l≠[] := by
    rintro rfl
    exact absurd hh (Nat.not_lt_zero _)
  obtain ⟨v',hrun,-⟩ := hbranch (w.due none) (hrest.atRest none) rfl
  exact ((hrest.atRest none).sideBranchBlocks hrest ha hl.ancestors hne hrun).1 h hh

end RoseChain
