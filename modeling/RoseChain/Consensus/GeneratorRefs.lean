import RoseChain.Consensus.BlocksAtHeight

namespace RoseChain
open Lib Blockchain
variable {E : Env} {w v v' : World} {P l : List FullBlock} {additionalBlocks : Dict Bytes32 FullBlock}

variable {h : Bytes32}

include E in
theorem AtRest.getFullBlock (hv : AtRest w v) {o : Option FullBlock}
    (hrun : BlockStore.getFullBlock h v=(.ok o,v')) : o=w.block? h ∧ AtRest w v' := by
  have hb : v.block?=w.block? := by
    unfold World.block?
    rw [hv.db]
  have hcache : v.blockCache.Within v.block? := by
    rw [hb]
    exact hv.blocks
  have hq := BlockStore.getFullBlock_quiet (E := E) h v
  rw [hrun] at hq
  refine ⟨?_,hq.db.trans hv.db,hq.saved.trans hv.saved,hq.chain.trans hv.chain,?_⟩
  · rw [BlockStore.getFullBlock_answer hcache hrun,hb]
  · rw [← hb]
    exact hq.blocks hcache

include E in
theorem AtRest.getBlockRecord (hv : AtRest w v) {o : Option BlockRecord}
    (hrun : BlockStore.getBlockRecord h v=(.ok o,v')) : o=w.record? h ∧ AtRest w v' := by
  have hb : v.block?=w.block? := by
    unfold World.block?
    rw [hv.db]
  have hq := (BlockStore.getBlockRecord_observes (E := E) h).quiet v
  rw [hrun] at hq
  refine ⟨?_,hq.db.trans hv.db,hq.saved.trans hv.saved,hq.chain.trans hv.chain,?_⟩
  · rw [BlockStore.getBlockRecord_answer hrun,World.record?,World.record?,hv.db]
  · rw [← hb]
    exact hq.blocks (by rw [hb]; exact hv.blocks)

theorem lift_ok {α : Type} {x : Check α} {a : α} (h : (Eff.lift x : NodeM α) v=(.ok a,v')) :
    x = .ok a ∧ v'=v := by
  obtain ⟨h₁,h₂⟩ := Prod.mk.inj h
  exact ⟨h₁,h₂.symm⟩

def ArgOf (b : FullBlock) (arg : GeneratorArg) : Prop :=
  arg.blockHeight=b.height ∧ b.transactionsGenerator=some arg.generator

variable {b : FullBlock}

variable {arg : GeneratorArg}

theorem generatorArg_ok (h : generatorArg b = .ok arg) : ArgOf b arg := by
  unfold generatorArg at h
  cases hg : b.transactionsGenerator with
  | none => rw [hg] at h; cases h
  | some generator =>
    rw [hg] at h
    obtain rfl := Except.ok.inj h
    exact ⟨rfl,hg⟩

variable {refHeight : ℕ}

include E in
theorem AtRest.mainChainBlock (hv : AtRest w v) (hrun : mainChainBlock refHeight v=(.ok b,v')) :
    (∃ h,w.chain.heightToHash.get? refHeight=some h ∧ w.block? h=some b) ∧ AtRest w v' := by
  unfold Blockchain.mainChainBlock at hrun
  rw [Eff.bind_get] at hrun
  obtain ⟨h,v₁,h₁,hrest⟩ := Eff.bind_ok hrun
  obtain ⟨hindex,rfl⟩ := lift_ok h₁
  obtain ⟨o,v₂,h₂,hblock⟩ := Eff.bind_ok hrest
  obtain ⟨rfl,hv₂⟩ := hv.getFullBlock (E := E) h₂
  obtain ⟨hsome,rfl⟩ := lift_ok hblock
  refine ⟨⟨h,?_,?_⟩,hv₂⟩
  · rw [← hv.chain]
    exact lookup_eq_ok.mp hindex
  · cases hb : w.block? h with
    | none => rw [hb] at hsome; cases hsome
    | some x => rw [hb] at hsome; rw [Except.ok.inj hsome]

variable {branch : Dict ℕ FullBlock}

include E in
theorem AtRest.generatorArgAt (hv : AtRest w v) (hrun : generatorArgAt branch refHeight v=(.ok arg,v')) :
    (∃ b,(branch.get? refHeight=some b ∨ branch.get? refHeight=none ∧
      ∃ h,w.chain.heightToHash.get? refHeight=some h ∧ w.block? h=some b) ∧ ArgOf b arg) ∧ AtRest w v' := by
  unfold Blockchain.generatorArgAt at hrun
  cases hb : branch.get? refHeight with
  | some b =>
    simp only [hb] at hrun
    obtain ⟨harg,rfl⟩ := lift_ok hrun
    exact ⟨⟨b,Or.inl rfl,generatorArg_ok harg⟩,hv⟩
  | none =>
    simp only [hb] at hrun
    obtain ⟨b,v₁,h₁,hlast⟩ := Eff.bind_ok hrun
    obtain ⟨hmain,hv₁⟩ := hv.mainChainBlock (E := E) h₁
    obtain ⟨harg,rfl⟩ := lift_ok hlast
    exact ⟨⟨b,Or.inr ⟨rfl,hmain⟩,generatorArg_ok harg⟩,hv₁⟩

theorem get?_set_concat (found : Dict ℕ FullBlock) {m : List FullBlock} (hh : b.height=m.length)
    (h : ℕ) : (found.set b.height b).get? h=if h=m.length then (m++[b])[h]? else found.get? h := by
  rw [Dict.get?_set,hh]
  by_cases heq : h=m.length
  · rw [if_pos heq.symm,if_pos heq,heq,List.getElem?_concat_length]
  · rw [if_neg (Ne.symm heq),if_neg heq]

variable {n : ℕ} {found found' : Dict ℕ FullBlock}

theorem AtRest.reorgChain (hv : AtRest w v) {fork : ℤ} {curr : FullBlock}
    {k : Bytes32} (hp : (w.forest E).Path k l) (hcurr : w.block? k=some curr)
    (hfork : fork ≤ curr.height) (hrun : reorgChain fork n curr found v=(.ok found',v')) :
    (∀ h,found'.get? h=if fork≤h ∧ h<l.length then l[h]? else found.get? h) ∧ AtRest w v' := by
  induction n generalizing v curr found k l with
  | zero => cases hrun
  | succ n ih =>
    obtain ⟨b,m,hb,rfl,htop⟩ := Forest.path_iff.mp hp
    obtain rfl : b=curr := Option.some.inj (hb.symm.trans hcurr)
    have hh : b.height=m.length := htop.1
    have hset := get?_set_concat found hh
    unfold Blockchain.reorgChain at hrun
    dsimp only at hrun
    split_ifs at hrun with hmore
    · obtain ⟨o,v₁,h₁,hrest⟩ := Eff.bind_ok hrun
      obtain ⟨rfl,hv₁⟩ := hv.getFullBlock (E := E) h₁
      obtain ⟨prev,v₂,h₂,hlast⟩ := Eff.bind_ok hrest
      obtain ⟨hsome,rfl⟩ := lift_ok h₂
      have hprev : w.block? b.prevHeaderHash=some prev := by
        cases hb' : w.block? b.prevHeaderHash with
        | none => rw [hb'] at hsome; cases hsome
        | some x => rw [hb'] at hsome; rw [Except.ok.inj hsome]
      have hpath : (w.forest E).Path b.prevHeaderHash m := htop.path (by rw [worldForest_height]; omega)
      obtain ⟨y,hy,-,hlen⟩ := hpath.last
      obtain rfl : y=prev := Option.some.inj (hy.symm.trans hprev)
      have hyh : y.height+1=m.length := hlen
      obtain ⟨hget,hv'⟩ := ih hv₁ hpath hprev (by omega) hlast
      refine ⟨fun h => ?_,hv'⟩
      rw [hget,hset,List.length_append,List.length_singleton]
      by_cases hlow : fork≤h ∧ h < m.length
      · rw [if_pos hlow,if_pos (by omega),List.getElem?_append_left hlow.2]
      · rw [if_neg hlow]
        by_cases heq : h=m.length
        · rw [if_pos heq,if_pos (by omega)]
        · rw [if_neg heq,if_neg (by omega)]
    · obtain ⟨hok,rfl⟩ := Prod.mk.inj hrun
      obtain rfl := Except.ok.inj hok
      refine ⟨fun h => ?_,hv⟩
      rw [hset,List.length_append,List.length_singleton]
      by_cases heq : h=m.length
      · rw [if_pos heq,if_pos (by omega)]
      · rw [if_neg heq,if_neg (by omega)]

variable (E) in
/-- The stored blocks together with the additional ones. -/
def World.forestWith (w : World) (additionalBlocks : Dict Bytes32 FullBlock) : Forest Bytes32 FullBlock :=
  ⟨fun h => (additionalBlocks.get? h).or (w.block? h),FullBlock.headerHash E,FullBlock.prevHeaderHash,
    FullBlock.height⟩

/-- An additional block that is stored after all is the stored one. -/
def Additional (w : World) (additionalBlocks : Dict Bytes32 FullBlock) : Prop :=
  ∀ h b b',additionalBlocks.get? h=some b → w.block? h=some b' → b=b'

theorem Additional.find (ha : Additional w additionalBlocks) (hb : w.block? h=some b) : (w.forestWith E additionalBlocks).find h=some b := by
  change (additionalBlocks.get? h).or (w.block? h)=some b
  cases hadd : additionalBlocks.get? h with
  | none => exact hb
  | some b' => rw [ha h b' b hadd hb]; rfl

theorem Additional.stored (ha : Additional w additionalBlocks) (hi : Indexed E w) (hb : w.block? h=some b) (hp : (w.forestWith E additionalBlocks).Path h l) : (w.forest E).Path h l := by
  obtain ⟨m,hm⟩ := hi.ancestors h b hb
  have hpath : (w.forest E).Path h (m++[b]) := Forest.path_iff.mpr ⟨b,m,hb,rfl,hm⟩
  have hboth := hpath.mono (G := w.forestWith E additionalBlocks) (fun _ _ hv => ha.find hv) rfl rfl
  rw [hp.unique hboth]
  exact hpath

variable {height : Option ℕ}

variable {hash : Bytes32}

theorem additionalAncestors_ok {hash' : Bytes32} (hp : (w.forestWith E additionalBlocks).Path hash l)
    (hrun : additionalAncestors additionalBlocks n hash height found = .ok (found',hash')) :
    ∃ l₁ l₂,l=l₁++l₂ ∧ additionalBlocks.get? hash'=none ∧
      (l₁=[] ∧ (∃ root,l[0]?=some root ∧ hash'=root.prevHeaderHash) ∨
        (w.forestWith E additionalBlocks).Path hash' l₁) ∧
      ∀ h,found'.get? h=if l₁.length≤h ∧ h<l.length then l[h]? else found.get? h := by
  induction n generalizing hash height found l with
  | zero => cases hrun
  | succ n ih =>
    unfold additionalAncestors at hrun
    cases hadd : additionalBlocks.get? hash with
    | none =>
      rw [hadd] at hrun
      obtain ⟨rfl,rfl⟩ := Prod.mk.inj (Except.ok.inj hrun)
      refine ⟨l,[],by simp,hadd,Or.inr hp,fun h => ?_⟩
      rw [if_neg (by omega)]
    | some prev =>
      rw [hadd] at hrun
      dsimp only at hrun
      obtain ⟨u,-,hrest⟩ := bind_ok.mp hrun
      obtain ⟨b,m,hb,rfl,htop⟩ := Forest.path_iff.mp hp
      have hbp : (w.forestWith E additionalBlocks).find hash=some prev := by
        change (additionalBlocks.get? hash).or (w.block? hash)=some prev
        rw [hadd]
        rfl
      obtain rfl : b=prev := Option.some.inj (hb.symm.trans hbp)
      have hh : b.height=m.length := htop.1
      have hset := get?_set_concat found hh
      rcases htop.2 with rfl | hpath
      · -- the first block of all
        have hzero : b.height=0 := hh
        refine ⟨[],[b],rfl,?_⟩
        cases n with
        | zero => cases hrest
        | succ n =>
          unfold additionalAncestors at hrest
          cases hbelow : additionalBlocks.get? b.prevHeaderHash with
          | none =>
            rw [hbelow] at hrest
            obtain ⟨rfl,rfl⟩ := Prod.mk.inj (Except.ok.inj hrest)
            refine ⟨hbelow,Or.inl ⟨rfl,b,rfl,rfl⟩,fun h => ?_⟩
            rw [hset]
            by_cases heq : h=0
            · rw [if_pos (by simpa using heq),if_pos (by simp [heq])]
            · rw [if_neg (by simpa using heq),if_neg (by simp [heq])]
          | some p =>
            rw [hbelow] at hrest
            dsimp only at hrest
            obtain ⟨u,hassert,-⟩ := bind_ok.mp hrest
            rw [assertThat_eq_ok] at hassert
            have := hassert b.height rfl
            omega
      · obtain ⟨l₁,l₂,rfl,hnone,hend,hget⟩ := ih hpath hrest
        refine ⟨l₁,l₂++[b],by simp,hnone,?_,fun h => ?_⟩
        · refine hend.imp_left fun ⟨hnil,root,hroot,heq⟩ => ⟨hnil,root,?_,heq⟩
          rw [List.getElem?_append_left hpath.length_pos]
          exact hroot
        · rw [hget,hset,List.length_append,List.length_append,List.length_append,List.length_singleton]
          by_cases hlow : l₁.length≤h ∧ h<l₁.length+l₂.length
          · have hin : h<(l₁++l₂).length := by simpa using hlow.2
            rw [if_pos hlow,if_pos (by omega),List.getElem?_append_left hin]
          · rw [if_neg hlow]
            by_cases heq : h=l₁.length+l₂.length
            · rw [if_pos heq,if_pos (by omega)]
            · rw [if_neg heq,if_neg (by omega)]

/-- What the block needs: the ancestors it names, the first of which builds on nothing known. -/
structure Ancestors (E : Env) (w : World) (additionalBlocks : Dict Bytes32 FullBlock) (prevHeaderHash : Bytes32)
    (l : List FullBlock) : Prop where
  path : l=[] ∨ (w.forestWith E additionalBlocks).Path prevHeaderHash l
  ground : ∀ root,l[0]?=some root → w.block? root.prevHeaderHash=none

theorem Resting.fork_of_stored (hrest : Resting E w P) {c : FullBlock} {r : BlockRecord}
    (hb : w.block? hash=some c) (hrec : w.record? hash=some r) (hown : (w.forest E).Path hash l)
    {peak : Option BlockRecord} (hpeak : getPeak w.chain = .ok peak) : ∃ (p : BlockRecord) (k : ℕ),peak=some p ∧
      findForkPointInChain w.chain.view p r = .ok ((k : ℤ)-1) ∧ ForkAt P l k := by
  cases peak with
  | none =>
    rcases List.eq_nil_or_concat P with rfl | ⟨P',p,rfl⟩
    · rw [hrest.main.start rfl] at hb
      cases hb
    · rw [List.concat_eq_append] at hrest
      obtain ⟨rp,hp,-,-⟩ := getPeak_concat hrest.indexed hrest.main
      rw [hp] at hpeak
      cases hpeak
  | some peak =>
    obtain ⟨k,hk,hat⟩ := forkHeight_eq hrest.indexed hrest.main (Or.inr hown) hpeak
      (fun f (hf : (none : Option ℕ)=some f) => by cases hf)
    have hpos : l.length≠0 := Nat.ne_of_gt hown.length_pos
    have hlook : w.chain.view.blockRecord hash = .ok r :=
      lookup_eq_ok.mpr ((hrest.indexed.memory _).trans hrec)
    simp only [forkHeight,hpos,if_false] at hk
    rw [bind_of_ok hlook] at hk
    exact ⟨peak,k,rfl,hk,hat⟩

variable {block : BlockBody}

theorem AtRest.sideBranchBlocks (hrest : Resting E w P) (hv : AtRest w v) (ha : Additional w additionalBlocks)
        (hl : Ancestors E w additionalBlocks block.prevHeaderHash l) (hne : l≠[])
    (hrun : sideBranchBlocks block height additionalBlocks v=(.ok branch,v')) :
    (∀ h,h<l.length → branch.get? h=l[h]? ∨ branch.get? h=none ∧ P[h]?=l[h]?) ∧ AtRest w v' := by
  unfold Blockchain.sideBranchBlocks at hrun
  obtain ⟨⟨found,hash⟩,v₁,h₁,hrun₁⟩ := Eff.bind_ok hrun
  obtain ⟨hwalk,rfl⟩ := lift_ok h₁
  obtain ⟨l₁,l₂,rfl,hnone,hend,hfound⟩ := additionalAncestors_ok (hl.path.resolve_left hne) hwalk
  dsimp only at hrun₁
  rw [Eff.bind_get] at hrun₁
  obtain ⟨peak,v₂,h₂,hrun₂⟩ := Eff.bind_ok hrun₁
  obtain ⟨hpeak,rfl⟩ := lift_ok h₂
  rw [hv.chain] at hpeak
  have hfind : (w.forestWith E additionalBlocks).find hash=w.block? hash := by
    change (additionalBlocks.get? hash).or (w.block? hash)=_
    rw [hnone]
    rfl
  have hcovered (hnil : l₁=[]) (h : ℕ) (hh : h<(l₁++l₂).length) :
      found.get? h=(l₁++l₂)[h]? ∨ found.get? h=none ∧ P[h]?=(l₁++l₂)[h]? := by
    rw [hfound,if_pos ⟨by simp [hnil],hh⟩]
    exact Or.inl rfl
  -- Where the walk ends at no stored block it has gone down to the first one.
  have hnil (hb : w.block? hash=none) : l₁=[] := by
    rcases hend with ⟨hnil,-⟩ | hpath
    · exact hnil
    · obtain ⟨x,hx,-⟩ := hpath.last
      rw [hfind,hb] at hx
      cases hx
  cases hb : w.block? hash with
  | none =>
    have hcontains : w.chain.view.containsBlock hash=false := by
      rw [Bool.eq_false_iff,Ne,hrest.indexed.contains_iff,hb]
      simp
    have hsame : branch=found ∧ v'=v₂ := by
      cases peak with
      | none =>
        obtain ⟨hok,hv'⟩ := Prod.mk.inj hrun₂
        exact ⟨(Except.ok.inj hok).symm,hv'.symm⟩
      | some peak =>
        dsimp only at hrun₂
        rw [hv.chain,hcontains,if_neg (by simp)] at hrun₂
        obtain ⟨hok,hv'⟩ := Prod.mk.inj hrun₂
        exact ⟨(Except.ok.inj hok).symm,hv'.symm⟩
    obtain ⟨rfl,rfl⟩ := hsame
    exact ⟨hcovered (hnil hb),hv⟩
  | some c =>
    have hpath : (w.forestWith E additionalBlocks).Path hash l₁ := by
      refine hend.resolve_left fun ⟨_,root,hroot,heq⟩ => ?_
      have hground := hl.ground root hroot
      rw [← heq,hb] at hground
      cases hground
    have hown := ha.stored hrest.indexed hb hpath
    have hcontains : w.chain.view.containsBlock hash=true :=
      (hrest.indexed.contains_iff hash).mpr (by rw [hb]; rfl)
    obtain ⟨r,hr,hrec⟩ := hrest.indexed.record hb
    obtain ⟨peak,k,rfl,hk,hat⟩ := hrest.fork_of_stored hb hrec hown hpeak
    dsimp only at hrun₂
    rw [hv.chain,hcontains,if_pos rfl] at hrun₂
    obtain ⟨prevRecord,v₃,h₃,hrun₃⟩ := Eff.bind_ok hrun₂
    obtain ⟨rfl,hv₃⟩ := hv.getBlockRecord (E := E) h₃
    obtain ⟨prevBlock,v₄,h₄,hrun₄⟩ := Eff.bind_ok hrun₃
    obtain ⟨rfl,hv₄⟩ := hv₃.getFullBlock (E := E) h₄
    rw [hb,hrec] at hrun₄
    simp only [assertSome,Eff.lift_ok_bind] at hrun₄
    obtain ⟨fork,v₅,h₅,hrun₅⟩ := Eff.bind_ok hrun₄
    obtain ⟨hfork,rfl⟩ := lift_ok h₅
    rw [hfork] at hk
    obtain rfl := Except.ok.inj hk
    obtain ⟨y,hy,-,hlen⟩ := hown.last
    obtain rfl : y=c := Option.some.inj (hy.symm.trans hb)
    have hyh : y.height+1=l₁.length := hlen
    have hright := hat.right
    obtain ⟨hget,hv'⟩ := hv₄.reorgChain hown hb (by omega) hrun₅
    refine ⟨fun h hh => ?_,hv'⟩
    rw [hget,hfound]
    by_cases hlow : h<l₁.length
    · rw [List.getElem?_append_left hlow]
      by_cases hfk : (k : ℤ)-1≤h
      · rw [if_pos ⟨hfk,hlow⟩]
        exact Or.inl rfl
      · refine Or.inr ⟨?_,?_⟩
        · rw [if_neg (by omega),if_neg (by omega)]
          rfl
        · rw [← List.getElem?_take_of_lt (by omega : h<k),hat.take,List.getElem?_take_of_lt (by omega)]
    · rw [if_neg (by omega),if_pos ⟨by omega,hh⟩]
      exact Or.inl rfl

variable {refs : List ℕ} {args : List GeneratorArg}

include E in
theorem AtRest.generatorArgs (hv : AtRest w v) (hrun : refs.mapM (Blockchain.generatorArgAt branch) v=(.ok args,v')) :
    List.Forall₂ (fun ref arg => ∃ b,(branch.get? ref=some b ∨ branch.get? ref=none ∧
      ∃ h,w.chain.heightToHash.get? ref=some h ∧ w.block? h=some b) ∧ ArgOf b arg) refs args := by
  induction refs generalizing v v' args with
  | nil =>
    obtain ⟨hok,-⟩ := Prod.mk.inj hrun
    rw [← Except.ok.inj hok]
    exact .nil
  | cons ref refs ih =>
    rw [List.mapM_cons] at hrun
    obtain ⟨arg,v₁,h₁,hrun₁⟩ := Eff.bind_ok hrun
    obtain ⟨harg,hv₁⟩ := hv.generatorArgAt (E := E) h₁
    obtain ⟨rest,v₂,h₂,hrun₂⟩ := Eff.bind_ok hrun₁
    obtain ⟨hok,-⟩ := Prod.mk.inj hrun₂
    rw [← Except.ok.inj hok]
    exact .cons harg (ih hv₁ h₂)

/-- Each reference stands for the generator of the block of the path at its height. -/
def ResolvesTo (l : List FullBlock) (refs : List ℕ) (args : List GeneratorArg) : Prop :=
  List.Forall₂ (fun ref arg => ∃ b,l[ref]?=some b ∧ ArgOf b arg) refs args

theorem ResolvesTo.lt (h : ResolvesTo l refs args) : ∀ ref∈refs,ref<l.length := by
  induction h with
  | nil => exact fun _ hr => absurd hr List.not_mem_nil
  | cons hhead _ ih =>
    intro ref hr
    obtain rfl | hr := List.mem_cons.mp hr
    · obtain ⟨b,hb,-⟩ := hhead
      exact (List.getElem?_eq_some_iff.mp hb).1
    · exact ih ref hr

theorem resolvesTo_of_lookups (hrest : Resting E w P)
    (hbranch : ∀ h,h<l.length → branch.get? h=l[h]? ∨ branch.get? h=none ∧ P[h]?=l[h]?)
    (hlow : ∀ ref∈refs,ref<l.length)
    (h : List.Forall₂ (fun ref arg => ∃ b,(branch.get? ref=some b ∨ branch.get? ref=none ∧
      ∃ h,w.chain.heightToHash.get? ref=some h ∧ w.block? h=some b) ∧ ArgOf b arg) refs args) :
    ResolvesTo l refs args := by
  induction h with
  | nil => exact .nil
  | @cons ref arg refs args hhead _ ih =>
    refine .cons ?_ (ih fun r hr => hlow r (List.mem_cons_of_mem _ hr))
    have hlt := hlow ref List.mem_cons_self
    obtain ⟨b,hb,harg⟩ := hhead
    refine ⟨b,?_,harg⟩
    rcases hbranch ref hlt with heq | ⟨hnone,hP⟩
    · rcases hb with hb | ⟨hnone,-⟩
      · rw [← heq,hb]
      · rw [heq,List.getElem?_eq_getElem hlt] at hnone
        cases hnone
    · rcases hb with hb | ⟨-,k,hk,hb⟩
      · rw [hnone] at hb
        cases hb
      · rw [List.getElem?_eq_getElem hlt] at hP ⊢
        obtain ⟨hltP,hP⟩ := List.getElem?_eq_some_iff.mp hP
        rw [hrest.main.index ref hltP] at hk
        have hstored := hrest.stored (List.getElem_mem hltP)
        rw [Option.some.inj hk,hb] at hstored
        rw [← hP]
        exact hstored.symm

theorem getBlockGenerator_resolves (hrest : Resting E w P) (hx : IndexExact E w P) (hv : AtRest w v)
    (ha : Additional w additionalBlocks) {g : BlockGenerator}
    (hl : Ancestors E w additionalBlocks block.prevHeaderHash l)
    (hrun : getBlockGenerator block height additionalBlocks v=(.ok (some g),v'))
    (hlow : ∀ ref∈block.transactionsGeneratorRefList,ref<l.length) :
    ResolvesTo l block.transactionsGeneratorRefList g.generatorArgs := by
  unfold getBlockGenerator at hrun
  dsimp only at hrun
  generalize hrefs : block.transactionsGeneratorRefList=refs at hrun hlow ⊢
  cases hgen : block.transactionsGenerator with
  | none =>
    rw [hgen] at hrun
    obtain ⟨u,v₁,-,hrun₁⟩ := Eff.bind_ok hrun
    cases hrun₁
  | some generator =>
    rw [hgen] at hrun
    dsimp only at hrun
    split at hrun
    · rename_i hnil
      cases hrun
      rw [hnil]
      exact .nil
    · rename_i hrefsne
      have hne : l≠[] := by
        rintro rfl
        obtain ⟨ref,hmem⟩ := List.exists_mem_of_ne_nil _ hrefsne
        exact absurd (hlow ref hmem) (Nat.not_lt_zero _)
      rw [Eff.bind_get] at hrun
      obtain ⟨onMain,v₁,h₁,hrun₁⟩ := Eff.bind_ok hrun
      obtain ⟨hmain,rfl⟩ := lift_ok h₁
      rw [hv.chain] at hmain
      have hfinish (branch : Dict ℕ FullBlock) {v₂ : World} (hv₂ : AtRest w v₂)
          (hbranch : ∀ h,h<l.length → branch.get? h=l[h]? ∨ branch.get? h=none ∧ P[h]?=l[h]?)
          (hlast : (do return some ⟨generator,← refs.mapM (generatorArgAt branch)⟩ :
            NodeM (Option BlockGenerator)) v₂=(.ok (some g),v')) : ResolvesTo l refs g.generatorArgs := by
        obtain ⟨args,v₃,h₃,hlast⟩ := Eff.bind_ok hlast
        obtain ⟨hok,-⟩ := Prod.mk.inj hlast
        rw [← Option.some.inj (Except.ok.inj hok)]
        exact resolvesTo_of_lookups hrest hbranch hlow (hv₂.generatorArgs (E := E) h₃)
      cases onMain with
      | false =>
        obtain ⟨branch,v₂,h₂,hlast⟩ := Eff.bind_ok hrun₁
        obtain ⟨hbranch,hv₂⟩ := hv.sideBranchBlocks hrest ha hl hne h₂
        exact hfinish branch hv₂ hbranch hlast
      | true =>
        refine hfinish Dict.empty hv (fun h hh => Or.inr ⟨rfl,?_⟩) hrun₁
        -- The previous block is on the main chain, and so are its ancestors.
        cases htry : w.chain.view.tryBlockRecord block.prevHeaderHash with
        | none => rw [htry] at hmain; cases hmain
        | some prev =>
          rw [htry] at hmain
          dsimp only at hmain
          obtain ⟨hash,hhash,hdec⟩ := bind_ok.mp hmain
          have heq : hash=block.prevHeaderHash := by simpa [pure,Except.pure] using hdec
          subst heq
          have hindex : w.chain.heightToHash.get? prev.height=some block.prevHeaderHash := lookup_eq_ok.mp hhash
          obtain ⟨b,hb,hrec⟩ := hrest.indexed.blockOf htry
          have hown := ha.stored hrest.indexed hb (hl.path.resolve_left hne)
          rw [hx] at hindex
          obtain ⟨x,hxP,hxhash⟩ := Option.map_eq_some_iff.mp hindex
          obtain ⟨hlt,rfl⟩ := List.getElem?_eq_some_iff.mp hxP
          obtain ⟨k,hpathP⟩ := hrest.main.path (by rintro rfl; simp at hlt)
          have hprefix := hpathP.take hrest.indexed.keyed prev.height hlt
          rw [worldForest_key,hxhash] at hprefix
          obtain rfl := hprefix.unique hown
          rw [List.getElem?_take_of_lt (by rw [List.length_take] at hh; omega)]

/-- As long as no heavier block is lower than the peak, a block refers to the generators of its own ancestors
exactly when it refers to heights below its own. -/
theorem getBlockGenerator_ancestors_iff (h : LevelRan E w) (ha : Additional w additionalBlocks)
    {block : BlockBody} {height : Option ℕ} {g : BlockGenerator} {i : Option (ℕ × PyErr)}
    (hl : Ancestors E w additionalBlocks block.prevHeaderHash l)
    (hrun : getBlockGenerator block height additionalBlocks (w.due i)=(.ok (some g),v')) :
    ResolvesTo l block.transactionsGeneratorRefList g.generatorArgs ↔
      ∀ ref∈block.transactionsGeneratorRefList,ref<l.length := by
  obtain ⟨P,hrest,hx⟩ := h.exact
  exact ⟨fun hr => hr.lt,getBlockGenerator_resolves hrest hx (hrest.atRest i) ha hl hrun⟩

def generatingEnv : Env := { tinyEnv with runGenerator := fun _ _ _ _ => some (0,.pair (.atom []) (.atom [])) }

def generatorFirst : FullBlock :=
  { tinyFirst 30 with
    transactionsInfo := some ⟨0,ones32,[],0,12000,[]⟩
    transactionsGenerator := some [1] }

def generatorPre : Option PreValidationResult := some ⟨none,some 1,some ⟨none,[],0⟩⟩

def generatorState (calls : List (FullBlock × Option PreValidationResult)) : World :=
  calls.foldl (fun w c => (receiveBlock generatingEnv c.1 c.2 none (w.due none)).2) (World.empty 5 5)

theorem generatorFirst_stored : (generatorState [(generatorFirst,generatorPre)]).block? 30=some generatorFirst ∧
    (generatorState [(generatorFirst,generatorPre)]).block? 1=none := by decide +kernel

/-- The branch of that block is the main chain until one on another first block is longer. -/
def branchesRun : List (FullBlock × Option PreValidationResult) :=
  [(tinyGenesis,tinyPre),(generatorFirst,generatorPre),(tinyBlock 31 30 1 8,tinyPre),(tinyBlock 11 10 1 8,tinyPre),
    (tinyBlock 12 11 2 15,tinyPre)]

theorem LevelRan.next {w : World} (h : LevelRan generatingEnv w) (b : FullBlock) (pre : Option PreValidationResult)
    (hl : Level w b) : LevelRan generatingEnv (receiveBlock generatingEnv b pre none (w.due none)).2 :=
  h.call (fun _ hf => by cases hf) hl none

theorem branchesRun_levelRan : LevelRan generatingEnv (generatorState branchesRun) := by
  have h1 := (LevelRan.start (E := generatingEnv) 5 5).next tinyGenesis tinyPre
    (level_of_peak none (by decide +kernel) (by decide))
  have h2 := h1.next generatorFirst generatorPre (level_of_peak (some (7,0)) (by decide +kernel) (by decide))
  have h3 := h2.next (tinyBlock 31 30 1 8) tinyPre (level_of_peak (some (7,0)) (by decide +kernel) (by decide))
  have h4 := h3.next (tinyBlock 11 10 1 8) tinyPre (level_of_peak (some (8,1)) (by decide +kernel) (by decide))
  exact h4.next (tinyBlock 12 11 2 15) tinyPre (level_of_peak (some (8,1)) (by decide +kernel) (by decide))

/-- A block on the branch that lost gets the generator of its own first block, not the main chain's.
-/
theorem getBlockGenerator_ancestors_iff_branches :
    (generatorState branchesRun).chain.heightToHash.get? 0=some 10 ∧
    ResolvesTo [generatorFirst,tinyBlock 31 30 1 8] [0] [⟨0,[1]⟩] := by
  have hblocks : (generatorState branchesRun).block? 30=some generatorFirst ∧
      (generatorState branchesRun).block? 31=some (tinyBlock 31 30 1 8) ∧
      (generatorState branchesRun).block? 1=none := by decide +kernel
  have hl : Ancestors generatingEnv (generatorState branchesRun) Dict.empty 31 [generatorFirst,tinyBlock 31 30 1 8] := by
    refine ⟨Or.inr (.step (l := [generatorFirst]) hblocks.2.1 rfl (.root hblocks.1 rfl)),fun root hroot => ?_⟩
    obtain rfl := Option.some.inj hroot
    exact hblocks.2.2
  have hret : (getBlockGenerator { (tinyBlock 32 31 2 15).body with
      transactionsGenerator := some [7],transactionsGeneratorRefList := [0] } (some 2) Dict.empty
      ((generatorState branchesRun).due none)).1 = .ok (some ⟨[7],[⟨0,[1]⟩]⟩) := by decide +kernel
  refine ⟨by decide +kernel,?_⟩
  exact (getBlockGenerator_ancestors_iff branchesRun_levelRan (fun _ _ _ h => by cases h) hl (Prod.ext hret rfl)).mpr
    (by decide)

def referringBlock : BlockBody :=
  { (tinyBlock 13 12 3 16).body with transactionsGenerator := some [7],transactionsGeneratorRefList := [0] }

def generatorRun : List (FullBlock × Option PreValidationResult) :=
  [(tinyGenesis,tinyPre),(tinyBlock 11 10 1 8,tinyPre),(tinyBlock 12 11 2 9,tinyPre),
    (generatorFirst,generatorPre),(tinyBlock 31 30 1 15,tinyPre)]

example : (generatorState generatorRun).chain.peakHeight=some 1 := by decide +kernel

theorem generatorState_runOf : RunOf generatingEnv (fun _ _ => True) (generatorState generatorRun) := by
  have hnone {w : World} {b : FullBlock} : ProperFork generatingEnv w b none := by
    intro f hf
    cases hf
  have h1 := RunOf.call (RunOf.start (E := generatingEnv) (C := fun _ _ => True) 5 5) (b := tinyGenesis)
    (p := tinyPre) hnone trivial none (a := (.newPeak,none,some 0)) (by decide +kernel)
  have h2 := RunOf.call h1 (b := tinyBlock 11 10 1 8) (p := tinyPre)
    hnone trivial none (a := (.newPeak,none,some 0)) (by decide +kernel)
  have h3 := RunOf.call h2 (b := tinyBlock 12 11 2 9) (p := tinyPre)
    hnone trivial none (a := (.newPeak,none,some 1)) (by decide +kernel)
  have h4 := RunOf.call h3 (b := generatorFirst) (p := generatorPre)
    hnone trivial none (a := (.addedAsOrphan,none,none)) (by decide +kernel)
  exact RunOf.call h4 (b := tinyBlock 31 30 1 15) (p := tinyPre)
    hnone trivial none (a := (.newPeak,none,some 0)) (by decide +kernel)

theorem referringBlock_ancestors : Ancestors generatingEnv (generatorState generatorRun) Dict.empty 12
    [tinyGenesis,tinyBlock 11 10 1 8,tinyBlock 12 11 2 9] := by
  have hblocks : (generatorState generatorRun).block? 10=some tinyGenesis ∧
      (generatorState generatorRun).block? 11=some (tinyBlock 11 10 1 8) ∧
      (generatorState generatorRun).block? 12=some (tinyBlock 12 11 2 9) ∧
      (generatorState generatorRun).block? 1=none := by decide +kernel
  refine ⟨Or.inr ?_,fun root hroot => ?_⟩
  · exact .step (l := [tinyGenesis,tinyBlock 11 10 1 8]) hblocks.2.2.1 rfl
      (.step (l := [tinyGenesis]) hblocks.2.1 rfl (.root hblocks.1 rfl))
  · obtain rfl := Option.some.inj hroot
    exact hblocks.2.2.2

/-- After a reorganization to a lower peak a block on the old tip gets a generator of the other branch, where
its own first ancestor has none. -/
theorem getBlockGenerator_otherBranch : ∃ w l g v',RunOf generatingEnv (fun _ _ => True) w ∧
    Ancestors generatingEnv w Dict.empty referringBlock.prevHeaderHash l ∧
    getBlockGenerator referringBlock (some 3) Dict.empty w=(.ok (some g),v') ∧
    (∀ ref∈referringBlock.transactionsGeneratorRefList,ref<l.length) ∧
    ¬ ResolvesTo l referringBlock.transactionsGeneratorRefList g.generatorArgs := by
  have hret : (getBlockGenerator referringBlock (some 3) Dict.empty (generatorState generatorRun)).1 =
      .ok (some ⟨[7],[⟨0,[1]⟩]⟩) := by decide +kernel
  refine ⟨_,_,_,_,generatorState_runOf,referringBlock_ancestors,Prod.ext hret rfl,by decide,?_⟩
  intro h
  cases h with
  | cons hhead _ =>
    obtain ⟨b,hb,-,hgen⟩ := hhead
    obtain rfl := Option.some.inj hb
    cases hgen

end RoseChain
