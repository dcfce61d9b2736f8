import RoseChain.Consensus.ChainState

namespace RoseChain
open Lib
variable (E : Env) (fx : FullBlock → Effects)

/-- What was collected of some blocks: the names they spend, and the coins they make. -/
structure SinceFork.Covers (s : SinceFork) (l : List FullBlock) : Prop where
  removals : ∀ n,n∈s.removals ↔ ∃ b∈l,n∈(blockDelta E b (fx b)).spent
  additions : ∀ n a,s.additions.get? n=some a ↔ ∃ b∈l,∃ p,
    (n,p)∈(blockDelta E b (fx b)).created ∧ a=⟨p.coin,b.height,p.timestamp⟩

variable {E fx} {s : SinceFork} {b : FullBlock} {l : List FullBlock} {book book' : CoinBook}

theorem SinceFork.addRemovals_ok {names : List Bytes32} (hn : names.Nodup) (hd : ∀ n∈names,n∉s.removals) :
    names.foldlM SinceFork.addRemoval s = .ok { s with removals := names.reverse++s.removals } := by
  induction names generalizing s with
  | nil => rfl
  | cons n names ih =>
    rw [List.nodup_cons] at hn
    have hadd : s.addRemoval n = .ok { s with removals := n::s.removals } := by
      simp [SinceFork.addRemoval,assertThat,hd n,bind,Except.bind,pure,Except.pure]
    rw [List.foldlM_cons,hadd,List.reverse_cons,List.append_assoc]
    refine ih hn.2 fun m hm => ?_
    rw [List.mem_cons,not_or]
    exact ⟨fun h => hn.1 (h ▸ hm),hd m (by simp [hm])⟩

theorem SinceFork.addAdditions_ok {ftb : FoliageTransactionBlock} (hb : b.foliageTransactionBlock=some ftb)
    {coins : List Coin} (hn : (coins.map E.coinName).Nodup)
    (hd : ∀ c∈coins,s.additions.get? (E.coinName c)=none) :
    ∃ s',coins.foldlM (SinceFork.addAddition E b) s = .ok s' ∧ s'.removals=s.removals ∧
      ∀ n a,s'.additions.get? n=some a ↔ (∃ c∈coins,E.coinName c=n ∧ a=⟨c,b.height,ftb.timestamp⟩) ∨
          s.additions.get? n=some a := by
  induction coins generalizing s with
  | nil => exact ⟨s,rfl,rfl,by simp⟩
  | cons c coins ih =>
    rw [List.map_cons,List.nodup_cons] at hn
    have hc := hd c (by simp)
    have hadd : SinceFork.addAddition E b s c = .ok { s with
        additions := s.additions.set (E.coinName c) ⟨c,b.height,ftb.timestamp⟩ } := by
      simp [SinceFork.addAddition,Dict.contains,hc,assertThat,hb,assertSome,bind,Except.bind,pure,Except.pure]
    obtain ⟨s',hs',hrem,hget⟩ := ih hn.2 (s := { s with
        additions := s.additions.set (E.coinName c) ⟨c,b.height,ftb.timestamp⟩ }) fun c' hc' => by
      have hne : E.coinName c≠E.coinName c' := fun h => hn.1 (h ▸ List.mem_map_of_mem hc')
      rw [Dict.get?_set_of_ne _ _ hne]
      exact hd c' (by simp [hc'])
    refine ⟨s',by rw [List.foldlM_cons,hadd]; exact hs',hrem,fun n a => ?_⟩
    rw [hget,Dict.get?_set]
    by_cases hname : E.coinName c=n
    · subst hname
      have hno : ∀ c'∈coins,E.coinName c'≠E.coinName c :=
        fun c' hc' h => hn.1 (h ▸ List.mem_map_of_mem hc')
      simp only [if_true,List.mem_cons,exists_eq_or_imp,true_and,hc,Option.some.injEq,reduceCtorEq,or_false]
      constructor
      · rintro (⟨c',hc',he,-⟩ | rfl)
        · exact absurd he (hno c' hc')
        · exact Or.inl rfl
      · rintro (rfl | ⟨c',hc',he,-⟩)
        · exact Or.inr rfl
        · exact absurd he (hno c' hc')
    · simp [hname]

theorem SinceFork.addBlock_ok (hs : s.Covers E fx l) (hp : PostAll E fx book (b::l) book')
    (hbody : ¬ b.isTransactionBlock → fx b=([],[])) :
    ∃ s',s.addBlock E b (fx b).1 (fx b).2 = .ok s' ∧ s'.Covers E fx (b::l) := by
  obtain ⟨book₁,hpost,hl⟩ := postAll_cons_iff.mp hp
  obtain ⟨hpostable,-⟩ := (Book.apply_eq_some_iff _ _ _).mp hpost.applied
  have hrem : ∀ n∈(blockDelta E b (fx b)).spent,n∉s.removals := by
    intro n hn
    rw [hs.removals]
    rintro ⟨b',hb',hsp⟩
    exact Book.spent_once hpost.applied hl.apply hn _ (List.mem_map_of_mem hb') hsp
  have hadd : ∀ n∈(blockDelta E b (fx b)).created.map Prod.fst,s.additions.get? n=none := by
    intro n hn
    by_contra hne
    obtain ⟨a,ha⟩ := Option.ne_none_iff_exists'.mp hne
    obtain ⟨b',hb',p,hmem,-⟩ := (hs.additions n a).mp ha
    exact Book.created_once hpost.applied hl.apply hn _ (List.mem_map_of_mem hb')
      (List.mem_map_of_mem hmem)
  cases hb : b.foliageTransactionBlock with
  | none =>
    have ht : ¬ b.isTransactionBlock := by simp [FullBlock.isTransactionBlock,hb]
    have hdelta : blockDelta E b (fx b)=⟨b.height,[],[]⟩ := by simp [blockDelta,hb]
    refine ⟨s,?_,fun n => ?_,fun n a => ?_⟩
    · rw [hbody ht]
      simp [SinceFork.addBlock,FullBlock.getIncludedRewardCoins,ht,bind,Except.bind,pure,Except.pure]
    · simp [hs.removals,hdelta]
    · simp [hs.additions,hdelta]
  | some ftb =>
    have ht : b.isTransactionBlock := by simp [FullBlock.isTransactionBlock,hb]
    have hdelta : blockDelta E b (fx b)=⟨b.height,
        newCoins E false ftb.timestamp (fx b).2++newCoins E true ftb.timestamp b.rewards,
        (fx b).1⟩ := by simp [blockDelta,hb]
    have hnames (cb : Bool) (coins : List Coin) :
        (newCoins E cb ftb.timestamp coins).map Prod.fst=coins.map E.coinName := by
      simp [newCoins]
    have hdistinct := hpostable.distinct
    rw [hdelta] at hrem hadd hdistinct
    simp only [List.map_append,hnames] at hadd hdistinct
    rw [List.nodup_append] at hdistinct
    obtain ⟨hn₁,hn₂,hn₁₂⟩ := hdistinct
    have hs₁ := SinceFork.addRemovals_ok (s := s) (by simpa [hdelta] using hpostable.once) hrem
    obtain ⟨s₂,hs₂,hr₂,hg₂⟩ := SinceFork.addAdditions_ok (E := E)
      (s := { s with removals := (fx b).1.reverse++s.removals }) hb hn₁ fun c hc =>
        hadd _ (List.mem_append_left _ (List.mem_map_of_mem hc))
    obtain ⟨s₃,hs₃,hr₃,hg₃⟩ := SinceFork.addAdditions_ok (E := E) (s := s₂) hb hn₂ fun c hc => by
      by_contra hne
      obtain ⟨a,ha⟩ := Option.ne_none_iff_exists'.mp hne
      rcases (hg₂ _ a).mp ha with ⟨c',hc',he,-⟩ | hold
      · exact hn₁₂ _ (List.mem_map_of_mem hc') _ (List.mem_map_of_mem hc) he
      · rw [show _=none from hadd _ (List.mem_append_right _ (List.mem_map_of_mem hc))] at hold
        cases hold
    have hinfo := hpost.info ht
    refine ⟨s₃,?_,fun n => ?_,fun n a => ?_⟩
    · simp only [SinceFork.addBlock,hs₁,CoinStore.getIncludedRewardCoins_eq b ht,hinfo,if_true,hs₂,
        bind,Except.bind]
      exact hs₃
    · rw [hr₃,hr₂]
      simp [hs.removals,hdelta]
    · rw [hg₃,hg₂,hs.additions]
      simp only [List.mem_cons,exists_eq_or_imp,hdelta,List.mem_append,newCoins,List.mem_map,Prod.mk.injEq]
      constructor
      · rintro (⟨c,hc,hn,rfl⟩ | ⟨c,hc,hn,rfl⟩ | h)
        · exact Or.inl ⟨_,Or.inr ⟨c,hc,hn,rfl⟩,rfl⟩
        · exact Or.inl ⟨_,Or.inl ⟨c,hc,hn,rfl⟩,rfl⟩
        · exact Or.inr h
      · rintro (⟨p,⟨c,hc,hn,rfl⟩ | ⟨c,hc,hn,rfl⟩,rfl⟩ | h)
        · exact Or.inr (Or.inl ⟨c,hc,hn,rfl⟩)
        · exact Or.inl ⟨c,hc,hn,rfl⟩
        · exact Or.inr (Or.inr h)

section Walk
variable {w : World} {k : ℕ}

variable {m : List FullBlock} {curr : FullBlock} {blocks : Dict ℕ FullBlock}

theorem observe_reorgBlocks (hw : w.interrupt=none) (hm : (w.forest E).OnTop m curr) {n : ℕ} (hn : m.length<n)
    (hnew : ∀ i < m.length,blocks.get? i=none) :
    ∃ blocks',observe (reorgBlocks ((k : ℤ)-1) n curr blocks) w = .ok blocks' ∧
      blocks'.size=blocks.size+(m.length-(k-1)) ∧ (∀ i (hi : i < m.length),k-1 ≤ i → blocks'.get? i=some m[i]) ∧
      ∀ i,m.length ≤ i → blocks'.get? i=blocks.get? i := by
  induction m using List.reverseRecOn generalizing curr n blocks with
  | nil =>
    obtain ⟨n,rfl⟩ := Nat.exists_eq_succ_of_ne_zero (Nat.ne_of_gt hn)
    have hz : curr.height=0 := hm.1
    refine ⟨blocks,?_,by simp,by simp,fun _ _ => rfl⟩
    unfold reorgBlocks
    rw [if_neg fun h => h.2 hz]
    rfl
  | append_singleton m p ih =>
    obtain ⟨n,rfl⟩ := Nat.exists_eq_succ_of_ne_zero (Nat.ne_of_gt (Nat.zero_lt_of_lt hn))
    have hheight : curr.height=m.length+1 := by simpa using hm.1
    simp only [List.length_append,List.length_singleton] at hn hnew ⊢
    unfold reorgBlocks
    by_cases hk : k-1 ≤ m.length
    swap
    · rw [if_neg fun h => hk (by have := h.1; omega)]
      exact ⟨blocks,rfl,by omega,fun i hi hle => absurd hle (by omega),fun _ _ => rfl⟩
    obtain ⟨p',m',hfind,hlist,htop⟩ := Forest.path_iff.mp (hm.path (by simp [hheight]))
    obtain ⟨rfl,hp⟩ := List.append_inj' hlist rfl
    obtain rfl : p=p' := by simpa using hp
    have hph : p.height=m.length := htop.1
    have hfresh : ∀ i < m.length,(blocks.set p.height p).get? i=none := by
      intro i hi
      rw [Dict.get?_set_of_ne _ _ (by omega)]
      exact hnew i (by omega)
    obtain ⟨blocks',hrun,hsize,hget,hrest⟩ := ih htop (n := n) (by omega) hfresh
    have hstep : observe (BlockStore.getFullBlock curr.prevHeaderHash >>= fun o =>
        Eff.lift (assertSome o) >>= fun prev =>
          reorgBlocks ((k : ℤ)-1) n prev (blocks.set prev.height prev)) w = .ok blocks' := by
      rw [(BlockStore.getFullBlock_observes (E := E) _).observe_bind _ hw,
        BlockStore.observe_getFullBlock hw,show w.block? curr.prevHeaderHash=some p from hfind]
      exact hrun
    rw [if_pos ⟨by omega,by omega⟩]
    refine ⟨blocks',hstep,?_,fun i hi hle => ?_,fun i hi => ?_⟩
    · rw [hsize,Dict.size_set_of_not_mem _ _ (hnew _ (by omega))]
      omega
    · by_cases hlt : i < m.length
      · rw [hget i hlt hle,List.getElem_append_left hlt]
      · obtain rfl : i=m.length := by omega
        rw [hrest _ (Nat.le_refl _),Dict.get?_set,if_pos hph]
        simp
    · rw [hrest i (by omega),Dict.get?_set_of_ne _ _ (by omega)]

variable {g : GetBlockGenerator}

theorem observe_collectSinceFork_succ (hw : w.interrupt=none)
    (hg : ∀ b,Observes E (g b)) {forkH : ℤ} (hfork : (curr.height : ℤ) > forkH) (hfx : observe (forkEffects E g curr) w = .ok (fx curr))
    {s' : SinceFork} (hs : s.addBlock E curr (fx curr).1 (fx curr).2 = .ok s') (n : ℕ) :
    observe (collectSinceFork E g forkH blocks (n+1) curr s) w = if curr.height=0 then .ok s'
      else lookup (blocks.get? (curr.height-1)) >>= fun next =>
        observe (collectSinceFork E g forkH blocks n next s') w := by
  rw [collectSinceFork,if_pos hfork,(forkEffects_observes hg curr).observe_bind _ hw,hfx]
  change observe (Eff.lift (s.addBlock E curr (fx curr).1 (fx curr).2) >>= fun s' =>
    if curr.height=0 then (pure s' : NodeM SinceFork) else do
      let next ← Eff.lift (lookup (blocks.get? (curr.height-1)))
      collectSinceFork E g forkH blocks n next s') w=_
  rw [(observes_lift (E := E) _).observe_bind _ hw,observe_lift,hs]
  change observe (if curr.height=0 then (pure s' : NodeM SinceFork) else _) w=_
  split
  · rfl
  · exact (observes_lift (E := E) _).observe_bind _ hw

theorem observe_collectSinceFork_below (hheight : curr.height=m.length) (hlt : m.length<k) (n : ℕ) (hs : s.Covers E fx l) :
    ∃ s',observe (collectSinceFork E g ((k : ℤ)-1) blocks (n+1) curr s) w = .ok s' ∧
      s'.Covers E fx ((m++[curr]).drop k++l) := by
  refine ⟨s,?_,?_⟩
  · unfold collectSinceFork
    rw [if_neg (by omega)]
    rfl
  · rw [List.drop_of_length_le (by simp; omega)]
    exact hs

theorem observe_collectSinceFork (hw : w.interrupt=none)
    (hg : ∀ b,Observes E (g b)) (hm : (w.forest E).OnTop m curr) {n : ℕ} (hn : m.length<n)
    (hblocks : ∀ i (hi : i < m.length),k-1 ≤ i → blocks.get? i=some m[i])
    (hfx : ∀ b∈m++[curr],observe (forkEffects E g b) w = .ok (fx b))
    (hbody : ∀ b∈m++[curr],¬ b.isTransactionBlock → fx b=([],[]))
    (hrep : PostAll E fx book (m++[curr]++l) book') (hs : s.Covers E fx l) :
    ∃ s',observe (collectSinceFork E g ((k : ℤ)-1) blocks n curr s) w = .ok s' ∧
      s'.Covers E fx ((m++[curr]).drop k++l) := by
  induction m using List.reverseRecOn generalizing curr n s l with
  | nil =>
    obtain ⟨n,rfl⟩ := Nat.exists_eq_succ_of_ne_zero (Nat.ne_of_gt hn)
    have hz : curr.height=0 := hm.1
    by_cases hk : k=0
    · subst hk
      obtain ⟨s',hs',hcov⟩ := SinceFork.addBlock_ok hs hrep (hbody curr (by simp))
      refine ⟨s',?_,by simpa using hcov⟩
      rw [observe_collectSinceFork_succ hw hg (by omega) (hfx curr (by simp)) hs',if_pos hz]
    · exact observe_collectSinceFork_below hz (Nat.pos_of_ne_zero hk) n hs
  | append_singleton m p ih =>
    obtain ⟨n,rfl⟩ := Nat.exists_eq_succ_of_ne_zero (Nat.ne_of_gt (Nat.zero_lt_of_lt hn))
    have hheight : curr.height=m.length+1 := by simpa using hm.1
    simp only [List.length_append,List.length_singleton] at hn
    by_cases hk : k ≤ m.length+1
    swap
    · exact observe_collectSinceFork_below hm.1 (by simp; omega) n hs
    obtain ⟨p',m',hfind,hlist,htop⟩ := Forest.path_iff.mp (hm.path (by simp [hheight]))
    obtain ⟨rfl,hp⟩ := List.append_inj' hlist rfl
    obtain rfl : p=p' := by simpa using hp
    have hsplit : PostAll E fx book ((m++[p])++(curr::l)) book' := by simpa using hrep
    obtain ⟨book₁,-,hrest⟩ := hsplit.split
    obtain ⟨s₁,hs₁,hcov₁⟩ := SinceFork.addBlock_ok hs hrest (hbody curr (by simp))
    have hnext : blocks.get? (curr.height-1)=some p := by
      have h := hblocks m.length (by simp) (by omega)
      simpa [hheight] using h
    obtain ⟨s',hs',hcov⟩ := ih htop (n := n) (by omega) (fun i hi hle => by
        rw [hblocks i (by simp; omega) hle,List.getElem_append_left hi])
      (fun b hb => hfx b (List.mem_append_left _ hb)) (fun b hb => hbody b (List.mem_append_left _ hb))
      hsplit hcov₁
    refine ⟨s',?_,?_⟩
    · rw [observe_collectSinceFork_succ hw hg (by omega) (hfx curr (by simp)) hs₁,
        if_neg (by omega),hnext]
      exact hs'
    · rw [List.drop_append_of_le_length (by simpa using hk),List.append_assoc]
      exact hcov

theorem covers_empty : SinceFork.empty.Covers E fx [] := ⟨by simp [SinceFork.empty],by simp [SinceFork.empty]⟩

theorem observe_sinceFork (hw : w.interrupt=none)
    (hg : ∀ b,Observes E (g b)) {prevHeaderHash : Bytes32} {Q : List FullBlock}
    (hQ : Q=[] ∨ (w.forest E).Path prevHeaderHash Q) (hk : k≤Q.length)
    (hfx : ∀ b∈Q,observe (forkEffects E g b) w = .ok (fx b))
    (hbody : ∀ b∈Q,¬ b.isTransactionBlock → fx b=([],[])) (hrep : Replays E fx Q book) :
    ∃ s,observe (sinceFork E g prevHeaderHash Q.length ((k : ℤ)-1)) w = .ok s ∧ s.Covers E fx (Q.drop k) := by
  rcases hQ with rfl | hpath
  · refine ⟨SinceFork.empty,rfl,?_⟩
    rw [List.drop_nil]
    exact covers_empty
  obtain ⟨curr,m,hfind,rfl,htop⟩ := Forest.path_iff.mp hpath
  have hheight : curr.height=m.length := htop.1
  have hempty : ∀ i < m.length,(Dict.empty : Dict ℕ FullBlock).get? i=none := fun _ _ => rfl
  obtain ⟨blocks,hblocks,hsize,hget,-⟩ := observe_reorgBlocks hw htop (k := k)
    (n := curr.height+1) (by omega) hempty
  obtain ⟨s,hs,hcov⟩ := observe_collectSinceFork hw hg htop (n := curr.height+1) (by omega) hget hfx
    hbody (l := []) (by rw [List.append_nil]; exact hrep) covers_empty
  refine ⟨s,?_,by simpa using hcov⟩
  unfold sinceFork
  rw [if_neg (by simp),(BlockStore.getFullBlock_observes (E := E) _).observe_bind _ hw,
    BlockStore.observe_getFullBlock hw,show w.block? prevHeaderHash=some curr from hfind]
  refine ((reorgBlocks_observes (E := E) _ _ _ _).observe_bind _ hw).trans ?_
  rw [hblocks]
  change observe (if ((k : ℤ)-1) ≠ -1 then _ else _) w=_
  split
  · -- with a fork in common the number of blocks is checked
    have hcount : (blocks.size : ℤ)=((m++[curr]).length : ℕ)-((k : ℤ)-1)-1 := by
      simp only [hsize,List.length_append,List.length_singleton] at hk ⊢
      simp only [Dict.size,Dict.empty,List.length_nil]
      omega
    rw [(observes_lift (E := E) _).observe_bind _ hw,observe_lift,(assertThat_eq_ok (u := ())).mpr hcount]
    exact hs
  · exact hs

end Walk
end RoseChain
