import RoseChain.Consensus.Reload

namespace RoseChain
open Lib Blockchain
variable {E : Env} {w : World} {V : BlockView} {targetHeight maxNumBlocks : ℕ}

/-- The blocks of a path from a height on, at most so many. -/
def blockRange {α : Type} (targetHeight maxNumBlocks : ℕ) (l : List α) : List α :=
  (l.drop targetHeight).take maxNumBlocks

variable {α : Type}

theorem blockRange_concat (l : List α) (v : α) (h : targetHeight≤l.length) :
    blockRange targetHeight maxNumBlocks (l++[v])=blockRange targetHeight maxNumBlocks l ++
      if l.length<targetHeight+maxNumBlocks then [v] else [] := by
  unfold blockRange
  rw [List.drop_append_of_le_length h,List.take_append,List.length_drop]
  congr 1
  split_ifs with hlt
  · exact List.take_of_length_le (by simp; omega)
  · rw [show maxNumBlocks-(l.length-targetHeight)=0 by omega,List.take_zero]

variable {l : List α}

theorem blockRange_high (h : l.length≤targetHeight) : blockRange targetHeight maxNumBlocks l=[] := by
  rw [blockRange,List.drop_eq_nil_of_le h,List.take_nil]

variable {rs : List BlockRecord}

theorem blocksAtHeightFrom_path {h : Bytes32} (hp : V.forest.Path h rs)
    {curr : BlockRecord} (hcurr : V.blockRecords.get? h=some curr) {n : ℕ} (hn : curr.height<n) :
    blocksAtHeightFrom V targetHeight maxNumBlocks n curr = .ok (blockRange targetHeight maxNumBlocks rs) := by
  induction hp generalizing curr n with
  | @root k v hf hh =>
    obtain rfl : v=curr := Option.some.inj (hf.symm.trans hcurr)
    have hzero : v.height=0 := hh
    obtain ⟨n,rfl⟩ : ∃ m,n=m+1 := ⟨n - 1,by omega⟩
    rw [blocksAtHeightFrom]
    by_cases hlow : v.height<targetHeight
    · rw [if_pos hlow,blockRange_high (by simp; omega)]
    · obtain rfl : targetHeight=0 := by omega
      rw [if_neg hlow]
      simp only [hzero,if_true]
      cases maxNumBlocks with
      | zero => rfl
      | succ m =>
        rw [if_pos (by omega)]
        simp [blockRange,pure,Except.pure,bind,Except.bind]
  | @step k v l hf hh hp ih =>
    obtain rfl : v=curr := Option.some.inj (hf.symm.trans hcurr)
    have hheight : v.height=l.length := hh
    have hpos := hp.length_pos
    obtain ⟨n,rfl⟩ : ∃ m,n=m+1 := ⟨n - 1,by omega⟩
    rw [blocksAtHeightFrom]
    by_cases hlow : v.height<targetHeight
    · rw [if_pos hlow,blockRange_high (by simp; omega)]
    · obtain ⟨prev,hprev,-,hlen⟩ := hp.last
      have hlookup : V.blockRecord v.prevHash = .ok prev := lookup_eq_ok.mpr hprev
      have hbelow : prev.height<n := by
        have hlen' : prev.height+1=l.length := hlen
        omega
      have hzero : ¬ v.height=0 := by omega
      rw [if_neg hlow]
      simp only [hzero,if_false]
      rw [bind_of_ok hlookup,bind_of_ok (ih hprev hbelow),blockRange_concat l v (by omega),hheight]
      rfl

theorem mapM_range'_eq_ok {f : ℕ → Check α} (s n : ℕ) (hn : s+n≤l.length)
    (h : ∀ i (hi : i<l.length),s ≤ i → f i = .ok l[i]) : (List.range' s n).mapM f = .ok (blockRange s n l) := by
  induction n generalizing s with
  | zero => simp [blockRange,pure,Except.pure]
  | succ n ih =>
    have hs : s<l.length := by omega
    rw [List.range'_succ,List.mapM_cons,bind_of_ok (h s hs (Nat.le_refl s)),
      bind_of_ok (ih (s+1) (by omega) fun i hi hle => h i hi (by omega))]
    rw [blockRange,blockRange,List.drop_eq_getElem_cons hs,List.take_succ_cons]
    rfl

/-- An index that holds the path to the peak and nothing else. -/
def IndexExact (E : Env) (w : World) (P : List FullBlock) : Prop :=
  ∀ i,w.chain.heightToHash.get? i=(P[i]?).map (·.headerHash E)

theorem getBlocksAtHeight_path {P : List FullBlock} (hi : Indexed E w) (hm : MainChain E w P)
    (hx : IndexExact E w P) {prevB : BlockRecord} (hp : w.chain.view.forest.Path prevB.headerHash rs)
    (hprev : w.chain.blockRecords.get? prevB.headerHash=some prevB)
    (hrange : targetHeight+maxNumBlocks≤prevB.height+1) :
    getBlocksAtHeight w.chain.view prevB targetHeight maxNumBlocks =
      .ok (blockRange targetHeight maxNumBlocks rs) := by
  unfold getBlocksAtHeight
  split_ifs with hfast
  · have hindex : (P[prevB.height]?).map (·.headerHash E)=some prevB.headerHash := by
      rw [← hx]
      exact hfast
    obtain ⟨b,hb,hhash⟩ := Option.map_eq_some_iff.mp hindex
    obtain ⟨hlt,rfl⟩ := List.getElem?_eq_some_iff.mp hb
    obtain ⟨k,hpath⟩ := hm.path (by rintro rfl; simp at hlt)
    have hown := hpath.take hi.keyed prevB.height hlt
    rw [worldForest_key,hhash] at hown
    obtain ⟨rs',hrs',hall⟩ := hi.path hown
    obtain rfl := hrs'.unique hp
    have hlen := hall.length_eq
    rw [List.length_take] at hlen
    refine mapM_range'_eq_ok targetHeight maxNumBlocks (by omega) fun i hi' _ => ?_
    have hiP : i<P.length := by omega
    have hget : w.chain.heightToHash.get? i=some (P[i].headerHash E) := by
      rw [hx,List.getElem?_eq_getElem hiP]
      rfl
    have hrec : RecordOf E P[i] rs'[i] := by
      have hr := hall.get (i := i) (by rw [List.length_take]; omega) hi'
      simpa using hr
    have hstored := hrs'.find_getElem hi.view_keyed i hi'
    have hkey : w.chain.view.forest.key rs'[i]=P[i].headerHash E := hrec.headerHash
    rw [hkey] at hstored
    have hcontains : w.chain.view.containsHeight i=true := by
      simp [BlockView.containsHeight,Dict.contains,Chain.view,hget]
    have hlookup : w.chain.view.heightToHash i = .ok (P[i].headerHash E) := lookup_eq_ok.mpr hget
    rw [hcontains,bind_of_ok ((assertThat_eq_ok (u := ())).mpr rfl),BlockView.heightToBlockRecord,
      bind_of_ok hlookup]
    exact lookup_eq_ok.mpr hstored
  · exact blocksAtHeightFrom_path hp hprev (Nat.lt_succ_self _)

/-- The runs where no block heavier than the peak is lower; a call may be interrupted and may raise.
-/
inductive LevelRan (E : Env) : World → Prop
  | start (blockCacheSize coinCacheSize : ℕ) : LevelRan E (World.empty blockCacheSize coinCacheSize)
  | call {w : World} (h : LevelRan E w) {b : FullBlock} {pre : Option PreValidationResult}
      {forkPointWithPeak : Option ℕ} (hfork : ProperFork E w b forkPointWithPeak) (hl : Level w b)
      (i : Option (ℕ × PyErr)) : LevelRan E (receiveBlock E b pre forkPointWithPeak (w.due i)).2

variable {s : World} {P Q : List FullBlock} {b : FullBlock} {r : BlockRecord} {pre : Option PreValidationResult}

theorem IndexExact.newPeak (hx : IndexExact E w P) (ha : Arrival E w P Q b r) {k : ℕ} {records : List BlockRecord}
    (hat : ForkAt P Q k) (hlong : P.length≤Q.length+1)
    (hrecs : List.Forall₂ (StoredAs E (w.adding E b r)) ((Q++[b]).drop k) records)
    (hs : Adding E w b r (peakAt (b.headerHash E) (w.adding E b r).db.blockRecords)
      { indexRecords records (addBlockRecord r (indexBefore w P (k-1))) with
        peakHeight := some r.height } none s) : IndexExact E s (Q++[b]) := by
  have hright := hat.right
  have hlen := hrecs.length_eq
  rw [List.length_drop,List.length_append,List.length_singleton] at hlen
  intro i
  rw [ha.newPeak_heightToHash hrecs hs]
  split_ifs with hki
  · have hhigh : ((Q++[b]).drop k)[i-k]?=(Q++[b])[i]? := by
      rw [List.getElem?_drop,Nat.add_sub_cancel' hki]
    cases hq : (Q++[b])[i]? with
    | none =>
      rw [List.getElem?_eq_none_iff,List.length_append,List.length_singleton] at hq
      rw [List.getElem?_eq_none (by omega),hx,List.getElem?_eq_none (by omega)]
      rfl
    | some x =>
      obtain ⟨rec,hrec,hstored⟩ := forall₂_getElem? hrecs (hhigh.trans hq)
      rw [hrec,Option.map_some,Option.some_or,hstored.of.headerHash]
      rfl
  · rw [hx,List.getElem?_append_left (by omega),← List.getElem?_take_of_lt (by omega : i<k),hat.take,
      List.getElem?_take_of_lt (by omega)]

theorem IndexExact.answered {answer : Check (ReceiveBlockResult × Option Err × Option ℕ)} (hrest : Resting E w P)
    (hx : IndexExact E w P) (hl : Level w b) (ha : Answered E w s P b pre answer) :
    ∃ P',Resting E s P' ∧ IndexExact E s P' := by
  cases ha with
  | still hs hno =>
    refine ⟨P,hrest.still ⟨rfl,rfl,rfl⟩ hs,fun i => ?_⟩
    rw [hs.chain]
    exact hx i
  | raised c hc hs =>
    refine ⟨P,hrest.still hc hs,fun i => ?_⟩
    rw [hs.chain,hc.heightToHash]
    exact hx i
  | orphan ha hweight hheavy hs =>
    refine ⟨P,ha.resting_orphan hheavy hs,fun i => ?_⟩
    rw [hs.chain]
    exact hx i
  | newPeak ha hweight hheavy hat hapart hrecs hs =>
    exact ⟨_,ha.resting_newPeak hat hrecs hs,hx.newPeak ha hat (hheavy.long hrest ha hl) hrecs hs⟩

theorem LevelRan.exact (h : LevelRan E w) : ∃ P,Resting E w P ∧ IndexExact E w P := by
  induction h with
  | start m n =>
    exact ⟨[],⟨indexed_empty m n,mainChain_empty m n,(coherent_empty (E := E) m n).blocks⟩,fun _ => rfl⟩
  | call h hfork hl i ih =>
    obtain ⟨P,hrest,hx⟩ := ih
    exact hx.answered hrest hl (hrest.answered hfork i)

/-- Unless a heavier block is lower than the peak, both searches give the ancestors of their start.
-/
theorem getBlocksAtHeight_ancestors (h : LevelRan E w) {k : Bytes32} {prevB : BlockRecord}
    (hprev : w.chain.blockRecords.get? k=some prevB) :
    ∃ rs,w.chain.view.forest.Path k rs ∧ ∀ targetHeight maxNumBlocks, targetHeight+maxNumBlocks≤prevB.height+1 →
      getBlocksAtHeight w.chain.view prevB targetHeight maxNumBlocks =
        .ok (blockRange targetHeight maxNumBlocks rs) := by
  obtain ⟨P,hrest,hx⟩ := h.exact
  obtain ⟨b,hb,hrec⟩ := hrest.indexed.blockOf hprev
  obtain rfl : prevB.headerHash=k := hrest.indexed.view_keyed k prevB hprev
  obtain ⟨l,hl⟩ := hrest.indexed.ancestors _ b hb
  obtain ⟨rs,hrs,-⟩ := hrest.indexed.path (Forest.path_iff.mpr ⟨b,l,hb,rfl,hl⟩)
  exact ⟨rs,hrs,fun _ _ => getBlocksAtHeight_path hrest.indexed hrest.main hx hrs hprev⟩

theorem RunOf.levelRan (h : RunOf E Level w) : LevelRan E w := by
  induction h with
  | start m n => exact .start m n
  | call _ hfork hl i _ ih => exact ih.call hfork hl i

/-- After the side branch has taken over, from the new peak and from the old one. -/
theorem getBlocksAtHeight_ancestors_fork :
    (∃ prevB rs,(tinyState (forkRun++[forkTip])).chain.view.forest.Path 22 rs ∧
      getBlocksAtHeight (tinyState (forkRun++[forkTip])).chain.view prevB 1 2 = .ok (blockRange 1 2 rs)) ∧
    ∃ prevB rs,(tinyState (forkRun++[forkTip])).chain.view.forest.Path 12 rs ∧
      getBlocksAtHeight (tinyState (forkRun++[forkTip])).chain.view prevB 1 2 = .ok (blockRange 1 2 rs) := by
  have hnew : ((tinyState (forkRun++[forkTip])).chain.blockRecords.get? 22).map (·.height)=some 2 := by decide +kernel
  have hold : ((tinyState (forkRun++[forkTip])).chain.blockRecords.get? 12).map (·.height)=some 2 := by decide +kernel
  constructor
  · obtain ⟨prevB,hprev,hheight⟩ := Option.map_eq_some_iff.mp hnew
    obtain ⟨rs,hrs,hget⟩ := getBlocksAtHeight_ancestors forkRun_runOf.levelRan hprev
    exact ⟨prevB,rs,hrs,hget 1 2 (by rw [hheight])⟩
  · obtain ⟨prevB,hprev,hheight⟩ := Option.map_eq_some_iff.mp hold
    obtain ⟨rs,hrs,hget⟩ := getBlocksAtHeight_ancestors forkRun_runOf.levelRan hprev
    exact ⟨prevB,rs,hrs,hget 1 2 (by rw [hheight])⟩

/-- After a reorganization to a lower peak the old tip is still in the index, above the blocks of the new
branch. -/
theorem getBlocksAtHeight_otherBranch : ∃ w prevB,RunOf tinyEnv (fun _ _ => True) w ∧
    w.chain.blockRecords.get? 12=some prevB ∧ prevB.height=2 ∧
    ¬ ∃ rs,w.chain.view.forest.Path 12 rs ∧ getBlocksAtHeight w.chain.view prevB 0 3 = .ok (blockRange 0 3 rs) := by
  obtain ⟨prevB,hprev⟩ : ∃ r,(tinyState lowerRun).chain.blockRecords.get? 12=some r :=
    Option.isSome_iff_exists.mp (by decide +kernel)
  have hall : ((tinyState lowerRun).chain.blockRecords.get? 12).map (fun r => (r.height,
      (getBlocksAtHeight (tinyState lowerRun).chain.view r 0 3).map fun l =>
        (l[1]?.map (·.headerHash),l[2]?.map (·.prevHash))))=some (2,.ok (some 21,some 11)) := by
    decide +kernel
  rw [hprev,Option.map_some,Option.some.injEq,Prod.mk.injEq] at hall
  refine ⟨_,prevB,lowerRun_runOf,hprev,hall.1,?_⟩
  rintro ⟨rs,hpath,hget⟩
  rw [hget] at hall
  obtain ⟨h1,h2⟩ := Prod.mk.inj (Except.ok.inj hall.2)
  have hrs (i : ℕ) (hi : i<3) : (blockRange 0 3 rs)[i]?=rs[i]? := by
    rw [blockRange,List.drop_zero,List.getElem?_take_of_lt hi]
  rw [hrs 1 (by omega)] at h1
  rw [hrs 2 (by omega)] at h2
  obtain ⟨u,hu,hu21⟩ := Option.map_eq_some_iff.mp h1
  obtain ⟨v,hv,hv11⟩ := Option.map_eq_some_iff.mp h2
  have hparent := hpath.find_parent hu hv
  rw [forest_parent,hv11,forest_find] at hparent
  have hkey : ((tinyState lowerRun).chain.blockRecords.get? 11).map (·.headerHash)=some 11 := by decide +kernel
  have hsame : (tinyState lowerRun).chain.blockRecords.get? 11=some u := hparent
  rw [hsame,Option.map_some,hu21] at hkey
  cases hkey

end RoseChain
