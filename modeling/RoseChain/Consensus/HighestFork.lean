import RoseChain.Consensus.ForkPoint
import RoseChain.Lib.CommonAncestors

namespace RoseChain
open Lib

variable {V : BlockView} {block1 block2 p q : BlockRecord} {n : ℕ}

/-- What the search returns, for a set of heights of common ancestors. -/
def ForkPointAt (heights : Set ℕ) (grounded : Prop) (result : Check ℤ) : Prop :=
  (heights.Nonempty → ∃ h,IsGreatest heights h ∧ result = .ok (h : ℤ)) ∧
  (heights=∅ → grounded → result = .ok (-1))

theorem blockRecord_parent (h : V.forest.Parent p block1) : V.blockRecord block1.prevHash = .ok p := by
  have hp : V.blockRecords.get? block1.prevHash=some p := h
  simp [BlockView.blockRecord,hp]

theorem isGreatest_self (L : V.forest.Levelled) (hs : V.forest.Stored block1) :
    IsGreatest (V.forest.commonHeights block1 block1) block1.height := by
  constructor
  · exact ⟨block1,rfl,.refl,.refl⟩
  · rintro h ⟨a,rfl,ha,-⟩
    exact ha.height_le L hs

theorem parent_of_shared (hs : V.forest.Stored block1) (hpos : 0<block1.height)
    (hsome : (V.forest.commonHeights block1 block2).Nonempty ∨ V.forest.Grounded)
    (hne : ∀ a,V.forest.Ancestor a block1 → V.forest.Ancestor a block2 → a≠block1) :
    ∃ p,V.forest.Parent p block1 := by
  rcases hsome with ⟨_,a,-,ha,hb⟩ | hg
  · exact ha.parent (hne a ha hb)
  · exact hg _ hs hpos

theorem ancestor_ne_of_lower (L : V.forest.Levelled) (hs : V.forest.Stored block1)
    (hlt : block1.height<block2.height) {a : BlockRecord} (ha : V.forest.Ancestor a block1) : a≠block2 := by
  intro he
  have hle : a.height≤block1.height := ha.height_le L hs
  rw [he] at hle
  omega

theorem commonHeights_roots (L : V.forest.Levelled) (hs₁ : V.forest.Stored block1)
    (hs₂ : V.forest.Stored block2) (h₁ : block1.height=0) (h₂ : block2.height=0) (hne : block1≠block2) :
    V.forest.commonHeights block1 block2=∅ := by
  apply Set.eq_empty_of_forall_notMem
  rintro h ⟨a,-,ha,hb⟩
  obtain ⟨p,hp⟩ := ha.parent (Forest.ancestor_ne L hs₁ hs₂ (h₁.trans h₂.symm) hne ha hb).1
  have hh : block1.height=p.height+1 := L.height _ _ hs₁ hp
  omega

theorem forkHeight_of {heights : Set ℕ} {grounded : Prop} {result : Check ℤ}
    (h : heights.Nonempty ∨ grounded → ForkPointAt heights grounded result) :
    ForkPointAt heights grounded result :=
  ⟨fun hn => (h (Or.inl hn)).1 hn,fun he hg => (h (Or.inr hg)).2 he hg⟩

theorem findForkPointFrom_right (hlt : block1.height<block2.height) (hp : V.forest.Parent p block2) :
    findForkPointFrom V (n+1) block1 block2=findForkPointFrom V n block1 p := by
  rw [findForkPointFrom,if_pos (by omega),if_pos hlt,blockRecord_parent hp]
  rfl

theorem findForkPointFrom_left (hlt : block2.height<block1.height) (hp : V.forest.Parent p block1) :
    findForkPointFrom V (n+1) block1 block2=findForkPointFrom V n p block2 := by
  rw [findForkPointFrom,if_pos (by omega),if_neg (by omega),if_pos hlt,blockRecord_parent hp]
  rfl

theorem findForkPointFrom_both (hpos : 0<block1.height) (hh : block1.height=block2.height)
    (hne : block2.headerHash≠block1.headerHash) (hp : V.forest.Parent p block1)
    (hq : V.forest.Parent q block2) : findForkPointFrom V (n+1) block1 block2=findForkPointFrom V n p q := by
  rw [findForkPointFrom,if_pos (by omega),if_neg (by omega),if_neg (by omega),if_neg hne,
    blockRecord_parent hq,blockRecord_parent hp]
  rfl

theorem findForkPointFrom_self : findForkPointFrom V (n+1) block1 block1 = .ok (block1.height : ℤ) := by
  rw [findForkPointFrom]
  by_cases hz : block1.height > 0
  · rw [if_pos (Or.inl hz),if_neg (by omega),if_neg (by omega),if_pos rfl]
  · have h0 : block1.height=0 := by omega
    simp [h0]

theorem forkHeight_self (L : V.forest.Levelled) (hs : V.forest.Stored block1) :
    ForkPointAt (V.forest.commonHeights block1 block1) V.forest.Grounded
      (findForkPointFrom V (n+1) block1 block1) := by
  have hgr := isGreatest_self L hs
  constructor
  · intro _
    exact ⟨_,hgr,findForkPointFrom_self⟩
  · intro hempty
    have hmem := hgr.1
    rw [hempty] at hmem
    exact absurd hmem (Set.notMem_empty _)

theorem headerHash_ne (hs₁ : V.forest.Stored block1) (hs₂ : V.forest.Stored block2) (hne : block1≠block2) :
    block2.headerHash≠block1.headerHash := by
  intro hk
  have h₂ : V.blockRecords.get? block2.headerHash=some block2 := hs₂
  rw [hk] at h₂
  exact hne (Option.some.inj (hs₁.symm.trans h₂))

/-- The search meets the highest common ancestor, by induction on the blocks left below. -/
theorem findForkPointFrom_highest (L : V.forest.Levelled) (hs₁ : V.forest.Stored block1)
    (hs₂ : V.forest.Stored block2) (hn : block1.height+block2.height<n) :
    ForkPointAt (V.forest.commonHeights block1 block2) V.forest.Grounded
      (findForkPointFrom V n block1 block2) := by
  induction n generalizing block1 block2 with
  | zero => omega
  | succ n ih =>
    apply forkHeight_of
    intro hsome
    rcases Nat.lt_trichotomy block1.height block2.height with hlt | heq | hgt
    · rw [Forest.commonHeights_comm] at hsome
      obtain ⟨p,hp⟩ := parent_of_shared hs₂ (by omega) hsome
        fun a _ ha => ancestor_ne_of_lower L hs₁ hlt ha
      have hh : block2.height=p.height+1 := L.height _ _ hs₂ hp
      rw [findForkPointFrom_right hlt hp,Forest.commonHeights_comm,
        Forest.commonHeights_parent L hs₁ hp hlt,Forest.commonHeights_comm]
      exact ih hs₁ (hp.stored L) (by omega)
    · by_cases he : block1=block2
      · subst he
        exact forkHeight_self L hs₁
      by_cases hz : block1.height=0
      · have hempty := commonHeights_roots L hs₁ hs₂ hz (by omega) he
        rw [hempty,findForkPointFrom,if_neg (by omega),if_pos (Ne.symm he)]
        exact ⟨fun hn => absurd hn Set.not_nonempty_empty,fun _ _ => rfl⟩
      · have hapart := fun a => Forest.ancestor_ne (a := a) L hs₁ hs₂ heq he
        obtain ⟨p,hp⟩ := parent_of_shared hs₁ (by omega) hsome fun a ha hb => (hapart a ha hb).1
        rw [Forest.commonHeights_comm] at hsome
        obtain ⟨q,hq⟩ := parent_of_shared hs₂ (by omega) hsome fun a hb ha => (hapart a ha hb).2
        have hh₁ : block1.height=p.height+1 := L.height _ _ hs₁ hp
        have hh₂ : block2.height=q.height+1 := L.height _ _ hs₂ hq
        rw [findForkPointFrom_both (by omega) heq (headerHash_ne hs₁ hs₂ he) hp hq,
          Forest.commonHeights_parents L hs₁ hs₂ hp hq heq he]
        exact ih (hp.stored L) (hq.stored L) (by omega)
    · obtain ⟨p,hp⟩ := parent_of_shared hs₁ (by omega) hsome
        fun a ha hb he => ancestor_ne_of_lower L hs₂ hgt hb he
      have hh : block1.height=p.height+1 := L.height _ _ hs₁ hp
      rw [findForkPointFrom_left hgt hp,Forest.commonHeights_parent L hs₂ hp hgt]
      exact ih (hp.stored L) hs₂ (by omega)

/-- The fork point of two blocks of a tree of records. -/
theorem findForkPointInChain_exact (L : V.forest.Levelled) (hs₁ : V.forest.Stored block1)
    (hs₂ : V.forest.Stored block2) : ((V.forest.commonHeights block1 block2).Nonempty →
      ∃ h,IsGreatest (V.forest.commonHeights block1 block2) h ∧
        findForkPointInChain V block1 block2 = .ok (h : ℤ)) ∧
    (V.forest.commonHeights block1 block2=∅ → V.forest.Grounded →
      findForkPointInChain V block1 block2 = .ok (-1)) :=
  findForkPointFrom_highest L hs₁ hs₂ (by omega)

def treeRecord (headerHash prevHash height : ℕ) : BlockRecord :=
  ⟨headerHash,prevHash,height,0,0,0,.getDefaultElement,none,0,0,0,0,0,0,0,false,0,none,none,none,none,none,none,
    none,none⟩

/-- Two genesis blocks, one of them with a chain that splits at height one. -/
def treeView : BlockView where
  blockRecords := [treeRecord 10 0 0,treeRecord 20 1 0,treeRecord 11 10 1,treeRecord 12 11 2,
    treeRecord 13 12 3,treeRecord 22 11 2].foldl (fun d b => d.set b.headerHash b) .empty
  heights := .empty

variable {b : BlockRecord}

theorem treeView_all {k : Bytes32} (h : treeView.blockRecords.get? k=some b) :
    b.headerHash=k ∧ (∀ p,treeView.blockRecords.get? b.prevHash=some p → b.height=p.height+1) ∧
      (0<b.height → (treeView.blockRecords.get? b.prevHash).isSome) := by
  have hall : ∀ e∈treeView.blockRecords.entries,e.2.headerHash=e.1 ∧
      (∀ p∈treeView.blockRecords.get? e.2.prevHash,e.2.height=p.height+1) ∧
      (0<e.2.height → (treeView.blockRecords.get? e.2.prevHash).isSome) := by decide
  exact hall (k,b) ((Dict.mem_entries _ k b).mpr h)

theorem treeView_levelled : treeView.forest.Levelled where
  keyed := fun _ _ h => (treeView_all h).1
  height := fun _ p hs hp => (treeView_all hs).2.1 p hp

theorem treeView_grounded : treeView.forest.Grounded := fun _ hs hpos =>
  Option.isSome_iff_exists.mp ((treeView_all hs).2.2 hpos)

theorem treeView_stored (h : treeView.blockRecords.get? b.headerHash=some b) : treeView.forest.Stored b := h

theorem treeView_parent {p : BlockRecord} (h : treeView.blockRecords.get? b.prevHash=some p) :
    treeView.forest.Parent p b := h

theorem treeView_apart : treeView.forest.commonHeights (treeRecord 22 11 2) (treeRecord 20 1 0)=∅ := by
  have h₂₂ : treeView.forest.Parent (treeRecord 11 10 1) (treeRecord 22 11 2) := treeView_parent (by decide)
  have h₁₁ : treeView.forest.Parent (treeRecord 10 0 0) (treeRecord 11 10 1) := treeView_parent (by decide)
  have h₂₀ : treeView.forest.Stored (treeRecord 20 1 0) := treeView_stored (by decide)
  rw [Forest.commonHeights_parent treeView_levelled h₂₀ h₂₂ (by decide),
    Forest.commonHeights_parent treeView_levelled h₂₀ h₁₁ (by decide)]
  exact commonHeights_roots treeView_levelled (h₁₁.stored treeView_levelled) h₂₀ rfl rfl (by decide)

theorem findForkPointInChain_split :
    (∃ h,IsGreatest (treeView.forest.commonHeights (treeRecord 13 12 3) (treeRecord 22 11 2)) h ∧
      findForkPointInChain treeView (treeRecord 13 12 3) (treeRecord 22 11 2) = .ok (h : ℤ)) ∧
    findForkPointInChain treeView (treeRecord 22 11 2) (treeRecord 20 1 0) = .ok (-1) := by
  have h₁₃ : treeView.forest.Stored (treeRecord 13 12 3) := treeView_stored (by decide)
  have h₂₂ : treeView.forest.Stored (treeRecord 22 11 2) := treeView_stored (by decide)
  have h₂₀ : treeView.forest.Stored (treeRecord 20 1 0) := treeView_stored (by decide)
  have p₁₃ : treeView.forest.Parent (treeRecord 12 11 2) (treeRecord 13 12 3) := treeView_parent (by decide)
  have p₁₂ : treeView.forest.Parent (treeRecord 11 10 1) (treeRecord 12 11 2) := treeView_parent (by decide)
  have p₂₂ : treeView.forest.Parent (treeRecord 11 10 1) (treeRecord 22 11 2) := treeView_parent (by decide)
  constructor
  · apply (findForkPointInChain_exact treeView_levelled h₁₃ h₂₂).1
    exact ⟨1,treeRecord 11 10 1,rfl,.tail (.tail .refl p₁₂) p₁₃,.tail .refl p₂₂⟩
  · exact (findForkPointInChain_exact treeView_levelled h₂₂ h₂₀).2 treeView_apart treeView_grounded

end RoseChain
