import RoseChain.Consensus.View
import RoseChain.Lib.Ancestry

namespace RoseChain
open Lib
variable (V : BlockView)

/-- Steps the higher block back, or both, until the two are one or both are at height zero. -/
def findForkPointFrom : ℕ → BlockRecord → BlockRecord → Check ℤ
  | 0,_,_ => .error (.raised .diverged)
  | n+1,block1,block2 =>
    if block2.height > 0 ∨ block1.height > 0 then
      if block2.height > block1.height then do
        findForkPointFrom n block1 (← V.blockRecord block2.prevHash)
      else if block1.height > block2.height then do
        findForkPointFrom n (← V.blockRecord block1.prevHash) block2
      else if block2.headerHash=block1.headerHash then .ok block2.height
      else do
        let block2 ← V.blockRecord block2.prevHash
        findForkPointFrom n (← V.blockRecord block1.prevHash) block2
    else if block2≠block1 then .ok (-1)
    else .ok 0

/-- Height where the chain of `block2` left the chain of `block1`, or -1. -/
def findForkPointInChain (block1 block2 : BlockRecord) : Check ℤ :=
  findForkPointFrom V (block1.height+block2.height+1) block1 block2

def BlockView.forest (V : BlockView) : Forest Bytes32 BlockRecord :=
  ⟨V.blockRecords.get?,(·.headerHash),(·.prevHash),(·.height)⟩

variable {V}

@[simp] theorem forest_find (h : Bytes32) : V.forest.find h=V.blockRecords.get? h := rfl
@[simp] theorem forest_key (b : BlockRecord) : V.forest.key b=b.headerHash := rfl
@[simp] theorem forest_parent (b : BlockRecord) : V.forest.parent b=b.prevHash := rfl
@[simp] theorem forest_height (b : BlockRecord) : V.forest.height b=b.height := rfl

theorem blockRecord_prevHash {l : List BlockRecord} {b : BlockRecord} (h : V.forest.OnTop l b)
    (hk : V.forest.Keyed) (hpos : 0<b.height) :
    ∃ p m,V.blockRecord b.prevHash = .ok p ∧ l=m++[p] ∧ V.forest.OnTop m p ∧
      V.blockRecords.get? p.headerHash=some p ∧ b.height=p.height+1 := by
  obtain ⟨p,m,hf,rfl,hp⟩ := Forest.path_iff.mp (h.path (Nat.ne_of_gt hpos))
  have hkey : p.headerHash=b.prevHash := hk _ _ hf
  refine ⟨p,m,by simpa [BlockView.blockRecord] using hf,rfl,hp,by rw [hkey]; exact hf,?_⟩
  have h₁ : b.height=(m++[p]).length := h.1
  have h₂ : p.height=m.length := hp.1
  rw [h₁,h₂,List.length_append,List.length_singleton]

variable {l₁ l₂ : List BlockRecord} {block1 block2 : BlockRecord}

theorem findForkPointFrom_eq (hk : V.forest.Keyed) {n : ℕ}
    (h₁ : V.forest.OnTop l₁ block1) (h₂ : V.forest.OnTop l₂ block2)
    (hs₁ : ∀ r,V.blockRecords.get? block1.headerHash=some r → r=block1)
    (hs₂ : V.blockRecords.get? block2.headerHash=some block2) (hn : block1.height+block2.height<n) :
    findForkPointFrom V n block1 block2 = .ok ((common (l₁++[block1]) (l₂++[block2]) : ℤ)-1) := by
  induction n generalizing l₁ l₂ block1 block2 with
  | zero => omega
  | succ n ih =>
    have hl₁ : block1.height=l₁.length := h₁.1
    have hl₂ : block2.height=l₂.length := h₂.1
    unfold findForkPointFrom
    by_cases hz : block2.height > 0 ∨ block1.height > 0
    swap
    · -- both chains are down to their first record
      have e₁ : l₁=[] := List.eq_nil_of_length_eq_zero (by omega)
      have e₂ : l₂=[] := List.eq_nil_of_length_eq_zero (by omega)
      subst e₁ e₂
      rw [if_neg hz]
      by_cases he : block2=block1
      · simp [he]
      · simp [common,he,Ne.symm he]
    rw [if_pos hz]
    rcases Nat.lt_trichotomy block1.height block2.height with hlt | heq | hgt
    · obtain ⟨p,m,hp,rfl,hm,hsp,hh⟩ := blockRecord_prevHash h₂ hk (by omega)
      rw [if_pos hlt,hp]
      have hc : common (l₁++[block1]) (m++[p]++[block2])=common (l₁++[block1]) (m++[p]) := by
        rw [common_comm,common_append_left _ (by simp at hl₂ ⊢; omega),common_comm]
      rw [hc]
      exact ih h₁ hm hs₁ hsp (by omega)
    · rw [if_neg (by omega),if_neg (by omega)]
      by_cases he : block2.headerHash=block1.headerHash
      · have hb : block2=block1 := hs₁ block2 (he ▸ hs₂)
        subst hb
        rw [if_pos rfl,h₁.unique h₂]
        simp [hl₂]
      · obtain ⟨p₂,m₂,hp₂,rfl,hm₂,hsp₂,hh₂⟩ := blockRecord_prevHash h₂ hk (by omega)
        obtain ⟨p₁,m₁,hp₁,rfl,hm₁,hsp₁,hh₁⟩ := blockRecord_prevHash h₁ hk (by omega)
        have hne : block1≠block2 := fun e => he (e ▸ rfl)
        rw [if_neg he,hp₂,hp₁,common_append_ne (by omega) hne]
        exact ih hm₁ hm₂ (fun r hr => by simpa [hsp₁,eq_comm] using hr) hsp₂ (by omega)
    · obtain ⟨p,m,hp,rfl,hm,hsp,hh⟩ := blockRecord_prevHash h₁ hk (by omega)
      rw [if_neg (by omega),if_pos hgt,hp,common_append_left _ (by simp at hl₁ ⊢; omega)]
      exact ih hm h₂ (fun r hr => by simpa [hsp,eq_comm] using hr) hs₂ (by omega)

theorem findForkPointInChain_eq (hk : V.forest.Keyed)
    (h₁ : V.forest.OnTop l₁ block1) (h₂ : V.forest.OnTop l₂ block2)
    (hs₁ : ∀ r,V.blockRecords.get? block1.headerHash=some r → r=block1)
    (hs₂ : V.blockRecords.get? block2.headerHash=some block2) : findForkPointInChain V block1 block2 =
      .ok ((common (l₁++[block1]) (l₂++[block2]) : ℤ)-1) :=
  findForkPointFrom_eq hk h₁ h₂ hs₁ hs₂ (by omega)

end RoseChain
