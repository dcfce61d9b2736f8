import RoseChain.Lib.Ancestry
import Mathlib.Logic.Relation
import Mathlib.Order.Bounds.Basic

namespace RoseChain.Lib.Forest
variable {κ ν : Type} {F : Forest κ ν}

def Stored (F : Forest κ ν) (v : ν) : Prop := F.find (F.key v)=some v

def Parent (F : Forest κ ν) (p v : ν) : Prop := F.find (F.parent v)=some p

/-- The node itself, or reached from it by parents that are stored. -/
def Ancestor (F : Forest κ ν) : ν → ν → Prop := Relation.ReflTransGen F.Parent

/-- A stored node stands one above its parent. -/
structure Levelled (F : Forest κ ν) : Prop where
  keyed : F.Keyed
  height : ∀ v p,F.Stored v → F.Parent p v → F.height v=F.height p+1

def Grounded (F : Forest κ ν) : Prop := ∀ v,F.Stored v → 0<F.height v → ∃ p,F.Parent p v

def commonHeights (F : Forest κ ν) (v w : ν) : Set ℕ :=
  {h | ∃ a,F.height a=h ∧ F.Ancestor a v ∧ F.Ancestor a w}

theorem commonHeights_comm (v w : ν) : F.commonHeights v w=F.commonHeights w v := by
  ext h
  constructor
  · rintro ⟨a,rfl,hv,hw⟩
    exact ⟨a,rfl,hw,hv⟩
  · rintro ⟨a,rfl,hw,hv⟩
    exact ⟨a,rfl,hv,hw⟩

variable {p v : ν}

theorem Parent.stored (L : F.Levelled) (h : F.Parent p v) : F.Stored p := by
  have hk : F.key p=F.parent v := L.keyed _ _ h
  rw [Stored,hk]
  exact h

theorem Parent.unique {q : ν} (hp : F.Parent p v) (hq : F.Parent q v) : p=q :=
  Option.some.inj (hp.symm.trans hq)

variable {a : ν}

theorem Ancestor.cases (h : F.Ancestor a v) : a=v ∨ ∃ p,F.Parent p v ∧ F.Ancestor a p := by
  cases h with
  | refl => exact Or.inl rfl
  | tail h hp => exact Or.inr ⟨_,hp,h⟩

theorem Ancestor.height_le (L : F.Levelled) (h : F.Ancestor a v) (hv : F.Stored v) : F.height a≤F.height v := by
  induction h with
  | refl => exact le_refl _
  | tail _ hp ih =>
    have hh := L.height _ _ hv hp
    have hle := ih (hp.stored L)
    omega

theorem ancestor_parent (hp : F.Parent p v) (hne : a≠v) : F.Ancestor a v ↔ F.Ancestor a p := by
  constructor
  · intro h
    obtain ⟨q,hq,ha⟩ := h.cases.resolve_left hne
    rw [hp.unique hq]
    exact ha
  · intro h
    exact h.tail hp

theorem Ancestor.parent (h : F.Ancestor a v) (hne : a≠v) : ∃ p,F.Parent p v := by
  obtain ⟨p,hp,-⟩ := h.cases.resolve_left hne
  exact ⟨p,hp⟩

variable {w : ν}

theorem commonHeights_parent (L : F.Levelled) (hw : F.Stored w) (hp : F.Parent p v)
    (hlt : F.height w<F.height v) : F.commonHeights v w=F.commonHeights p w := by
  ext h
  constructor
  · rintro ⟨a,rfl,hav,haw⟩
    have hle := haw.height_le L hw
    have hne : a≠v := fun he => by subst he; omega
    exact ⟨a,rfl,(ancestor_parent hp hne).mp hav,haw⟩
  · rintro ⟨a,rfl,hap,haw⟩
    exact ⟨a,rfl,hap.tail hp,haw⟩

theorem ancestor_ne (L : F.Levelled) (hv : F.Stored v) (hw : F.Stored w)
    (hh : F.height v=F.height w) (hne : v≠w) (hav : F.Ancestor a v) (haw : F.Ancestor a w) : a≠v ∧ a≠w := by
  constructor
  · intro he
    subst he
    obtain ⟨q,hq,haq⟩ := haw.cases.resolve_left hne
    have hle := haq.height_le L (hq.stored L)
    have hstep := L.height _ _ hw hq
    omega
  · intro he
    subst he
    obtain ⟨q,hq,haq⟩ := hav.cases.resolve_left (Ne.symm hne)
    have hle := haq.height_le L (hq.stored L)
    have hstep := L.height _ _ hv hq
    omega

theorem commonHeights_parents (L : F.Levelled) {q : ν} (hv : F.Stored v) (hw : F.Stored w)
    (hp : F.Parent p v) (hq : F.Parent q w) (hh : F.height v=F.height w) (hne : v≠w) :
    F.commonHeights v w=F.commonHeights p q := by
  ext h
  constructor
  · rintro ⟨a,rfl,hav,haw⟩
    obtain ⟨hnv,hnw⟩ := ancestor_ne L hv hw hh hne hav haw
    exact ⟨a,rfl,(ancestor_parent hp hnv).mp hav,(ancestor_parent hq hnw).mp haw⟩
  · rintro ⟨a,rfl,hap,haq⟩
    exact ⟨a,rfl,hap.tail hp,haq.tail hq⟩

end RoseChain.Lib.Forest
