import Mathlib.Data.List.Forall2
import Mathlib.Data.List.Induction
import Mathlib.Tactic.Common
import Mathlib.Tactic.Ring

namespace RoseChain.Lib

def common {α : Type} [DecidableEq α] : List α → List α → Nat
  | a::l,b::m => if a=b then common l m+1 else 0
  | _,_ => 0

example : common [3,5,8] [3,5,9]=2 := by simp [common]

section Common
variable {α : Type} [DecidableEq α]

@[simp] theorem common_self (l : List α) : common l l=l.length := by
  induction l with
  | nil => rfl
  | cons a l ih => simp [common,ih]

theorem common_comm (l m : List α) : common l m=common m l := by
  induction l generalizing m with
  | nil => cases m <;> rfl
  | cons a l ih =>
    cases m with
    | nil => rfl
    | cons b m => simp only [common,ih,eq_comm (a := b)]

theorem common_le_left (l m : List α) : common l m≤l.length := by
  induction l generalizing m with
  | nil => cases m <;> simp [common]
  | cons a l ih =>
    cases m with
    | nil => simp [common]
    | cons b m =>
      simp only [common,List.length_cons]
      split_ifs
      · exact Nat.succ_le_succ (ih m)
      · omega

theorem common_le_right (l m : List α) : common l m ≤ m.length := common_comm l m ▸ common_le_left m l

variable {l m : List α}

theorem common_pos {a : α} (hl : l[0]?=some a) (hm : m[0]?=some a) : 0<common l m := by
  cases l with
  | nil => simp at hl
  | cons b l =>
    cases m with
    | nil => simp at hm
    | cons c m =>
      simp only [List.getElem?_cons_zero,Option.some.injEq] at hl hm
      simp [common,hl,hm]

theorem take_common (l m : List α) : l.take (common l m)=m.take (common l m) := by
  induction l generalizing m with
  | nil => cases m <;> simp [common]
  | cons a l ih =>
    cases m with
    | nil => simp [common]
    | cons b m =>
      simp only [common]
      split_ifs with h
      · simp [h,ih m]
      · simp

theorem le_common {n : Nat} (hl : n≤l.length) (hm : n ≤ m.length) (h : l.take n=m.take n) : n ≤ common l m := by
  induction n generalizing l m with
  | zero => omega
  | succ n ih =>
    cases l with
    | nil => simp at hl
    | cons a l =>
      cases m with
      | nil => simp at hm
      | cons b m =>
        simp only [List.take_succ_cons,List.cons.injEq] at h
        simp only [common,h.1,if_true]
        exact Nat.succ_le_succ (ih (by simpa using hl) (by simpa using hm) h.2)

theorem common_append_left (x : α) (h : m.length≤l.length) : common (l++[x]) m=common l m := by
  induction l generalizing m with
  | nil =>
    have hm : m=[] := List.eq_nil_of_length_eq_zero (by simpa using h)
    subst hm; rfl
  | cons a l ih =>
    cases m with
    | nil => rfl
    | cons b m => simp only [List.cons_append,common,ih (by simpa using h)]

theorem common_append_ne {x y : α} (h : l.length=m.length) (hxy : x≠y) :
    common (l++[x]) (m++[y])=common l m := by
  induction l generalizing m with
  | nil =>
    have hm : m=[] := List.eq_nil_of_length_eq_zero (by simpa using h.symm)
    subst hm; simp [common,hxy]
  | cons a l ih =>
    cases m with
    | nil => simp at h
    | cons b m => simp only [List.cons_append,common,ih (by simpa using h)]

end Common

/-- A store of nodes that name their parent by key and carry their distance from a root. -/
structure Forest (κ ν : Type) where
  find : κ → Option ν
  key : ν → κ
  parent : ν → κ
  height : ν → Nat

namespace Forest
variable {κ ν : Type}

/-- The nodes from a root up to the node stored under a key. -/
inductive Path (F : Forest κ ν) : κ → List ν → Prop
  | root {k : κ} {v : ν} (hf : F.find k=some v) (hh : F.height v=0) : Path F k [v]
  | step {k : κ} {v : ν} {l : List ν} (hf : F.find k=some v) (hh : F.height v=l.length)
      (hp : Path F (F.parent v) l) : Path F k (l++[v])

def Keyed (F : Forest κ ν) : Prop := ∀ k v,F.find k=some v → F.key v=k

variable {F : Forest κ ν}

variable {k : κ} {l : List ν}

theorem Path.ne_nil (h : F.Path k l) : l≠[] := by
  cases h <;> simp

theorem Path.length_pos (h : F.Path k l) : 0<l.length :=
  List.length_pos_iff.mpr h.ne_nil

theorem Path.last (h : F.Path k l) : ∃ v,F.find k=some v ∧ l.getLast?=some v ∧ F.height v+1=l.length := by
  cases h with
  | root hf hh => exact ⟨_,hf,rfl,by simp [hh]⟩
  | step hf hh hp => exact ⟨_,hf,by simp,by simp [hh]⟩

variable {m : List ν}

theorem Path.unique (hl : F.Path k l) (hm : F.Path k m) : l=m := by
  induction hl generalizing m with
  | root hf hh =>
    cases hm with
    | root hf' => rw [hf] at hf'; simpa using hf'
    | step hf' hh' hp' =>
      rw [hf] at hf'
      cases hf'
      exact absurd hp'.length_pos (by omega)
  | step hf hh hp ih =>
    cases hm with
    | root hf' hh' =>
      rw [hf] at hf'
      cases hf'
      exact absurd hp.length_pos (by omega)
    | step hf' hh' hp' =>
      rw [hf] at hf'
      cases hf'
      rw [ih hp']

variable {G : Forest κ ν}

theorem Path.mono (h : F.Path k l) (hfind : ∀ k v,F.find k=some v → G.find k=some v) (hpar : G.parent=F.parent)
    (hht : G.height=F.height) : G.Path k l := by
  induction h with
  | root hf hh => exact .root (hfind _ _ hf) (by rw [hht]; exact hh)
  | step hf hh hp ih => exact .step (hfind _ _ hf) (by rw [hht]; exact hh) (by rw [hpar]; exact ih)

theorem Path.related {μ : Type} {G : Forest κ μ} {R : ν → μ → Prop} (h : F.Path k l)
    (hfind : ∀ k v,F.find k=some v → ∃ u,G.find k=some u ∧ R v u)
    (hpar : ∀ v u,R v u → G.parent u=F.parent v) (hht : ∀ v u,R v u → G.height u=F.height v) :
    ∃ m,G.Path k m ∧ List.Forall₂ R l m := by
  induction h with
  | root hf hh =>
    obtain ⟨u,hu,hr⟩ := hfind _ _ hf
    exact ⟨[u],.root hu ((hht _ _ hr).trans hh),.cons hr .nil⟩
  | step hf hh hp ih =>
    obtain ⟨m,hm,hall⟩ := ih
    obtain ⟨u,hu,hr⟩ := hfind _ _ hf
    refine ⟨m++[u],.step hu ?_ ?_,List.rel_append hall (.cons hr .nil)⟩
    · exact ((hht _ _ hr).trans hh).trans hall.length_eq
    · rw [hpar _ _ hr]
      exact hm

variable {v : ν}

variable {u : ν}

theorem Path.find_parent (h : F.Path k l) {i : Nat} (hu : l[i]?=some u)
    (hv : l[i+1]?=some v) : F.find (F.parent v)=some u := by
  induction h with
  | root hf hh => simp at hv
  | step hf hh hp ih =>
    rename_i l
    by_cases hlt : i+1<l.length
    · rw [List.getElem?_append_left (by omega)] at hu
      rw [List.getElem?_append_left hlt] at hv
      exact ih hu hv
    · obtain ⟨hi,-⟩ := List.getElem?_eq_some_iff.mp hv
      have hi' : i+1=l.length := by simp at hi; omega
      rw [hi',List.getElem?_concat_length] at hv
      rw [List.getElem?_append_left (by omega)] at hu
      obtain ⟨u',hfind,hlast,-⟩ := hp.last
      rw [List.getLast?_eq_getElem?,← hi',Nat.add_sub_cancel,hu] at hlast
      rw [← Option.some.inj hv,hfind,hlast]

theorem Path.height_getElem (h : F.Path k l) (i : Nat) (hi : i<l.length) : F.height l[i]=i := by
  induction h with
  | root hf hh =>
    have : i=0 := by simpa using hi
    subst this; simpa using hh
  | step hf hh hp ih =>
    rename_i l
    by_cases hlt : i<l.length
    · rw [List.getElem_append_left hlt]; exact ih hlt
    · have : i=l.length := by simp at hi; omega
      subst this
      simpa using hh

theorem Path.find_getElem (hk : F.Keyed) (h : F.Path k l) (i : Nat)
    (hi : i<l.length) : F.find (F.key l[i])=some l[i] := by
  induction h with
  | root hf hh =>
    have : i=0 := by simpa using hi
    subst this
    simpa [hk _ _ hf] using hf
  | step hf hh hp ih =>
    rename_i l
    by_cases hlt : i<l.length
    · simpa [List.getElem_append_left hlt] using ih hlt
    · have : i=l.length := by simp at hi; omega
      subst this
      simpa [hk _ _ hf] using hf

theorem Path.take (hk : F.Keyed) (h : F.Path k l) (i : Nat)
    (hi : i<l.length) : F.Path (F.key l[i]) (l.take (i+1)) := by
  induction h with
  | root hf hh =>
    have : i=0 := by simpa using hi
    subst this
    simpa [hk _ _ hf] using Path.root hf hh
  | step hf hh hp ih =>
    rename_i k' v l
    by_cases hlt : i<l.length
    · rw [List.getElem_append_left hlt,List.take_append_of_le_length hlt]
      exact ih hlt
    · have : i=l.length := by simp at hi; omega
      subst this
      have hs : F.Path k' (l++[v]) := .step hf hh hp
      rw [List.take_of_length_le (by simp)]
      simpa [hk _ _ hf] using hs

theorem Path.meet (hk : F.Keyed) {k' : κ} (hl : F.Path k l) (hm : F.Path k' m)
    (i : Nat) (hi : i<l.length) (hj : i < m.length) (h : F.key l[i]=F.key m[i]) : l.take (i+1)=m.take (i+1) := by
  have h₁ := hl.take hk i hi
  rw [h] at h₁
  exact h₁.unique (hm.take hk i hj)

/-- A node on top of a path: at a root's height on nothing, else on the path of its parent. -/
def OnTop (F : Forest κ ν) (l : List ν) (v : ν) : Prop :=
  F.height v=l.length ∧ (l=[] ∨ F.Path (F.parent v) l)

theorem path_iff : F.Path k l ↔ ∃ v m,F.find k=some v ∧ l=m++[v] ∧ F.OnTop m v := by
  constructor
  · rintro (⟨hf,hh⟩ | ⟨hf,hh,hp⟩)
    · exact ⟨_,[],hf,rfl,hh,Or.inl rfl⟩
    · exact ⟨_,_,hf,rfl,hh,Or.inr hp⟩
  · rintro ⟨v,m,hf,rfl,hh,rfl | hp⟩
    · exact .root hf hh
    · exact .step hf hh hp

theorem OnTop.path (h : F.OnTop l v) (hpos : F.height v≠0) : F.Path (F.parent v) l := by
  refine h.2.resolve_left ?_
  rintro rfl
  exact hpos h.1

theorem Path.find_mem (hk : F.Keyed) (h : F.Path k l) (hv : v∈l) : F.find (F.key v)=some v := by
  obtain ⟨i,hi,rfl⟩ := List.getElem_of_mem hv
  exact h.find_getElem hk i hi

theorem OnTop.find_mem (hk : F.Keyed) (h : F.OnTop l v) (hu : u∈l) : F.find (F.key u)=some u := by
  rcases h.2 with rfl | hp
  · simp at hu
  · exact hp.find_mem hk hu

theorem OnTop.unique (hl : F.OnTop l v) (hm : F.OnTop m v) : l=m := by
  by_cases hv : F.height v=0
  · rw [List.eq_nil_of_length_eq_zero (hl.1.symm.trans hv),List.eq_nil_of_length_eq_zero (hm.1.symm.trans hv)]
  · exact (hl.path hv).unique (hm.path hv)

theorem OnTop.mono (h : F.OnTop l v)
    (hfind : ∀ k v,F.find k=some v → G.find k=some v) (hpar : G.parent=F.parent)
    (hht : G.height=F.height) : G.OnTop l v :=
  ⟨by rw [hht]; exact h.1,h.2.imp id fun hp => by rw [hpar]; exact hp.mono hfind hpar hht⟩

end Forest
end RoseChain.Lib
