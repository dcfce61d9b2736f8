import Mathlib.Tactic.Common

namespace RoseChain.Lib

/-- A computation with state and errors; changes made before an error survive it. -/
def Eff (σ ε α : Type) : Type := σ → Except ε α × σ

namespace Eff
variable {σ ε α β : Type}

instance : Monad (Eff σ ε) where
  pure a := fun s => (.ok a,s)
  bind m f := fun s =>
    match m s with
    | (.ok a,s') => f a s'
    | (.error e,s') => (.error e,s')

def get : Eff σ ε σ := fun s => (.ok s,s)

def modify (f : σ → σ) : Eff σ ε Unit := fun s => (.ok (),f s)

def fail (e : ε) : Eff σ ε α := fun s => (.error e,s)

/-- A pure computation with errors, run inside the stateful one. -/
def lift (x : Except ε α) : Eff σ ε α := fun s => (x,s)

@[simp] theorem pure_apply (a : α) (s : σ) : (pure a : Eff σ ε α) s=(.ok a,s) := rfl

@[simp] theorem bind_apply (m : Eff σ ε α) (f : α → Eff σ ε β) (s : σ) :
    (m >>= f) s=match m s with
      | (.ok a,s') => f a s'
      | (.error e,s') => (.error e,s') := rfl

@[simp] theorem map_apply (m : Eff σ ε α) (f : α → β) (s : σ) :
    (f <$> m) s=match m s with
      | (.ok a,s') => (.ok (f a),s')
      | (.error e,s') => (.error e,s') := rfl

@[simp] theorem get_apply (s : σ) : (get : Eff σ ε σ) s=(.ok s,s) := rfl

@[simp] theorem modify_apply (f : σ → σ) (s : σ) : (modify f : Eff σ ε Unit) s=(.ok (),f s) := rfl

@[simp] theorem fail_apply (e : ε) (s : σ) : (fail e : Eff σ ε α) s=(.error e,s) := rfl

@[simp] theorem lift_apply (x : Except ε α) (s : σ) : (lift x : Eff σ ε α) s=(x,s) := rfl

theorem lift_ok_bind (a : α) (f : α → Eff σ ε β) : (lift (.ok a) >>= f)=f a := rfl

instance : LawfulMonad (Eff σ ε) where
  map_const := rfl
  id_map := fun m => by
    funext s
    rcases h : m s with ⟨r,s'⟩
    cases r <;> simp [h]
  seqLeft_eq := fun m k => by
    funext s
    rcases h : m s with ⟨r,s'⟩
    cases r with
    | error e => simp [SeqLeft.seqLeft,Seq.seq,h]
    | ok a =>
      rcases hk : k s' with ⟨r',s''⟩
      cases r' with
      | error e => simp [SeqLeft.seqLeft,Seq.seq,h,hk]
      | ok b => simp [SeqLeft.seqLeft,Seq.seq,h,hk]; rfl
  seqRight_eq := fun m k => by
    funext s
    rcases h : m s with ⟨r,s'⟩
    cases r with
    | error e => simp [SeqRight.seqRight,Seq.seq,h]
    | ok a =>
      rcases hk : k s' with ⟨r',s''⟩
      cases r' with
      | error e => simp [SeqRight.seqRight,Seq.seq,h,hk]
      | ok b => simp [SeqRight.seqRight,Seq.seq,h,hk]; rfl
  pure_seq := fun g m => rfl
  bind_pure_comp := fun f m => rfl
  bind_map := fun f m => rfl
  pure_bind := fun a f => rfl
  bind_assoc := fun m f g => by
    funext s
    rcases h : m s with ⟨r,s'⟩
    cases r <;> simp [h]

variable {s s' : σ} {a : α}

theorem bind_of_ok {m : Eff σ ε α} (h : m s=(.ok a,s')) (f : α → Eff σ ε β) : (m >>= f) s=f a s' := by
  simp [h]

theorem bind_get (f : σ → Eff σ ε β) (s : σ) : (get >>= f) s=f s s := rfl

theorem bind_lift {x : Except ε α} (h : x = .ok a) (f : α → Eff σ ε β) (s : σ) : (lift x >>= f) s=f a s := by
  rw [h]
  rfl

variable {e : ε}

theorem bind_of_error {m : Eff σ ε α} (h : m s=(.error e,s'))
    (f : α → Eff σ ε β) : (m >>= f) s=(.error e,s') := by
  simp [h]

variable {f : α → Eff σ ε PUnit}

theorem forM_cons_of_ok {u : PUnit}
    (h : f a s=(.ok u,s')) (l : List α) : (a::l).forM f s=l.forM f s' := bind_of_ok h _

theorem forM_cons_of_error (h : f a s=(.error e,s')) (l : List α) : (a::l).forM f s=(.error e,s') :=
  bind_of_error h _

theorem bind_ok {m : Eff σ ε α} {f : α → Eff σ ε β} {t : σ} {b : β}
    (h : (m >>= f) s=(.ok b,t)) : ∃ a s',m s=(.ok a,s') ∧ f a s'=(.ok b,t) := by
  rw [bind_apply] at h
  split at h
  · rename_i a s' hm
    exact ⟨a,s',hm,h⟩
  · simp at h

/-- From `P`, a return satisfies `Q` and an error satisfies `E`. -/
def Triple (P : σ → Prop) (m : Eff σ ε α) (Q : α → σ → Prop) (E : ε → σ → Prop) : Prop :=
  ∀ s,P s → match m s with
    | (.ok a,s') => Q a s'
    | (.error e,s') => E e s'

/-- The invariant survives the computation, also when it stops with an error. -/
def Keeps (I : σ → Prop) (m : Eff σ ε α) : Prop := Triple I m (fun _ => I) (fun _ => I)

namespace Triple
variable {P P' : σ → Prop} {m : Eff σ ε α} {Q Q' : α → σ → Prop} {E E' : ε → σ → Prop}

theorem conseq (h : Triple P m Q E) (hp : ∀ s,P' s → P s) (hq : ∀ a s,Q a s → Q' a s)
    (he : ∀ e s,E e s → E' e s) : Triple P' m Q' E' := by
  intro s hs
  have hm := h s (hp s hs)
  split <;> rename_i heq <;> rw [heq] at hm
  · exact hq _ _ hm
  · exact he _ _ hm

theorem pure (a : α) (h : ∀ s,P s → Q a s) : Triple P (Pure.pure a : Eff σ ε α) Q E :=
  fun s hs => h s hs

variable {R : β → σ → Prop}

theorem bind {f : α → Eff σ ε β} (hm : Triple P m Q E)
    (hf : ∀ a,Triple (Q a) (f a) R E) : Triple P (m >>= f) R E := by
  intro s hs
  have h := hm s hs
  rw [bind_apply]
  rcases heq : m s with ⟨r,s'⟩
  rw [heq] at h
  cases r with
  | ok a => exact hf a s' h
  | error e => exact h

theorem read {f : σ → Eff σ ε β} (h : ∀ s,P s → Triple P (f s) R E) :
    Triple P (get >>= f) R E := fun s hs => h s hs s hs

theorem fail (e : ε) (h : ∀ s,P s → E e s) : Triple P (Eff.fail e : Eff σ ε α) Q E :=
  fun s hs => h s hs

theorem lift {x : Except ε α} (hok : ∀ a,x = .ok a → ∀ s,P s → Q a s)
    (herr : ∀ e,x = .error e → ∀ s,P s → E e s) : Triple P (Eff.lift x) Q E := by
  intro s hs
  cases x with
  | ok a => exact hok a rfl s hs
  | error e => exact herr e rfl s hs

theorem modify {f : σ → σ} {Q : Unit → σ → Prop} (h : ∀ s,P s → Q () (f s)) :
    Triple P (Eff.modify f : Eff σ ε Unit) Q E := fun s hs => h s hs

theorem forM {f : α → Eff σ ε PUnit} {I : List α → σ → Prop}
    (h : ∀ a l,Triple (I (a::l)) (f a) (fun _ => I l) E) (l : List α) :
    Triple (I l) (l.forM f) (fun _ => I []) E := by
  induction l with
  | nil => exact pure _ fun s hs => hs
  | cons a l ih => exact bind (h a l) fun _ => ih

end Triple

variable {I : σ → Prop}

theorem Keeps.bind {m : Eff σ ε α} {f : α → Eff σ ε β} (hm : Keeps I m)
    (hf : ∀ a,Keeps I (f a)) : Keeps I (m >>= f) := Triple.bind hm hf

theorem Keeps.state {m : Eff σ ε α} (h : Keeps I m) (hs : I s) : I (m s).2 := by
  have hm := h s hs
  split at hm <;> rename_i heq <;> rw [heq] <;> exact hm

theorem Keeps.run {m : Eff σ ε α} (h : Keeps I m) {r : Except ε α} (hrun : m s=(r,s')) (hs : I s) : I s' := by
  have hm := h.state hs
  rwa [hrun] at hm

end Eff
end RoseChain.Lib
