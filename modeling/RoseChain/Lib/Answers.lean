import RoseChain.Lib.Effect

namespace RoseChain.Lib.Eff
variable {σ τ ε α β : Type} {I : σ → Prop} {J : τ → Prop} {m : Eff σ ε α} {Q Q' : α → Prop} {R : β → Prop}

/-- The invariant survives the computation, also when it fails, and what it returns satisfies `Q`.
-/
def Answers (I : σ → Prop) (m : Eff σ ε α) (Q : α → Prop) : Prop :=
  Triple I m (fun a s => I s ∧ Q a) fun _ => I

def within (part : σ → τ) (put : τ → σ → σ) (m : Eff τ ε α) : Eff σ ε α := fun s =>
  match m (part s) with
  | (r,t) => (r,put t s)

namespace Answers

theorem mono (h : Answers I m Q) (hq : ∀ a,Q a → Q' a) : Answers I m Q' := by
  apply Triple.conseq h
  · exact fun _ hs => hs
  · exact fun a _ hs => ⟨hs.1,hq a hs.2⟩
  · exact fun _ _ hs => hs

variable {a : α}

theorem pure (h : Q a) : Answers I (Pure.pure a : Eff σ ε α) Q :=
  Triple.pure a fun _ hs => ⟨hs,h⟩

theorem bind {f : α → Eff σ ε β} (hm : Answers I m Q) (hf : ∀ a,Q a → Answers I (f a) R) :
    Answers I (m >>= f) R := by
  apply Triple.bind hm
  intro a s hs
  exact hf a hs.2 s hs.1

theorem read {f : σ → Eff σ ε β} (h : ∀ s,I s → Answers I (f s) R) : Answers I (get >>= f) R :=
  Triple.read h

theorem lift {x : Except ε α} (h : ∀ a,x = .ok a → Q a) : Answers I (Eff.lift x) Q := by
  apply Triple.lift
  · exact fun a ha _ hs => ⟨hs,h a ha⟩
  · exact fun _ _ _ hs => hs

theorem fail (e : ε) : Answers I (Eff.fail e : Eff σ ε α) Q := Triple.fail e fun _ hs => hs

theorem modify {f : σ → σ} (h : ∀ s,I s → I (f s)) : Answers I (Eff.modify f : Eff σ ε Unit) fun _ => True :=
  Triple.modify fun s hs => ⟨h s hs,trivial⟩

variable {γ : Type}

theorem mapM {f : γ → Eff σ ε β} {S : γ → β → Prop} {l : List γ} (h : ∀ c∈l,Answers I (f c) (S c)) :
    Answers I (l.mapM f) (List.Forall₂ S l) := by
  induction l with
  | nil => exact Answers.pure .nil
  | cons c l ih =>
    rw [List.mapM_cons]
    refine (h c List.mem_cons_self).bind fun b hb => ?_
    refine (ih fun c' hc' => h c' (List.mem_cons_of_mem _ hc')).bind fun bs hbs => ?_
    exact Answers.pure (.cons hb hbs)

theorem foldlM {f : β → γ → Eff σ ε β} {l : List γ}
    (h : ∀ c∈l,∀ b,R b → Answers I (f b c) R) {b : β} (hb : R b) : Answers I (l.foldlM f b) R := by
  induction l generalizing b with
  | nil => exact Answers.pure hb
  | cons c l ih =>
    rw [List.foldlM_cons]
    exact (h c List.mem_cons_self b hb).bind fun b' hb' => ih (fun c' hc' => h c' (List.mem_cons_of_mem _ hc')) hb'

/-- Work on a part of the state whose rest the invariant does not tie to it. -/
theorem within {part : σ → τ} {put : τ → σ → σ} {m : Eff τ ε α} (h : Answers J m Q) (hpart : ∀ s,I s → J (part s))
    (hput : ∀ s t,I s → J t → I (put t s)) : Answers I (Eff.within part put m) Q := by
  intro s hs
  have hm := h (part s) (hpart s hs)
  unfold Eff.within
  rcases hrun : m (part s) with ⟨r,t⟩
  rw [hrun] at hm
  cases r with
  | ok a => exact ⟨hput s t hs hm.1,hm.2⟩
  | error e => exact hput s t hs hm

theorem ok (h : Answers I m Q) {s t : σ} (hs : I s) (hrun : m s=(.ok a,t)) : I t ∧ Q a := by
  have hm := h s hs
  rw [hrun] at hm
  exact hm

theorem keeps (h : Answers I m Q) : Keeps I m := by
  apply Triple.conseq h
  · exact fun _ hs => hs
  · exact fun _ _ hs => hs.1
  · exact fun _ _ hs => hs

end Answers
end RoseChain.Lib.Eff
