import Mathlib.Data.Set.Function

namespace RoseChain.Lib
variable {α H : Type} {hash named : α → H} {start top : H} {l m : List α}

/-- Items that each name the hash of the item before, the newest first; the oldest one names the start. -/
def NamesBack (hash named : α → H) (start : H) : H → List α → Prop
  | top,[] => top=start
  | top,a::l => top=hash a ∧ NamesBack hash named start (named a) l

@[simp] theorem namesBack_nil : NamesBack hash named start top [] ↔ top=start := Iff.rfl

@[simp] theorem namesBack_cons {a : α} :
    NamesBack hash named start top (a::l) ↔ top=hash a ∧ NamesBack hash named start (named a) l := Iff.rfl

theorem namesBack_append : NamesBack hash named start top (l++m) ↔
      ∃ middle,NamesBack hash named middle top l ∧ NamesBack hash named start middle m := by
  induction l generalizing top with
  | nil => simp
  | cons a l ih => simp [ih,and_assoc]

theorem NamesBack.unique (hinj : Set.InjOn hash {a | a∈l ∨ a∈m}) (hstart : ∀ a,a∈l ∨ a∈m → hash a≠start)
    (hl : NamesBack hash named start top l) (hm : NamesBack hash named start top m) : l=m := by
  induction l generalizing m top with
  | nil =>
    cases m with
    | nil => rfl
    | cons b m =>
      rw [namesBack_nil] at hl
      exact absurd (hm.1.symm.trans hl) (hstart b (by simp))
  | cons a l ih =>
    cases m with
    | nil =>
      rw [namesBack_nil] at hm
      exact absurd (hl.1.symm.trans hm) (hstart a (by simp))
    | cons b m =>
      have hsame : a=b := hinj (by simp) (by simp) (hl.1.symm.trans hm.1)
      subst hsame
      congr 1
      apply ih (hinj.mono _) _ hl.2 hm.2
      · intro c hc
        exact hc.imp (List.mem_cons_of_mem a) (List.mem_cons_of_mem a)
      · intro c hc
        exact hstart c (hc.imp (List.mem_cons_of_mem a) (List.mem_cons_of_mem a))

end RoseChain.Lib
