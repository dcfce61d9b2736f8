import RoseChain.FullNode.ParsedConditions

namespace RoseChain
open Lib

/-- Whatever the stricter check answers, the looser one answers the same. -/
def Refines {α : Type} (strict lenient : Check α) : Prop := ∀ a,strict = .ok a → lenient = .ok a

section Rules
variable {α β : Type}

theorem Refines.refl (x : Check α) : Refines x x := fun _ h => h

theorem Refines.error (e : Fail) (y : Check α) : Refines (.error e) y := by
  intro a h
  cases h

variable {x y : Check α}

variable {f g : α → Check β}

theorem Refines.bind (hxy : Refines x y) (hfg : ∀ a,Refines (f a) (g a)) : Refines (x >>= f) (y >>= g) := by
  intro b hb
  obtain ⟨a,ha,hf⟩ := bind_ok.mp hb
  exact bind_ok.mpr ⟨a,hxy a ha,hfg a b hf⟩

theorem Refines.bind_same (x : Check α) (hfg : ∀ a,Refines (f a) (g a)) :
    Refines (x >>= f) (x >>= g) := (Refines.refl x).bind hfg

theorem Refines.bind_left (f : α → Check β) (hxy : Refines x y) :
    Refines (x >>= f) (y >>= f) := hxy.bind fun _ => Refines.refl _

theorem Refines.map (f : α → β) (hxy : Refines x y) : Refines (f <$> x) (f <$> y) := by
  intro b hb
  cases x with
  | error e => cases hb
  | ok a =>
    rw [hxy a rfl]
    exact hb

end Rules

theorem sanitizeInt_refines (n : SExp) : Refines (sanitizeInt n true) (sanitizeInt n false) := by
  intro z hz
  unfold sanitizeInt at hz ⊢
  obtain ⟨buf,hbuf,hz⟩ := bind_ok.mp hz
  obtain ⟨_,-,hz⟩ := bind_ok.mp hz
  refine bind_ok.mpr ⟨buf,hbuf,bind_ok.mpr ⟨(),?_,hz⟩⟩
  simp

theorem sanitizeInt_bind_refines {α : Type} (n : Check SExp) (f : ℤ → Check α) :
    Refines (n >>= fun s => sanitizeInt s true >>= f) (n >>= fun s => sanitizeInt s false >>= f) :=
  Refines.bind_same n fun s => Refines.bind_left f (sanitizeInt_refines s)

theorem parseCreateCoin_refines (args : SExp) :
    Refines (parseCreateCoin args true) (parseCreateCoin args false) := by
  unfold parseCreateCoin
  refine Refines.bind_same _ fun _ => Refines.bind_same _ fun _ => Refines.bind_same _ fun _ => ?_
  exact Refines.bind_same _ fun _ => sanitizeInt_bind_refines _ _

theorem parseConditionArgs_refines (args : SExp) (condition : ConditionOpcode) :
    Refines (parseConditionArgs args condition true) (parseConditionArgs args condition false) := by
  unfold parseConditionArgs
  cases condition with
  | createCoin => exact Refines.bind_left _ ((parseCreateCoin_refines args).map some)
  | assertSecondsAbsolute => exact Refines.bind_left _ (sanitizeInt_bind_refines _ _)
  | assertSecondsRelative => exact Refines.bind_left _ (sanitizeInt_bind_refines _ _)
  | assertHeightAbsolute => exact Refines.bind_left _ (sanitizeInt_bind_refines _ _)
  | assertHeightRelative => exact Refines.bind_left _ (sanitizeInt_bind_refines _ _)
  | reserveFee => exact Refines.bind_left _ (Refines.map some (sanitizeInt_bind_refines _ _))
  | assertMyAmount => exact Refines.bind_left _ (Refines.map some (sanitizeInt_bind_refines _ _))
  | _ => exact Refines.refl _

theorem unknownCondition_refines (cond : SExp) :
    Refines (parseCondition.unknownCondition cond true) (parseCondition.unknownCondition cond false) := by
  intro p hp
  unfold parseCondition.unknownCondition at hp
  obtain ⟨_,hreject,-⟩ := bind_ok.mp hp
  exact absurd rfl (reject_eq_ok.mp hreject)

theorem parseCondition_refines (cond : SExp) :
    Refines (parseCondition cond true) (parseCondition cond false) := by
  unfold parseCondition
  refine Refines.bind_same _ fun first => ?_
  cases first with
  | pair a b => exact unknownCondition_refines cond
  | atom blob =>
    dsimp only
    cases ConditionOpcode.ofBytes blob with
    | none => exact unknownCondition_refines cond
    | some opcode =>
      exact Refines.bind_same _ fun args => Refines.bind_left _ (parseConditionArgs_refines args opcode)

theorem parseConditions_refines (conditions : SExp) (maxCost : ℤ) :
    Refines (parseConditions true conditions maxCost) (parseConditions false conditions maxCost) := by
  induction conditions generalizing maxCost with
  | atom b => exact Refines.refl _
  | pair cond tail _ ih =>
    unfold parseConditions
    refine (parseCondition_refines cond).bind fun p => Refines.bind_same _ fun _ => ?_
    exact Refines.bind_left _ (ih (maxCost-p.1))

section Generator
variable (E : Env)

theorem parseSpend_refines (res : SExp) (maxCost : ℤ) :
    Refines (parseSpend E true res maxCost) (parseSpend E false res maxCost) := by
  unfold parseSpend
  refine Refines.bind_same _ fun _ => Refines.bind_same _ fun _ => Refines.bind_same _ fun _ => ?_
  refine Refines.bind_same _ fun _ => Refines.bind_same _ fun _ => Refines.bind_same _ fun _ => ?_
  refine Refines.bind_same _ fun _ => Refines.bind_same _ fun _ => Refines.bind_same _ fun s => ?_
  refine (sanitizeInt_refines s).bind fun _ => Refines.bind_same _ fun _ => Refines.bind_same _ fun _ => ?_
  exact Refines.bind_same _ fun s => Refines.bind_left _ (parseConditions_refines s maxCost)

theorem parseSpends_refines (spends : SExp) (maxCost : ℤ) :
    Refines (parseSpends E true spends maxCost) (parseSpends E false spends maxCost) := by
  induction spends generalizing maxCost with
  | atom b => exact Refines.refl _
  | pair res tail _ ih =>
    unfold parseSpends
    exact (parseSpend_refines E res maxCost).bind fun p => Refines.bind_left _ (ih p.2)

variable {E : Env}
  (hclvm : ∀ limit program refs run,E.runGenerator true limit program refs=some run →
    E.runGenerator false limit program refs=some run)
include hclvm

theorem runGeneratorConditions_refines (generator : BlockGenerator) (maxCost : ℤ) :
    Refines (runGeneratorConditions E generator maxCost true)
      (runGeneratorConditions E generator maxCost false) := by
  unfold runGeneratorConditions
  refine Refines.bind_same _ fun _ => ?_
  cases hrun : E.runGenerator true (maxCost-generator.program.length*E.costPerByte) generator.program
      generator.generatorRefs with
  | none => exact Refines.error _ _
  | some run =>
    rw [hclvm _ _ _ run hrun]
    refine Refines.bind_same _ fun _ => Refines.bind_same _ fun s => ?_
    exact Refines.bind_left _ (parseSpends_refines E s _)

/-- What the mempool has admitted a block reads in the same way. -/
theorem getNamePuzzleConditions_refines (generator : BlockGenerator) (maxCost : ℤ)
    (h : (getNamePuzzleConditions E generator maxCost true).error=none) :
    getNamePuzzleConditions E generator maxCost false = getNamePuzzleConditions E generator maxCost true := by
  unfold getNamePuzzleConditions at h ⊢
  cases hrun : runGeneratorConditions E generator maxCost true with
  | ok p => rw [runGeneratorConditions_refines hclvm generator maxCost p hrun]
  | error e =>
    rw [hrun] at h
    cases e <;> cases h

end Generator

def spendResult (conditions : SExp) : SExp :=
  .pair (.pair (.pair (.atom (List.replicate 32 1)) (.pair (.atom (List.replicate 32 2))
    (.pair (.atom [9]) (.pair conditions (.atom []))))) (.atom [])) (.atom [])

def createCoinSExp (puzzleHash : Bytes) : SExp :=
  .pair (.atom [51]) (.pair (.atom puzzleHash) (.pair (.atom [5]) (.atom [])))

def spendingResult : SExp := spendResult (.pair (createCoinSExp (List.replicate 32 3)) (.atom []))

def spendingEnv : Env :=
  { tinyEnv with
    runGenerator := fun _ limit _ _ => if 20≤limit then some (20,spendingResult) else none }

theorem getNamePuzzleConditions_refines_spending :
    (getNamePuzzleConditions spendingEnv ⟨[1],[]⟩ 20000 true).npcList≠[] ∧
    getNamePuzzleConditions spendingEnv ⟨[1],[]⟩ 20000 false =
      getNamePuzzleConditions spendingEnv ⟨[1],[]⟩ 20000 true :=
  ⟨by decide +kernel,getNamePuzzleConditions_refines (fun _ _ _ _ h => h) ⟨[1],[]⟩ 20000 (by decide +kernel)⟩

end RoseChain
