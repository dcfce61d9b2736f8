import Mathlib.Algebra.BigOperators.Ring.Finset
import RoseChain.FullNode.ConditionCosts
import RoseChain.FullNode.NoRaise
import RoseChain.Wallet.CCWallet

namespace RoseChain
open Lib

theorem conditionsFor_entries (name puzzleHash : Bytes32) (conditions : List ConditionWithArgs) (op : ConditionOpcode) :
    NPC.conditionsFor ⟨name,puzzleHash,(conditionsByOpcode conditions).entries⟩ op =
      conditions.filter fun c => decide (c.opcode=op) := by
  rw [← conditionsByOpcode_getD]
  unfold NPC.conditionsFor Dict.get?
  have hentries : (NPC.conditionDict ⟨name,puzzleHash,(conditionsByOpcode conditions).entries⟩).entries =
      (conditionsByOpcode conditions).entries := by
    unfold NPC.conditionDict
    rw [Dict.entries_foldl_set _ _ (conditionsByOpcode conditions).nodup fun _ _ => rfl]
    rfl
  rw [hentries]

theorem mapM_eq_some_map {α β : Type} {f : α → Option β} {g : α → β} {l : List α} (h : ∀ a∈l,f a=some (g a)) :
    l.mapM f=some (l.map g) := by
  induction l with
  | nil => rfl
  | cons a l ih =>
    rw [List.mapM_cons,h a List.mem_cons_self,ih fun b hb => h b (List.mem_cons_of_mem _ hb)]
    rfl

theorem pkmPair_of_key {E : Env} {key message : Bytes} {g1 : G1Element} (hlength : key.length=48)
    (hmessage : message.length≤1024) (hg1 : E.g1FromBytes key=some g1) (suffix : Bytes) (op : ConditionOpcode) :
    pkmPair E suffix ⟨op,[key,message]⟩ = .ok (g1,message++suffix) := by
  unfold pkmPair
  have hcheck : assertThat (key.length=48 ∧ message.length≤1024) = .ok () :=
    assertThat_eq_ok.mpr ⟨hlength,hmessage⟩
  simp only [List.length_cons,List.length_nil,List.getElem?_cons_zero,List.getElem?_cons_succ,index]
  simp only [bind,Except.bind,hcheck,hg1]
  rfl

namespace SExp

theorem asIter_ofList (l : List SExp) : (ofList l).asIter=some l := by
  induction l with
  | nil => rfl
  | cons s l ih => simp [ofList,asIter,ih]

end SExp

theorem parseSexpToConditions_ofList (l : List SExp) :
    parseSexpToConditions (.ofList l)=l.mapM parseSexpToCondition := by
  unfold parseSexpToConditions
  rw [SExp.asIter_ofList]
  rfl

def createCoinOf (p : Primary) : ConditionWithArgs := ⟨.createCoin,[bytes32 p.2,intToBytes p.1]⟩

/-- The conditions that `make_solution` asks for. -/
def parsedConditions (primaries : List Primary) (fee : ℕ) : List ConditionWithArgs :=
  primaries.map createCoinOf++if fee≠0 then [⟨.reserveFee,[intToBytes fee]⟩] else []

section
variable (primaries : List Primary)

theorem parse_conditionList (fee : ℕ) :
    (conditionList primaries fee).mapM parseSexpToCondition=some (parsedConditions primaries fee) := by
  have hcreate : (primaries.map fun p => makeCreateCoinCondition p.2 p.1).mapM parseSexpToCondition =
      some (primaries.map createCoinOf) := by
    rw [List.mapM_map]
    apply mapM_eq_some_map
    intro p _
    rfl
  unfold conditionList parsedConditions
  rw [List.mapM_append,hcreate]
  split_ifs <;> rfl

theorem filter_parsedConditions (fee : ℕ) :
    (parsedConditions primaries fee).filter (fun c => decide (c.opcode = .createCoin))=primaries.map createCoinOf := by
  unfold parsedConditions
  rw [List.filter_append,List.filter_eq_self.mpr]
  · split_ifs <;> simp
  · intro c hc
    obtain ⟨p,-,rfl⟩ := List.mem_map.mp hc
    rfl

theorem filter_signatures (fee : ℕ) {op : ConditionOpcode}
    (hop : op = .aggSigUnsafe ∨ op = .aggSigMe) :
    (parsedConditions primaries fee).filter (fun c => decide (c.opcode=op))=[] := by
  apply List.filter_eq_nil_iff.mpr
  intro c hc
  have hkind : c.opcode = .createCoin ∨ c.opcode = .reserveFee := by
    obtain hcreate | hfee := List.mem_append.mp hc
    · obtain ⟨p,-,rfl⟩ := List.mem_map.mp hcreate
      exact Or.inl rfl
    · split_ifs at hfee
      · rw [List.mem_singleton.mp hfee]
        exact Or.inr rfl
      · cases hfee
  rcases hkind with hkind | hkind <;> rcases hop with rfl | rfl <;> simp [hkind]

end

/-- What the missing programs do: the standard puzzle returns a signature condition and those of the solution;
the coloured puzzle, where it does not fail, makes a coin of its amount for each payment. -/
structure CcPrograms.Lawful (E : Env) (P : CcPrograms) : Prop where
  standard : ∀ pk,∃ key : Bytes,key.length=48 ∧ (E.g1FromBytes key).isSome ∧ ∀ conditions,∃ cost ≤ infiniteCost,
    P.evaluate (P.puzzleForPk pk) (solutionForConditions conditions)=some (cost,.pair
      (.ofList [.atom [ConditionOpcode.aggSigMe.value],.atom key,
        .ofBytes32 ((puzzleForConditions conditions).treeHash E)]) conditions)
  coloured : ∀ checker pk primaries fee rest r,
    P.evaluate (ccPuzzleForInnerPuzzle E P P.ccMod checker (P.puzzleForPk pk)) (.pair (makeSolution primaries fee) rest) =
      some r → ∃ conditions,parseSexpToConditions r.2=some conditions ∧
        ∀ c∈conditions,c.opcode = .createCoin → ∃ puzzleHash,∃ p∈primaries,c.vars=[puzzleHash,intToBytes p.1]

section Runs
variable {E : Env} {P : CcPrograms} (hP : P.Lawful E) (pk : G1Element) (primaries : List Primary) (fee : ℕ)
include hP

theorem standard_conditions : ∃ key : Bytes,key.length=48 ∧ (E.g1FromBytes key).isSome ∧
    ∃ message : Bytes,message.length=32 ∧ ∃ cost ≤ infiniteCost,∀ maxCost,
      conditionsForSolution P (P.puzzleForPk pk) (makeSolution primaries fee) maxCost =
        if cost ≤ maxCost then some (⟨.aggSigMe,[key,message]⟩::parsedConditions primaries fee) else none := by
  obtain ⟨key,hlength,hkey,hrun⟩ := hP.standard pk
  obtain ⟨cost,hcost,hrun⟩ := hrun (.ofList (conditionList primaries fee))
  refine ⟨key,hlength,hkey,bytes32 ((puzzleForConditions (.ofList (conditionList primaries fee))).treeHash E),
    ?_,cost,hcost,fun maxCost => ?_⟩
  · simp [bytes32]
  · unfold conditionsForSolution runWithCost makeSolution
    rw [hrun,Option.bind_some]
    split_ifs with hle
    · rw [Option.bind_some]
      rw [show SExp.pair _ (SExp.ofList (conditionList primaries fee)) =
        .ofList (_::conditionList primaries fee) from rfl,parseSexpToConditions_ofList,List.mapM_cons,
        parse_conditionList]
      rfl
    · rfl

theorem outputAmount_standard :
    outputAmount P (P.puzzleForPk pk) (makeSolution primaries fee) = .ok ((primaries.map (·.1)).sum : ℕ) := by
  obtain ⟨key,-,-,message,-,cost,hcost,hrun⟩ := standard_conditions hP pk primaries fee
  unfold outputAmount
  rw [hrun,if_pos hcost]
  dsimp only
  rw [conditionsByOpcode_getD,List.filter_cons_of_neg (by simp),filter_parsedConditions,List.mapM_map]
  have hamounts : primaries.mapM ((fun cvp : ConditionWithArgs => do
      return intFromBytes (← index cvp.vars[1]?) : ConditionWithArgs → Check ℤ) ∘ createCoinOf) =
      .ok (primaries.map fun p => (p.1 : ℤ)) := by
    apply mapM_eq_ok_map
    intro p _
    exact congrArg Except.ok (intFromBytes_intToBytes p.1)
  rw [bind_of_ok hamounts]
  rw [Nat.cast_list_sum,List.map_map]
  rfl

theorem getSigs_standard (w : CCWallet) (name : Bytes32)
    (hkey : (w.privateKey ((P.puzzleForPk pk).treeHash E)).isSome) :
    ∃ sigs,w.getSigs E P (P.puzzleForPk pk) (makeSolution primaries fee) name = .ok sigs := by
  obtain ⟨key,hlength,hg1,message,hmessage,cost,-,hrun⟩ := standard_conditions hP pk primaries fee
  obtain ⟨private',hprivate⟩ := Option.isSome_iff_exists.mp hkey
  obtain ⟨g1,hg1⟩ := Option.isSome_iff_exists.mp hg1
  have hkeys : w.getKeys ((P.puzzleForPk pk).treeHash E) = .ok private' := by
    unfold CCWallet.getKeys
    rw [hprivate]
  unfold CCWallet.getSigs
  rw [bind_of_ok hkeys,hrun]
  split_ifs
  · dsimp only
    unfold pkmPairsForConditionsDict
    rw [conditionsFor_entries,conditionsFor_entries,List.filter_cons_of_neg (by simp),
      List.filter_cons_of_pos (by simp),filter_signatures _ _ (Or.inl rfl),filter_signatures _ _ (Or.inr rfl)]
    rw [List.mapM_cons,pkmPair_of_key hlength (by omega) hg1]
    exact ⟨_,rfl⟩
  · exact ⟨[],rfl⟩

theorem additions_standard (hfits : ∀ p∈primaries,p.1<2^64) {checker : SExp} {spend : ProgramSpend} {rest : SExp}
    (hreveal : spend.puzzleReveal=ccPuzzleForInnerPuzzle E P P.ccMod checker (P.puzzleForPk pk))
    (hsolution : spend.solution = .pair (makeSolution primaries fee) rest) :
    ∃ l,spend.additions E P = .ok l := by
  unfold ProgramSpend.additions conditionsForSolution runWithCost
  rw [hreveal,hsolution]
  cases hrun : P.evaluate (ccPuzzleForInnerPuzzle E P P.ccMod checker (P.puzzleForPk pk))
      (.pair (makeSolution primaries fee) rest) with
  | none => exact ⟨[],rfl⟩
  | some r =>
    obtain ⟨conditions,hparse,hcreate⟩ := hP.coloured checker pk primaries fee rest r hrun
    rw [Option.bind_some]
    split_ifs
    · rw [Option.bind_some,hparse]
      dsimp only
      unfold createdOutputsForConditionsDict
      rw [conditionsFor_entries]
      refine ⟨_,mapM_eq_ok_map (g := fun c => ⟨E.coinName spend.coin,toBytes32 (c.vars[0]?.getD []),
        (intFromBytes (c.vars[1]?.getD [])).toNat⟩) fun c hc => ?_⟩
      obtain ⟨hmem,hop⟩ := List.mem_filter.mp hc
      obtain ⟨puzzleHash,p,hp,hvars⟩ := hcreate c hmem (of_decide_eq_true hop)
      have huint : uint64 (intFromBytes (intToBytes p.1)) = .ok p.1 := by
        rw [intFromBytes_intToBytes,uint64,uint_eq_ok]
        exact ⟨rfl,hfits p hp⟩
      simp only [hvars,index,List.getElem?_cons_zero,List.getElem?_cons_succ,Option.getD_some]
      simp only [bind,Except.bind,huint]
      rw [intFromBytes_intToBytes,Int.toNat_natCast]
      rfl
    · exact ⟨[],rfl⟩

end Runs

end RoseChain
