import RoseChain.FullNode.StrictParsing

namespace RoseChain
open Lib

section Sums
variable {K V : Type} [DecidableEq K]

theorem sum_upsert (f : K × V → ℕ) (l : List (K × V)) (k : K) (v : V) :
    ((upsert l k v).map f).sum+((assoc l k).map fun u => f (k,u)).getD 0=(l.map f).sum+f (k,v) := by
  induction l with
  | nil => simp [upsert,assoc]
  | cons e l ih =>
    obtain ⟨q,u⟩ := e
    by_cases hq : q=k
    · subst hq
      simp [upsert,assoc]
      omega
    · simp only [upsert,assoc,hq,if_false,List.map_cons,List.sum_cons]
      omega

theorem dict_sum_set (d : Dict K V) (f : K × V → ℕ) (k : K) (v : V) :
    ((d.set k v).entries.map f).sum+((d.get? k).map fun u => f (k,u)).getD 0 =
      (d.entries.map f).sum+f (k,v) := sum_upsert f d.entries k v

end Sums

def conditionsCost (conditions : List ConditionWithArgs) : ℕ := (conditions.map (·.opcode.cost)).sum

theorem conditionsCost_append (l l' : List ConditionWithArgs) :
    conditionsCost (l++l')=conditionsCost l+conditionsCost l' := by
  simp [conditionsCost]

/-- What `calculate_cost_of_program` counts for one spend. -/
def NPC.cost (npc : NPC) : ℕ := (npc.conditionDict.entries.map fun c => c.2.length*c.1.cost).sum

theorem conditionsByOpcode_cost (conditions : List ConditionWithArgs) :
    ((conditionsByOpcode conditions).entries.map fun c => c.2.length*c.1.cost).sum =
      conditionsCost conditions := by
  induction conditions using List.reverseRecOn with
  | nil => rfl
  | append_singleton conditions cvp ih =>
    have hsum := dict_sum_set (conditionsByOpcode conditions) (fun c => c.2.length*c.1.cost) cvp.opcode
      (((conditionsByOpcode conditions).get? cvp.opcode).getD []++[cvp])
    have hset : conditionsByOpcode (conditions++[cvp])=(conditionsByOpcode conditions).set cvp.opcode
        (((conditionsByOpcode conditions).get? cvp.opcode).getD []++[cvp]) := by
      simp only [conditionsByOpcode,List.foldl_append,List.foldl_cons,List.foldl_nil]
    have hone : conditionsCost [cvp]=cvp.opcode.cost := by simp [conditionsCost]
    rw [hset,conditionsCost_append,hone,← ih]
    cases hget : (conditionsByOpcode conditions).get? cvp.opcode with
    | none =>
      rw [hget] at hsum
      simpa using hsum
    | some l =>
      rw [hget] at hsum
      simp only [Option.getD_some,Option.map_some,List.length_append,List.length_singleton,add_mul,
        one_mul] at hsum ⊢
      omega

theorem NPC.cost_grouped (name puzzleHash : Bytes32) (conditions : List ConditionWithArgs) :
    NPC.cost ⟨name,puzzleHash,(conditionsByOpcode conditions).entries⟩=conditionsCost conditions := by
  have hdict : (NPC.conditionDict ⟨name,puzzleHash,(conditionsByOpcode conditions).entries⟩).entries =
      (conditionsByOpcode conditions).entries := by
    unfold NPC.conditionDict
    rw [Dict.entries_foldl_set _ _ (conditionsByOpcode conditions).nodup fun _ _ => rfl]
    rfl
  unfold NPC.cost
  rw [hdict,conditionsByOpcode_cost]

variable {cost : ℕ}

theorem parseConditionArgs_cost {args : SExp} {condition : ConditionOpcode} {safeMode : Bool}
    {vars : Option (List Bytes)} (h : parseConditionArgs args condition safeMode = .ok (cost,vars)) :
    cost=condition.cost ∧ (vars=none → condition.cost=0) := by
  have hread {x : Check (Option (List Bytes))}
      (hx : (x >>= fun v => pure (condition.cost,v)) = .ok (cost,vars)) :
      cost=condition.cost ∧ x = .ok vars := by
    obtain ⟨v,hv,hpair⟩ := bind_ok.mp hx
    obtain ⟨hcost,rfl⟩ := Prod.mk.inj (Except.ok.inj hpair)
    exact ⟨hcost.symm,hv⟩
  have hkept {x : Check (List Bytes)} (hx : some <$> x = .ok vars) : vars≠none := by
    cases x with
    | error e => cases hx
    | ok l =>
      rw [← Except.ok.inj hx]
      exact Option.some_ne_none l
  unfold parseConditionArgs at h
  cases condition with
  | aggSigUnsafe => exact ⟨(hread h).1,fun hv => absurd hv (hkept (hread h).2)⟩
  | aggSigMe => exact ⟨(hread h).1,fun hv => absurd hv (hkept (hread h).2)⟩
  | createCoin => exact ⟨(hread h).1,fun hv => absurd hv (hkept (hread h).2)⟩
  | _ => exact ⟨(hread h).1,fun _ => rfl⟩

theorem parseCondition_cost {cond : SExp} {safeMode : Bool} {cvl : Option ConditionWithArgs}
    (h : parseCondition cond safeMode = .ok (cost,cvl)) : cost=conditionsCost cvl.toList := by
  have hunknown (h : parseCondition.unknownCondition cond safeMode = .ok (cost,cvl)) :
      cost=conditionsCost cvl.toList := by
    unfold parseCondition.unknownCondition at h
    simp only [bind_ok] at h
    obtain ⟨_,-,_,-,hpair⟩ := h
    obtain ⟨rfl,rfl⟩ := Prod.mk.inj (Except.ok.inj hpair)
    rfl
  unfold parseCondition at h
  obtain ⟨first,-,h⟩ := bind_ok.mp h
  cases first with
  | pair a b => exact hunknown h
  | atom blob =>
    dsimp only at h
    cases hop : ConditionOpcode.ofBytes blob with
    | none =>
      rw [hop] at h
      exact hunknown h
    | some opcode =>
      rw [hop] at h
      simp only [bind_ok] at h
      obtain ⟨_,-,p,hargs,hpair⟩ := h
      obtain ⟨rfl,rfl⟩ := Prod.mk.inj (Except.ok.inj hpair)
      obtain ⟨hcost,hdropped⟩ := parseConditionArgs_cost hargs
      rw [hcost]
      cases hvars : p.2 with
      | none => exact hdropped hvars
      | some vars => simp [conditionsCost]

variable {s : SExp} {conditions : List ConditionWithArgs} {left : ℤ}

theorem parseConditions_cost {safeMode : Bool} {maxCost : ℤ}
    (h : parseConditions safeMode s maxCost = .ok (conditions,left)) :
    left=maxCost-conditionsCost conditions ∧ (0 ≤ maxCost → 0≤left) := by
  induction s generalizing maxCost conditions left with
  | atom b =>
    unfold parseConditions at h
    split_ifs at h
    obtain ⟨rfl,rfl⟩ := Prod.mk.inj (Except.ok.inj h)
    exact ⟨by simp [conditionsCost],id⟩
  | pair cond tail _ ih =>
    unfold parseConditions at h
    simp only [bind_ok,reject_eq_ok] at h
    obtain ⟨p,hcond,_,hcost,q,hmore,hpair⟩ := h
    obtain ⟨rfl,rfl⟩ := Prod.mk.inj (Except.ok.inj hpair)
    obtain ⟨hleft,hpos⟩ := ih hmore
    have hp := parseCondition_cost hcond
    rw [conditionsCost_append,← hp]
    exact ⟨by rw [hleft]; push_cast; ring,fun _ => hpos (by omega)⟩

theorem parseConditions_limit {safeMode : Bool} {maxCost maxCost' : ℤ}
        (h : parseConditions safeMode s maxCost = .ok (conditions,left))
    (hcost : conditionsCost conditions ≤ maxCost') :
    parseConditions safeMode s maxCost' = .ok (conditions,maxCost'-conditionsCost conditions) := by
  induction s generalizing maxCost maxCost' conditions left with
  | atom b =>
    unfold parseConditions at h ⊢
    split_ifs at h ⊢
    obtain ⟨rfl,-⟩ := Prod.mk.inj (Except.ok.inj h)
    simp [conditionsCost]
    rfl
  | pair cond tail _ ih =>
    unfold parseConditions at h ⊢
    simp only [bind_ok] at h ⊢
    obtain ⟨p,hcond,_,-,q,hmore,hpair⟩ := h
    obtain ⟨rfl,-⟩ := Prod.mk.inj (Except.ok.inj hpair)
    have hp := parseCondition_cost hcond
    rw [conditionsCost_append,← hp] at hcost ⊢
    have hmore' : parseConditions safeMode tail (maxCost'-p.1) =
        .ok (q.1,maxCost'-p.1-conditionsCost q.1) := ih hmore (by push_cast at hcost; omega)
    refine ⟨p,hcond,(),reject_eq_ok.mpr (by push_cast at hcost; omega),_,hmore',?_⟩
    congr 2
    push_cast
    ring

section Spends
variable {E : Env} {safeMode : Bool}

def npcsCost (npcList : List NPC) : ℕ := (npcList.map NPC.cost).sum

variable {maxCost : ℤ}

variable {res : SExp} {left : ℤ} {npc : NPC}

theorem parseSpend_cost (h : parseSpend E safeMode res maxCost = .ok (npc,left)) :
    left=maxCost-npc.cost ∧ (0 ≤ maxCost → 0≤left) := by
  unfold parseSpend at h
  simp only [bind_ok] at h
  obtain ⟨_,-,_,-,_,-,_,-,_,-,_,-,_,-,_,-,_,-,_,-,_,-,_,-,_,-,q,hcond,hp⟩ := h
  obtain ⟨rfl,rfl⟩ := Prod.mk.inj (Except.ok.inj hp)
  rw [NPC.cost_grouped]
  exact parseConditions_cost hcond

variable {maxCost' : ℤ}

theorem parseSpend_limit (h : parseSpend E safeMode res maxCost = .ok (npc,left)) (hcost : npc.cost ≤ maxCost') :
    parseSpend E safeMode res maxCost' = .ok (npc,maxCost'-npc.cost) := by
  unfold parseSpend at h ⊢
  simp only [bind_ok] at h ⊢
  obtain ⟨a,ha,b,hb,u,hu,c,hc,d,hd,e,he,v,hv,f,hf,g,hg,i,hi,j,hj,k,hk,s,hs,q,hcond,hp⟩ := h
  obtain ⟨rfl,-⟩ := Prod.mk.inj (Except.ok.inj hp)
  rw [NPC.cost_grouped] at hcost ⊢
  exact ⟨a,ha,b,hb,u,hu,c,hc,d,hd,e,he,v,hv,f,hf,g,hg,i,hi,j,hj,k,hk,s,hs,_,
    parseConditions_limit hcond hcost,rfl⟩

variable {s : SExp} {npcList : List NPC}

theorem parseSpends_cost (h : parseSpends E safeMode s maxCost = .ok npcList) (hmax : 0 ≤ maxCost) : npcsCost npcList ≤ maxCost := by
  induction s generalizing maxCost npcList with
  | atom b =>
    unfold parseSpends at h
    split_ifs at h
    rw [← Except.ok.inj h]
    simpa [npcsCost] using hmax
  | pair res tail _ ih =>
    unfold parseSpends at h
    simp only [bind_ok] at h
    obtain ⟨p,hspend,more,hmore,hl⟩ := h
    obtain ⟨hleft,hpos⟩ := parseSpend_cost hspend
    have htail := ih hmore (hpos hmax)
    have hsum : npcsCost (p.1::more)=p.1.cost+npcsCost more := by simp [npcsCost]
    rw [← Except.ok.inj hl,hsum]
    push_cast
    omega

theorem parseSpends_limit (h : parseSpends E safeMode s maxCost = .ok npcList) (hcost : npcsCost npcList ≤ maxCost') :
    parseSpends E safeMode s maxCost' = .ok npcList := by
  induction s generalizing maxCost maxCost' npcList with
  | atom b => exact h
  | pair res tail _ ih =>
    unfold parseSpends at h ⊢
    simp only [bind_ok] at h ⊢
    obtain ⟨p,hspend,more,hmore,hl⟩ := h
    have hsum : npcsCost (p.1::more)=p.1.cost+npcsCost more := by simp [npcsCost]
    rw [← Except.ok.inj hl,hsum] at hcost
    push_cast at hcost
    exact ⟨_,parseSpend_limit hspend (by omega),more,ih hmore (by omega),hl⟩

theorem runGeneratorConditions_ok_iff (generator : BlockGenerator) (maxCost : ℤ) (npcList : List NPC)
    (clvmCost : ℕ) : runGeneratorConditions E generator maxCost safeMode = .ok (npcList,clvmCost) ↔
      generator.program.length*E.costPerByte ≤ maxCost ∧ clvmCost<2^64 ∧
      ∃ result spends,E.runGenerator safeMode (maxCost-generator.program.length*E.costPerByte)
          generator.program generator.generatorRefs=some (clvmCost,result) ∧
        clvmCost ≤ maxCost-generator.program.length*E.costPerByte ∧ result.first = .ok spends ∧
        parseSpends E safeMode spends (maxCost-generator.program.length*E.costPerByte-clvmCost) =
          .ok npcList := by
  unfold runGeneratorConditions
  rw [bind_ok]
  constructor
  · rintro ⟨_,hsize,h⟩
    cases hgen : E.runGenerator safeMode (maxCost-generator.program.length*E.costPerByte) generator.program
        generator.generatorRefs with
    | none =>
      rw [hgen] at h
      cases h
    | some run =>
      rw [hgen] at h
      simp only [bind_ok] at h
      obtain ⟨_,hcost,spends,hfirst,l,hl,c,hc,hpair⟩ := h
      obtain ⟨rfl,rfl⟩ := Prod.mk.inj (Except.ok.inj hpair)
      obtain ⟨hrun,hlt⟩ := uint_eq_ok.mp hc
      obtain ⟨cost,result⟩ := run
      obtain rfl : cost=c := by exact_mod_cast hrun
      have hsize' := reject_eq_ok.mp hsize
      have hcost' := reject_eq_ok.mp hcost
      exact ⟨by omega,hlt,result,spends,rfl,by dsimp only at hcost'; omega,hfirst,hl⟩
  · rintro ⟨hsize,hlt,result,spends,hgen,hcost,hfirst,hl⟩
    refine ⟨(),reject_eq_ok.mpr (by omega),?_⟩
    rw [hgen]
    simp only [bind_ok]
    exact ⟨(),reject_eq_ok.mpr (by omega),spends,hfirst,npcList,hl,clvmCost,
      uint_eq_ok.mpr ⟨rfl,hlt⟩,rfl⟩

variable {generator : BlockGenerator}

theorem getNamePuzzleConditions_error_none (h : (getNamePuzzleConditions E generator maxCost safeMode).error=none) :
    ∃ npcList clvmCost,runGeneratorConditions E generator maxCost safeMode = .ok (npcList,clvmCost) ∧
      getNamePuzzleConditions E generator maxCost safeMode=⟨none,npcList,clvmCost⟩ := by
  unfold getNamePuzzleConditions at h ⊢
  cases hrun : runGeneratorConditions E generator maxCost safeMode with
  | ok p => exact ⟨p.1,p.2,rfl,rfl⟩
  | error e =>
    rw [hrun] at h
    cases e <;> cases h

def recountedCost (E : Env) (program : SerializedProgram) (r : NPCResult) : ℕ :=
  r.clvmCost+npcsCost r.npcList+program.length*E.costPerByte

theorem calculateCostOfProgram_eq_ok {program : SerializedProgram} {r : NPCResult} {cost : ℕ} :
    calculateCostOfProgram E program r = .ok cost ↔ recountedCost E program r=cost ∧ cost<2^64 := by
  have hcount : calculateCostOfProgram E program r=uint64 (recountedCost E program r : ℕ) := rfl
  rw [hcount,uint_eq_ok]
  exact and_congr_left fun _ => Int.ofNat_inj

theorem recountedCost_le (h : (getNamePuzzleConditions E generator maxCost safeMode).error=none) :
    recountedCost E generator.program (getNamePuzzleConditions E generator maxCost safeMode) ≤ maxCost := by
  obtain ⟨npcList,clvmCost,hrun,hr⟩ := getNamePuzzleConditions_error_none h
  obtain ⟨_,-,_,_,-,hcost,-,hl⟩ := (runGeneratorConditions_ok_iff _ _ _ _).mp hrun
  have hnpcs := parseSpends_cost hl (by omega)
  rw [hr]
  unfold recountedCost
  push_cast
  omega

theorem getNamePuzzleConditions_limit (hclvm : ∀ limit limit' program refs cost result,
      E.runGenerator safeMode limit program refs=some (cost,result) → (cost : ℤ)≤limit' →
      E.runGenerator safeMode limit' program refs=some (cost,result))
    (h : (getNamePuzzleConditions E generator maxCost safeMode).error=none)
    (hcost : recountedCost E generator.program (getNamePuzzleConditions E generator maxCost safeMode) ≤ maxCost') :
    getNamePuzzleConditions E generator maxCost' safeMode =
      getNamePuzzleConditions E generator maxCost safeMode := by
  obtain ⟨npcList,clvmCost,hrun,hr⟩ := getNamePuzzleConditions_error_none h
  obtain ⟨_,hlt,result,spends,hgen,_,hfirst,hl⟩ := (runGeneratorConditions_ok_iff _ _ _ _).mp hrun
  rw [hr] at hcost ⊢
  unfold recountedCost at hcost
  push_cast at hcost
  have hclvm' := hclvm _ (maxCost'-generator.program.length*E.costPerByte) _ _ _ _ hgen (by omega)
  have hrun' := (runGeneratorConditions_ok_iff generator maxCost' npcList clvmCost).mpr
    ⟨by omega,hlt,result,spends,hclvm',by omega,hfirst,parseSpends_limit hl (by omega)⟩
  unfold getNamePuzzleConditions
  rw [hrun']

/-- The limit that a program runs under and the cost that is counted for it afterwards agree. -/
theorem cost_accountings_agree (E : Env) (safeMode : Bool) (hclvm : ∀ limit limit' program refs cost result,
      E.runGenerator safeMode limit program refs=some (cost,result) → (cost : ℤ)≤limit' →
      E.runGenerator safeMode limit' program refs=some (cost,result))
    (generator : BlockGenerator) (maxCost : ℤ) :
    ((getNamePuzzleConditions E generator maxCost safeMode).error=none →
      (∀ cost,calculateCostOfProgram E generator.program
          (getNamePuzzleConditions E generator maxCost safeMode) = .ok cost → (cost : ℤ) ≤ maxCost) ∧
      (maxCost<2^64 → ∃ cost,calculateCostOfProgram E generator.program
          (getNamePuzzleConditions E generator maxCost safeMode) = .ok cost)) ∧
    ∀ unlimited cost,(getNamePuzzleConditions E generator unlimited safeMode).error=none →
      calculateCostOfProgram E generator.program
        (getNamePuzzleConditions E generator unlimited safeMode) = .ok cost → (cost : ℤ) ≤ maxCost →
      getNamePuzzleConditions E generator maxCost safeMode =
        getNamePuzzleConditions E generator unlimited safeMode := by
  refine ⟨fun h => ⟨fun cost hcost => ?_,fun hmax => ?_⟩,fun unlimited cost h hcost hle => ?_⟩
  · rw [← (calculateCostOfProgram_eq_ok.mp hcost).1]
    exact recountedCost_le h
  · have hle := recountedCost_le h
    exact ⟨_,calculateCostOfProgram_eq_ok.mpr ⟨rfl,by omega⟩⟩
  · refine getNamePuzzleConditions_limit hclvm h ?_
    rw [(calculateCostOfProgram_eq_ok.mp hcost).1]
    exact hle

end Spends

theorem spendingEnv_limits (safeMode : Bool) (limit limit' : ℤ) (program : SerializedProgram)
    (refs : List SerializedProgram) (cost : ℕ) (result : SExp)
    (h : spendingEnv.runGenerator safeMode limit program refs=some (cost,result)) (hle : (cost : ℤ)≤limit') :
    spendingEnv.runGenerator safeMode limit' program refs=some (cost,result) := by
  change (if 20≤limit then some (20,spendingResult) else none)=_ at h
  change (if 20≤limit' then some (20,spendingResult) else none)=_
  split_ifs at h
  obtain ⟨rfl,rfl⟩ := Prod.mk.inj (Option.some.inj h)
  exact if_pos hle

/-- One coin made: 12000 for the size, 20 for the run and 1800 for the coin. -/
theorem cost_accountings_agree_spending :
    (∀ cost,calculateCostOfProgram spendingEnv [1] (getNamePuzzleConditions spendingEnv ⟨[1],[]⟩ 13820 true) =
      .ok cost → (cost : ℤ)≤13820) ∧ getNamePuzzleConditions spendingEnv ⟨[1],[]⟩ 13820 true =
      getNamePuzzleConditions spendingEnv ⟨[1],[]⟩ (2^64) true :=
  ⟨((cost_accountings_agree spendingEnv true (spendingEnv_limits true) ⟨[1],[]⟩ 13820).1
      (by decide +kernel)).1,
    (cost_accountings_agree spendingEnv true (spendingEnv_limits true) ⟨[1],[]⟩ 13820).2 (2^64) 13820
      (by decide +kernel) (by decide +kernel) (by decide)⟩

def refusedResult : SExp :=
  spendResult (.pair (createCoinSExp (List.replicate 32 3)) (.pair (createCoinSExp []) (.atom [])))

def refusedEnv : Env :=
  { tinyEnv with
    runGenerator := fun _ limit _ _ => if 20≤limit then some (20,refusedResult) else none }

/-- A run that is refused for another reason counts the size of the program only. -/
theorem refused_run_not_counted :
    (getNamePuzzleConditions refusedEnv ⟨[1],[]⟩ (2^64) true).error=some .invalidCondition ∧
    calculateCostOfProgram refusedEnv [1] (getNamePuzzleConditions refusedEnv ⟨[1],[]⟩ (2^64) true) =
      .ok 12000 ∧ (getNamePuzzleConditions refusedEnv ⟨[1],[]⟩ 13000 true).error=some .invalidBlockCost := by
  decide +kernel

end RoseChain
