import RoseChain.FullNode.MempoolCheckConditions

namespace RoseChain
open Lib

/-- What the parser of the conditions has made sure of, as far as it is asserted later. -/
def ConditionWithArgs.Parsed (cvp : ConditionWithArgs) : Prop :=
  match cvp.opcode with
  | .aggSigUnsafe | .aggSigMe =>
    ∃ pubkey message,cvp.vars=[pubkey,message] ∧ pubkey.length=48 ∧ message.length≤1024
  | .createCoinAnnouncement | .createPuzzleAnnouncement =>
    ∃ message,cvp.vars=[message] ∧ message.length≤1024
  | _ => True

def NPC.Parsed (npc : NPC) : Prop := ∀ c∈npc.conditions,∀ cvp∈c.2,cvp.opcode=c.1 ∧ cvp.Parsed

variable {args : SExp} {vars : List Bytes}

theorem parseAggsig_ok (h : parseAggsig args = .ok vars) :
    ∃ pubkey message,vars=[pubkey,message] ∧ pubkey.length=48 ∧ message.length≤1024 := by
  unfold parseAggsig at h
  simp only [bind_ok,reject_eq_ok] at h
  obtain ⟨_,-,_,-,_,-,pubkey,-,_,hkey,message,-,_,hmessage,hvars⟩ := h
  exact ⟨pubkey,message,(Except.ok.inj hvars).symm,not_not.mp hkey,by omega⟩

theorem parseAnnouncement_ok (h : parseAnnouncement args = .ok vars) :
    ∃ message,vars=[message] ∧ message.length≤1024 := by
  unfold parseAnnouncement at h
  simp only [bind_ok,reject_eq_ok] at h
  obtain ⟨_,-,message,-,_,hmessage,hvars⟩ := h
  exact ⟨message,(Except.ok.inj hvars).symm,by omega⟩

theorem map_some_ok {x : Check (List Bytes)} (h : some <$> x = .ok (some vars)) : x = .ok vars := by
  cases x with
  | error e => cases h
  | ok l => exact congrArg Except.ok (Option.some.inj (Except.ok.inj h))

variable {cost : ℕ}

theorem parseConditionArgs_parsed {op : ConditionOpcode} {safeMode : Bool}
    (h : parseConditionArgs args op safeMode = .ok (cost,some vars)) :
    (⟨op,vars⟩ : ConditionWithArgs).Parsed := by
  unfold parseConditionArgs at h
  have hlast {x : Check (Option (List Bytes))} {n : ℕ}
      (hx : (x >>= fun v => pure (n,v)) = .ok (cost,some vars)) : x = .ok (some vars) := by
    obtain ⟨v,hv,hpair⟩ := bind_ok.mp hx
    rw [hv,(Prod.mk.inj (Except.ok.inj hpair)).2]
  unfold ConditionWithArgs.Parsed
  cases op with
  | aggSigUnsafe => exact parseAggsig_ok (map_some_ok (hlast h))
  | aggSigMe => exact parseAggsig_ok (map_some_ok (hlast h))
  | createCoinAnnouncement => exact parseAnnouncement_ok (map_some_ok (hlast h))
  | createPuzzleAnnouncement => exact parseAnnouncement_ok (map_some_ok (hlast h))
  | _ => trivial

theorem parseCondition_parsed {cond : SExp} {safeMode : Bool} {cvp : ConditionWithArgs}
    (h : parseCondition cond safeMode = .ok (cost,some cvp)) : cvp.Parsed := by
  have hunknown (h : parseCondition.unknownCondition cond safeMode = .ok (cost,some cvp)) : cvp.Parsed := by
    unfold parseCondition.unknownCondition at h
    simp only [bind_ok] at h
    obtain ⟨_,-,_,-,hpair⟩ := h
    rw [← Option.some.inj (Prod.mk.inj (Except.ok.inj hpair)).2]
    trivial
  unfold parseCondition at h
  obtain ⟨first,-,h⟩ := bind_ok.mp h
  cases first with
  | pair a b => exact hunknown h
  | atom blob =>
    dsimp only at h
    cases hop : ConditionOpcode.ofBytes blob with
    | none =>
      rw [hop] at h
      exact hunknown h
    | some op =>
      rw [hop] at h
      simp only [bind_ok] at h
      obtain ⟨_,-,p,hargs,hpair⟩ := h
      obtain ⟨hcost,hvars⟩ := Prod.mk.inj (Except.ok.inj hpair)
      obtain ⟨vars,hsome,rfl⟩ := Option.map_eq_some_iff.mp hvars
      have hp : p=(p.1,some vars) := Prod.ext rfl hsome
      rw [hp] at hargs
      exact parseConditionArgs_parsed hargs

/-- Every condition of the spend stands under its opcode and has the property. -/
def NPC.All (C : ConditionWithArgs → Prop) (npc : NPC) : Prop :=
  ∀ c∈npc.conditions,∀ cvp∈c.2,cvp.opcode=c.1 ∧ C cvp

section All
variable {E : Env} {C : ConditionWithArgs → Prop} {safeMode : Bool}
  (hC : ∀ cond cost cvp,parseCondition cond safeMode = .ok (cost,some cvp) → C cvp)
include hC

theorem parseConditions_all {s : SExp} {maxCost : ℤ} {p : List ConditionWithArgs × ℤ}
    (h : parseConditions safeMode s maxCost = .ok p) : ∀ cvp∈p.1,C cvp := by
  induction s generalizing maxCost p with
  | atom b =>
    unfold parseConditions at h
    split_ifs at h
    rw [← Except.ok.inj h]
    intro cvp hcvp
    cases hcvp
  | pair cond tail _ ih =>
    unfold parseConditions at h
    simp only [bind_ok] at h
    obtain ⟨q,hcond,_,-,r,hmore,hp⟩ := h
    rw [← Except.ok.inj hp]
    intro cvp hcvp
    obtain hone | hrest := List.mem_append.mp hcvp
    · have hq : q=(q.1,some cvp) := Prod.ext rfl (Option.mem_toList.mp hone)
      rw [hq] at hcond
      exact hC _ _ _ hcond
    · exact ih hmore cvp hrest

end All

theorem conditionsByOpcode_getD (conditions : List ConditionWithArgs) (op : ConditionOpcode) :
    ((conditionsByOpcode conditions).get? op).getD []=conditions.filter fun c => decide (c.opcode=op) := by
  induction conditions using List.reverseRecOn with
  | nil => rfl
  | append_singleton conditions c ih =>
    have hset : conditionsByOpcode (conditions++[c])=(conditionsByOpcode conditions).set c.opcode
        (((conditionsByOpcode conditions).get? c.opcode).getD []++[c]) := by
      simp only [conditionsByOpcode,List.foldl_append,List.foldl_cons,List.foldl_nil]
    rw [hset,Dict.get?_set,List.filter_append]
    by_cases hop : c.opcode=op
    · subst hop
      simp [ih]
    · simp [hop,ih]

theorem conditionsByOpcode_mem (conditions : List ConditionWithArgs) :
    ∀ op l,(conditionsByOpcode conditions).get? op=some l → ∀ cvp∈l,cvp.opcode=op ∧ cvp∈conditions := by
  intro op l hl cvp hcvp
  have hget := conditionsByOpcode_getD conditions op
  rw [hl,Option.getD_some] at hget
  rw [hget] at hcvp
  obtain ⟨hmem,hop⟩ := List.mem_filter.mp hcvp
  exact ⟨of_decide_eq_true hop,hmem⟩

section All
variable {E : Env} {C : ConditionWithArgs → Prop} {safeMode : Bool}
  (hC : ∀ cond cost cvp,parseCondition cond safeMode = .ok (cost,some cvp) → C cvp)
include hC

variable {maxCost : ℤ}

theorem parseSpend_all {res : SExp} {p : NPC × ℤ}
    (h : parseSpend E safeMode res maxCost = .ok p) : p.1.All C := by
  unfold parseSpend at h
  simp only [bind_ok] at h
  obtain ⟨_,-,_,-,_,-,_,-,_,-,_,-,_,-,_,-,_,-,_,-,_,-,_,-,_,-,q,hcond,hp⟩ := h
  rw [← Except.ok.inj hp]
  intro c hc cvp hcvp
  have hget := ((conditionsByOpcode q.1).mem_entries c.1 c.2).mp hc
  obtain ⟨hop,hmem⟩ := conditionsByOpcode_mem q.1 c.1 c.2 hget cvp hcvp
  exact ⟨hop,parseConditions_all hC hcond cvp hmem⟩

theorem parseSpends_all {s : SExp} {l : List NPC}
    (h : parseSpends E safeMode s maxCost = .ok l) : ∀ npc∈l,npc.All C := by
  induction s generalizing maxCost l with
  | atom b =>
    unfold parseSpends at h
    split_ifs at h
    rw [← Except.ok.inj h]
    intro npc hnpc
    cases hnpc
  | pair res tail _ ih =>
    unfold parseSpends at h
    simp only [bind_ok] at h
    obtain ⟨p,hspend,more,hmore,hl⟩ := h
    rw [← Except.ok.inj hl]
    intro npc hnpc
    obtain rfl | hrest := List.mem_cons.mp hnpc
    · exact parseSpend_all hC hspend
    · exact ih hmore npc hrest

theorem getNamePuzzleConditions_all (generator : BlockGenerator) (maxCost : ℤ) :
    ∀ npc∈(getNamePuzzleConditions E generator maxCost safeMode).npcList,npc.All C := by
  intro npc hnpc
  unfold getNamePuzzleConditions at hnpc
  cases hrun : runGeneratorConditions E generator maxCost safeMode with
  | error e =>
    rw [hrun] at hnpc
    cases e with
    | invalid e => cases hnpc
    | raised e => cases hnpc
  | ok p =>
    rw [hrun] at hnpc
    unfold runGeneratorConditions at hrun
    obtain ⟨_,-,hrun⟩ := bind_ok.mp hrun
    cases hgen : E.runGenerator safeMode (maxCost-generator.program.length*E.costPerByte) generator.program
        generator.generatorRefs with
    | none =>
      rw [hgen] at hrun
      cases hrun
    | some q =>
      rw [hgen] at hrun
      simp only [bind_ok] at hrun
      obtain ⟨_,-,_,-,l,hl,_,-,hp⟩ := hrun
      rw [← Except.ok.inj hp] at hnpc
      exact parseSpends_all hC hl npc hnpc

end All

theorem getNamePuzzleConditions_parsed {E : Env} (generator : BlockGenerator) (maxCost : ℤ) (safeMode : Bool) :
    ∀ npc∈(getNamePuzzleConditions E generator maxCost safeMode).npcList,npc.Parsed :=
  getNamePuzzleConditions_all (fun _ _ _ h => parseCondition_parsed h) generator maxCost

variable {npc : NPC}

theorem NPC.All.conditionsFor {C : ConditionWithArgs → Prop} (h : npc.All C) (op : ConditionOpcode) :
    ∀ cvp∈npc.conditionsFor op,cvp.opcode=op ∧ C cvp := by
  have hmem (l : List (ConditionOpcode × List ConditionWithArgs)) (d : Dict ConditionOpcode (List ConditionWithArgs))
      (cs : List ConditionWithArgs) (hget : (l.foldl (fun d c => d.set c.1 c.2) d).get? op=some cs) :
      (op,cs)∈l ∨ d.get? op=some cs := by
    induction l generalizing d with
    | nil => exact Or.inr hget
    | cons c l ih =>
      obtain hin | hold := ih _ hget
      · exact Or.inl (List.mem_cons_of_mem _ hin)
      · rw [Dict.get?_set] at hold
        split_ifs at hold with hop
        · rw [← Option.some.inj hold,← hop]
          exact Or.inl List.mem_cons_self
        · exact Or.inr hold
  intro cvp hcvp
  unfold NPC.conditionsFor at hcvp
  cases hget : npc.conditionDict.get? op with
  | none =>
    rw [hget] at hcvp
    cases hcvp
  | some cs =>
    rw [hget] at hcvp
    unfold NPC.conditionDict at hget
    obtain hin | hempty := hmem _ _ _ hget
    · exact h _ hin cvp hcvp
    · cases hempty

theorem NPC.Parsed.conditionsFor (h : npc.Parsed) (op : ConditionOpcode) :
    ∀ cvp∈npc.conditionsFor op,cvp.opcode=op ∧ cvp.Parsed := NPC.All.conditionsFor h op

section Vars
variable {cvp : ConditionWithArgs} {op : ConditionOpcode}

theorem ConditionWithArgs.Parsed.announcement (h : cvp.Parsed) (hopcode : cvp.opcode=op)
    (hop : op = .createCoinAnnouncement ∨ op = .createPuzzleAnnouncement) :
    ∃ message,cvp.vars=[message] ∧ message.length≤1024 := by
  unfold ConditionWithArgs.Parsed at h
  obtain hcoin | hpuzzle := hop
  · rw [hopcode,hcoin] at h
    exact h
  · rw [hopcode,hpuzzle] at h
    exact h

theorem ConditionWithArgs.Parsed.aggSig (h : cvp.Parsed) (hopcode : cvp.opcode=op)
    (hop : op = .aggSigUnsafe ∨ op = .aggSigMe) :
    ∃ pubkey message,cvp.vars=[pubkey,message] ∧ pubkey.length=48 ∧ message.length≤1024 := by
  unfold ConditionWithArgs.Parsed at h
  obtain hunsafe | hme := hop
  · rw [hopcode, hunsafe] at h
    exact h
  · rw [hopcode,hme] at h
    exact h

theorem NPC.Parsed.announcements {npc : NPC} (h : npc.Parsed)
    (hop : op = .createCoinAnnouncement ∨ op = .createPuzzleAnnouncement) :
    ∀ cvp∈(npc.conditions.filter fun c => c.1=op).flatMap (·.2),
      ∃ message,cvp.vars=[message] ∧ message.length≤1024 := by
  intro cvp hcvp
  obtain ⟨c,hc,hin⟩ := List.mem_flatMap.mp hcvp
  obtain ⟨hmem,hcop⟩ := List.mem_filter.mp hc
  obtain ⟨hopcode,hparsed⟩ := h c hmem cvp hin
  exact hparsed.announcement (hopcode.trans (of_decide_eq_true hcop)) hop

end Vars

end RoseChain
