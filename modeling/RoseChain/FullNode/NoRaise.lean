import RoseChain.FullNode.MempoolRuns

namespace RoseChain
open Lib MempoolItem

/-- A check that ends by an exception, not by an answer. -/
def Raises {α : Type} (x : Check α) : Prop := ∃ e,x = .error (.raised e)

section Rules
variable {α β γ : Type}

theorem not_raises_ok (a : α) : ¬ Raises (.ok a : Check α) := by
  rintro ⟨e,h⟩
  cases h

theorem not_raises_invalid (e : Err) : ¬ Raises (.error (.invalid e) : Check α) := by
  rintro ⟨e,h⟩
  cases h

theorem not_raises_reject (c : Prop) [Decidable c] (e : Err) : ¬ Raises (reject c e) := by
  unfold reject
  split_ifs
  · exact not_raises_invalid e
  · exact not_raises_ok ()

theorem raises_raiseIf (c : Prop) [Decidable c] : Raises (raiseIf c) ↔ c := by
  unfold raiseIf
  split_ifs with h
  · exact iff_of_true ⟨_,rfl⟩ h
  · exact iff_of_false (not_raises_ok ()) h

theorem raises_index (o : Option α) : Raises (index o) ↔ o=none := by
  cases o with
  | none => exact iff_of_true ⟨_,rfl⟩ rfl
  | some a => exact iff_of_false (not_raises_ok a) (by simp)

theorem raises_lookup (o : Option α) : Raises (lookup o) ↔ o=none := by
  cases o with
  | none => exact iff_of_true ⟨_,rfl⟩ rfl
  | some a => exact iff_of_false (not_raises_ok a) (by simp)

theorem raises_uint (bits n : ℕ) : Raises (uint bits (n : ℤ)) ↔ 2^bits≤n := by
  unfold uint
  have hcast : ((n : ℤ)<2^bits) ↔ n<2^bits := by exact_mod_cast Iff.rfl
  split_ifs with h
  · refine iff_of_false (not_raises_ok _) ?_
    have hlt := hcast.mp h.2
    omega
  · refine iff_of_true ⟨_,rfl⟩ ?_
    by_contra hlt
    exact h ⟨Int.natCast_nonneg n,hcast.mpr (by omega)⟩

variable {x : Check α} {f : α → Check β}

theorem raises_bind : Raises (x >>= f) ↔ Raises x ∨ ∃ a,x = .ok a ∧ Raises (f a) := by
  unfold Raises
  simp only [check_bind_error,exists_or]
  constructor
  · rintro (h | ⟨e,a,ha,h⟩)
    · exact Or.inl h
    · exact Or.inr ⟨a,ha,e,h⟩
  · rintro (h | ⟨a,ha,e,h⟩)
    · exact Or.inl h
    · exact Or.inr ⟨e,a,ha,h⟩

theorem bind_not_invalid (hx : ∀ e,x ≠ .error (.invalid e))
    (hf : ∀ a,x = .ok a → ∀ e,f a ≠ .error (.invalid e)) (e : Err) : (x >>= f) ≠ .error (.invalid e) := by
  cases x with
  | error e' => exact fun h => hx e (congrArg Except.error (Except.error.inj h))
  | ok a => exact hf a rfl e

theorem not_raises_bind (hx : ¬ Raises x) (hf : ∀ a,x = .ok a → ¬ Raises (f a)) : ¬ Raises (x >>= f) := by
  rw [raises_bind]
  rintro (h | ⟨a,ha,h⟩)
  · exact hx h
  · exact hf a ha h

variable {l : List α}

theorem raises_mapM : Raises (l.mapM f) ↔
    ∃ pre a post,l=pre++a::post ∧ (∀ x∈pre,∃ b,f x = .ok b) ∧ Raises (f a) := by
  constructor
  · rintro ⟨e,h⟩
    obtain ⟨pre,a,post,hl,hpre,ha⟩ := mapM_eq_error.mp h
    exact ⟨pre,a,post,hl,hpre,e,ha⟩
  · rintro ⟨pre,a,post,hl,hpre,e,ha⟩
    exact ⟨e,mapM_eq_error.mpr ⟨pre,a,post,hl,hpre,ha⟩⟩

theorem not_raises_mapM (h : ∀ a∈l,¬ Raises (f a)) : ¬ Raises (l.mapM f) := by
  rw [raises_mapM]
  rintro ⟨pre,a,post,rfl,-,ha⟩
  exact h a (by simp) ha

theorem raises_mapM_iff (h : ∀ a∈l,∀ e,f a ≠ .error (.invalid e)) : Raises (l.mapM f) ↔ ∃ a∈l,Raises (f a) := by
  induction l with
  | nil => exact iff_of_false (not_raises_ok []) (by simp)
  | cons x l ih =>
    rw [List.mapM_cons,raises_bind,List.exists_mem_cons_iff,← ih fun a ha => h a (List.mem_cons_of_mem _ ha)]
    refine or_congr_right' fun hx => ?_
    constructor
    · rintro ⟨b,-,hb⟩
      rw [raises_bind] at hb
      obtain hb | ⟨_,_,hb⟩ := hb
      · exact hb
      · exact absurd hb (not_raises_ok _)
    · intro hl
      cases hfx : f x with
      | ok b => exact ⟨b,rfl,raises_bind.mpr (Or.inl hl)⟩
      | error e =>
        cases e with
        | invalid e => exact absurd hfx (h x List.mem_cons_self e)
        | raised e => exact absurd ⟨e,hfx⟩ hx

theorem mapM_not_invalid (h : ∀ a∈l,∀ e,f a ≠ .error (.invalid e)) : ∀ e,l.mapM f ≠ .error (.invalid e) := by
  intro e heq
  induction l with
  | nil => cases heq
  | cons a l ih =>
    rw [List.mapM_cons] at heq
    cases hfa : f a with
    | error e' =>
      rw [hfa] at heq
      exact h a List.mem_cons_self e (hfa.trans (congrArg Except.error (Except.error.inj heq)))
    | ok b =>
      rw [hfa] at heq
      cases hrest : l.mapM f with
      | ok m =>
        rw [hrest] at heq
        cases heq
      | error e' =>
        rw [hrest] at heq
        refine ih (fun x hx => h x (List.mem_cons_of_mem _ hx)) ?_
        rw [hrest]
        exact congrArg Except.error (Except.error.inj heq)

theorem not_raises_forM {f : α → Check PUnit} (h : ∀ a∈l,¬ Raises (f a)) : ¬ Raises (l.forM f) := by
  induction l with
  | nil => exact not_raises_ok _
  | cons a l ih =>
    exact not_raises_bind (h a List.mem_cons_self) fun _ _ => ih fun b hb => h b (List.mem_cons_of_mem _ hb)

theorem not_raises_foldlM {f : γ → α → Check γ} (h : ∀ s,∀ a∈l,¬ Raises (f s a)) (s : γ) :
    ¬ Raises (l.foldlM f s) := by
  induction l generalizing s with
  | nil => exact not_raises_ok s
  | cons a l ih =>
    rw [List.foldlM_cons]
    exact not_raises_bind (h s a List.mem_cons_self) fun t _ => ih (fun s b hb => h s b (List.mem_cons_of_mem _ hb)) t

theorem raises_ok (a : α) : Raises (.ok a : Check α) ↔ False := iff_false_intro (not_raises_ok a)

theorem raises_pure (a : α) : Raises (pure a : Check α) ↔ False := raises_ok a

theorem raises_raised (e : PyErr) : Raises (.error (.raised e) : Check α) ↔ True := iff_true_intro ⟨e,rfl⟩

theorem raises_map (f : α → β) (x : Check α) : Raises (f <$> x) ↔ Raises x := by
  cases x with
  | error e =>
    constructor
    · rintro ⟨e',h⟩
      exact ⟨e',congrArg Except.error (Except.error.inj h)⟩
    · rintro ⟨e',h⟩
      exact ⟨e',congrArg Except.error (Except.error.inj h)⟩
  | ok a => exact iff_of_false (not_raises_ok (f a)) (not_raises_ok a)

theorem raises_reject (p : Prop) [Decidable p] (e : Err) : Raises (reject p e) ↔ False :=
  iff_false_intro (not_raises_reject p e)

theorem raises_assertThat (p : Prop) [Decidable p] : Raises (assertThat p) ↔ ¬ p := by
  unfold assertThat
  split_ifs with h
  · exact iff_of_false (not_raises_ok ()) (not_not.mpr h)
  · exact iff_of_true ⟨_,rfl⟩ h

theorem raises_assertSome (o : Option α) : Raises (assertSome o) ↔ o=none := by
  cases o with
  | none => exact iff_of_true ⟨_,rfl⟩ rfl
  | some a => exact iff_of_false (not_raises_ok a) (by simp)

theorem raises_sized (bits : ℕ) (z : ℤ) : Raises (uint bits z) ↔ ¬ (0≤z ∧ z<2^bits) := by
  unfold uint
  split_ifs with h
  · exact iff_of_false (not_raises_ok _) (not_not.mpr h)
  · exact iff_of_true ⟨_,rfl⟩ h

theorem raises_sized_bind {bits : ℕ} {z : ℤ} {f : ℕ → Check β} :
    Raises (uint bits z >>= f) ↔ ¬ (0≤z ∧ z<2^bits) ∨ ((0≤z ∧ z<2^bits) ∧ Raises (f z.toNat)) := by
  rw [raises_bind,raises_sized]
  refine or_congr_right ?_
  unfold uint
  split_ifs with h
  · simp [h]
  · simp [h]

variable {p : Prop}

theorem raises_reject_bind [Decidable p] {e : Err} {f : Unit → Check β} :
    Raises (reject p e >>= f) ↔ ¬ p ∧ Raises (f ()) := by
  rw [raises_bind,or_iff_right (not_raises_reject p e)]
  constructor
  · rintro ⟨u,hp,h⟩
    exact ⟨reject_eq_ok.mp hp,h⟩
  · rintro ⟨hp,h⟩
    exact ⟨(),reject_eq_ok.mpr hp,h⟩

theorem raises_unit_bind {x : Check Unit} {f : Unit → Check α} :
    Raises (x >>= f) ↔ Raises x ∨ (x = .ok () ∧ Raises (f ())) := by
  rw [raises_bind]
  refine or_congr_right ?_
  constructor
  · rintro ⟨u,hx,h⟩
    exact ⟨hx,h⟩
  · rintro ⟨hx,h⟩
    exact ⟨(),hx,h⟩

theorem raises_ite [Decidable p] {y : Check α} :
    Raises (if p then x else y) ↔ (p ∧ Raises x) ∨ (¬ p ∧ Raises y) := by
  split_ifs with h <;> simp [h]

end Rules

theorem natOfBytes_bytesOfNat (n : ℕ) : natOfBytes (bytesOfNat n)=n := by
  have hdigits (l : List ℕ) (h : ∀ d∈l,d<256) :
      natOfBytes (l.reverse.map UInt8.ofNat)=Nat.ofDigits 256 l := by
    induction l with
    | nil => rfl
    | cons d l ih =>
      rw [List.reverse_cons,List.map_append,List.map_singleton,natOfBytes_concat,
        ih fun x hx => h x (List.mem_cons_of_mem _ hx),Nat.ofDigits_cons,UInt8.toNat_ofNat',Nat.mod_eq_of_lt
          (h d List.mem_cons_self)]
      omega
  unfold bytesOfNat
  rw [hdigits _ fun d hd => Nat.digits_lt_base (by omega) hd,Nat.ofDigits_digits]

theorem intFromBytes_intToBytes (n : ℕ) : intFromBytes (intToBytes (n : ℤ))=n := by
  have hn := natOfBytes_bytesOfNat n
  rw [← Int.ofNat_eq_natCast]
  unfold intToBytes
  dsimp only
  cases hb : bytesOfNat n with
  | nil =>
    rw [hb] at hn
    rw [← hn]
    rfl
  | cons x t =>
    rw [hb] at hn
    dsimp only
    split_ifs with hx
    · simp [intFromBytes,hx,hn]
    · have hzero : natOfBytes (0::x::t)=natOfBytes (x::t) := by simp [natOfBytes]
      simp [intFromBytes,hzero,hn]

/-- How many arguments a parsed condition has, and what is known of them. -/
def ConditionWithArgs.Shaped (cvp : ConditionWithArgs) : Prop :=
  match cvp.opcode with
  | .aggSigUnsafe | .aggSigMe => ∃ pubkey message,cvp.vars=[pubkey,message]
  | .createCoin => ∃ puzzleHash amount,∃ n : ℕ,cvp.vars=[puzzleHash,amount] ∧ intFromBytes amount=n ∧ n<2^64
  | .assertCoinAnnouncement | .assertPuzzleAnnouncement => ∃ h,cvp.vars=[h] ∧ h.length=32
  | .unknown => True
  | _ => ∃ v,cvp.vars=[v]

variable {args : SExp} {safeMode : Bool} {vars : List Bytes}

theorem parseCreateCoin_ok (h : parseCreateCoin args safeMode = .ok vars) :
    ∃ puzzleHash amount,∃ n : ℕ,vars=[puzzleHash,amount] ∧ intFromBytes amount=n ∧ n<2^64 := by
  unfold parseCreateCoin at h
  simp only [bind_ok,reject_eq_ok] at h
  obtain ⟨_,-,puzzleHash,-,_,-,_,-,_,-,amountInt,-,_,hmax,_,hneg,hvars⟩ := h
  obtain ⟨n,rfl⟩ := Int.eq_ofNat_of_zero_le (show 0≤amountInt by omega)
  exact ⟨puzzleHash,_,n,(Except.ok.inj hvars).symm,intFromBytes_intToBytes n,by omega⟩

variable {e : Err}

theorem parseSeconds_ok (h : parseSeconds args safeMode e = .ok (some vars)) : ∃ v,vars=[v] := by
  unfold parseSeconds at h
  obtain ⟨_,-,h⟩ := bind_ok.mp h
  obtain ⟨z,-,h⟩ := bind_ok.mp h
  split_ifs at h
  · cases h
  · obtain ⟨_,-,h⟩ := bind_ok.mp h
    exact ⟨_,(Option.some.inj (Except.ok.inj h)).symm⟩

theorem parseHeight_ok (h : parseHeight args safeMode e = .ok (some vars)) : ∃ v,vars=[v] := by
  unfold parseHeight at h
  obtain ⟨_,-,h⟩ := bind_ok.mp h
  obtain ⟨z,-,h⟩ := bind_ok.mp h
  split_ifs at h
  · cases h
  · obtain ⟨_,-,h⟩ := bind_ok.mp h
    exact ⟨_,(Option.some.inj (Except.ok.inj h)).symm⟩

theorem parseFee_ok (h : parseFee args safeMode = .ok vars) : ∃ v,vars=[v] := by
  unfold parseFee at h
  simp only [bind_ok,reject_eq_ok] at h
  obtain ⟨_,-,_,-,_,-,h⟩ := h
  exact ⟨_,(Except.ok.inj h).symm⟩

theorem parseHash_ok (h : parseHash args e = .ok vars) : ∃ v,vars=[v] ∧ v.length=32 := by
  unfold parseHash at h
  simp only [bind_ok,reject_eq_ok] at h
  obtain ⟨_,-,v,-,_,hlen,h⟩ := h
  exact ⟨v,(Except.ok.inj h).symm,not_not.mp hlen⟩

theorem parseAmount_ok (h : parseAmount args safeMode = .ok vars) : ∃ v,vars=[v] := by
  unfold parseAmount at h
  simp only [bind_ok,reject_eq_ok] at h
  obtain ⟨_,-,_,-,_,-,_,-,h⟩ := h
  exact ⟨_,(Except.ok.inj h).symm⟩

variable {cost : ℕ}

theorem parseConditionArgs_shaped {op : ConditionOpcode} (h : parseConditionArgs args op safeMode = .ok (cost,some vars)) :
    (⟨op,vars⟩ : ConditionWithArgs).Shaped := by
  unfold parseConditionArgs at h
  have hlast {x : Check (Option (List Bytes))} {n : ℕ}
      (hx : (x >>= fun v => pure (n,v)) = .ok (cost,some vars)) : x = .ok (some vars) := by
    obtain ⟨v,hv,hpair⟩ := bind_ok.mp hx
    rw [hv,(Prod.mk.inj (Except.ok.inj hpair)).2]
  have hkeys (h : parseAggsig args = .ok vars) : ∃ pubkey message,vars=[pubkey,message] := by
    obtain ⟨pubkey,message,hvars,-⟩ := parseAggsig_ok h
    exact ⟨pubkey,message,hvars⟩
  have hmessage (h : parseAnnouncement args = .ok vars) : ∃ message,vars=[message] := by
    obtain ⟨message,hvars,-⟩ := parseAnnouncement_ok h
    exact ⟨message,hvars⟩
  have hhash {e : Err} (h : parseHash args e = .ok vars) : ∃ v,vars=[v] := by
    obtain ⟨v,hvars,-⟩ := parseHash_ok h
    exact ⟨v,hvars⟩
  unfold ConditionWithArgs.Shaped
  cases op with
  | aggSigUnsafe => exact hkeys (map_some_ok (hlast h))
  | aggSigMe => exact hkeys (map_some_ok (hlast h))
  | createCoin => exact parseCreateCoin_ok (map_some_ok (hlast h))
  | reserveFee => exact parseFee_ok (map_some_ok (hlast h))
  | createCoinAnnouncement => exact hmessage (map_some_ok (hlast h))
  | assertCoinAnnouncement => exact parseHash_ok (map_some_ok (hlast h))
  | createPuzzleAnnouncement => exact hmessage (map_some_ok (hlast h))
  | assertPuzzleAnnouncement => exact parseHash_ok (map_some_ok (hlast h))
  | assertMyCoinId => exact hhash (map_some_ok (hlast h))
  | assertMyParentId => exact hhash (map_some_ok (hlast h))
  | assertMyPuzzlehash => exact hhash (map_some_ok (hlast h))
  | assertMyAmount => exact parseAmount_ok (map_some_ok (hlast h))
  | assertSecondsRelative => exact parseSeconds_ok (hlast h)
  | assertSecondsAbsolute => exact parseSeconds_ok (hlast h)
  | assertHeightRelative => exact parseHeight_ok (hlast h)
  | assertHeightAbsolute => exact parseHeight_ok (hlast h)
  | unknown => trivial

variable {cond : SExp} {cvp : ConditionWithArgs}

theorem parseCondition_cases (h : parseCondition cond safeMode = .ok (cost,some cvp)) : cvp.opcode = .unknown ∨
      ∃ args n,parseConditionArgs args cvp.opcode safeMode = .ok (n,some cvp.vars) := by
  have hunknown (h : parseCondition.unknownCondition cond safeMode = .ok (cost,some cvp)) :
      cvp.opcode = .unknown := by
    unfold parseCondition.unknownCondition at h
    simp only [bind_ok] at h
    obtain ⟨_,-,_,-,hpair⟩ := h
    rw [← Option.some.inj (Prod.mk.inj (Except.ok.inj hpair)).2]
  unfold parseCondition at h
  obtain ⟨first,-,h⟩ := bind_ok.mp h
  cases first with
  | pair a b => exact Or.inl (hunknown h)
  | atom blob =>
    dsimp only at h
    cases hop : ConditionOpcode.ofBytes blob with
    | none =>
      rw [hop] at h
      exact Or.inl (hunknown h)
    | some op =>
      rw [hop] at h
      simp only [bind_ok] at h
      obtain ⟨args,-,p,hargs,hpair⟩ := h
      obtain ⟨hcost,hvars⟩ := Prod.mk.inj (Except.ok.inj hpair)
      obtain ⟨vars,hsome,rfl⟩ := Option.map_eq_some_iff.mp hvars
      have hp : p=(p.1,some vars) := Prod.ext rfl hsome
      rw [hp] at hargs
      exact Or.inr ⟨args,p.1,hargs⟩

theorem parseCondition_shaped (h : parseCondition cond safeMode = .ok (cost,some cvp)) : cvp.Shaped := by
  obtain hop | ⟨args,n,hargs⟩ := parseCondition_cases h
  · unfold ConditionWithArgs.Shaped
    rw [hop]
    trivial
  · exact parseConditionArgs_shaped hargs

section Conditions
variable {E : Env} {npcList : List NPC} {npc : NPC}

theorem additionsForNpc_not_raises (h : ∀ npc∈npcList,npc.All ConditionWithArgs.Shaped) :
    ¬ Raises (additionsForNpc npcList) := by
  refine not_raises_bind (not_raises_mapM fun npc hnpc => not_raises_mapM fun cvp hcvp => ?_) fun _ _ =>
    not_raises_ok _
  obtain ⟨hop,hshaped⟩ := (h npc hnpc).conditionsFor _ cvp hcvp
  unfold ConditionWithArgs.Shaped at hshaped
  rw [hop] at hshaped
  obtain ⟨puzzleHash,amount,n,hvars,hn,hlt⟩ := hshaped
  rw [hvars]
  refine not_raises_bind (not_raises_ok puzzleHash) fun _ _ => not_raises_bind (not_raises_ok amount) fun a ha => ?_
  rw [← Except.ok.inj ha,hn]
  refine not_raises_bind ?_ fun _ _ => not_raises_ok _
  rw [raises_uint]
  omega

variable {op : ConditionOpcode}

theorem announcementNames_not_raises
    (hop : op = .createCoinAnnouncement ∨ op = .createPuzzleAnnouncement) (origin : NPC → Bytes32)
    (h : ∀ npc∈npcList,npc.Parsed) : ¬ Raises (announcementNames E op origin npcList) := by
  refine not_raises_bind (not_raises_mapM fun npc hnpc => not_raises_mapM fun cvp hcvp => ?_) fun _ _ =>
    not_raises_ok _
  obtain ⟨message,hvars,hlen⟩ := (h npc hnpc).announcements hop cvp hcvp
  rw [hvars]
  refine not_raises_bind (not_raises_ok message) fun m hm => not_raises_bind ?_ fun _ _ => not_raises_ok _
  rw [← Except.ok.inj hm,assertThat,if_pos hlen]
  exact not_raises_ok ()

variable {cvp : ConditionWithArgs}

theorem mempoolCheckCondition_not_raises (unspent : CoinRecord) (coins puzzles : List Bytes32)
    (height timestamp : ℕ) (h : cvp.Shaped) :
    ¬ Raises (mempoolCheckCondition E unspent coins puzzles height timestamp cvp) := by
  have hone (hv : ∃ v,cvp.vars=[v]) (P : Bytes → Prop) [DecidablePred P] (e : Err) : ¬ Raises (do
      let h ← index cvp.vars[0]?
      reject (P h) e) := by
    obtain ⟨v,hv⟩ := hv
    rw [hv]
    exact not_raises_bind (not_raises_ok v) fun _ _ => not_raises_reject _ _
  have hannounced (hv : ∃ v,cvp.vars=[v] ∧ v.length=32) (names : List Bytes32) :
      ¬ Raises (mempoolAssertAnnouncement cvp names) := by
    obtain ⟨v,hv,hlen⟩ := hv
    unfold mempoolAssertAnnouncement
    rw [hv]
    refine not_raises_bind (not_raises_ok v) fun a ha => not_raises_bind ?_ fun _ _ => not_raises_reject _ _
    rw [raises_raiseIf,← Except.ok.inj ha]
    exact fun hne => hne hlen
  unfold mempoolCheckCondition
  unfold ConditionWithArgs.Shaped at h
  cases hop : cvp.opcode <;> rw [hop] at h
  case assertMyCoinId => exact hone h _ _
  case assertCoinAnnouncement => exact hannounced h _
  case assertPuzzleAnnouncement => exact hannounced h _
  case assertHeightAbsolute => exact hone h _ _
  case assertHeightRelative => exact hone h _ _
  case assertSecondsAbsolute => exact hone h _ _
  case assertSecondsRelative => exact hone h _ _
  case assertMyParentId => exact hone h _ _
  case assertMyPuzzlehash => exact hone h _ _
  case assertMyAmount => exact hone h _ _
  all_goals exact not_raises_ok ()

theorem mempoolCheckConditionsDict_not_raises (unspent : CoinRecord) (coins puzzles : List Bytes32)
    (height timestamp : ℕ) (h : npc.All ConditionWithArgs.Shaped) :
    ¬ Raises (mempoolCheckConditionsDict E unspent coins puzzles npc.conditionDict height timestamp) := by
  refine not_raises_forM fun l hl => not_raises_forM fun cvp hcvp => ?_
  obtain ⟨e,he,rfl⟩ := List.mem_map.mp hl
  have hget := (npc.conditionDict.mem_entries _ _).mp he
  have hmem : cvp∈npc.conditionsFor e.1 := by
    unfold NPC.conditionsFor
    rw [hget]
    exact hcvp
  exact mempoolCheckCondition_not_raises unspent coins puzzles height timestamp (h.conditionsFor _ cvp hmem).2

/-- The signature conditions of a spend have a key that is no point of the curve. -/
def BadKey (E : Env) (npc : NPC) : Prop :=
  ∃ op,(op=ConditionOpcode.aggSigUnsafe ∨ op = .aggSigMe) ∧ ∃ cvp∈npc.conditionsFor op,
    ∃ pk,cvp.vars[0]?=some pk ∧ E.g1FromBytes pk=none

theorem pkmPair_raises {pubkey message : Bytes} (hvars : cvp.vars=[pubkey,message])
    (hkey : pubkey.length=48 ∧ message.length≤1024) (suffix : Bytes) :
    (∀ e,pkmPair E suffix cvp ≠ .error (.invalid e)) ∧
      (Raises (pkmPair E suffix cvp) ↔ ∃ pk,cvp.vars[0]?=some pk ∧ E.g1FromBytes pk=none) := by
  cases hg : E.g1FromBytes pubkey with
  | some key =>
    have heq : pkmPair E suffix cvp = .ok (key,message++suffix) := by
      unfold pkmPair
      rw [hvars]
      simp [assertThat,index,hkey,hg,bind,Except.bind]
      rfl
    rw [heq,hvars]
    refine ⟨fun e h => (by cases h),iff_of_false (not_raises_ok _) ?_⟩
    rintro ⟨pk,hpk,hnone⟩
    obtain rfl : pubkey=pk := by simpa using hpk
    rw [hg] at hnone
    cases hnone
  | none =>
    have heq : pkmPair E suffix cvp = .error (.raised .value) := by
      unfold pkmPair
      rw [hvars]
      simp [assertThat,index,hkey,hg,bind,Except.bind]
    rw [heq,hvars]
    exact ⟨fun e h => (by cases h),iff_of_true ⟨_,rfl⟩ ⟨pubkey,by simp,hg⟩⟩

theorem conditionsFor_pkmPair (h : npc.Parsed) (hop : op = .aggSigUnsafe ∨ op = .aggSigMe) (suffix : Bytes) :
    ∀ cvp∈npc.conditionsFor op,(∀ e,pkmPair E suffix cvp ≠ .error (.invalid e)) ∧
      (Raises (pkmPair E suffix cvp) ↔ ∃ pk,cvp.vars[0]?=some pk ∧ E.g1FromBytes pk=none) := by
  intro cvp hcvp
  obtain ⟨hopcode,hparsed⟩ := h.conditionsFor op cvp hcvp
  obtain ⟨pubkey,message,hvars,hkey⟩ := hparsed.aggSig hopcode hop
  exact pkmPair_raises hvars hkey suffix

theorem pkmPairs_not_invalid (h : npc.Parsed) (data : Bytes) (e : Err) :
    pkmPairsForConditionsDict E npc data ≠ .error (.invalid e) := by
  have hmany {op : ConditionOpcode} (hop : op = .aggSigUnsafe ∨ op = .aggSigMe) (suffix : Bytes) :=
    mapM_not_invalid fun cvp hcvp => (conditionsFor_pkmPair (E := E) h hop suffix cvp hcvp).1
  refine bind_not_invalid (hmany (Or.inl rfl) _) (fun _ _ => bind_not_invalid (hmany (Or.inr rfl) _) fun _ _ e h => ?_) e
  cases h

theorem pkmPairs_raises (h : npc.Parsed) (data : Bytes) :
    Raises (pkmPairsForConditionsDict E npc data) ↔ BadKey E npc := by
  have hall {op : ConditionOpcode} (hop : op = .aggSigUnsafe ∨ op = .aggSigMe) (suffix : Bytes) :
      Raises ((npc.conditionsFor op).mapM (pkmPair E suffix)) ↔ ∃ cvp∈npc.conditionsFor op,
        ∃ pk,cvp.vars[0]?=some pk ∧ E.g1FromBytes pk=none := by
    have hpair := conditionsFor_pkmPair (E := E) h hop suffix
    rw [raises_mapM_iff fun cvp hcvp => (hpair cvp hcvp).1]
    exact ⟨fun ⟨cvp,hcvp,hr⟩ => ⟨cvp,hcvp,(hpair cvp hcvp).2.mp hr⟩,
      fun ⟨cvp,hcvp,hr⟩ => ⟨cvp,hcvp,(hpair cvp hcvp).2.mpr hr⟩⟩
  unfold pkmPairsForConditionsDict
  rw [raises_bind,hall (Or.inl rfl)]
  constructor
  · rintro (hbad | ⟨unsafes,-,hbad⟩)
    · exact ⟨_,Or.inl rfl,hbad⟩
    · rw [raises_bind,hall (Or.inr rfl)] at hbad
      obtain hbad | ⟨_,_,hbad⟩ := hbad
      · exact ⟨_,Or.inr rfl,hbad⟩
      · exact absurd hbad (not_raises_ok _)
  · rintro ⟨op,rfl | rfl,hbad⟩
    · exact Or.inl hbad
    · by_cases hfirst : Raises ((npc.conditionsFor .aggSigUnsafe).mapM (pkmPair E []))
      · exact Or.inl ((hall (Or.inl rfl) _).mp hfirst)
      · cases hx : (npc.conditionsFor .aggSigUnsafe).mapM (pkmPair E []) with
        | ok unsafes => exact Or.inr ⟨unsafes,rfl,raises_bind.mpr (Or.inl ((hall (Or.inr rfl) _).mpr hbad))⟩
        | error e =>
          cases e with
          | raised e => exact absurd ⟨e,hx⟩ hfirst
          | invalid e => exact absurd hx (mapM_not_invalid (fun cvp hcvp => (conditionsFor_pkmPair h (Or.inl rfl) _ cvp hcvp).1) e)

end Conditions

/-- Amounts within the bound for one coin, whose sum does not fit into 64 bits. -/
def SumOverflows (max : ℕ) (coins : List Coin) : Prop :=
  ∃ pre coin post,coins=pre++coin::post ∧ (∀ c∈pre++[coin],c.amount ≤ max) ∧
    2^64≤((pre++[coin]).map (·.amount)).sum

/-- A coin of the bundle itself would be confirmed at a height or a time that does not fit. -/
def TooLate (E : Env) (peak : BlockRecord) (additions : List Coin) (name : Bytes32) : Prop :=
  (∃ coin∈additions,E.coinName coin=name) ∧
    (2^32≤peak.height+1 ∨ ∃ timestamp,peak.timestamp=some timestamp ∧ 2^64≤timestamp+1)

namespace MempoolManager
variable {E : Env} {npcList : List NPC}

theorem addUp_raises (max : ℕ) (coins : List Coin) (n : ℕ) :
    Raises (coins.foldlM (fun amount (coin : Coin) => do
      reject (coin.amount > max) .coinAmountExceedsMaximum
      uint64 (amount+coin.amount : ℕ)) n) ↔
    ∃ pre coin post,coins=pre++coin::post ∧ (∀ c∈pre++[coin],c.amount ≤ max) ∧
      2^64≤n+((pre++[coin]).map (·.amount)).sum := by
  induction coins generalizing n with
  | nil =>
    refine iff_of_false (not_raises_ok n) ?_
    rintro ⟨pre,coin,post,h,-⟩
    simp at h
  | cons c coins ih =>
    rw [List.foldlM_cons,raises_bind]
    have hstep : Raises (do
        reject (c.amount > max) .coinAmountExceedsMaximum
        uint64 (n+c.amount : ℕ)) ↔ c.amount ≤ max ∧ 2^64≤n+c.amount := by
      rw [raises_bind]
      constructor
      · rintro (h | ⟨u,hu,h⟩)
        · exact absurd h (not_raises_reject _ _)
        · rw [reject_eq_ok] at hu
          exact ⟨by omega,(raises_uint _ _).mp h⟩
      · rintro ⟨hmax,h⟩
        exact Or.inr ⟨(),reject_eq_ok.mpr (by omega),(raises_uint _ _).mpr h⟩
    rw [hstep]
    constructor
    · rintro (⟨hmax,h⟩ | ⟨m,hm,h⟩)
      · exact ⟨[],c,coins,rfl,by simpa using hmax,by simpa using h⟩
      · obtain ⟨u,hu,hm⟩ := bind_ok.mp hm
        rw [reject_eq_ok] at hu
        obtain ⟨pre,coin,post,rfl,hbound,hsum⟩ := (ih m).mp h
        refine ⟨c::pre,coin,post,rfl,?_,?_⟩
        · intro x hx
          obtain rfl | hx := List.mem_cons.mp hx
          · omega
          · exact hbound x hx
        · have hmn : m=n+c.amount := by
            unfold uint64 uint at hm
            split_ifs at hm
            rw [← Except.ok.inj hm]
            exact Int.toNat_natCast _
          rw [hmn] at hsum
          simp only [List.cons_append,List.map_cons,List.sum_cons] at hsum ⊢
          omega
    · rintro ⟨pre,coin,post,heq,hbound,hsum⟩
      cases pre with
      | nil =>
        obtain ⟨rfl,-⟩ := List.cons.inj heq
        exact Or.inl ⟨hbound c (by simp),by simpa using hsum⟩
      | cons y pre =>
        obtain ⟨rfl,rfl⟩ := List.cons.inj heq
        have hmax := hbound c (by simp)
        by_cases hover : 2^64≤n+c.amount
        · exact Or.inl ⟨hmax,hover⟩
        · refine Or.inr ⟨n+c.amount,?_,(ih _).mpr ⟨pre,coin,post,rfl,fun x hx => ?_,?_⟩⟩
          · refine bind_ok.mpr ⟨(),reject_eq_ok.mpr (by omega),?_⟩
            unfold uint64 uint
            rw [if_pos ⟨Int.natCast_nonneg _,by exact_mod_cast Nat.not_le.mp hover⟩,Int.toNat_natCast]
          · exact hbound x (List.mem_cons_of_mem _ hx)
          · simp only [List.cons_append,List.map_cons,List.sum_cons] at hsum
            omega

theorem checkAdditions_raises (additions : List Coin) :
    Raises (checkAdditions E additions) ↔ SumOverflows E.maxCoinAmount additions := by
  unfold checkAdditions
  rw [raises_bind]
  constructor
  · rintro (h | ⟨amount,-,h⟩)
    · obtain ⟨pre,coin,post,heq,hbound,hsum⟩ := (addUp_raises _ _ _).mp h
      exact ⟨pre,coin,post,heq,hbound,by omega⟩
    · exact absurd h (not_raises_bind (not_raises_reject _ _) fun _ _ => not_raises_ok _)
  · rintro ⟨pre,coin,post,heq,hbound,hsum⟩
    exact Or.inl ((addUp_raises _ _ _).mpr ⟨pre,coin,post,heq,hbound,by omega⟩)

theorem uint_eq_ok {bits n m : ℕ} : uint bits (n : ℤ) = .ok m ↔ n<2^bits ∧ m=n := by
  unfold uint
  have hcast : ((n : ℤ)<2^bits) ↔ n<2^bits := by exact_mod_cast Iff.rfl
  split_ifs with h
  · rw [Except.ok.injEq,Int.toNat_natCast]
    exact ⟨fun heq => ⟨hcast.mp h.2,heq.symm⟩,fun heq => heq.2.symm⟩
  · refine iff_of_false (by simp) fun heq => h ⟨Int.natCast_nonneg n,hcast.mpr heq.1⟩

variable {peak : BlockRecord}

theorem removalRecord_raises (hpeak : peak.timestamp.isSome) (getCoinRecord : CoinReader)
    (additions : List Coin) (name : Bytes32) :
    Raises (removalRecord E getCoinRecord peak additions name) ↔ TooLate E peak additions name := by
  obtain ⟨timestamp,ht⟩ := Option.isSome_iff_exists.mp hpeak
  have hfind : (additions.reverse.find? fun c => decide (E.coinName c=name)).isSome ↔
      ∃ coin∈additions,E.coinName coin=name := by simp
  unfold removalRecord TooLate
  rw [← hfind]
  cases hcoin : additions.reverse.find? fun c => decide (E.coinName c=name) with
  | none =>
    refine iff_of_false ?_ (by simp)
    cases getCoinRecord name with
    | none => exact not_raises_invalid _
    | some record => exact not_raises_ok _
  | some coin =>
    dsimp only
    have hheight : ((peak.height : ℤ)+1)=((peak.height+1 : ℕ) : ℤ) := (Nat.cast_succ _).symm
    have htime : ((timestamp : ℤ)+1)=((timestamp+1 : ℕ) : ℤ) := (Nat.cast_succ _).symm
    have hlast (h t : ℕ) : ¬ Raises (pure ⟨coin,h,0,false,false,t⟩ : Check CoinRecord) := not_raises_ok _
    have hbind {f : ℕ → Check CoinRecord} : (assertSome (some timestamp) >>= f)=f timestamp := rfl
    rw [ht,hbind,hheight,htime,raises_bind,raises_uint]
    constructor
    · rintro (h | ⟨h,-,hr⟩)
      · exact ⟨rfl,Or.inl h⟩
      · rw [raises_bind,raises_uint] at hr
        obtain hr | ⟨t,-,hr⟩ := hr
        · exact ⟨rfl,Or.inr ⟨timestamp,rfl,hr⟩⟩
        · exact absurd hr (hlast _ _)
    · rintro ⟨-,h | ⟨t,heq,h⟩⟩
      · exact Or.inl h
      · obtain rfl := Option.some.inj heq
        by_cases hheight : 2^32≤peak.height+1
        · exact Or.inl hheight
        · exact Or.inr ⟨_,uint_eq_ok.mpr ⟨by omega,rfl⟩,raises_bind.mpr (Or.inl ((raises_uint _ _).mpr h))⟩

/-- The inputs up to one that is too late, or with which the sum of the amounts does not fit. -/
def InputsOverflow (E : Env) (getCoinRecord : CoinReader) (peak : BlockRecord) (additions : List Coin)
    (names : List Bytes32) : Prop :=
  ∃ pre name post rs,names=pre++name::post ∧
    List.Forall₂ (fun n r => removalRecord E getCoinRecord peak additions n = .ok r) pre rs ∧
    (TooLate E peak additions name ∨ ∃ r,removalRecord E getCoinRecord peak additions name = .ok r ∧
      2^64≤((rs++[r]).map (·.coin.amount)).sum)

theorem collect_raises (hpeak : peak.timestamp.isSome) (getCoinRecord : CoinReader)
    (additions : List Coin) (names : List Bytes32) (p : Dict Bytes32 CoinRecord × ℕ) :
    Raises (names.foldlM (fun (p : Dict Bytes32 CoinRecord × ℕ) name => do
      let record ← removalRecord E getCoinRecord peak additions name
      let amount ← uint64 (p.2+record.coin.amount : ℕ)
      return (p.1.set name record,amount)) p) ↔
    ∃ pre name post rs,names=pre++name::post ∧
      List.Forall₂ (fun n r => removalRecord E getCoinRecord peak additions n = .ok r) pre rs ∧
      (TooLate E peak additions name ∨ ∃ r,removalRecord E getCoinRecord peak additions name = .ok r ∧
        2^64≤p.2+((rs++[r]).map (·.coin.amount)).sum) := by
  induction names generalizing p with
  | nil =>
    refine iff_of_false (not_raises_ok p) ?_
    rintro ⟨pre,name,post,rs,h,-⟩
    simp at h
  | cons name names ih =>
    rw [List.foldlM_cons,raises_bind]
    have hstep : Raises (do
        let record ← removalRecord E getCoinRecord peak additions name
        let amount ← uint64 (p.2+record.coin.amount : ℕ)
        return (p.1.set name record,amount)) ↔ TooLate E peak additions name ∨
          ∃ r,removalRecord E getCoinRecord peak additions name = .ok r ∧ 2^64≤p.2+r.coin.amount := by
      rw [raises_bind,removalRecord_raises hpeak]
      refine or_congr_right (exists_congr fun r => and_congr_right fun _ => ?_)
      rw [raises_bind,raises_uint]
      exact ⟨fun h => h.resolve_right fun ⟨_,_,hr⟩ => not_raises_ok _ hr,Or.inl⟩
    rw [hstep]
    constructor
    · rintro ((hlate | ⟨r,hr,hsum⟩) | ⟨q,hq,h⟩)
      · exact ⟨[],name,names,[],rfl,.nil,Or.inl hlate⟩
      · exact ⟨[],name,names,[],rfl,.nil,Or.inr ⟨r,hr,by simpa using hsum⟩⟩
      · obtain ⟨r,hr,hq⟩ := bind_ok.mp hq
        obtain ⟨amount,hamount,hq⟩ := bind_ok.mp hq
        obtain ⟨-,rfl⟩ := uint_eq_ok.mp hamount
        obtain ⟨pre,n,post,rs,rfl,hrs,hend⟩ := (ih q).mp h
        refine ⟨name::pre,n,post,r::rs,rfl,.cons hr hrs,hend.imp id fun ⟨r',hr',hsum⟩ => ⟨r',hr',?_⟩⟩
        rw [← Except.ok.inj hq] at hsum
        simp only [List.cons_append,List.map_cons,List.sum_cons] at hsum ⊢
        omega
    · rintro ⟨pre,n,post,rs,heq,hrs,hend⟩
      cases hrs with
      | nil =>
        obtain ⟨rfl,-⟩ := List.cons.inj heq
        exact Or.inl (hend.imp id fun ⟨r,hr,hsum⟩ => ⟨r,hr,by simpa using hsum⟩)
      | @cons x r pre rs hr hrs =>
        obtain ⟨rfl,rfl⟩ := List.cons.inj heq
        by_cases hover : 2^64≤p.2+r.coin.amount
        · exact Or.inl (Or.inr ⟨r,hr,hover⟩)
        · refine Or.inr ⟨(p.1.set name r,p.2+r.coin.amount),?_,(ih _).mpr ⟨pre,n,post,rs,rfl,hrs,?_⟩⟩
          · exact bind_ok.mpr ⟨r,hr,bind_ok.mpr ⟨_,uint_eq_ok.mpr ⟨by omega,rfl⟩,rfl⟩⟩
          · refine hend.imp id fun ⟨r',hr',hsum⟩ => ⟨r',hr',?_⟩
            simp only [List.cons_append,List.map_cons,List.sum_cons] at hsum
            omega

theorem removalRecords_raises (hpeak : peak.timestamp.isSome) (getCoinRecord : CoinReader)
    (additions : List Coin) (names : List Bytes32) :
    Raises (removalRecords E getCoinRecord peak additions names) ↔
      InputsOverflow E getCoinRecord peak additions names := by
  have h := collect_raises (E := E) hpeak getCoinRecord additions names (Dict.empty,0)
  simp only [Nat.zero_add] at h
  exact h

theorem removalRecords_lt {getCoinRecord : CoinReader} {additions : List Coin}
    {names : List Bytes32} {p : Dict Bytes32 CoinRecord × ℕ}
    (h : removalRecords E getCoinRecord peak additions names = .ok p) : p.2<2^64 := by
  unfold removalRecords at h
  induction names using List.reverseRecOn generalizing p with
  | nil =>
    rw [← Except.ok.inj h]
    decide
  | append_singleton names name ih =>
    rw [List.foldlM_append] at h
    obtain ⟨q,-,h⟩ := bind_ok.mp h
    obtain ⟨p',h,hp⟩ := bind_ok.mp h
    obtain ⟨r,-,h⟩ := bind_ok.mp h
    obtain ⟨amount,hamount,h⟩ := bind_ok.mp h
    have hpp : p'=p := Except.ok.inj hp
    rw [← hpp,← Except.ok.inj h]
    obtain ⟨hlt,rfl⟩ := uint_eq_ok.mp hamount
    exact hlt

theorem checkFees_not_raises (h : ∀ npc∈npcList,npc.All ConditionWithArgs.Shaped) {removed : ℕ}
    (hremoved : removed<2^64) (added : ℕ) : ¬ Raises (checkFees npcList removed added) := by
  unfold checkFees
  refine not_raises_bind (not_raises_reject _ _) fun _ hu => ?_
  rw [reject_eq_ok] at hu
  have hcast : ((removed : ℤ)-added)=((removed-added : ℕ) : ℤ) := by omega
  refine not_raises_bind ?_ fun _ _ => not_raises_bind (not_raises_foldlM (fun sum cvp hcvp => ?_) 0) fun _ _ =>
    not_raises_bind (not_raises_reject _ _) fun _ _ => not_raises_ok _
  · rw [hcast,raises_uint]
    omega
  · obtain ⟨npc,hnpc,hin⟩ := List.mem_flatMap.mp hcvp
    obtain ⟨hop,hshaped⟩ := (h npc hnpc).conditionsFor _ cvp hin
    unfold ConditionWithArgs.Shaped at hshaped
    rw [hop] at hshaped
    obtain ⟨v,hv⟩ := hshaped
    rw [hv]
    exact not_raises_bind (not_raises_ok v) fun _ _ => not_raises_bind (not_raises_reject _ _) fun _ _ =>
      not_raises_ok _

end MempoolManager
end RoseChain
