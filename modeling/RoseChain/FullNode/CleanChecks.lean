import RoseChain.FullNode.MempoolManager
import RoseChain.FullNode.ParsedConditions

namespace RoseChain
open Lib

/-- Neither a `KeyError` nor an `AssertionError`, nor a loop without end. -/
def Fail.Clean (e : Fail) : Prop := e ≠ .raised .key ∧ e ≠ .raised .assertion ∧ e ≠ .raised .diverged

/-- Where the check stops, it stops cleanly. -/
def CleanCheck {α : Type} (x : Check α) : Prop := ∀ e,x = .error e → e.Clean

section Rules
variable {α β γ : Type}

theorem clean_ok (a : α) : CleanCheck (.ok a) := by
  intro e h
  cases h

theorem clean_invalid (e : Err) : CleanCheck (.error (.invalid e) : Check α) := by
  intro f h
  rw [← Except.error.inj h]
  simp [Fail.Clean]

theorem clean_raised {e : PyErr} (he : e ≠ .key ∧ e ≠ .assertion ∧ e ≠ .diverged) :
    CleanCheck (.error (.raised e) : Check α) := by
  intro f h
  rw [← Except.error.inj h]
  simpa [Fail.Clean] using he

theorem clean_reject (c : Prop) [Decidable c] (e : Err) : CleanCheck (reject c e) := by
  unfold reject
  split_ifs
  · exact clean_invalid e
  · exact clean_ok ()

theorem clean_raiseIf (c : Prop) [Decidable c] : CleanCheck (raiseIf c) := by
  unfold raiseIf
  split_ifs
  · exact clean_raised (by decide)
  · exact clean_ok ()

theorem clean_index (o : Option α) : CleanCheck (index o) := by
  cases o with
  | none => exact clean_raised (by decide)
  | some a => exact clean_ok a

theorem clean_uint (bits : ℕ) (z : ℤ) : CleanCheck (uint bits z) := by
  unfold uint
  split_ifs
  · exact clean_ok _
  · exact clean_raised (by decide)

theorem clean_assertThat {c : Prop} [Decidable c] (h : c) : CleanCheck (assertThat c) := by
  unfold assertThat
  rw [if_pos h]
  exact clean_ok ()

variable {o : Option α}

theorem clean_assertSome (h : o.isSome) : CleanCheck (assertSome o) := by
  obtain ⟨a,rfl⟩ := Option.isSome_iff_exists.mp h
  exact clean_ok a

theorem clean_lookup (h : ∃ a,o=some a) : CleanCheck (lookup o) := by
  obtain ⟨a,rfl⟩ := h
  exact clean_ok a

variable {f : α → Check β}

theorem CleanCheck.bind {x : Check α} (hx : CleanCheck x)
    (hf : ∀ a,x = .ok a → CleanCheck (f a)) : CleanCheck (x >>= f) := by
  cases x with
  | error e =>
    intro e' h
    exact hx e' (congrArg Except.error (Except.error.inj h))
  | ok a => exact hf a rfl

variable {l : List α}

theorem clean_mapM (h : ∀ a∈l,CleanCheck (f a)) : CleanCheck (l.mapM f) := by
  induction l with
  | nil => exact clean_ok []
  | cons a l ih =>
    rw [List.mapM_cons]
    have hrest := ih fun b hb => h b (List.mem_cons_of_mem _ hb)
    exact (h a List.mem_cons_self).bind fun _ _ => hrest.bind fun _ _ => clean_ok _

theorem clean_forM {f : α → Check PUnit} (h : ∀ a∈l,CleanCheck (f a)) : CleanCheck (l.forM f) := by
  induction l with
  | nil => exact clean_ok _
  | cons a l ih =>
    have hrest := ih fun b hb => h b (List.mem_cons_of_mem _ hb)
    exact (h a List.mem_cons_self).bind fun _ _ => hrest

theorem clean_foldlM {f : γ → α → Check γ} (h : ∀ s,∀ a∈l,CleanCheck (f s a)) (s : γ) :
    CleanCheck (l.foldlM f s) := by
  induction l generalizing s with
  | nil => exact clean_ok s
  | cons a l ih =>
    rw [List.foldlM_cons]
    exact (h s a List.mem_cons_self).bind fun t _ => ih (fun s b hb => h s b (List.mem_cons_of_mem _ hb)) t

theorem mapM_ok_mem {m : List β} (h : l.mapM f = .ok m) : ∀ b∈m,∃ a∈l,f a = .ok b := by
  induction l generalizing m with
  | nil =>
    intro b hb
    obtain rfl : []=m := Except.ok.inj h
    cases hb
  | cons a l ih =>
    rw [List.mapM_cons] at h
    obtain ⟨c,hc,h⟩ := bind_ok.mp h
    obtain ⟨m',hm',h⟩ := bind_ok.mp h
    intro b hb
    rw [← Except.ok.inj h] at hb
    obtain rfl | hb := List.mem_cons.mp hb
    · exact ⟨a,List.mem_cons_self,hc⟩
    · obtain ⟨a',ha',hf⟩ := ih hm' b hb
      exact ⟨a',List.mem_cons_of_mem _ ha',hf⟩

end Rules

variable {E : Env} {npcList : List NPC}

theorem calculateCostOfProgram_clean (program : SerializedProgram) (r : NPCResult) :
    CleanCheck (calculateCostOfProgram E program r) := by
  unfold calculateCostOfProgram
  exact clean_uint 64 _

theorem additionsForNpc_clean (npcList : List NPC) : CleanCheck (additionsForNpc npcList) := by
  unfold additionsForNpc
  refine (clean_mapM fun npc _ => clean_mapM fun cvp _ => ?_).bind fun _ _ => clean_ok _
  exact (clean_index _).bind fun _ _ => (clean_index _).bind fun _ _ => (clean_uint _ _).bind fun _ _ => clean_ok _

theorem additionsForNpc_parent {additions : List Coin} (h : additionsForNpc npcList = .ok additions) :
    ∀ a∈additions,a.parentCoinInfo∈npcList.map (·.coinName) := by
  unfold additionsForNpc at h
  obtain ⟨lists,hlists,h⟩ := bind_ok.mp h
  intro a ha
  rw [← Except.ok.inj h] at ha
  obtain ⟨l,hl,hal⟩ := List.mem_flatten.mp ha
  obtain ⟨npc,hnpc,hmade⟩ := mapM_ok_mem hlists l hl
  obtain ⟨cvp,-,hcoin⟩ := mapM_ok_mem hmade a hal
  simp only [bind_ok] at hcoin
  obtain ⟨_,-,_,-,_,-,hcoin⟩ := hcoin
  rw [← Except.ok.inj hcoin]
  exact List.mem_map_of_mem hnpc

theorem announcementNames_clean {op : ConditionOpcode}
    (hop : op = .createCoinAnnouncement ∨ op = .createPuzzleAnnouncement) (origin : NPC → Bytes32)
    (h : ∀ npc∈npcList,npc.Parsed) : CleanCheck (announcementNames E op origin npcList) := by
  unfold announcementNames
  refine (clean_mapM fun npc hnpc => clean_mapM fun cvp hcvp => ?_).bind fun _ _ => clean_ok _
  obtain ⟨message,hvars,hlen⟩ := (h npc hnpc).announcements hop cvp hcvp
  refine (clean_index _).bind fun m hm => (clean_assertThat ?_).bind fun _ _ => clean_ok _
  rw [hvars] at hm
  rw [← Except.ok.inj hm]
  exact hlen

theorem pkmPairs_clean {npc : NPC} (h : npc.Parsed) (data : Bytes) :
    CleanCheck (pkmPairsForConditionsDict E npc data) := by
  have hpair {op : ConditionOpcode} (hop : op = .aggSigUnsafe ∨ op = .aggSigMe) (suffix : Bytes) :
      CleanCheck ((npc.conditionsFor op).mapM (pkmPair E suffix)) := by
    refine clean_mapM fun cvp hcvp => ?_
    obtain ⟨hopcode,hparsed⟩ := h.conditionsFor op cvp hcvp
    obtain ⟨pubkey,message,hvars,hkey,hmessage⟩ := hparsed.aggSig hopcode hop
    unfold pkmPair
    rw [hvars]
    refine (clean_assertThat rfl).bind fun _ _ => (clean_index _).bind fun k hk =>
      (clean_index _).bind fun m hm => (clean_assertThat ?_).bind fun _ _ => ?_
    · rw [← Except.ok.inj hk,← Except.ok.inj hm]
      exact ⟨hkey,hmessage⟩
    · cases E.g1FromBytes k with
      | some key => exact clean_ok _
      | none => exact clean_raised (by decide)
  unfold pkmPairsForConditionsDict
  exact (hpair (Or.inl rfl) _).bind fun _ _ => (hpair (Or.inr rfl) _).bind fun _ _ => clean_ok _

theorem mempoolCheckCondition_clean (unspent : CoinRecord) (coins puzzles : List Bytes32) (height timestamp : ℕ)
    (cvp : ConditionWithArgs) :
    CleanCheck (mempoolCheckCondition E unspent coins puzzles height timestamp cvp) := by
  have hone (P : Bytes → Prop) [DecidablePred P] (e : Err) : CleanCheck (do
      let h ← index cvp.vars[0]?
      reject (P h) e) := (clean_index _).bind fun _ _ => clean_reject _ _
  have hannounced (names : List Bytes32) : CleanCheck (mempoolAssertAnnouncement cvp names) :=
    (clean_index _).bind fun _ _ => (clean_raiseIf _).bind fun _ _ => clean_reject _ _
  unfold mempoolCheckCondition
  cases cvp.opcode with
  | assertMyCoinId => exact hone _ _
  | assertCoinAnnouncement => exact hannounced _
  | assertPuzzleAnnouncement => exact hannounced _
  | assertHeightAbsolute => exact hone _ _
  | assertHeightRelative => exact hone _ _
  | assertSecondsAbsolute => exact hone _ _
  | assertSecondsRelative => exact hone _ _
  | assertMyParentId => exact hone _ _
  | assertMyPuzzlehash => exact hone _ _
  | assertMyAmount => exact hone _ _
  | _ => exact clean_ok ()

theorem mempoolCheckConditionsDict_clean (unspent : CoinRecord) (coins puzzles : List Bytes32)
    (d : Dict ConditionOpcode (List ConditionWithArgs)) (height timestamp : ℕ) :
    CleanCheck (mempoolCheckConditionsDict E unspent coins puzzles d height timestamp) :=
  clean_forM fun _ _ => clean_forM fun cvp _ => mempoolCheckCondition_clean unspent coins puzzles height timestamp cvp

namespace MempoolManager

theorem checkAdditions_clean (additions : List Coin) : CleanCheck (checkAdditions E additions) := by
  unfold checkAdditions
  refine (clean_foldlM (fun _ _ _ => ?_) 0).bind fun _ _ => (clean_reject _ _).bind fun _ _ => clean_ok _
  exact (clean_reject _ _).bind fun _ _ => clean_uint _ _

theorem checkAdditions_nodup {additions : List Coin} {amount : ℕ} (h : checkAdditions E additions = .ok amount) :
    (additions.map E.coinName).Nodup := by
  unfold checkAdditions at h
  simp only [bind_ok,reject_eq_ok] at h
  obtain ⟨_,-,_,hnodup,-⟩ := h
  exact not_not.mp hnodup

variable {peak : BlockRecord}

theorem removalRecords_clean (hpeak : peak.timestamp.isSome) (getCoinRecord : CoinReader)
    (additions : List Coin) (names : List Bytes32) :
    CleanCheck (removalRecords E getCoinRecord peak additions names) := by
  unfold removalRecords
  refine clean_foldlM (fun _ name _ => ?_) _
  have hrecord : CleanCheck (removalRecord E getCoinRecord peak additions name) := by
    unfold removalRecord
    cases additions.reverse.find? fun c => decide (E.coinName c=name) with
    | some coin =>
      exact (clean_assertSome hpeak).bind fun _ _ => (clean_uint _ _).bind fun _ _ => (clean_uint _ _).bind
        fun _ _ => clean_ok _
    | none =>
      cases getCoinRecord name with
      | some record => exact clean_ok record
      | none => exact clean_invalid _
  exact hrecord.bind fun _ _ => (clean_uint _ _).bind fun _ _ => clean_ok _

theorem checkFees_clean (npcList : List NPC) (removed added : ℕ) : CleanCheck (checkFees npcList removed added) := by
  unfold checkFees
  refine (clean_reject _ _).bind fun _ _ => (clean_uint _ _).bind fun _ _ =>
    (clean_foldlM (fun _ _ _ => ?_) 0).bind fun _ _ => (clean_reject _ _).bind fun _ _ => clean_ok _
  exact (clean_index _).bind fun _ _ => (clean_reject _ _).bind fun _ _ => clean_ok _

theorem checkCapacity_clean (m : Mempool) (cost : ℕ) (fpc : ℚ) : CleanCheck (checkCapacity m cost fpc) := by
  have hfrom (max : ℕ) (current : ℤ) (l : List (ℚ × MempoolItem)) :
      CleanCheck (Mempool.minFeeRateFrom max cost current l) := by
    induction l generalizing current with
    | nil => exact clean_raised (by decide)
    | cons e l ih =>
      unfold Mempool.minFeeRateFrom
      split_ifs
      · exact clean_ok _
      · exact ih _
  unfold checkCapacity
  split_ifs with hfull
  · refine (clean_reject _ _).bind fun _ _ => ?_
    unfold Mempool.getMinFeeRate
    rw [if_pos hfull]
    exact (hfrom _ _ _).bind fun _ _ => clean_reject _ _
  · exact clean_ok ()

theorem canReplace_clean (items : Dict Bytes32 MempoolItem) (removals : Dict Bytes32 CoinRecord) (fees : ℕ)
    (fpc : ℚ) : CleanCheck (canReplace E items removals fees fpc) := by
  unfold canReplace
  dsimp only
  split_ifs
  · exact clean_ok _
  · exact clean_raised (by decide)
  · exact clean_ok _
  · exact clean_ok _

theorem checkSpends_clean (hpeak : peak.timestamp.isSome) (h : ∀ npc∈npcList,npc.Parsed)
    {records : Dict Bytes32 CoinRecord} (hrec : ∀ npc∈npcList,∃ r,records.get? npc.coinName=some r)
    (validateSignature : Bool) : CleanCheck (checkSpends E peak npcList records validateSignature) := by
  unfold checkSpends
  refine (announcementNames_clean (Or.inl rfl) _ h).bind fun _ _ =>
    (announcementNames_clean (Or.inr rfl) _ h).bind fun _ _ =>
      (clean_mapM fun npc hnpc => ?_).bind fun _ _ => clean_ok _
  refine (clean_lookup (hrec npc hnpc)).bind fun _ _ => (clean_reject _ _).bind fun _ _ => ?_
  dsimp only
  refine (clean_assertSome hpeak).bind fun _ _ => (mempoolCheckConditionsDict_clean _ _ _ _ _ _).bind fun _ _ => ?_
  split_ifs
  · exact pkmPairs_clean (h npc hnpc) _
  · exact clean_ok []

end MempoolManager
end RoseChain
