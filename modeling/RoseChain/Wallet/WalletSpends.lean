import RoseChain.Util.MerkleCanonical
import RoseChain.Wallet.CcSpends
import RoseChain.Wallet.Wallet

namespace RoseChain
open Lib

namespace Wallet

/-- The conditions of `make_solution` once they are parsed. -/
def solutionConditions (args : SolutionArgs) : List ConditionWithArgs :=
  args.primaries.map createCoinOf ++
    (if args.minTime > 0 then [⟨.assertSecondsAbsolute,[intToBytes args.minTime]⟩] else []) ++
    args.me.toList.map (fun name => ⟨.assertMyCoinId,[bytes32 name]⟩) ++
    (if args.fee≠0 then [⟨.reserveFee,[intToBytes args.fee]⟩] else []) ++
    args.coinAnnouncements.map (fun message => ⟨.createCoinAnnouncement,[bytes32 message]⟩) ++
    args.coinAnnouncementsToAssert.map (fun h => ⟨.assertCoinAnnouncement,[(h.map bytes32).getD []]⟩) ++
    args.puzzleAnnouncements.map (fun message => ⟨.createPuzzleAnnouncement,[bytes32 message]⟩) ++
    args.puzzleAnnouncementsToAssert.map (fun h => ⟨.assertPuzzleAnnouncement,[bytes32 h]⟩)

theorem mapM_parse_map {α : Type} {make : α → SExp} {condition : α → ConditionWithArgs}
    (h : ∀ a,parseSexpToCondition (make a)=some (condition a)) (l : List α) :
    (l.map make).mapM parseSexpToCondition=some (l.map condition) := by
  rw [List.mapM_map]
  apply mapM_eq_some_map
  intro a _
  exact h a

theorem mapM_parse_append {l l' : List SExp} {cs cs' : List ConditionWithArgs}
    (h : l.mapM parseSexpToCondition=some cs) (h' : l'.mapM parseSexpToCondition=some cs') :
    (l++l').mapM parseSexpToCondition=some (cs++cs') := by
  rw [List.mapM_append,h,h']
  rfl

theorem parse_solutionConditions (args : SolutionArgs) :
    (conditionList args).mapM parseSexpToCondition=some (solutionConditions args) := by
  have hassert (h : Option Bytes32) : parseSexpToCondition (makeAssertCoinAnnouncement h) =
      some ⟨.assertCoinAnnouncement,[(h.map bytes32).getD []]⟩ := by
    cases h <;> rfl
  apply mapM_parse_append
  · apply mapM_parse_append
    · apply mapM_parse_append
      · apply mapM_parse_append
        · apply mapM_parse_append
          · apply mapM_parse_append
            · apply mapM_parse_append
              · exact mapM_parse_map (fun p => rfl) args.primaries
              · split_ifs <;> rfl
            · exact mapM_parse_map (fun _ => rfl) args.me.toList
          · split_ifs <;> rfl
        · exact mapM_parse_map (fun _ => rfl) args.coinAnnouncements
      · exact mapM_parse_map hassert args.coinAnnouncementsToAssert
    · exact mapM_parse_map (fun _ => rfl) args.puzzleAnnouncements
  · exact mapM_parse_map (fun _ => rfl) args.puzzleAnnouncementsToAssert

def createdCoins (E : Env) (coin : Coin) (primaries : List Primary) : List Coin :=
  primaries.map fun p => ⟨E.coinName coin,p.2,p.1⟩

section Standard
variable {E : Env} {P : CcPrograms} (hP : P.Lawful E) (pk : G1Element) (args : SolutionArgs)
include hP

theorem conditionsForSolution_standard : ∃ key message : Bytes,
    conditionsForSolution P (P.puzzleForPk pk) (makeSolution args) infiniteCost =
      some (⟨.aggSigMe,[key,message]⟩::solutionConditions args) := by
  obtain ⟨key,-,-,hrun⟩ := hP.standard pk
  obtain ⟨cost,hcost,hrun⟩ := hrun (.ofList (conditionList args))
  use key,bytes32 ((puzzleForConditions (.ofList (conditionList args))).treeHash E)
  have hconditions : ∀ signature : SExp,(SExp.pair signature (.ofList (conditionList args))) =
      .ofList (signature::conditionList args) := fun _ => rfl
  rw [conditionsForSolution,runWithCost,makeSolution,hrun,Option.bind_some,if_pos hcost,Option.bind_some,
    hconditions,parseSexpToConditions_ofList,List.mapM_cons,parse_solutionConditions]
  rfl

theorem conditionsFor_standard (coin : Coin) {op : ConditionOpcode} (hop : op ≠ .aggSigMe) :
    (ProgramSpend.npc E P ⟨coin,P.puzzleForPk pk,makeSolution args⟩).conditionsFor op =
      (solutionConditions args).filter fun c => decide (c.opcode=op) := by
  obtain ⟨key,message,hrun⟩ := conditionsForSolution_standard hP pk args
  rw [ProgramSpend.npc,conditionsFor_entries,ProgramSpend.conditions,hrun,Option.getD_some,
    List.filter_cons_of_neg]
  simpa using hop.symm

theorem additions_npc (coin : Coin) : ProgramSpend.additions E P ⟨coin,P.puzzleForPk pk,makeSolution args⟩ =
    createdOutputsForConditionsDict (ProgramSpend.npc E P ⟨coin,P.puzzleForPk pk,makeSolution args⟩) := by
  obtain ⟨key,message,hrun⟩ := conditionsForSolution_standard hP pk args
  simp only [ProgramSpend.additions,ProgramSpend.npc,ProgramSpend.conditions,hrun,Option.getD_some]

theorem additions_primaries (coin : Coin) (hrange : ∀ p∈args.primaries,p.1<2^64) :
    ProgramSpend.additions E P ⟨coin,P.puzzleForPk pk,makeSolution args⟩ =
      .ok (createdCoins E coin args.primaries) := by
  have hcreate : (solutionConditions args).filter (fun c => decide (c.opcode = .createCoin)) =
      args.primaries.map createCoinOf := by
    have hpayments : (args.primaries.map createCoinOf).filter (fun c => decide (c.opcode = .createCoin)) =
        args.primaries.map createCoinOf := by
      apply List.filter_eq_self.mpr
      intro c hc
      obtain ⟨p,-,rfl⟩ := List.mem_map.mp hc
      rfl
    simp only [solutionConditions,List.filter_append,hpayments]
    simp
  rw [additions_npc hP,createdOutputsForConditionsDict,conditionsFor_standard hP _ _ _ (by decide),hcreate,
    List.mapM_map]
  apply mapM_eq_ok_map
  intro p hp
  have hamount : uint64 (intFromBytes (intToBytes p.1)) = .ok p.1 := by
    rw [intFromBytes_intToBytes,uint64,uint_eq_ok]
    exact ⟨rfl,hrange p hp⟩
  simp only [Function.comp_apply,createCoinOf,index,List.getElem?_cons_zero,List.getElem?_cons_succ]
  simp only [bind,Except.bind,hamount,toBytes32_bytes32]
  rfl

end Standard

variable (E : Env) (P : CcPrograms) (w : Wallet)

def Known (coin : Coin) : Prop := (w.puzzleStore.getDerivationRecordForPuzzleHash (.text coin.puzzleHash)).isSome

def publicKeyFor (coin : Coin) : G1Element :=
  w.publicKey (((w.puzzleStore.getDerivationRecordForPuzzleHash (.text coin.puzzleHash)).map (·.index)).getD 0)

def assertingSpend (h : Option Bytes32) (coin : Coin) : ProgramSpend :=
  ⟨coin,P.puzzleForPk (w.publicKeyFor coin),makeSolution { coinAnnouncementsToAssert := [h] }⟩

/-- The spend that makes the outputs and announces a message. -/
def creatingSpend (primaries : List Primary) (fee : ℕ) (message : Bytes32) (coin : Coin) : ProgramSpend :=
  ⟨coin,P.puzzleForPk (w.publicKeyFor coin),
    makeSolution { primaries := primaries,fee := fee,coinAnnouncements := [message] }⟩

/-- Nothing in a request for these coins makes the code raise. -/
structure Admitted (args : TransactionArgs) (coins : List Coin) : Prop where
  maxSend : args.ignoreMaxSendAmount=true ∨ ∃ m,w.getMaxSendAmount = .ok m ∧ totalAmount args ≤ m
  selected : args.coins=some coins ∨ args.coins=none ∧ w.selectCoins (totalAmount args) = .ok coins
  nonempty : coins≠[]
  known : ∀ c∈coins,w.Known c
  covered : totalAmount args≤(coins.map (·.amount)).sum
  distinct : ∀ primaries∈args.primariesInput,(primaries++[(args.amount,args.newpuzzlehash)]).Nodup
  amounts : args.amount<2^64 ∧ ∀ p∈args.primariesInput.getD [],p.1<2^64
  change : totalAmount args<(coins.map (·.amount)).sum →
    (coins.map (·.amount)).sum-totalAmount args<2^64 ∧ ∃ h,w.getNewPuzzlehash = .ok h
  castable : args.announcementsToConsume=[]

variable {E P w} {args : TransactionArgs} {coins : List Coin} {change : ℕ}

variable {coin : Coin}

theorem puzzleForPuzzleHash_known (h : w.Known coin) :
    w.puzzleForPuzzleHash P coin.puzzleHash = .ok (P.puzzleForPk (w.publicKeyFor coin)) := by
  obtain ⟨record,hrecord⟩ := Option.isSome_iff_exists.mp h
  simp [puzzleForPuzzleHash,publicKeyFor,hrecord]

variable {a : Assembly}

theorem assemble_asserting (hknown : w.Known coin)
    (h : ¬ (a.primaryAnnouncementHash=none ∧ MayCreate E args coin)) : w.assemble E P args coins change a coin =
      .ok { a with spends := a.spends++[w.assertingSpend P a.primaryAnnouncementHash coin] } := by
  unfold assemble
  rw [bind_of_ok (puzzleForPuzzleHash_known hknown),if_neg h]
  rfl

theorem foldlM_asserting {l : List Coin} (hknown : ∀ c∈l,w.Known c)
    (h : ∀ c∈l,¬ (a.primaryAnnouncementHash=none ∧ MayCreate E args c)) :
    l.foldlM (w.assemble E P args coins change) a =
      .ok { a with spends := a.spends++l.map (w.assertingSpend P a.primaryAnnouncementHash) } := by
  induction l generalizing a with
  | nil => simp [pure,Except.pure]
  | cons c l ih =>
    have hstep : w.assemble E P args coins change a c = .ok _ :=
      assemble_asserting (hknown c List.mem_cons_self) (h c List.mem_cons_self)
    rw [List.foldlM_cons,bind_of_ok hstep,ih]
    · simp
    · exact fun d hd => hknown d (List.mem_cons_of_mem c hd)
    · exact fun d hd => h d (List.mem_cons_of_mem c hd)

variable {primaries : List Primary}

variable {message : Bytes32}

theorem assemble_creating
    (hknown : w.Known coin) (hnone : a.primaryAnnouncementHash=none) (hcreate : MayCreate E args coin)
    (houtputs : w.outputs args a.primaries change = .ok primaries)
    (hmessage : announcedMessage E coins coin primaries = .ok message) (hcast : args.announcementsToConsume=[]) :
    w.assemble E P args coins change a coin =
      .ok ⟨some primaries,some (Announcement.name E ⟨E.coinName coin,bytes32 message⟩),
        a.spends++[w.creatingSpend P primaries args.fee message coin]⟩ := by
  have hraise : raiseIf (args.announcementsToConsume≠[]) = .ok () := by simp [hcast]
  unfold assemble
  rw [bind_of_ok (puzzleForPuzzleHash_known hknown),if_pos ⟨hnone,hcreate⟩,bind_of_ok houtputs,
    bind_of_ok hmessage,bind_of_ok hraise]
  rfl

theorem Admitted.outputs (h : w.Admitted args coins) : ∃ primaries,
    w.outputs args args.primariesInput ((coins.map (·.amount)).sum-totalAmount args) = .ok primaries ∧
      primaries≠[] ∧ (∀ p∈primaries,p.1<2^64) ∧
      (primaries.map (·.1)).sum+args.fee=(coins.map (·.amount)).sum := by
  have hpaid : ∀ p∈args.primariesInput.getD []++[(args.amount,args.newpuzzlehash)],p.1<2^64 := by
    intro p hp
    rcases List.mem_append.mp hp with hp | hp
    · exact h.amounts.2 p hp
    · rw [List.mem_singleton.mp hp]
      exact h.amounts.1
  have hsum := h.covered
  unfold Wallet.outputs
  dsimp only
  split_ifs with hchange
  · obtain ⟨hrange,puzzleHash,hnew⟩ := h.change (by omega)
    refine ⟨_,bind_of_ok hnew,by simp,?_,?_⟩
    · intro p hp
      rcases List.mem_append.mp hp with hp | hp
      · exact hpaid p hp
      · rw [List.mem_singleton.mp hp]
        exact hrange
    · simp only [totalAmount,List.map_append,List.sum_append,List.map_cons,List.map_nil,List.sum_cons,
        List.sum_nil] at hsum ⊢
      omega
  · refine ⟨_,rfl,by simp,hpaid,?_⟩
    simp only [totalAmount,List.map_append,List.sum_append,List.map_cons,List.map_nil,List.sum_cons,
      List.sum_nil] at hsum hchange ⊢
    omega

theorem announcedMessage_eq (hrange : ∀ p∈primaries,p.1<2^64) :
    announcedMessage E coins coin primaries = .ok (messageHash E coins (createdCoins E coin primaries)) := by
  have hcreated : (primaries.mapM fun p => do return (⟨E.coinName coin,p.2,← uint64 p.1⟩ : Coin) : Check (List Coin)) =
      .ok (createdCoins E coin primaries) := by
    apply mapM_eq_ok_map
    intro p hp
    have hamount : uint64 (p.1 : ℤ) = .ok p.1 := uint_eq_ok.mpr ⟨rfl,hrange p hp⟩
    rw [bind_of_ok hamount]
    rfl
  unfold announcedMessage
  rw [bind_of_ok hcreated]
  rfl

theorem foldlM_assemble (h : w.Admitted args coins) {before after : List Coin}
    (hsplit : coins=before++coin::after) (hbefore : ∀ c∈before,¬ MayCreate E args c)
    (hcreate : MayCreate E args coin) (houtputs : w.outputs args args.primariesInput change = .ok primaries)
    (hmessage : announcedMessage E coins coin primaries = .ok message) :
    coins.foldlM (w.assemble E P args coins change) ⟨args.primariesInput,none,[]⟩ =
      .ok ⟨some primaries,some (Announcement.name E ⟨E.coinName coin,bytes32 message⟩),
        before.map (w.assertingSpend P none)++w.creatingSpend P primaries args.fee message coin ::
          after.map (w.assertingSpend P (some (Announcement.name E ⟨E.coinName coin,bytes32 message⟩)))⟩ := by
  have hknown (c : Coin) (hc : c∈before ∨ c=coin ∨ c∈after) : w.Known c := by
    apply h.known
    simpa [hsplit] using hc
  have hfirst : before.foldlM (w.assemble E P args coins change) ⟨args.primariesInput,none,[]⟩ = .ok _ :=
    foldlM_asserting (fun c hc => hknown c (Or.inl hc)) fun c hc hmay => hbefore c hc hmay.2
  have hsecond := assemble_creating (P := P) (a := ⟨args.primariesInput,none,before.map (w.assertingSpend P none)⟩)
    (hknown coin (Or.inr (Or.inl rfl))) rfl hcreate houtputs hmessage h.castable
  conv_lhs => arg 3; rw [hsplit]
  rw [List.foldlM_append,bind_of_ok hfirst,List.foldlM_cons,List.nil_append,bind_of_ok hsecond,
    foldlM_asserting (fun c hc => hknown c (Or.inr (Or.inr hc))) fun c _ hnone => absurd hnone.1 (by simp)]
  simp

theorem generateUnsignedTransaction_eq (h : w.Admitted args coins)
    (hloop : coins.foldlM (w.assemble E P args coins ((coins.map (·.amount)).sum-totalAmount args))
      ⟨args.primariesInput,none,[]⟩ = .ok a) : w.generateUnsignedTransaction E P args = .ok a.spends := by
  have hdistinct : raiseIf (∃ primaries∈args.primariesInput,
      ¬ (primaries++[(args.amount,args.newpuzzlehash)]).Nodup) = .ok () := by
    rw [raiseIf_eq_ok]
    rintro ⟨primaries,hprimaries,hdup⟩
    exact hdup (h.distinct primaries hprimaries)
  have hnonempty : assertThat (coins.length > 0) = .ok () := assertThat_eq_ok.mpr (List.length_pos_iff.mpr h.nonempty)
  have hcovered : assertThat (totalAmount args≤(coins.map (·.amount)).sum) = .ok () := assertThat_eq_ok.mpr h.covered
  have hspend : w.spendCoins E P args coins = .ok a.spends := by
    unfold spendCoins
    rw [bind_of_ok hnonempty,bind_of_ok hcovered,bind_of_ok hdistinct,bind_of_ok hloop]
    rfl
  have hcoins : w.coinsFor args = .ok coins := by
    unfold coinsFor
    rcases h.selected with hgiven | ⟨hnone,hselected⟩
    · rw [hgiven]
    · rw [hnone]
      exact hselected
  have hlimit : w.checkMaxSend args = .ok () := by
    unfold checkMaxSend
    split_ifs with hignore
    · rfl
    · obtain ⟨m,hm,hle⟩ := h.maxSend.resolve_left hignore
      rw [bind_of_ok hm,raiseIf_eq_ok]
      omega
  rw [generateUnsignedTransaction,bind_of_ok hlimit,bind_of_ok hcoins,hspend]

end Wallet
end RoseChain
