import RoseChain.Wallet.ColouredSends
import RoseChain.Wallet.WalletSpends

namespace RoseChain
open Lib

namespace Wallet
variable (E : Env) (P : CcPrograms)

/-- Each coin announcement that a spend of the bundle asserts is made in the bundle. -/
def AnnouncementsConsumed (bundle : List ProgramSpend) : Prop :=
  ∃ names,coinAnnouncementsNamesForNpc E (bundle.map (·.npc E P)) = .ok names ∧
    ∀ spend∈bundle,∀ c∈(spend.npc E P).conditionsFor .assertCoinAnnouncement,
      mempoolAssertAnnouncement c names = .ok ()

/-- One spend makes the outputs and announces the message; every other spend asserts exactly that announcement, and
without the creating spend none of them can be spent. -/
structure BoundTo (coins : List Coin) (fee : ℕ) (creating : ProgramSpend) (created : List Coin)
    (others : List ProgramSpend) : Prop where
  creates : creating.additions E P = .ok created
  nonempty : created≠[]
  balance : (created.map (·.amount)).sum+fee=(coins.map (·.amount)).sum
  announces : (creating.npc E P).conditionsFor .createCoinAnnouncement =
    [⟨.createCoinAnnouncement,[bytes32 (messageHash E coins created)]⟩]
  createNothing : ∀ spend∈others,spend.additions E P = .ok []
  assert : ∀ spend∈others,(spend.npc E P).conditionsFor .assertCoinAnnouncement =
    [⟨.assertCoinAnnouncement,[bytes32 (Announcement.name E ⟨E.coinName creating.coin,
      bytes32 (messageHash E coins created)⟩)]⟩]
  atomic : ∀ bundle ⊆ others,bundle≠[] → ¬ AnnouncementsConsumed E P bundle

def Bound (coins : List Coin) (fee : ℕ) (spends : List ProgramSpend) : Prop :=
  spends.map (·.coin)=coins ∧ ∃ before creating after created,spends=before++creating::after ∧
    BoundTo E P coins fee creating created (before++after)

variable {E P} (hP : P.Lawful E) {w : Wallet} {args : TransactionArgs} {coins : List Coin}
include hP

theorem asserting_additions (h : Option Bytes32) (coin : Coin) :
    (w.assertingSpend P h coin).additions E P = .ok [] := by
  simp [assertingSpend,additions_primaries hP,createdCoins]

theorem asserting_asserts (h : Option Bytes32) (coin : Coin) :
    ((w.assertingSpend P h coin).npc E P).conditionsFor .assertCoinAnnouncement =
      [⟨.assertCoinAnnouncement,[(h.map bytes32).getD []]⟩] := by
  rw [assertingSpend,conditionsFor_standard hP _ _ _ (by decide)]
  rfl

theorem asserting_silent (h : Option Bytes32) (coin : Coin) :
    ((w.assertingSpend P h coin).npc E P).conditionsFor .createCoinAnnouncement=[] := by
  rw [assertingSpend,conditionsFor_standard hP _ _ _ (by decide)]
  rfl

variable {primaries : List Primary}

theorem creating_additions (hrange : ∀ p∈primaries,p.1<2^64) (fee : ℕ) (message : Bytes32) (coin : Coin) :
    (w.creatingSpend P primaries fee message coin).additions E P = .ok (createdCoins E coin primaries) := by
  rw [creatingSpend,additions_primaries hP _ _ _ hrange]

theorem creating_announces (primaries : List Primary) (fee : ℕ) (message : Bytes32) (coin : Coin) :
    ((w.creatingSpend P primaries fee message coin).npc E P).conditionsFor .createCoinAnnouncement =
      [⟨.createCoinAnnouncement,[bytes32 message]⟩] := by
  have hpayments : (primaries.map createCoinOf).filter
      (fun c => decide (c.opcode = .createCoinAnnouncement))=[] := by
    apply List.filter_eq_nil_iff.mpr
    intro c hc
    obtain ⟨p,-,rfl⟩ := List.mem_map.mp hc
    simp [createCoinOf]
  rw [creatingSpend,conditionsFor_standard hP _ _ _ (by decide)]
  simp only [solutionConditions,List.filter_append,hpayments]
  split_ifs <;> simp
omit hP

variable {bundle : List ProgramSpend}

theorem announcementNames_silent (h : ∀ spend∈bundle,(spend.npc E P).conditionsFor .createCoinAnnouncement=[]) :
    coinAnnouncementsNamesForNpc E (bundle.map (·.npc E P)) = .ok [] := by
  have hnone : ∀ spend∈bundle,((spend.npc E P).conditions.filter fun c => c.1 = .createCoinAnnouncement).flatMap
      (·.2)=[] := by
    intro spend hspend
    have hfor := h spend hspend
    rw [ProgramSpend.npc,conditionsFor_entries,← conditionsByOpcode_getD] at hfor
    apply List.flatMap_eq_nil_iff.mpr
    intro e he
    obtain ⟨hmem,hop⟩ := List.mem_filter.mp he
    have hget := ((conditionsByOpcode (spend.conditions P)).mem_entries e.1 e.2).mp hmem
    rw [of_decide_eq_true hop] at hget
    rwa [hget,Option.getD_some] at hfor
  have hnames := mapM_eq_ok_map (l := bundle.map (·.npc E P)) (g := fun _ => ([] : List Bytes32))
    (f := fun npc => ((npc.conditions.filter fun c => c.1=ConditionOpcode.createCoinAnnouncement).flatMap
      (·.2)).mapM fun cvp => do
        let message ← index cvp.vars[0]?
        assertThat (message.length≤1024)
        return E.stdHash (bytes32 npc.coinName++message)) (by
      intro npc hnpc
      obtain ⟨spend,hspend,rfl⟩ := List.mem_map.mp hnpc
      rw [hnone spend hspend]
      rfl)
  unfold coinAnnouncementsNamesForNpc announcementNames
  rw [bind_of_ok hnames]
  simp [pure,Except.pure]

include hP

theorem asserting_unconsumed {h : Option Bytes32} {l : List Coin}
    (hbundle : bundle ⊆ l.map (w.assertingSpend P h)) (hne : bundle≠[]) : ¬ AnnouncementsConsumed E P bundle := by
  rintro ⟨names,hnames,hconsumed⟩
  have hsilent : ∀ spend∈bundle,(spend.npc E P).conditionsFor .createCoinAnnouncement=[] := by
    intro spend hspend
    obtain ⟨c,-,rfl⟩ := List.mem_map.mp (hbundle hspend)
    exact asserting_silent hP h c
  rw [announcementNames_silent hsilent] at hnames
  obtain ⟨spend,hspend⟩ := List.exists_mem_of_ne_nil bundle hne
  obtain ⟨c,-,rfl⟩ := List.mem_map.mp (hbundle hspend)
  have hassert := hconsumed _ hspend ⟨.assertCoinAnnouncement,[(h.map bytes32).getD []]⟩
    (by rw [asserting_asserts hP]; exact List.mem_singleton_self _)
  rw [← Except.ok.inj hnames] at hassert
  simp [mempoolAssertAnnouncement,index,reject,bind_ok] at hassert

variable {coin : Coin}

variable {fee : ℕ}

theorem boundTo_creating {after : List Coin} (hne : primaries≠[]) (hrange : ∀ p∈primaries,p.1<2^64)
    (hsum : (primaries.map (·.1)).sum+fee=(coins.map (·.amount)).sum) :
    BoundTo E P coins fee (w.creatingSpend P primaries fee (messageHash E coins (createdCoins E coin primaries)) coin)
      (createdCoins E coin primaries) (after.map (w.assertingSpend P (some (Announcement.name E ⟨E.coinName coin,
        bytes32 (messageHash E coins (createdCoins E coin primaries))⟩)))) where
  creates := creating_additions hP hrange _ _ _
  nonempty := by simpa [createdCoins] using hne
  balance := by
    have hamounts : (createdCoins E coin primaries).map (·.amount)=primaries.map (·.1) := by
      simp [createdCoins,Function.comp_def]
    rw [hamounts,hsum]
  announces := creating_announces hP _ _ _ _
  createNothing := by
    intro spend hspend
    obtain ⟨c,-,rfl⟩ := List.mem_map.mp hspend
    exact asserting_additions hP _ c
  assert := by
    intro spend hspend
    obtain ⟨c,-,rfl⟩ := List.mem_map.mp hspend
    exact asserting_asserts hP _ c
  atomic := fun _ hbundle hne => asserting_unconsumed hP hbundle hne

theorem not_bound_of_waiting {rest : List ProgramSpend} :
    ¬ Bound E P coins fee (w.assertingSpend P none coin::rest) := by
  rintro ⟨-,before,creating,after,created,hsplit,hbound⟩
  cases before with
  | nil =>
    have hcreating : w.assertingSpend P none coin=creating := (List.cons.inj hsplit).1
    have hcreates := hbound.creates
    rw [← hcreating,asserting_additions hP] at hcreates
    exact hbound.nonempty (Except.ok.inj hcreates).symm
  | cons spend before =>
    have hspend : w.assertingSpend P none coin=spend := (List.cons.inj hsplit).1
    have hassert := hbound.assert spend (by simp)
    rw [← hspend,asserting_asserts hP] at hassert
    have hlength := congrArg (fun l : List ConditionWithArgs => l.map fun c => c.vars.map List.length) hassert
    simp [bytes32_length] at hlength

theorem unconsumed_of_waiting (hmem : w.assertingSpend P none coin∈bundle) : ¬ AnnouncementsConsumed E P bundle := by
  rintro ⟨names,-,hconsumed⟩
  have hassert := hconsumed _ hmem ⟨.assertCoinAnnouncement,[[]]⟩
    (by rw [asserting_asserts hP]; exact List.mem_singleton_self _)
  simp [mempoolAssertAnnouncement,index,bind_ok] at hassert

theorem generateUnsignedTransaction_late (h : w.Admitted args coins) {o : Bytes32} (ho : args.originId=some o)
    (hmem : o∈coins.map E.coinName) (hlate : (coins.map E.coinName).head?≠some o) :
    ∃ spends,w.generateUnsignedTransaction E P args = .ok spends ∧ ¬ Bound E P coins args.fee spends ∧
      ¬ AnnouncementsConsumed E P spends := by
  obtain ⟨primaries,houtputs,hne,hrange,hsum⟩ := h.outputs
  obtain ⟨c,hc,hname⟩ := List.mem_map.mp hmem
  have hmay : MayCreate E args c := Or.inr (by rw [ho,hname])
  have hfind : (coins.find? fun c => decide (MayCreate E args c)).isSome :=
    List.find?_isSome.mpr ⟨c,hc,decide_eq_true hmay⟩
  obtain ⟨coin,hcoin⟩ := Option.isSome_iff_exists.mp hfind
  obtain ⟨hcreate,before,after,hsplit,hbefore⟩ := List.find?_eq_some_iff_append.mp hcoin
  have hcreate : MayCreate E args coin := of_decide_eq_true hcreate
  have hloop := foldlM_assemble (P := P) h hsplit (fun c hc => by simpa using hbefore c hc) hcreate houtputs
    (announcedMessage_eq hrange)
  refine ⟨_,generateUnsignedTransaction_eq h hloop,?_⟩
  cases before with
  | nil =>
    have hname := hcreate.resolve_left (by simp [ho])
    rw [ho] at hname
    exact absurd (by simp [hsplit,hname]) hlate
  | cons d before => exact ⟨not_bound_of_waiting hP,unconsumed_of_waiting hP List.mem_cons_self⟩

theorem generateUnsignedTransaction_first (h : w.Admitted args coins)
    (hfirst : ∀ o∈args.originId,(coins.map E.coinName).head?=some o) :
    ∃ spends,w.generateUnsignedTransaction E P args = .ok spends ∧ Bound E P coins args.fee spends := by
  obtain ⟨primaries,houtputs,hne,hrange,hsum⟩ := h.outputs
  obtain ⟨coin,after,hsplit⟩ := List.exists_cons_of_ne_nil h.nonempty
  have hcreate : MayCreate E args coin := by
    cases ho : args.originId with
    | none => exact Or.inl ho
    | some o =>
      have hhead := hfirst o ho
      rw [hsplit,List.map_cons,List.head?_cons] at hhead
      exact Or.inr (by rw [ho,hhead])
  have hbefore : ∀ c∈([] : List Coin),¬ MayCreate E args c := nofun
  have hloop := foldlM_assemble (P := P) h hsplit hbefore hcreate houtputs (announcedMessage_eq hrange)
  refine ⟨_,generateUnsignedTransaction_eq h hloop,?_,[],_,_,_,rfl,boundTo_creating hP hne hrange hsum⟩
  simp [hsplit,creatingSpend,assertingSpend,Function.comp_def]

/-- The spends are bound to one of them exactly when the coin that is to create the outputs comes first. -/
theorem generateUnsignedTransaction_bound_iff (h : w.Admitted args coins)
    (horigin : ∀ o∈args.originId,o∈coins.map E.coinName) :
    (∃ spends,w.generateUnsignedTransaction E P args = .ok spends ∧ Bound E P coins args.fee spends) ↔
      ∀ o∈args.originId,(coins.map E.coinName).head?=some o := by
  constructor
  · rintro ⟨spends,hspends,hbound⟩ o ho
    by_contra hlate
    obtain ⟨spends',hspends',hunbound,-⟩ := generateUnsignedTransaction_late hP h ho (horigin o ho) hlate
    rw [hspends] at hspends'
    exact hunbound (Except.ok.inj hspends' ▸ hbound)
  · exact generateUnsignedTransaction_first hP h
omit hP

section Tiny

def tinyRow (index : ℕ) (puzzleHash : Bytes32) : DerivationPath := ⟨index,[],puzzleHash,.standardWallet,1,true⟩

def tinyStandardWallet : Wallet where
  puzzleStore := .create [tinyRow 0 1,tinyRow 1 2]
  publicKey index := [UInt8.ofNat index]
  getMaxSendAmount := .ok 1000
  selectCoins _ := .ok []
  getNewPuzzlehash := .ok 77

def tinyCoins : List Coin := [⟨101,1,60⟩,⟨102,2,40⟩]

def tinyPayment (origin : Coin) : TransactionArgs where
  amount := 70
  newpuzzlehash := 9
  fee := 5
  originId := some (tinyCcEnv.coinName origin)
  coins := some tinyCoins

theorem tinyPayment_admitted (origin : Coin) : tinyStandardWallet.Admitted (tinyPayment origin) tinyCoins where
  maxSend := Or.inr ⟨1000,rfl,by simp [totalAmount,tinyPayment]⟩
  selected := Or.inl rfl
  nonempty := nofun
  known := by
    intro c hc
    obtain rfl | hc := List.mem_cons.mp hc
    · rfl
    · rw [List.mem_singleton.mp hc]
      rfl
  covered := by simp [totalAmount,tinyPayment,tinyCoins]
  distinct := nofun
  amounts := ⟨by simp [tinyPayment],nofun⟩
  change := fun _ => ⟨by simp [totalAmount,tinyPayment,tinyCoins],77,rfl⟩
  castable := rfl

theorem generateUnsignedTransaction_bound_first : ∃ spends,
    tinyStandardWallet.generateUnsignedTransaction tinyCcEnv tinyCcPrograms (tinyPayment ⟨101,1,60⟩) = .ok spends ∧
      Bound tinyCcEnv tinyCcPrograms tinyCoins 5 spends := by
  apply (generateUnsignedTransaction_bound_iff tinyCcPrograms_lawful (tinyPayment_admitted _) ?_).mpr
  · intro o ho
    exact ho
  · intro o ho
    rw [← Option.some.inj ho]
    exact List.mem_cons_self

/-- The second coin is the origin, and the bundle cannot be spent at all. -/
theorem generateUnsignedTransaction_second : ∃ spends,
    tinyStandardWallet.generateUnsignedTransaction tinyCcEnv tinyCcPrograms (tinyPayment ⟨102,2,40⟩) = .ok spends ∧
      ¬ Bound tinyCcEnv tinyCcPrograms tinyCoins 5 spends ∧
      ¬ AnnouncementsConsumed tinyCcEnv tinyCcPrograms spends := by
  apply generateUnsignedTransaction_late tinyCcPrograms_lawful (tinyPayment_admitted _) rfl
  · exact List.mem_cons_of_mem _ List.mem_cons_self
  · decide +kernel

end Tiny

end Wallet
end RoseChain
