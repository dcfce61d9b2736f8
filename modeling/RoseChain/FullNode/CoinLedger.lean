import RoseChain.FullNode.Caching
import RoseChain.Lib.Ledger

namespace RoseChain
open Lib

/-- What the ledger keeps of a coin, besides when it was made and spent. -/
structure CoinPayload where
  coin : Coin
  coinbase : Bool
  timestamp : ℕ

abbrev CoinBook := Book Bytes32 CoinPayload

/-- Names a block removes, and coins it adds besides its rewards. -/
abbrev Effects := List Bytes32 × List Coin

def coinRecordOf (e : Entry CoinPayload) : CoinRecord :=
  ⟨e.payload.coin,e.born,e.dead.getD 0,e.dead.isSome,e.payload.coinbase,e.payload.timestamp⟩

/-- Amount of a coin in the book, zero for an unknown one. -/
def amountOf (book : CoinBook) (n : Bytes32) : ℕ := ((book n).map (·.payload.coin.amount)).getD 0

def FullBlock.rewards (b : FullBlock) : List Coin :=
  (b.transactionsInfo.map (·.rewardClaimsIncorporated.dedup)).getD []

variable (E : Env)

/-- A table that holds the records of a book. -/
structure Shows (t : Dict Bytes32 CoinRecord) (book : CoinBook) : Prop where
  get : ∀ n,t.get? n=(book n).map coinRecordOf
  named : ∀ n e,book n=some e → E.coinName e.payload.coin=n

def newCoins (coinbase : Bool) (timestamp : ℕ) (coins : List Coin) : List (Bytes32 × CoinPayload) :=
  coins.map fun c => (E.coinName c,⟨c,coinbase,timestamp⟩)

def blockDelta (b : FullBlock) (fx : Effects) : Delta Bytes32 CoinPayload :=
  match b.foliageTransactionBlock with
  | none => ⟨b.height,[],[]⟩
  | some ftb =>
    ⟨b.height,newCoins E false ftb.timestamp fx.2++newCoins E true ftb.timestamp b.rewards,fx.1⟩

/-- A block posts to a book: its delta does, its rewards are there, and it makes no money. -/
structure Posts (b : FullBlock) (fx : Effects) (book book' : CoinBook) : Prop where
  applied : book.apply (blockDelta E b fx)=some book'
  info : b.isTransactionBlock → b.transactionsInfo.isSome
  claims : b.isTransactionBlock → if b.height=0 then b.rewards.length=0 else b.rewards.length ≥ 2
  balanced : b.isTransactionBlock → (fx.2.map (·.amount)).sum≤(fx.1.map (amountOf book')).sum

/-- A transaction is open, the caches are empty, and nothing interrupts. -/
structure Ready (w : World) : Prop where
  calm : w.interrupt=none
  isOpen : w.saved.isSome
  blockCache : w.blockCache = .new 0
  coinRecordCache : w.coinRecordCache = .new 0

def World.withCoins (w : World) (t : Dict Bytes32 CoinRecord) : World :=
  { w with db := { w.db with coinRecord := t } }

variable {E} {w : World} {t : Dict Bytes32 CoinRecord} {book book' : CoinBook}

@[simp] theorem withCoins_coinRecord (w : World) (t : Dict Bytes32 CoinRecord) :
    (w.withCoins t).db.coinRecord=t := rfl

@[simp] theorem withCoins_withCoins (w : World) (t t' : Dict Bytes32 CoinRecord) :
    (w.withCoins t).withCoins t'=w.withCoins t' := rfl

theorem Ready.bare (h : Ready w) : w.bare=w := by
  obtain ⟨-,-,hb,hc⟩ := h
  cases w
  simp only [World.bare] at hb hc ⊢
  rw [hb,hc]

theorem Ready.withCoins (h : Ready w) (t : Dict Bytes32 CoinRecord) : Ready (w.withCoins t) :=
  ⟨h.calm,h.isOpen,h.blockCache,h.coinRecordCache⟩

theorem Ready.saved (h : Ready w) (db : Tables) : w.saved.or (some db)=w.saved := by
  obtain ⟨s,hs⟩ := Option.isSome_iff_exists.mp h.isOpen
  simp [hs]

theorem Shows.create (hs : Shows E t book) {h timestamp : ℕ} {coinbase : Bool} {c : Coin} :
    Shows E (t.set (E.coinName c) ⟨c,h,0,false,coinbase,timestamp⟩)
      (Function.update book (E.coinName c) (some ⟨⟨c,coinbase,timestamp⟩,h,none⟩)) := by
  refine ⟨fun n => ?_,fun n e he => ?_⟩
  · rw [Dict.get?_set]
    by_cases hn : E.coinName c=n
    · subst hn; simp [coinRecordOf]
    · simp [hn,Function.update_of_ne (Ne.symm hn),hs.get]
  · by_cases hn : n=E.coinName c
    · subst hn
      simp only [Function.update_self,Option.some.injEq] at he
      simp [← he]
    · rw [Function.update_of_ne hn] at he
      exact hs.named n e he

theorem Shows.spend (hs : Shows E t book) {n : Bytes32} {p : CoinPayload} {k h : ℕ}
    (hb : book n=some ⟨p,k,none⟩) : Shows E (t.set n ⟨p.coin,k,h,true,p.coinbase,p.timestamp⟩)
      (Function.update book n (some ⟨p,k,some h⟩)) := by
  refine ⟨fun m => ?_,fun m e he => ?_⟩
  · rw [Dict.get?_set]
    by_cases hn : n=m
    · subst hn; simp [coinRecordOf]
    · simp [hn,Function.update_of_ne (Ne.symm hn),hs.get]
  · by_cases hn : m=n
    · subst hn
      simp only [Function.update_self,Option.some.injEq] at he
      subst he
      exact hs.named m ⟨p,k,none⟩ hb
    · rw [Function.update_of_ne hn] at he
      exact hs.named m e he

theorem amountOf_spend {h : ℕ} {n m : Bytes32} (hb : Book.spend h book n=some book') :
    amountOf book' m=amountOf book m := by
  obtain ⟨e,he,-,rfl⟩ := (Book.spend_eq_some_iff h book book' n).mp hb
  unfold amountOf
  by_cases hm : m=n
  · subst hm; simp [he]
  · rw [Function.update_of_ne hm]

namespace CoinStore

section
variable (hw : Ready w)
include hw

theorem addCoinRecord_ready {r : CoinRecord} (allowReplace : Bool)
    (hfree : allowReplace=false → w.db.coinRecord.get? (E.coinName r.coin)=none) :
    addCoinRecord E r allowReplace w = (.ok (),w.withCoins (w.db.coinRecord.set (E.coinName r.coin) r)) := by
  have hi : insertCoin (E.coinName r.coin) r allowReplace w.db =
      .ok { w.db with coinRecord := w.db.coinRecord.set (E.coinName r.coin) r } :=
    insertCoin_eq_ok.mpr ⟨hfree,rfl⟩
  have hc : w.coinRecordCache.erase (E.coinName r.coin)=w.coinRecordCache := by
    rw [hw.coinRecordCache]
    rfl
  rw [addCoinRecord_calm hw.calm,hi]
  simp only [hw.saved,hc]
  rfl

theorem addCoinRecord_taken {r r' : CoinRecord} (htaken : w.db.coinRecord.get? (E.coinName r.coin)=some r') :
    ∃ w',addCoinRecord E r false w=(.error (.raised .integrity),w') := by
  rw [addCoinRecord_calm hw.calm]
  simp [insertCoin,htaken]

theorem getCoinRecord_ready (name : Bytes32) : getCoinRecord E name w=(.ok (w.db.coinRecord.get? name),w) := by
  have h := getCoinRecord_bare (E := E) hw.calm name
  rwa [hw.bare] at h

section
variable (hs : Shows E w.db.coinRecord book)
include hs

theorem addNewCoin_run (c : Coin)
    (h timestamp : ℕ) (coinbase : Bool) :
    match Book.create h book (E.coinName c,⟨c,coinbase,timestamp⟩) with
    | some book' => ∃ t,addNewCoin E h timestamp coinbase c w=(.ok (),w.withCoins t) ∧
        Shows E t book'
    | none => ∃ e w',addNewCoin E h timestamp coinbase c w=(.error e,w') := by
  have hg := hs.get (E.coinName c)
  unfold Book.create
  cases hb : book (E.coinName c) with
  | none =>
    rw [hb] at hg
    exact ⟨_,addCoinRecord_ready hw false fun _ => hg,hs.create⟩
  | some e =>
    rw [hb] at hg
    obtain ⟨w',hw'⟩ := addCoinRecord_taken (r := ⟨c,h,0,false,coinbase,timestamp⟩) hw hg
    exact ⟨_,w',hw'⟩

/-- Marking a coin as spent ends its life, and fails unless the coin is alive. -/
theorem setSpent_run (n : Bytes32) (h : ℕ) :
    match Book.spend h book n with
    | some book' => ∃ t,setSpent E n h w=(.ok (amountOf book n),w.withCoins t) ∧ Shows E t book'
    | none => ∃ e w',setSpent E n h w=(.error e,w') := by
  have hget := getCoinRecord_ready (E := E) hw n
  rw [hs.get] at hget
  unfold setSpent Book.spend
  rw [Eff.bind_of_ok hget]
  rcases hb : book n with - | ⟨p,k,d⟩
  · exact ⟨_,_,rfl⟩
  cases d with
  | some d => exact ⟨.raised .assertion,w,by simp [coinRecordOf,assertThat]⟩
  | none =>
    have hn : E.coinName p.coin=n := hs.named n _ hb
    have hadd := addCoinRecord_ready (E := E)
      (r := ⟨p.coin,k,h,true,p.coinbase,p.timestamp⟩) hw true (by simp)
    rw [hn] at hadd
    have ha : amountOf book n=p.coin.amount := by simp [amountOf,hb]
    refine ⟨_,?_,hs.spend hb⟩
    have hl : (Eff.lift (assertThat ((coinRecordOf ⟨p,k,none⟩).spent=false)) : NodeM Unit) w =
        (.ok (),w) := rfl
    refine (Eff.bind_of_ok hl _).trans ?_
    refine (Eff.bind_of_ok hadd _).trans ?_
    rw [ha]
    rfl

theorem addCoins_run (coins : List Coin)
    (h timestamp : ℕ) (coinbase : Bool) :
    match (newCoins E coinbase timestamp coins).foldlM (Book.create h) book with
    | some book' => ∃ t,coins.forM (addNewCoin E h timestamp coinbase) w=(.ok (),w.withCoins t) ∧
        Shows E t book'
    | none => ∃ e w',coins.forM (addNewCoin E h timestamp coinbase) w=(.error e,w') := by
  induction coins generalizing w book with
  | nil => exact ⟨_,rfl,hs⟩
  | cons c coins ih =>
    have hc := addNewCoin_run hw hs c h timestamp coinbase
    simp only [newCoins,List.map_cons,List.foldlM_cons]
    cases hb : Book.create h book (E.coinName c,⟨c,coinbase,timestamp⟩) with
    | none =>
      rw [hb] at hc
      obtain ⟨e,w',hrun⟩ := hc
      exact ⟨e,w',Eff.forM_cons_of_error hrun _⟩
    | some book₁ =>
      rw [hb] at hc
      obtain ⟨t,hrun,ht⟩ := hc
      have hrest := ih (hw.withCoins t) ht
      rw [Eff.forM_cons_of_ok hrun]
      exact hrest

end

end

theorem amountOf_spends {h : ℕ} {ns : List Bytes32} {m : Bytes32}
    (hb : ns.foldlM (Book.spend h) book=some book') : amountOf book' m=amountOf book m := by
  induction ns generalizing book with
  | nil =>
    simp only [List.foldlM_nil,Option.pure_def,Option.some.injEq] at hb
    rw [hb]
  | cons n ns ih =>
    simp only [List.foldlM_cons,Option.bind_eq_bind,Option.bind_eq_some_iff] at hb
    obtain ⟨book₁,h₁,h₂⟩ := hb
    rw [ih h₂,amountOf_spend h₁]

theorem setSpentAll_run (hw : Ready w) (hs : Shows E w.db.coinRecord book) (ns : List Bytes32)
    (h : ℕ) :
    match ns.foldlM (Book.spend h) book with
    | some book' => ∃ t,setSpentAll E h ns w=(.ok (ns.map (amountOf book')).sum,w.withCoins t) ∧
        Shows E t book'
    | none => ∃ e w',setSpentAll E h ns w=(.error e,w') := by
  induction ns generalizing w book with
  | nil => exact ⟨_,rfl,hs⟩
  | cons n ns ih =>
    have hn := setSpent_run hw hs n h
    simp only [List.foldlM_cons]
    cases hb : Book.spend h book n with
    | none =>
      rw [hb] at hn
      obtain ⟨e,w',hrun⟩ := hn
      exact ⟨e,w',Eff.bind_of_error hrun _⟩
    | some book₁ =>
      rw [hb] at hn
      obtain ⟨t,hrun,ht⟩ := hn
      have hrest := ih (hw.withCoins t) ht
      simp only [Option.bind_eq_bind,Option.bind_some]
      unfold setSpentAll
      rw [Eff.bind_of_ok hrun]
      cases hl : ns.foldlM (Book.spend h) book₁ with
      | none =>
        rw [hl] at hrest
        obtain ⟨e,w',hrun'⟩ := hrest
        exact ⟨e,w',Eff.bind_of_error hrun' _⟩
      | some book₂ =>
        rw [hl] at hrest
        obtain ⟨t',hrun',ht'⟩ := hrest
        refine ⟨t',?_,ht'⟩
        rw [Eff.bind_of_ok hrun']
        have ha : amountOf book₂ n=amountOf book n := by
          rw [amountOf_spends hl,amountOf_spend hb]
        simp [ha]

theorem getIncludedRewardCoins_eq (b : FullBlock) (hb : b.isTransactionBlock) : b.getIncludedRewardCoins =
      if b.transactionsInfo.isSome then .ok b.rewards else .error (.raised .assertion) := by
  unfold FullBlock.getIncludedRewardCoins FullBlock.rewards
  rw [if_pos hb]
  cases b.transactionsInfo <;> rfl

theorem posts_iff {b : FullBlock} {fx : Effects} {ftb : FoliageTransactionBlock}
    (hb : b.foliageTransactionBlock=some ftb) : Posts E b fx book book' ↔ ∃ book₁ book₂,
      (newCoins E false ftb.timestamp fx.2).foldlM (Book.create b.height) book=some book₁ ∧
      b.transactionsInfo.isSome ∧ (if b.height=0 then b.rewards.length=0 else b.rewards.length ≥ 2) ∧
      (newCoins E true ftb.timestamp b.rewards).foldlM (Book.create b.height) book₁=some book₂ ∧
      fx.1.foldlM (Book.spend b.height) book₂=some book' ∧
      (fx.2.map (·.amount)).sum≤(fx.1.map (amountOf book')).sum := by
  have ht : b.isTransactionBlock := by simp [FullBlock.isTransactionBlock,hb]
  have happly : book.apply (blockDelta E b fx)=some book' ↔ ∃ book₁ book₂,
      (newCoins E false ftb.timestamp fx.2).foldlM (Book.create b.height) book=some book₁ ∧
      (newCoins E true ftb.timestamp b.rewards).foldlM (Book.create b.height) book₁=some book₂ ∧
      fx.1.foldlM (Book.spend b.height) book₂=some book' := by
    simp only [Book.apply,blockDelta,hb,List.foldlM_append,Option.bind_eq_bind,Option.bind_eq_some_iff]
    tauto
  constructor
  · rintro ⟨ha,hi,hc,hm⟩
    obtain ⟨book₁,book₂,h₁,h₂,h₃⟩ := happly.mp ha
    exact ⟨book₁,book₂,h₁,hi ht,hc ht,h₂,h₃,hm ht⟩
  · rintro ⟨book₁,book₂,h₁,hi,hc,h₂,h₃,hm⟩
    exact ⟨happly.mpr ⟨book₁,book₂,h₁,h₂,h₃⟩,fun _ => hi,fun _ => hc,fun _ => hm⟩

theorem newBlock_run (hw : Ready w) (hs : Shows E w.db.coinRecord book) (b : FullBlock) (fx : Effects) :
    (∃ book' t,Posts E b fx book book' ∧ newBlock E b fx.2 fx.1 w=(.ok (),w.withCoins t) ∧ Shows E t book') ∨
    ((∀ book',¬ Posts E b fx book book') ∧ ∃ e w',newBlock E b fx.2 fx.1 w=(.error e,w')) := by
  unfold newBlock
  cases hb : b.foliageTransactionBlock with
  | none =>
    have ht : ¬ b.isTransactionBlock := by simp [FullBlock.isTransactionBlock,hb]
    refine Or.inl ⟨book,w.db.coinRecord,⟨?_,?_,?_,?_⟩,rfl,hs⟩
    · simp [blockDelta,hb,Book.apply]
    all_goals exact fun h => absurd h ht
  | some ftb =>
    have ht : b.isTransactionBlock := by simp [FullBlock.isTransactionBlock,hb]
    simp only [posts_iff hb]
    have h₁ := addCoins_run hw hs fx.2 b.height ftb.timestamp false
    cases hc₁ : (newCoins E false ftb.timestamp fx.2).foldlM (Book.create b.height) book with
    | none =>
      rw [hc₁] at h₁
      obtain ⟨e,w',hrun⟩ := h₁
      exact Or.inr ⟨by simp,e,w',Eff.bind_of_error hrun _⟩
    | some book₁ =>
    rw [hc₁] at h₁
    obtain ⟨t₁,hrun₁,hs₁⟩ := h₁
    rw [Eff.bind_of_ok hrun₁,getIncludedRewardCoins_eq b ht]
    have hw₁ := hw.withCoins t₁
    by_cases hi : b.transactionsInfo.isSome
    swap
    · rw [if_neg hi]
      exact Or.inr ⟨by simp [hi],_,_,rfl⟩
    rw [if_pos hi,Eff.bind_of_ok (Eff.lift_apply _ _)]
    by_cases hcount : if b.height=0 then b.rewards.length=0 else b.rewards.length ≥ 2
    swap
    · refine Or.inr ⟨?_,_,_,Eff.bind_of_error (lift_assertThat_not hcount _) _⟩
      rintro book' ⟨-,-,-,-,hc,-⟩
      exact hcount hc
    rw [Eff.bind_of_ok (lift_assertThat hcount _)]
    have h₂ := addCoins_run hw₁ hs₁ b.rewards b.height ftb.timestamp true
    cases hc₂ : (newCoins E true ftb.timestamp b.rewards).foldlM (Book.create b.height) book₁ with
    | none =>
      rw [hc₂] at h₂
      obtain ⟨e,w',hrun⟩ := h₂
      exact Or.inr ⟨by simp [hc₂],e,w',Eff.bind_of_error hrun _⟩
    | some book₂ =>
    rw [hc₂] at h₂
    obtain ⟨t₂,hrun₂,hs₂⟩ := h₂
    rw [Eff.bind_of_ok hrun₂]
    have h₃ := setSpentAll_run (hw₁.withCoins t₂) hs₂ fx.1 b.height
    cases hc₃ : fx.1.foldlM (Book.spend b.height) book₂ with
    | none =>
      rw [hc₃] at h₃
      obtain ⟨e,w',hrun⟩ := h₃
      exact Or.inr ⟨by simp [hc₂,hc₃],e,w',Eff.bind_of_error hrun _⟩
    | some book₃ =>
    rw [hc₃] at h₃
    obtain ⟨t₃,hrun₃,hs₃⟩ := h₃
    rw [Eff.bind_of_ok hrun₃]
    by_cases hm : (fx.2.map (·.amount)).sum≤(fx.1.map (amountOf book₃)).sum
    · refine Or.inl ⟨book₃,t₃,⟨book₁,book₂,rfl,hi,hcount,hc₂,hc₃,hm⟩,lift_assertThat hm _,hs₃⟩
    · refine Or.inr ⟨?_,_,_,lift_assertThat_not hm _⟩
      rintro book' ⟨b₁,b₂,hb₁,-,-,hb₂,hb₃,hle⟩
      cases hb₁
      rw [hc₂] at hb₂
      cases hb₂
      rw [hc₃] at hb₃
      cases hb₃
      exact hm hle

theorem shows_undone (hs : Shows E t book) (blockIndex : ℤ) :
    Shows E (undone blockIndex t) (Book.keep (blockIndex+1).toNat book) := by
  refine ⟨fun n => ?_,fun n e he => ?_⟩
  · simp only [undone,Dict.get?_mapVals,Dict.get?_filter,hs.get,Book.keep]
    rcases book n with - | ⟨p,k,d⟩
    · rfl
    have hk : ((k : ℤ)≤blockIndex) ↔ k<(blockIndex+1).toNat := by omega
    by_cases hk' : k<(blockIndex+1).toNat
    swap
    · simp [coinRecordOf,Option.filter,hk,hk']
    cases d with
    | none =>
      have hr : rolledBack blockIndex (coinRecordOf ⟨p,k,none⟩)=coinRecordOf ⟨p,k,none⟩ := by
        unfold rolledBack coinRecordOf
        split_ifs <;> rfl
      have hf : (some (coinRecordOf ⟨p,k,none⟩)).filter
          (fun r => decide ((r.confirmedBlockIndex : ℤ)≤blockIndex))=some (coinRecordOf ⟨p,k,none⟩) := by
        simp [coinRecordOf,Option.filter,hk,hk']
      simp only [Option.map_some,hf,hr,hk',if_true,Option.filter_none]
    | some d =>
      have hd : ((d : ℤ) > blockIndex) ↔ ¬ d<(blockIndex+1).toNat := by omega
      have hf : (some (coinRecordOf ⟨p,k,some d⟩)).filter
          (fun r => decide ((r.confirmedBlockIndex : ℤ)≤blockIndex)) =
          some (coinRecordOf ⟨p,k,some d⟩) := by
        simp [coinRecordOf,Option.filter,hk,hk']
      simp only [Option.map_some,hf,hk',if_true]
      by_cases hd' : d<(blockIndex+1).toNat
      · simp [rolledBack,coinRecordOf,hd,hd',Option.filter]
      · simp [rolledBack,coinRecordOf,hd,hd',Option.filter]
  · unfold Book.keep at he
    cases hb : book n with
    | none => simp [hb] at he
    | some e' =>
      simp only [hb] at he
      split_ifs at he
      simp only [Option.some.injEq] at he
      rw [← he]
      exact hs.named n e' hb

theorem rollbackToBlock_ready (hw : Ready w) (blockIndex : ℤ) :
    rollbackToBlock E blockIndex w=(.ok (),w.withCoins (undone blockIndex w.db.coinRecord)) := by
  have h := rollbackToBlock_bare (E := E) hw.calm blockIndex
  rw [hw.bare,hw.saved] at h
  exact h

end CoinStore
end RoseChain
