import RoseChain.FullNode.SpendbundleTotal

namespace RoseChain
open Lib

namespace MempoolManager
variable (E : Env)

def againCall (validateSignature : Bool) (getCoinRecord : CoinReader) (item : MempoolItem) : SpendbundleCall :=
  ⟨item.spendBundle,item.npcResult,item.spendBundleName,validateSignature,some item.program,getCoinRecord⟩

/-- Tries bundles again, one after the other; gives those that are in the pool then. -/
def tryAgain (validateSignature : Bool) (getCoinRecord : CoinReader) : List MempoolItem → ManagerM (List MempoolItem)
  | [] => return []
  | item::items => do
    let (_,status,_) ← (againCall validateSignature getCoinRecord item).run E
    let added ← tryAgain validateSignature getCoinRecord items
    return if status = .success then item::added else added

/-- A new peak: the pool's bundles are tried again, then those that were kept for later. The record that is
logged at the end asks for the fee of a cost of 100000. -/
def newPeak (getCoinRecord : CoinReader) :
    Option BlockRecord → ManagerM (List (SpendBundle × NPCResult × Bytes32))
  | none => return []
  | some newPeak => do
    let s ← Eff.get
    if ¬ newPeak.isTransactionBlock then return []
    else if s.peak=some newPeak then return []
    else do
      let timestamp ← Eff.lift (assertSome newPeak.timestamp)
      if timestamp≤E.initialFreezeEndTimestamp then return []
      else do
        Eff.modify fun s => { s with peak := some newPeak,mempool := Mempool.new (mempoolMaxTotalCost E) }
        let _ ← tryAgain E false getCoinRecord s.mempool.spends.values
        let s ← Eff.get
        Eff.modify fun s => { s with potentialTxs := Dict.empty }
        let txsAdded ← tryAgain E true getCoinRecord s.potentialTxs.values
        let s ← Eff.get
        let _ ← Eff.lift (s.mempool.getMinFeeRate 100000)
        return txsAdded.map fun item => (item.spendBundle,item.npcResult,item.spendBundleName)

/-- The cost of what is kept for later is what the items cost, and within the bound of the constructor. -/
structure Accounts (s : MempoolManager) : Prop where
  cost : s.potentialCacheCost=s.potentialTxs.total (·.cost)
  le : s.potentialCacheCost ≤ s.potentialCacheMaxTotalCost
  bound : s.potentialCacheMaxTotalCost=E.maxBlockCostClvm*5

variable {E} {s : MempoolManager} {item : MempoolItem} {getCoinRecord : CoinReader}

theorem accounts_new : Accounts E (new E) := by
  refine ⟨rfl,?_,rfl⟩
  change (0 : ℤ)≤E.maxBlockCostClvm*5
  positivity

theorem trimPotential_bound (n : ℕ) (s : MempoolManager) :
    (trimPotential n s).2.potentialCacheMaxTotalCost ≤ s.potentialCacheMaxTotalCost := by
  induction n generalizing s with
  | zero => exact le_refl _
  | succ n ih =>
    unfold trimPotential
    rw [Eff.bind_get]
    split_ifs with hfull
    · cases hl : s.potentialTxs.entries with
      | nil => exact le_refl _
      | cons p l =>
        have hrest := ih { s with
          potentialCacheMaxTotalCost := s.potentialCacheMaxTotalCost-p.2.cost
          potentialTxs := s.potentialTxs.erase p.1 }
        have hless : s.potentialCacheMaxTotalCost-(p.2.cost : ℤ) ≤ s.potentialCacheMaxTotalCost := by omega
        exact le_trans hrest hless
    · exact le_refl _

theorem trimPotential_bound_lt (n : ℕ) (s : MempoolManager) (hne : s.potentialTxs.entries≠[])
    (hfull : s.potentialCacheMaxTotalCost<s.potentialCacheCost) :
    (trimPotential (n+1) s).2.potentialCacheMaxTotalCost<s.potentialCacheMaxTotalCost := by
  unfold trimPotential
  rw [Eff.bind_get,if_pos hfull]
  cases hl : s.potentialTxs.entries with
  | nil => exact absurd hl hne
  | cons p l =>
    have hrest := trimPotential_bound n { s with
      potentialCacheMaxTotalCost := s.potentialCacheMaxTotalCost-p.2.cost
      potentialTxs := s.potentialTxs.erase p.1 }
    have hcost := p.2.cost_ne_zero
    have hless : s.potentialCacheMaxTotalCost-(p.2.cost : ℤ)<s.potentialCacheMaxTotalCost := by omega
    exact lt_of_le_of_lt hrest hless

def keeping (s : MempoolManager) (item : MempoolItem) : MempoolManager :=
  { s with
    potentialTxs := s.potentialTxs.set item.spendBundleName item
    potentialCacheCost := s.potentialCacheCost+item.cost }

theorem addToPotentialTxSet_present (h : s.potentialTxs.contains item.spendBundleName) :
    addToPotentialTxSet item s=(.ok (),s) := by
  unfold addToPotentialTxSet
  rw [Eff.bind_get,if_neg (not_not.mpr h)]
  rfl

theorem addToPotentialTxSet_new (h : ¬ s.potentialTxs.contains item.spendBundleName) :
    addToPotentialTxSet item s=trimPotential (s.potentialTxs.size+2) (s.keeping item) := by
  unfold addToPotentialTxSet
  rw [Eff.bind_get,if_pos h]
  rfl

theorem addToPotentialTxSet_fits (h : ¬ s.potentialTxs.contains item.spendBundleName)
    (hfit : s.potentialCacheCost+item.cost ≤ s.potentialCacheMaxTotalCost) :
    addToPotentialTxSet item s=(.ok (),s.keeping item) := by
  have hstop : ¬ (s.keeping item).potentialCacheCost > (s.keeping item).potentialCacheMaxTotalCost := not_lt.mpr hfit
  rw [addToPotentialTxSet_new h,trimPotential,Eff.bind_get,if_neg hstop]
  rfl

theorem addToPotentialTxSet_cases (item : MempoolItem) (s : MempoolManager) :
    addToPotentialTxSet item s=(.ok (),s) ∨ s.potentialTxs.get? item.spendBundleName=none ∧
      s.potentialCacheCost+item.cost ≤ s.potentialCacheMaxTotalCost ∧
      addToPotentialTxSet item s=(.ok (),s.keeping item) ∨ CacheFull s item ∧
      (addToPotentialTxSet item s).2.potentialCacheMaxTotalCost<s.potentialCacheMaxTotalCost := by
  by_cases hin : s.potentialTxs.contains item.spendBundleName
  · exact Or.inl (addToPotentialTxSet_present hin)
  by_cases hfit : s.potentialCacheCost+item.cost ≤ s.potentialCacheMaxTotalCost
  · have hnone : s.potentialTxs.get? item.spendBundleName=none := by
      simpa [Dict.contains] using hin
    exact Or.inr (Or.inl ⟨hnone,hfit,addToPotentialTxSet_fits hin hfit⟩)
  · refine Or.inr (Or.inr ⟨⟨hin,not_le.mp hfit⟩,?_⟩)
    rw [addToPotentialTxSet_new hin]
    apply trimPotential_bound_lt (s.potentialTxs.size+1) (s.keeping item) _ (not_le.mp hfit)
    intro hnil
    have hget : (s.keeping item).potentialTxs.get? item.spendBundleName=some item := Dict.get?_set_self _ _ _
    have hmem := (Dict.mem_entries _ _ _).mpr hget
    rw [hnil] at hmem
    cases hmem

theorem keeping_accounts (h : Accounts E s) (hnone : s.potentialTxs.get? item.spendBundleName=none)
    (hfit : s.potentialCacheCost+item.cost ≤ s.potentialCacheMaxTotalCost) : Accounts E (s.keeping item) := by
  refine ⟨?_,hfit,h.bound⟩
  have htotal := s.potentialTxs.total_set (·.cost) item hnone
  have hcost := h.cost
  change s.potentialCacheCost+item.cost=((s.potentialTxs.set item.spendBundleName item).total (·.cost) : ℕ)
  rw [htotal,hcost]
  push_cast
  rfl

theorem addToPotentialTxSet_accounts (h : Accounts E s) (item : MempoolItem) :
    (addToPotentialTxSet item s).1 = .ok () ∧ Accounts E (addToPotentialTxSet item s).2 ↔ ¬ CacheFull s item := by
  constructor
  · intro hkept hfull
    obtain ⟨e,he⟩ := addToPotentialTxSet_raises.mpr hfull
    rw [hkept.1] at he
    cases he
  · intro hnot
    rcases addToPotentialTxSet_cases item s with hrun | ⟨hnone,hfit,hrun⟩ | ⟨hfull,-⟩
    · rw [hrun]
      exact ⟨rfl,h⟩
    · rw [hrun]
      exact ⟨rfl,keeping_accounts h hnone hfit⟩
    · exact absurd hfull hnot

theorem addToPotentialTxSet_bound (item : MempoolItem) (s : MempoolManager) :
    (addToPotentialTxSet item s).2.potentialCacheMaxTotalCost ≤ s.potentialCacheMaxTotalCost := by
  rcases addToPotentialTxSet_cases item s with hrun | ⟨-,-,hrun⟩ | ⟨-,hlow⟩
  · rw [hrun]
  · rw [hrun]
    exact le_refl _
  · exact le_of_lt hlow

/-- Accounts that cannot be put in order again: the bound is too low, or more is counted than there is. -/
def UpsetCache (E : Env) (s : MempoolManager) : Prop :=
  s.potentialCacheMaxTotalCost<E.maxBlockCostClvm*5 ∨
    s.potentialCacheMaxTotalCost=E.maxBlockCostClvm*5 ∧ s.potentialTxs.total (·.cost)<s.potentialCacheCost

theorem UpsetCache.not_accounts (h : UpsetCache E s) : ¬ Accounts E s := by
  intro ha
  have hcost := ha.cost
  have hbound := ha.bound
  rcases h with h | ⟨-,h⟩ <;> omega

def SoundCache (E : Env) (s : MempoolManager) : Prop :=
  Accounts E s ∨ s.potentialCacheMaxTotalCost<E.maxBlockCostClvm*5

theorem keeps_of_state {α : Type} {I : MempoolManager → Prop} {m : ManagerM α} (h : ∀ s,I s → I (m s).2) :
    Eff.Keeps I m := by
  intro s hs
  have hm := h s hs
  split <;> rename_i heq <;> rw [heq] at hm <;> exact hm

theorem upsetCache_add (item : MempoolItem) : Eff.Keeps (UpsetCache E) (addToPotentialTxSet item) := by
  apply keeps_of_state
  intro s hs
  have hbound := addToPotentialTxSet_bound item s
  rcases hs with hs | ⟨hmax,hs⟩
  · exact Or.inl (lt_of_le_of_lt hbound hs)
  rcases addToPotentialTxSet_cases item s with hrun | ⟨hnone,-,hrun⟩ | ⟨-,hlow⟩
  · rw [hrun]
    exact Or.inr ⟨hmax,hs⟩
  · rw [hrun]
    have htotal := s.potentialTxs.total_set (·.cost) item hnone
    refine Or.inr ⟨hmax,?_⟩
    change (((s.potentialTxs.set item.spendBundleName item).total (·.cost) : ℕ) : ℤ) <
      s.potentialCacheCost+item.cost
    rw [htotal]
    push_cast
    omega
  · exact Or.inl (hmax ▸ hlow)

theorem soundCache_add (item : MempoolItem) : Eff.Keeps (SoundCache E) (addToPotentialTxSet item) := by
  apply keeps_of_state
  intro s hs
  have hbound := addToPotentialTxSet_bound item s
  rcases hs with hs | hs
  · rcases addToPotentialTxSet_cases item s with hrun | ⟨hnone,hfit,hrun⟩ | ⟨-,hlow⟩
    · rw [hrun]
      exact Or.inl hs
    · rw [hrun]
      exact Or.inl (keeping_accounts hs hnone hfit)
    · exact Or.inr (hs.bound ▸ hlow)
  · exact Or.inr (lt_of_le_of_lt hbound hs)

section Frame
variable {I : MempoolManager → Prop} {α β : Type}

theorem keeps_pure (a : α) : Eff.Keeps I (pure a : ManagerM α) := Eff.Triple.pure _ fun _ h => h

theorem keeps_fail (e : Fail) : Eff.Keeps I (Eff.fail e : ManagerM α) := Eff.Triple.fail _ fun _ h => h

variable {f : MempoolManager → ManagerM β}

theorem keeps_read (h : ∀ s,Eff.Keeps I (f s)) : Eff.Keeps I (Eff.get >>= f) :=
  Eff.Triple.read fun s _ => h s

theorem keeps_lift (x : Check α) : Eff.Keeps I (Eff.lift x : ManagerM α) :=
  Eff.Triple.lift (fun _ _ _ h => h) fun _ _ _ h => h

theorem keeps_check (x : Check α) {f : α → ManagerM β} (h : ∀ a,Eff.Keeps I (f a)) :
    Eff.Keeps I (Eff.lift x >>= f) := (keeps_lift x).bind h

def After (I : MempoolManager → Prop) (f : ManagerM β) (s : MempoolManager) : Prop := I (f s).2

theorem after_check {s : MempoolManager} (hs : I s) {x : Check α} {f : α → ManagerM β}
    (h : ∀ a,After I (f a) s) : After I (Eff.lift x >>= f) s := by
  cases x with
  | error e => exact hs
  | ok a => exact h a

theorem after_read {s : MempoolManager} (h : After I (f s) s) : After I (Eff.get >>= f) s := h

theorem after_failing {s : MempoolManager} {f : ManagerM SpendbundleAnswer} (h : After I f s) :
    After I (failing f) s := by
  unfold After at h ⊢
  unfold failing
  rcases hrun : f s with ⟨⟨e | e⟩ | a,s'⟩ <;> rw [hrun] at h <;> exact h

variable (hadd : ∀ item,Eff.Keeps I (addToPotentialTxSet item)) (hpool : ∀ s m,I s → I { s with mempool := m })
include hadd in
theorem pending_keeps (item : MempoolItem) (answer : SpendbundleAnswer) :
    Eff.Keeps I (do addToPotentialTxSet item; return answer) := (hadd item).bind fun _ => keeps_pure _

include hpool

theorem keeps_onMempool (f : MempoolM α) : Eff.Keeps I (onMempool f) := by
  apply keeps_of_state
  intro s hs
  exact hpool s _ hs

theorem replaceConflicts_keeps (item : MempoolItem) (conflicting : Dict Bytes32 MempoolItem) (additions : List Coin)
    (removalCoinDict : Dict Bytes32 Coin) (pairs : List (G1Element × Bytes)) (validateSignature : Bool) :
    Eff.Keeps I (replaceConflicts E item conflicting additions removalCoinDict pairs validateSignature) := by
  apply keeps_check
  intro _
  apply Eff.Keeps.bind (keeps_onMempool hpool _)
  intro _
  apply Eff.Keeps.bind (keeps_onMempool hpool _)
  intro _
  exact keeps_pure _

include hadd

theorem tryReplace_keeps (item : MempoolItem) (peak : BlockRecord) (additions : List Coin)
    (records : Dict Bytes32 CoinRecord) (validateSignature : Bool) (failReason : Option Err)
    (conflicting : Dict Bytes32 MempoolItem) :
    Eff.Keeps I (tryReplace E item peak additions records validateSignature failReason conflicting) := by
  apply keeps_check
  intro accepted
  split
  · exact pending_keeps hadd item _
  · split
    · split
      · exact pending_keeps hadd item _
      · exact keeps_fail _
    · exact keeps_fail _
    · exact replaceConflicts_keeps hpool item conflicting additions _ _ validateSignature

theorem tryItem_keeps (item : MempoolItem) (peak : BlockRecord) (additions : List Coin)
    (records : Dict Bytes32 CoinRecord) (validateSignature : Bool) :
    Eff.Keeps I (tryItem E item peak additions records validateSignature) := by
  apply keeps_read
  intro s
  dsimp only
  split
  · exact keeps_fail _
  · apply keeps_check
    intro conflicting
    exact tryReplace_keeps hadd hpool item peak additions records validateSignature _ conflicting

theorem addSpendbundle_keeps (c : SpendbundleCall) : Eff.Keeps I (c.run E) := by
  apply keeps_of_state
  intro s hs
  change After I (c.run E) s
  unfold SpendbundleCall.run addSpendbundle
  refine after_failing (after_read ?_)
  cases s.peak with
  | none => exact hs
  | some peak =>
    refine after_check hs fun cost => ?_
    refine after_check hs fun _ => ?_
    cases c.npcResult.error with
    | some e => exact hs
    | none =>
      refine after_check hs fun additions => ?_
      refine after_check hs fun additionAmount => ?_
      refine after_check hs fun _ => ?_
      by_cases hseen : s.mempool.spends.contains c.spendName
      · rw [if_pos hseen]
        exact hs
      · rw [if_neg hseen]
        refine after_check hs fun sums => ?_
        obtain ⟨records,removalAmount⟩ := sums
        refine after_check hs fun fees => ?_
        split_ifs with hcost
        · exact hs
        · refine after_check hs fun _ => ?_
          exact (tryItem_keeps hadd hpool _ _ additions _ c.validateSignature).state hs

theorem tryAgain_keeps (validateSignature : Bool) (getCoinRecord : CoinReader) (items : List MempoolItem) :
    Eff.Keeps I (tryAgain E validateSignature getCoinRecord items) := by
  induction items with
  | nil => exact keeps_pure _
  | cons item items ih =>
    unfold tryAgain
    apply Eff.Keeps.bind (addSpendbundle_keeps hadd hpool _)
    intro answer
    apply Eff.Keeps.bind ih
    intro _
    exact keeps_pure _

end Frame

theorem tryAgain_upset (validateSignature : Bool) (getCoinRecord : CoinReader) (items : List MempoolItem) :
    Eff.Keeps (UpsetCache E) (tryAgain E validateSignature getCoinRecord items) :=
  tryAgain_keeps upsetCache_add (fun _ _ h => h) validateSignature getCoinRecord items

theorem tryAgain_sound (validateSignature : Bool) (getCoinRecord : CoinReader) (items : List MempoolItem) :
    Eff.Keeps (SoundCache E) (tryAgain E validateSignature getCoinRecord items) := by
  apply tryAgain_keeps soundCache_add
  intro s m h
  rcases h with h | h
  · exact Or.inl ⟨h.cost,h.le,h.bound⟩
  · exact Or.inr h

variable (E) in
/-- No new transaction block, or one from before the freeze ends. -/
def Ignores (s : MempoolManager) : Option BlockRecord → Prop
  | none => True
  | some newPeak => ¬ newPeak.isTransactionBlock ∨ s.peak=some newPeak ∨
      ∀ timestamp,newPeak.timestamp=some timestamp → timestamp≤E.initialFreezeEndTimestamp

variable (E) in
/-- The pool's bundles tried again on a new peak, before those kept for later. -/
def rebuilt (getCoinRecord : CoinReader) (newPeak : BlockRecord) (s : MempoolManager) :
    Except Fail (List MempoolItem) × MempoolManager :=
  tryAgain E false getCoinRecord s.mempool.spends.values
    { s with peak := some newPeak,mempool := Mempool.new (mempoolMaxTotalCost E) }

variable (E) in
/-- What a bundle of the pool is answered, and the pool then; it counts as kept, so that nothing more is kept.
-/
def judge (getCoinRecord : CoinReader) (newPeak : BlockRecord) (m : Mempool) (item : MempoolItem) :
    Except Fail SpendbundleAnswer × Mempool :=
  let run := (againCall false getCoinRecord item).run E ⟨some newPeak,m,Dict.empty.set item.spendBundleName item,0,0⟩
  (run.1,run.2.mempool)

def isPending : Except Fail SpendbundleAnswer → Bool
  | .ok answer => answer.2.1 = .pending
  | .error _ => false

variable (E) in
/-- One of the bundles turns pending, when they go into a pool one after the other. -/
def turnsPending (getCoinRecord : CoinReader) (newPeak : BlockRecord) : Mempool → List MempoolItem → Bool
  | _,[] => false
  | m,item::items =>
    let judged := judge E getCoinRecord newPeak m item
    isPending judged.1 || judged.1.toBool && turnsPending getCoinRecord newPeak judged.2 items

variable (E) in
/-- Nothing is kept for later, and none of the pool's bundles turns pending on the new peak. -/
structure Undisturbed (getCoinRecord : CoinReader) (newPeak : BlockRecord) (s : MempoolManager) : Prop where
  empty : s.potentialTxs.entries=[]
  settled : turnsPending E getCoinRecord newPeak (Mempool.new (mempoolMaxTotalCost E)) s.mempool.spends.values=false

variable (E) in
def Harmless (getCoinRecord : CoinReader) (newPeak : Option BlockRecord) (s : MempoolManager) : Prop :=
  Ignores E s newPeak ∨ ∀ b,newPeak=some b → Undisturbed E getCoinRecord b s

variable {np : Option BlockRecord}

theorem newPeak_ignored (h : Ignores E s np) : (newPeak E getCoinRecord np s).2=s := by
  cases np with
  | none => rfl
  | some b =>
    unfold newPeak
    dsimp only
    rw [Eff.bind_get]
    by_cases htx : b.isTransactionBlock
    · rw [if_neg (not_not.mpr htx)]
      by_cases hsame : s.peak=some b
      · rw [if_pos hsame]
        rfl
      · rw [if_neg hsame]
        obtain ⟨timestamp,htime⟩ := Option.isSome_iff_exists.mp htx
        have hle := (h.resolve_left (not_not.mpr htx)).resolve_left hsame timestamp htime
        rw [htime,assertSome,Eff.lift_ok_bind,if_pos hle]
        rfl
    · rw [if_pos htx]
      rfl

/-- What is left of a new peak once the pool has been rebuilt. -/
def drain (E : Env) (getCoinRecord : CoinReader) : ManagerM (List (SpendBundle × NPCResult × Bytes32)) := do
  let s ← Eff.get
  Eff.modify fun s => { s with potentialTxs := Dict.empty }
  let txsAdded ← tryAgain E true getCoinRecord s.potentialTxs.values
  let s ← Eff.get
  let _ ← Eff.lift (s.mempool.getMinFeeRate 100000)
  return txsAdded.map fun item => (item.spendBundle,item.npcResult,item.spendBundleName)

theorem newPeak_eq {b : BlockRecord} (h : ¬ Ignores E s (some b)) : newPeak E getCoinRecord (some b) s =
    match rebuilt E getCoinRecord b s with
    | (.ok _,s') => drain E getCoinRecord s'
    | (.error e,s') => (.error e,s') := by
  simp only [Ignores,not_or,not_not,not_forall] at h
  obtain ⟨htx,hsame,timestamp,htime,hlate⟩ := h
  unfold newPeak
  dsimp only
  rw [Eff.bind_get,if_neg (not_not.mpr htx),if_neg hsame,htime,
    assertSome,Eff.lift_ok_bind,if_neg hlate,Eff.bind_of_ok (Eff.modify_apply _ s),Eff.bind_apply]
  rcases hrun : rebuilt E getCoinRecord b s with ⟨r,s'⟩
  unfold rebuilt at hrun
  rw [hrun]
  cases r <;> rfl

theorem total_of_entries {d : Dict Bytes32 MempoolItem} (h : d.entries=[]) : d.total (·.cost)=0 := by
  simp [Dict.total,Dict.values,h]

theorem drain_accounts (h : Accounts E s) (hempty : s.potentialTxs.entries=[]) :
    Accounts E (drain E getCoinRecord s).2 := by
  have hvalues : s.potentialTxs.values=[] := by simp [Dict.values,hempty]
  have hnone : Accounts E { s with potentialTxs := Dict.empty } := by
    refine ⟨?_,h.le,h.bound⟩
    have hcost := h.cost
    rw [total_of_entries hempty] at hcost
    exact hcost
  unfold drain
  rw [Eff.bind_get,Eff.bind_of_ok (Eff.modify_apply _ s),hvalues,tryAgain,pure_bind,
    Eff.bind_get,Eff.bind_apply,Eff.lift_apply]
  split <;> rename_i heq <;> rw [← (Prod.mk.inj heq).2] <;> exact hnone

theorem drain_upset (h : UpsetCache E { s with potentialTxs := Dict.empty }) :
    UpsetCache E (drain E getCoinRecord s).2 := by
  have hagain := (tryAgain_upset true getCoinRecord s.potentialTxs.values).state h
  unfold drain
  rw [Eff.bind_get,Eff.bind_of_ok (Eff.modify_apply _ s),Eff.bind_apply]
  rcases hrun : tryAgain E true getCoinRecord s.potentialTxs.values { s with potentialTxs := Dict.empty } with
    ⟨e | txsAdded,s'⟩
  · rw [hrun] at hagain
    exact hagain
  · rw [hrun] at hagain
    dsimp only at hagain ⊢
    rw [Eff.bind_get,Eff.bind_apply,Eff.lift_apply]
    split <;> rename_i heq <;> rw [← (Prod.mk.inj heq).2] <;> exact hagain

theorem upsetCache_of_kept (h : Accounts E s) (hkept : s.potentialTxs.entries≠[]) :
    UpsetCache E { s with potentialTxs := Dict.empty } := by
  refine Or.inr ⟨h.bound,?_⟩
  have hcost := h.cost
  obtain ⟨p,l,hl⟩ := List.exists_cons_of_ne_nil hkept
  have htotal : s.potentialTxs.total (·.cost)=p.2.cost+(l.map (·.2.cost)).sum := by
    simp [Dict.total,Dict.values,hl,Function.comp_def]
  have hpos := p.2.cost_ne_zero
  change ((0 : ℕ) : ℤ)<s.potentialCacheCost
  omega

theorem rebuilt_sound (h : Accounts E s) (b : BlockRecord) : SoundCache E (rebuilt E getCoinRecord b s).2 :=
  (tryAgain_sound false getCoinRecord s.mempool.spends.values).state
    (s := { s with peak := some b,mempool := Mempool.new (mempoolMaxTotalCost E) }) (Or.inl ⟨h.cost,h.le,h.bound⟩)

section Judged

def pend (item : MempoolItem) (answer : SpendbundleAnswer) : ManagerM SpendbundleAnswer := do
  addToPotentialTxSet item
  return answer

/-- Two runs with the same pool: both keep the same item of this name for later, or they end alike and keep
none. -/
def Alike (name : Bytes32) (f g : ManagerM SpendbundleAnswer) (s t : MempoolManager) : Prop :=
  (∃ item answer,item.spendBundleName=name ∧ answer.2.1 = .pending ∧ f s=pend item answer s ∧
      g t=pend item answer t) ∨
    ∃ r m,(∀ answer,r = .ok answer → answer.2.1 ≠ .pending) ∧ f s=(r,{ s with mempool := m }) ∧
      g t=(r,{ t with mempool := m })

variable {name : Bytes32} {t : MempoolManager} {α : Type}

variable {answer : SpendbundleAnswer}

theorem alike_pend (hname : item.spendBundleName=name) (hpending : answer.2.1 = .pending) :
    Alike name (pend item answer) (pend item answer) s t := Or.inl ⟨item,answer,hname,hpending,rfl,rfl⟩

theorem alike_fail (hpool : s.mempool=t.mempool) (e : Fail) : Alike name (Eff.fail e) (Eff.fail e) s t := by
  refine Or.inr ⟨.error e,s.mempool,?_,rfl,?_⟩
  · intro answer h
    cases h
  · rw [hpool]
    rfl

theorem alike_return (hpool : s.mempool=t.mempool) (hanswer : answer.2.1 ≠ .pending) :
    Alike name (pure answer) (pure answer) s t := by
  refine Or.inr ⟨.ok answer,s.mempool,?_,rfl,?_⟩
  · intro answer' h
    rw [← Except.ok.inj h]
    exact hanswer
  · rw [hpool]
    rfl

theorem alike_check (hpool : s.mempool=t.mempool) {x : Check α} {f g : α → ManagerM SpendbundleAnswer}
    (h : ∀ a,Alike name (f a) (g a) s t) : Alike name (Eff.lift x >>= f) (Eff.lift x >>= g) s t := by
  cases x with
  | error e => exact alike_fail hpool e
  | ok a => exact h a

theorem trimPotential_raised (n : ℕ) (s : MempoolManager) (e : Err) : (trimPotential n s).1 ≠ .error (.invalid e) := by
  induction n generalizing s with
  | zero => simp [trimPotential]
  | succ n ih =>
    unfold trimPotential
    rw [Eff.bind_get]
    split_ifs
    · cases hl : s.potentialTxs.entries with
      | nil => simp [index]
      | cons p l => exact ih _
    · simp

theorem failing_pend (answer : SpendbundleAnswer) : failing (pend item answer)=pend item answer := by
  funext s
  have hraised (e : Err) : (addToPotentialTxSet item s).1 ≠ .error (.invalid e) := by
    by_cases hin : s.potentialTxs.contains item.spendBundleName
    · rw [addToPotentialTxSet_present hin]
      simp
    · rw [addToPotentialTxSet_new hin]
      exact trimPotential_raised _ _ e
  unfold failing pend
  rcases hrun : addToPotentialTxSet item s with ⟨⟨e | e⟩ | a,s'⟩
  · rw [hrun] at hraised
    exact absurd rfl (hraised e)
  · rw [Eff.bind_of_error hrun]
  · rw [Eff.bind_of_ok hrun]
    rfl

theorem alike_failing {f g : ManagerM SpendbundleAnswer} (h : Alike name f g s t) :
    Alike name (failing f) (failing g) s t := by
  obtain ⟨item,answer,hname,hpending,hf,hg⟩ | ⟨r,m,hr,hf,hg⟩ := h
  · refine Or.inl ⟨item,answer,hname,hpending,?_,?_⟩
    · rw [← failing_pend]
      simp only [failing,hf]
    · rw [← failing_pend]
      simp only [failing,hg]
  · unfold Alike
    simp only [failing,hf,hg]
    rcases r with ⟨e | e⟩ | answer
    · exact Or.inr ⟨_,m,by simp,rfl,rfl⟩
    · exact Or.inr ⟨_,m,by simp,rfl,rfl⟩
    · exact Or.inr ⟨_,m,hr,rfl,rfl⟩

theorem alike_read {f g : MempoolManager → ManagerM SpendbundleAnswer} (h : Alike name (f s) (g t) s t) :
    Alike name (Eff.get >>= f) (Eff.get >>= g) s t := h

theorem onMempool_bind {β : Type} (f : MempoolM α) (g : α → ManagerM β) : (onMempool f >>= g) s =
    match f s.mempool with
    | (.ok a,m) => g a { s with mempool := m }
    | (.error e,m) => (.error e,{ s with mempool := m }) := by
  rw [Eff.bind_apply]
  unfold onMempool
  rcases f s.mempool with ⟨e | a,m⟩ <;> rfl

theorem replaceConflicts_alike (hpool : s.mempool=t.mempool) (item : MempoolItem)
    (conflicting : Dict Bytes32 MempoolItem) (additions : List Coin) (removalCoinDict : Dict Bytes32 Coin)
    (pairs : List (G1Element × Bytes)) (validateSignature : Bool) :
    Alike name (replaceConflicts E item conflicting additions removalCoinDict pairs validateSignature)
      (replaceConflicts E item conflicting additions removalCoinDict pairs validateSignature) s t := by
  unfold replaceConflicts
  refine alike_check hpool fun _ => ?_
  unfold Alike
  simp only [onMempool_bind,hpool]
  refine Or.inr ?_
  rcases conflicting.values.forM (Mempool.removeFromPool E) t.mempool with ⟨e | _,m⟩
  · exact ⟨.error e,m,by simp,rfl,rfl⟩
  · dsimp only
    rcases Mempool.addToPool E item additions removalCoinDict m with ⟨e | _,m'⟩
    · exact ⟨.error e,m',by simp,rfl,rfl⟩
    · exact ⟨.ok (some item.cost,.success,none),m',by simp,rfl,rfl⟩

theorem tryReplace_alike (hpool : s.mempool=t.mempool) (hname : item.spendBundleName=name) (peak : BlockRecord)
    (additions : List Coin) (records : Dict Bytes32 CoinRecord) (validateSignature : Bool) (failReason : Option Err)
    (conflicting : Dict Bytes32 MempoolItem) :
    Alike name (tryReplace E item peak additions records validateSignature failReason conflicting)
      (tryReplace E item peak additions records validateSignature failReason conflicting) s t := by
  refine alike_check hpool fun accepted => ?_
  split
  · exact alike_pend hname rfl
  · split
    · split
      · exact alike_pend hname rfl
      · exact alike_fail hpool _
    · exact alike_fail hpool _
    · exact replaceConflicts_alike hpool item conflicting additions _ _ validateSignature

theorem addSpendbundle_alike (hpeak : s.peak=t.peak) (hpool : s.mempool=t.mempool) (c : SpendbundleCall) :
    Alike c.spendName (c.run E) (c.run E) s t := by
  unfold SpendbundleCall.run addSpendbundle
  refine alike_failing (alike_read ?_)
  rw [hpeak,hpool]
  cases t.peak with
  | none => exact alike_return hpool (by simp)
  | some peak =>
    refine alike_check hpool fun cost => ?_
    refine alike_check hpool fun _ => ?_
    cases c.npcResult.error with
    | some e => exact alike_fail hpool _
    | none =>
      refine alike_check hpool fun additions => ?_
      refine alike_check hpool fun additionAmount => ?_
      refine alike_check hpool fun _ => ?_
      by_cases hseen : t.mempool.spends.contains c.spendName
      · rw [if_pos hseen]
        exact alike_return hpool (by simp)
      · rw [if_neg hseen]
        refine alike_check hpool fun sums => ?_
        obtain ⟨records,removalAmount⟩ := sums
        refine alike_check hpool fun fees => ?_
        split_ifs with hcost
        · exact alike_fail hpool _
        · refine alike_check hpool fun _ => ?_
          unfold tryItem
          refine alike_read ?_
          rw [hpool]
          dsimp only
          split
          · exact alike_fail hpool _
          · refine alike_check hpool fun conflicting => ?_
            apply tryReplace_alike hpool
            rfl

variable {b : BlockRecord}

theorem pend_present (h : s.potentialTxs.contains item.spendBundleName) (answer : SpendbundleAnswer) :
    pend item answer s=(.ok answer,s) := by
  unfold pend
  rw [Eff.bind_of_ok (addToPotentialTxSet_present h)]
  rfl

theorem again_judged (hpeak : s.peak=some b) (getCoinRecord : CoinReader) (item : MempoolItem) :
    (isPending (judge E getCoinRecord b s.mempool item).1=true ∧ ∃ item' answer,
        (againCall false getCoinRecord item).run E s=pend item' answer s) ∨
      isPending (judge E getCoinRecord b s.mempool item).1=false ∧
        (againCall false getCoinRecord item).run E s =
          ((judge E getCoinRecord b s.mempool item).1,{ s with mempool := (judge E getCoinRecord b s.mempool item).2 }) := by
  have halike := addSpendbundle_alike (E := E) (t := ⟨some b,s.mempool,Dict.empty.set item.spendBundleName item,0,0⟩)
    hpeak rfl (againCall false getCoinRecord item)
  unfold judge
  obtain ⟨item',answer,hname,hpending,hs,ht⟩ | ⟨r,m,hr,hs,ht⟩ := halike
  · have hthere : (Dict.empty.set item.spendBundleName item).contains item'.spendBundleName=true := by
      rw [hname]
      unfold Dict.contains
      change ((Dict.empty.set item.spendBundleName item).get? item.spendBundleName).isSome=true
      rw [Dict.get?_set_self]
      rfl
    rw [pend_present hthere] at ht
    refine Or.inl ⟨?_,item',answer,hs⟩
    rw [ht]
    simp only [isPending,hpending,decide_true]
  · rw [ht]
    refine Or.inr ⟨?_,hs⟩
    cases r with
    | error e => rfl
    | ok answer => simp only [isPending,hr answer rfl,decide_false]

theorem tryAgain_settled (getCoinRecord : CoinReader) (items : List MempoolItem) (hpeak : s.peak=some b)
    (h : turnsPending E getCoinRecord b s.mempool items=false) :
    ∃ r m,tryAgain E false getCoinRecord items s=(r,{ s with mempool := m }) := by
  induction items generalizing s with
  | nil => exact ⟨.ok [],s.mempool,rfl⟩
  | cons item items ih =>
    simp only [turnsPending,Bool.or_eq_false_iff,Bool.and_eq_false_iff] at h
    unfold tryAgain
    obtain ⟨hpending,-⟩ | ⟨-,hrun⟩ := again_judged hpeak getCoinRecord item
    · rw [h.1] at hpending
      cases hpending
    · generalize judge E getCoinRecord b s.mempool item=judged at h hrun
      obtain ⟨e | answer,m⟩ := judged
      · exact ⟨.error e,m,Eff.bind_of_error hrun _⟩
      · have hnext := h.2.resolve_left Bool.noConfusion
        obtain ⟨r',m',hrest⟩ := ih (s := { s with mempool := m }) hpeak hnext
        rw [Eff.bind_of_ok hrun]
        cases r' with
        | error e => exact ⟨_,m',Eff.bind_of_error hrest _⟩
        | ok added => exact ⟨_,m',Eff.bind_of_ok hrest _⟩

/-- Something is kept for later, or the bound has been lowered. -/
def Stirred (bound : ℤ) (s : MempoolManager) : Prop :=
  s.potentialCacheMaxTotalCost<bound ∨ s.potentialCacheMaxTotalCost=bound ∧ s.potentialTxs.entries≠[]

theorem entries_ne_nil {d : Dict Bytes32 MempoolItem} {n : Bytes32} (h : d.get? n=some item) : d.entries≠[] := by
  have hmem := (Dict.mem_entries _ _ _).mpr h
  intro hnil
  rw [hnil] at hmem
  cases hmem

variable {bound : ℤ}

theorem addToPotentialTxSet_stirs (item : MempoolItem) (h : s.potentialCacheMaxTotalCost≤bound) :
    Stirred bound (addToPotentialTxSet item s).2 := by
  by_cases hlow : s.potentialCacheMaxTotalCost<bound
  · exact Or.inl (lt_of_le_of_lt (addToPotentialTxSet_bound item s) hlow)
  have hbound := le_antisymm h (not_lt.mp hlow)
  by_cases hin : s.potentialTxs.contains item.spendBundleName
  · rw [addToPotentialTxSet_present hin]
    obtain ⟨other,hother⟩ := Option.isSome_iff_exists.mp hin
    exact Or.inr ⟨hbound,entries_ne_nil hother⟩
  by_cases hfit : s.potentialCacheCost+item.cost ≤ s.potentialCacheMaxTotalCost
  · rw [addToPotentialTxSet_fits hin hfit]
    exact Or.inr ⟨hbound,entries_ne_nil (Dict.get?_set_self _ _ _)⟩
  · obtain hsame | ⟨-,hfit',-⟩ | ⟨-,hless⟩ := addToPotentialTxSet_cases item s
    · have hraised := addToPotentialTxSet_raises.mpr ⟨hin,not_le.mp hfit⟩
      obtain ⟨e,he⟩ := hraised
      rw [hsame] at he
      cases he
    · exact absurd hfit' hfit
    · exact Or.inl (hbound ▸ hless)

theorem stirred_add (item : MempoolItem) : Eff.Keeps (Stirred bound) (addToPotentialTxSet item) := by
  apply keeps_of_state
  intro s hs
  apply addToPotentialTxSet_stirs
  obtain hlow | ⟨heq,-⟩ := hs
  · exact le_of_lt hlow
  · exact le_of_eq heq

theorem tryAgain_stirs (getCoinRecord : CoinReader) (items : List MempoolItem) (hpeak : s.peak=some b)
    (hle : s.potentialCacheMaxTotalCost≤bound) (h : turnsPending E getCoinRecord b s.mempool items=true) :
    Stirred bound (tryAgain E false getCoinRecord items s).2 := by
  induction items generalizing s with
  | nil => cases h
  | cons item items ih =>
    simp only [turnsPending,Bool.or_eq_true,Bool.and_eq_true] at h
    unfold tryAgain
    have hrest {s' : MempoolManager} (hs' : Stirred bound (tryAgain E false getCoinRecord items s').2)
        (f : List MempoolItem → List MempoolItem) :
        Stirred bound ((do return f (← tryAgain E false getCoinRecord items) : ManagerM (List MempoolItem)) s').2 := by
      rw [Eff.bind_apply]
      rcases htry : tryAgain E false getCoinRecord items s' with ⟨e | added,s''⟩
      · rw [htry] at hs'
        exact hs'
      · rw [htry] at hs'
        exact hs'
    obtain ⟨-,item',answer,hrun⟩ | ⟨hpending,hrun⟩ := again_judged hpeak getCoinRecord item
    · have hstirs := addToPotentialTxSet_stirs item' hle
      unfold pend at hrun
      rcases hadd : addToPotentialTxSet item' s with ⟨e | _,s'⟩
      · rw [Eff.bind_of_error hadd] at hrun
        rw [hadd] at hstirs
        rw [Eff.bind_of_error hrun]
        exact hstirs
      · rw [Eff.bind_of_ok hadd] at hrun
        rw [hadd] at hstirs
        rw [Eff.bind_of_ok hrun]
        exact hrest ((tryAgain_keeps (E := E) stirred_add (fun _ _ h => h) false getCoinRecord items).state hstirs) _
    · rw [hpending,Bool.false_eq_true,false_or] at h
      generalize judge E getCoinRecord b s.mempool item=judged at h hrun
      obtain ⟨e | answer,m⟩ := judged
      · exact Bool.noConfusion h.1
      · rw [Eff.bind_of_ok hrun]
        exact hrest (ih (s := { s with mempool := m }) hpeak hle h.2) _

end Judged

theorem rebuilt_undisturbed {b : BlockRecord} (h : Undisturbed E getCoinRecord b s) :
    ∃ r m,rebuilt E getCoinRecord b s=(r,{ s with peak := some b,mempool := m }) :=
  tryAgain_settled (s := { s with peak := some b,mempool := Mempool.new (mempoolMaxTotalCost E) }) getCoinRecord
    s.mempool.spends.values rfl h.settled

theorem drained_accounts (h : Accounts E s) {b : BlockRecord} {added : List MempoolItem} {s' : MempoolManager}
    (hrun : rebuilt E getCoinRecord b s=(.ok added,s')) :
    Accounts E (drain E getCoinRecord s').2 ↔ Undisturbed E getCoinRecord b s := by
  constructor
  · intro ha
    have hsound : SoundCache E (rebuilt E getCoinRecord b s).2 := rebuilt_sound h b
    rw [hrun] at hsound
    have hok : Accounts E s' := by
      apply hsound.resolve_right
      intro hlow
      exact (drain_upset (Or.inl hlow)).not_accounts ha
    have hnot : ¬ Stirred (E.maxBlockCostClvm*5) s' := by
      rintro (hlow | ⟨-,hkept⟩)
      · exact absurd hok.bound (ne_of_lt hlow)
      · exact (drain_upset (upsetCache_of_kept hok hkept)).not_accounts ha
    constructor
    · by_contra hkept
      apply hnot
      have hstirs := (tryAgain_keeps (E := E) stirred_add (fun _ _ h => h) false getCoinRecord
        s.mempool.spends.values).state (s := { s with peak := some b,mempool := Mempool.new (mempoolMaxTotalCost E) })
        (Or.inr ⟨h.bound,hkept⟩)
      unfold rebuilt at hrun
      rw [hrun] at hstirs
      exact hstirs
    · by_contra hpending
      apply hnot
      have hstirs := tryAgain_stirs (s := { s with peak := some b,mempool := Mempool.new (mempoolMaxTotalCost E) })
        getCoinRecord s.mempool.spends.values rfl (le_of_eq h.bound) (by simpa using hpending)
      unfold rebuilt at hrun
      rw [hrun] at hstirs
      exact hstirs
  · intro hund
    obtain ⟨r,m,hrebuilt⟩ := rebuilt_undisturbed hund
    rw [hrun] at hrebuilt
    rw [(Prod.mk.inj hrebuilt).2]
    exact drain_accounts ⟨h.cost,h.le,h.bound⟩ hund.empty

theorem harmless_iff {b : BlockRecord} (hign : ¬ Ignores E s (some b)) :
    Harmless E getCoinRecord (some b) s ↔ Undisturbed E getCoinRecord b s := by
  constructor
  · intro hor
    exact hor.resolve_left hign b rfl
  · intro hund
    apply Or.inr
    intro b' hb
    rw [← Option.some.inj hb]
    exact hund

theorem newPeak_accounts (h : Accounts E s) (hnp : Harmless E getCoinRecord np s) :
    Accounts E (newPeak E getCoinRecord np s).2 := by
  by_cases hign : Ignores E s np
  · rw [newPeak_ignored hign]
    exact h
  cases np with
  | none => exact absurd trivial hign
  | some b =>
    have hund := (harmless_iff hign).mp hnp
    rw [newPeak_eq hign]
    rcases hrun : rebuilt E getCoinRecord b s with ⟨e | added,s'⟩
    · obtain ⟨r,m,hrebuilt⟩ := rebuilt_undisturbed hund
      rw [hrun] at hrebuilt
      dsimp only
      rw [(Prod.mk.inj hrebuilt).2]
      exact ⟨h.cost,h.le,h.bound⟩
    · exact (drained_accounts h hrun).mpr hund

theorem newPeak_harmless (h : Accounts E s)
    {added : List (SpendBundle × NPCResult × Bytes32)} (hok : (newPeak E getCoinRecord np s).1 = .ok added)
    (ha : Accounts E (newPeak E getCoinRecord np s).2) : Harmless E getCoinRecord np s := by
  by_cases hign : Ignores E s np
  · exact Or.inl hign
  cases np with
  | none => exact absurd trivial hign
  | some b =>
    rw [newPeak_eq hign] at hok ha
    rcases hrun : rebuilt E getCoinRecord b s with ⟨e | added,s'⟩
    · rw [hrun] at hok
      cases hok
    · rw [hrun] at ha
      exact (harmless_iff hign).mpr ((drained_accounts h hrun).mp ha)

end MempoolManager

open MempoolManager

/-- Managers after adds that do not overflow and new peaks that are harmless, whatever else the node does with the
pool and the peak in between. -/
inductive PotentialRun (E : Env) : MempoolManager → Prop
  | start : PotentialRun E (MempoolManager.new E)
  | add {s : MempoolManager} (h : PotentialRun E s) {item : MempoolItem} (hfit : ¬ CacheFull s item) :
      PotentialRun E (addToPotentialTxSet item s).2
  | newPeak {s : MempoolManager} (h : PotentialRun E s) {getCoinRecord : CoinReader} {np : Option BlockRecord}
      (hnp : Harmless E getCoinRecord np s) : PotentialRun E (MempoolManager.newPeak E getCoinRecord np s).2
  | other {s : MempoolManager} (h : PotentialRun E s) (peak : Option BlockRecord) (mempool : Mempool) :
      PotentialRun E { s with peak,mempool }

variable {E : Env} {s : MempoolManager}

/-- The accounts of what is kept hold in every such run; any other add, and any other new peak that returns,
upsets them. -/
theorem potentialRun_accounts (h : PotentialRun E s) : Accounts E s ∧
    (∀ item,(addToPotentialTxSet item s).1 = .ok () ∧ Accounts E (addToPotentialTxSet item s).2 ↔
      ¬ CacheFull s item) ∧
    ∀ getCoinRecord np added,(MempoolManager.newPeak E getCoinRecord np s).1 = .ok added →
      (Accounts E (MempoolManager.newPeak E getCoinRecord np s).2 ↔ Harmless E getCoinRecord np s) := by
  have hall : Accounts E s := by
    induction h with
    | start => exact accounts_new
    | add _ hfit ih => exact ((addToPotentialTxSet_accounts ih _).mpr hfit).2
    | newPeak _ hnp ih => exact newPeak_accounts ih hnp
    | other _ peak mempool ih => exact ⟨ih.cost,ih.le,ih.bound⟩
  refine ⟨hall,addToPotentialTxSet_accounts hall,?_⟩
  intro getCoinRecord np added hok
  exact ⟨newPeak_harmless hall hok,newPeak_accounts hall⟩

/-- An item kept for later, as `add_spendbundle` makes it from the small bundle. -/
def tinyKept : MempoolItem :=
  ⟨tinyCall.newSpend,4,tinyCall.npcResult,9,7,[tinyMade],[tinySpent],[],by decide⟩

def tinyKeptToo : MempoolItem := { tinyKept with spendBundleName := 8,cost := 6,cost_ne_zero := by decide }

def tinyPool : MempoolManager := { tinyManager with mempool := (tinyCall.run tinyPoolEnv tinyManager).2.mempool }

def otherPeak : BlockRecord := { tinyPeak with headerHash := 11 }

/-- The pool goes over to another peak, then two bundles are kept for later. -/
theorem potentialRun_accounts_tiny :
    let rebuilt := (MempoolManager.newPeak tinyPoolEnv tinyCall.getCoinRecord (some otherPeak) tinyPool).2
    let kept := (addToPotentialTxSet tinyKeptToo (addToPotentialTxSet tinyKept rebuilt).2).2
    rebuilt.mempool.spends.size=1 ∧ kept.potentialTxs.size=2 ∧ kept.potentialCacheCost=15 ∧ Accounts tinyPoolEnv kept := by
  intro rebuilt kept
  have hother (m : Mempool) : PotentialRun tinyPoolEnv { tinyManager with mempool := m } :=
    PotentialRun.start.other (some tinyPeak) m
  have hstart : PotentialRun tinyPoolEnv tinyPool := hother (tinyCall.run tinyPoolEnv tinyManager).2.mempool
  have hrebuilt : PotentialRun tinyPoolEnv rebuilt := by
    apply hstart.newPeak
    apply Or.inr
    intro b hb
    rw [← Option.some.inj hb]
    exact ⟨by decide +kernel,by decide +kernel⟩
  have hfirst : ¬ CacheFull rebuilt tinyKept := fun hfull => absurd hfull.2 (by decide +kernel)
  have hsecond : ¬ CacheFull (addToPotentialTxSet tinyKept rebuilt).2 tinyKeptToo := fun hfull =>
    absurd hfull.2 (by decide +kernel)
  exact ⟨by decide +kernel,by decide +kernel,by decide +kernel,
    (potentialRun_accounts ((hrebuilt.add hfirst).add hsecond)).1⟩

/-- The coin is gone at the new peak: the bundle is dropped, and its cost stays counted. -/
theorem newPeak_counts_dropped :
    let kept := addToPotentialTxSet tinyKept (MempoolManager.new tinyPoolEnv)
    let dropped := MempoolManager.newPeak tinyPoolEnv (fun _ => none) (some tinyPeak) kept.2
    kept.1 = .ok () ∧ dropped.1 = .ok [] ∧ dropped.2.potentialTxs.size=0 ∧ dropped.2.potentialCacheCost=9 ∧
      ¬ Accounts tinyPoolEnv dropped.2 := by
  intro kept dropped
  have hcost : dropped.2.potentialCacheCost=9 := by decide +kernel
  have hsize : dropped.2.potentialTxs.total (·.cost)=0 := by decide +kernel
  refine ⟨by decide +kernel,by decide +kernel,by decide +kernel,hcost,?_⟩
  intro ha
  have hsum := ha.cost
  rw [hcost,hsize] at hsum
  cases hsum

end RoseChain
