import RoseChain.FullNode.CleanChecks
import RoseChain.FullNode.MempoolIndexes

namespace RoseChain
open Lib MempoolItem

/-- One call of `add_spendbundle`, with the coin store as it is then. -/
structure SpendbundleCall where
  newSpend : SpendBundle
  npcResult : NPCResult
  spendName : Bytes32
  validateSignature : Bool
  program : Option SerializedProgram
  getCoinRecord : CoinReader

def SpendbundleCall.run (E : Env) (c : SpendbundleCall) : ManagerM SpendbundleAnswer :=
  MempoolManager.addSpendbundle E c.newSpend c.npcResult c.spendName c.validateSignature c.program c.getCoinRecord

/-- What callers promise: the conditions are those of `get_name_puzzle_conditions`, the bundle agrees, and the
coin store finds a coin under its own name. `S` holds of the coins created. -/
structure Promised (E : Env) (S : Coin → Prop) (c : SpendbundleCall) : Prop where
  parsed : ∃ generator maxCost,c.npcResult=getNamePuzzleConditions E generator maxCost true
  removals : (c.newSpend.removals.map E.coinName).Perm (c.npcResult.npcList.map (·.coinName))
  additions : ∀ additions,additionsForNpc c.npcResult.npcList = .ok additions →
    c.newSpend.additions.Perm additions
  named : ∀ n r,c.getCoinRecord n=some r → E.coinName r.coin=n
  created : ∀ a∈c.newSpend.additions,S a

theorem Promised.of_answers {E : Env} {S : Coin → Prop} {c : SpendbundleCall} {k : Bytes32} {record : CoinRecord}
    (hparsed : ∃ generator maxCost,c.npcResult=getNamePuzzleConditions E generator maxCost true)
    (hnames : c.npcResult.npcList.map (·.coinName)=c.newSpend.removals.map E.coinName)
    (hadd : additionsForNpc c.npcResult.npcList = .ok c.newSpend.additions)
    (hrecord : ∀ n,c.getCoinRecord n=if n=k then some record else none) (hk : E.coinName record.coin=k)
    (hS : ∀ a∈c.newSpend.additions,S a) : Promised E S c := by
  refine ⟨hparsed,.of_eq hnames.symm,fun additions h => .of_eq (Except.ok.inj (hadd.symm.trans h)),?_,hS⟩
  intro n r h
  rw [hrecord] at h
  split_ifs at h with hn
  rw [← Option.some.inj h,hn,hk]

/-- The managers after calls of `add_spendbundle`; a new peak makes a new pool, and whatever `new_peak` puts
back into it is put there by further calls. -/
inductive MempoolRun (E : Env) (S : Coin → Prop) : MempoolManager → Prop
  | start : MempoolRun E S (MempoolManager.new E)
  | newPeak {s : MempoolManager} (h : MempoolRun E S s) {peak : BlockRecord} (hp : peak.isTransactionBlock) :
      MempoolRun E S { s with
        peak := some peak
        mempool := Mempool.new (MempoolManager.mempoolMaxTotalCost E)
        potentialTxs := Dict.empty }
  | addSpendbundle {s : MempoolManager} (h : MempoolRun E S s) {c : SpendbundleCall} (hc : Promised E S c) :
      MempoolRun E S (c.run E s).2

/-- The pool is in order, and the peak is a transaction block. -/
structure Managed (E : Env) (S : Coin → Prop) (s : MempoolManager) : Prop where
  pool : Pool E S s.mempool
  peak : ∀ p,s.peak=some p → p.timestamp.isSome

/-- A call leaves the pool in order, and an error is none that a broken index would cause. -/
def Fine {α : Type} (E : Env) (S : Coin → Prop) (f : ManagerM α) (s : MempoolManager) : Prop :=
  Managed E S (f s).2 ∧ ∀ e,(f s).1 = .error e → e.Clean

section Rules
variable {E : Env} {S : Coin → Prop} {α β : Type} {s : MempoolManager}

theorem fine_pure (hs : Managed E S s) (a : α) : Fine E S (pure a) s := by
  refine ⟨hs,?_⟩
  intro e he
  cases he

theorem fine_fail (hs : Managed E S s) {e : Fail} (he : e.Clean) : Fine E S (Eff.fail e : ManagerM α) s := by
  refine ⟨hs,?_⟩
  intro e' he'
  rw [← Except.error.inj he']
  exact he

variable {f : α → ManagerM β}

theorem fine_lift (hs : Managed E S s) {x : Check α} (hx : CleanCheck x)
    (hf : ∀ a,x = .ok a → Fine E S (f a) s) : Fine E S (Eff.lift x >>= f) s := by
  cases x with
  | error e =>
    refine ⟨hs,?_⟩
    intro e' he'
    exact hx e' (congrArg Except.error (Except.error.inj he'))
  | ok a => exact hf a rfl

theorem fine_next {m : ManagerM α} {s' : MempoolManager} {a : α} (hm : m s=(.ok a,s'))
    (hf : Fine E S (f a) s') : Fine E S (m >>= f) s := by
  unfold Fine at hf ⊢
  rw [Eff.bind_of_ok hm]
  exact hf

theorem fine_failing {f : ManagerM SpendbundleAnswer} (hf : Fine E S f s) : Fine E S (MempoolManager.failing f) s := by
  unfold Fine MempoolManager.failing
  unfold Fine at hf
  rcases hrun : f s with ⟨⟨e⟩ | a,s'⟩
  · rw [hrun] at hf
    cases e with
    | invalid e => exact ⟨hf.1,fun _ h => (by cases h)⟩
    | raised e => exact hf
  · rw [hrun] at hf
    exact hf

end Rules

namespace MempoolManager
variable {E : Env} {S : Coin → Prop} {s : MempoolManager}

theorem trimPotential_spec (n : ℕ) (s : MempoolManager) (hn : s.potentialTxs.size<n) :
    (trimPotential n s).2.mempool=s.mempool ∧ (trimPotential n s).2.peak=s.peak ∧
      ∀ e,(trimPotential n s).1 = .error e → e.Clean := by
  induction n generalizing s with
  | zero => omega
  | succ n ih =>
    unfold trimPotential
    rw [Eff.bind_get]
    split_ifs with hfull
    · cases hl : s.potentialTxs.entries with
      | nil =>
        refine ⟨rfl,rfl,?_⟩
        intro e he
        rw [← Except.error.inj he]
        simp [Fail.Clean]
      | cons p l =>
        have hget : s.potentialTxs.get? p.1=some p.2 :=
          (s.potentialTxs.mem_entries _ _).mp (hl ▸ List.mem_cons_self)
        have hsize := s.potentialTxs.size_erase hget
        have hrest := ih { s with
          potentialCacheMaxTotalCost := s.potentialCacheMaxTotalCost-p.2.cost
          potentialTxs := s.potentialTxs.erase p.1 } (by
            change (s.potentialTxs.erase p.1).size<n
            omega)
        exact hrest
    · refine ⟨rfl,rfl,?_⟩
      intro e he
      cases he

theorem addToPotentialTxSet_fine (hs : Managed E S s) (item : MempoolItem) :
    Managed E S (addToPotentialTxSet item s).2 ∧ ∀ e,(addToPotentialTxSet item s).1 = .error e → e.Clean := by
  unfold addToPotentialTxSet
  rw [Eff.bind_get]
  by_cases hnew : ¬ s.potentialTxs.contains item.spendBundleName
  · rw [if_pos hnew]
    have hsize := s.potentialTxs.size_set_le item.spendBundleName item
    obtain ⟨hpool,hpeak,hclean⟩ := trimPotential_spec (s.potentialTxs.size+2)
      { s with
        potentialTxs := s.potentialTxs.set item.spendBundleName item
        potentialCacheCost := s.potentialCacheCost+item.cost } (by
          change (s.potentialTxs.set item.spendBundleName item).size<s.potentialTxs.size+2
          omega)
    refine ⟨⟨?_,?_⟩,hclean⟩
    · exact hpool ▸ hs.pool
    · intro p hp
      exact hs.peak p (hpeak ▸ hp)
  · rw [if_neg hnew]
    exact fine_pure hs ()

theorem pending_fine (hs : Managed E S s) (item : MempoolItem) (answer : SpendbundleAnswer) :
    Fine E S (do addToPotentialTxSet item; return answer) s := by
  obtain ⟨hkept,hclean⟩ := addToPotentialTxSet_fine hs item
  unfold Fine
  rcases hrun : addToPotentialTxSet item s with ⟨⟨e⟩ | u,s'⟩
  · rw [hrun] at hkept hclean
    rw [Eff.bind_of_error hrun]
    exact ⟨hkept,fun e' he' => hclean e' (congrArg Except.error (Except.error.inj he'))⟩
  · rw [hrun] at hkept
    rw [Eff.bind_of_ok hrun]
    exact ⟨hkept,fun e he => (by cases he)⟩

variable {m : Mempool}

theorem removeAll_spec (h : Pool E S m) (l : List MempoolItem) (hn : (l.map name).Nodup)
    (hin : ∀ item∈l,m.spends.get? item.name=some item) :
    ∃ m',l.forM (Mempool.removeFromPool E) m=(.ok (),m') ∧ Pool E S m' ∧ Shrunk m m' ∧
      (∀ item∈l,m'.spends.get? item.name=none) ∧ ∀ n,n∉l.map name → m'.spends.get? n=m.spends.get? n := by
  induction l generalizing m with
  | nil =>
    refine ⟨m,rfl,h,Shrunk.refl m,?_,fun _ _ => rfl⟩
    intro item hitem
    cases hitem
  | cons item l ih =>
    rw [List.map_cons,List.nodup_cons] at hn
    have hitem := hin item List.mem_cons_self
    have hrest : ∀ other∈l,(m.without E item).spends.get? other.name=some other := by
      intro other hother
      have hne : item.name≠other.name := fun heq => hn.1 (heq ▸ List.mem_map_of_mem hother)
      change (m.spends.erase item.name).get? other.name=some other
      rw [Dict.get?_erase,if_neg hne]
      exact hin other (List.mem_cons_of_mem _ hother)
    obtain ⟨m',hrun,hpool,hshrunk,hgone,hkept⟩ := ih (Mempool.without_pool h hitem) hn.2 hrest
    refine ⟨m',?_,hpool,(Mempool.without_shrunk m item).trans hshrunk,?_,?_⟩
    · rw [Eff.forM_cons_of_ok (Mempool.removeFromPool_run h hitem)]
      exact hrun
    · intro other hother
      obtain rfl | hother := List.mem_cons.mp hother
      · cases hget : m'.spends.get? other.name with
        | none => rfl
        | some u =>
          have hold := hshrunk.spends _ u hget
          change (m.spends.erase other.name).get? other.name=some u at hold
          rw [Dict.get?_erase,if_pos rfl] at hold
          cases hold
      · exact hgone other hother
    · intro n hnot
      rw [List.map_cons,List.mem_cons,not_or] at hnot
      rw [hkept n hnot.2]
      change (m.spends.erase item.name).get? n=m.spends.get? n
      rw [Dict.get?_erase,if_neg (Ne.symm hnot.1)]

theorem conflictingPoolItems_spec (h : Pool E S m) (conflicts : List Coin)
    (hc : ∀ c∈conflicts,∃ item,m.removals.get? (E.coinName c)=some item) :
    ∃ items,conflictingPoolItems E m conflicts = .ok items ∧
      (∀ n item,items.get? n=some item → item.name=n ∧ m.spends.get? n=some item) ∧
      (∀ c∈conflicts,∀ item,m.removals.get? (E.coinName c)=some item → items.get? item.name=some item) ∧
      ∀ n item,items.get? n=some item → ∃ c∈conflicts,m.removals.get? (E.coinName c)=some item := by
  unfold conflictingPoolItems
  induction conflicts using List.reverseRecOn with
  | nil =>
    refine ⟨Dict.empty,rfl,?_,?_,?_⟩
    · intro n item hget
      cases hget
    · intro c hc
      cases hc
    · intro n item hget
      cases hget
  | append_singleton conflicts c ih =>
    obtain ⟨items,hitems,hmem,hall,hwhy⟩ := ih fun c' hc' => hc c' (List.mem_append_left _ hc')
    obtain ⟨sb,hsb⟩ := hc c (by simp)
    have hstored := ((h.consistent.removals _ sb).mp hsb).1
    refine ⟨items.set sb.name sb,?_,?_,?_,?_⟩
    · rw [List.foldlM_append,hitems]
      simp [hsb,lookup,bind,Except.bind,pure,Except.pure]
    · intro n item hget
      rw [Dict.get?_set] at hget
      split_ifs at hget with hn
      · rw [← Option.some.inj hget]
        exact ⟨hn,hn ▸ hstored⟩
      · exact hmem n item hget
    · intro c' hc' item hitem
      rw [Dict.get?_set]
      split_ifs with hn
      · have hstored' := ((h.consistent.removals _ item).mp hitem).1
        rw [← hn,hstored] at hstored'
        exact hstored'
      · obtain hold | hnew := List.mem_append.mp hc'
        · exact hall c' hold item hitem
        · rw [List.mem_singleton.mp hnew,hsb] at hitem
          exact absurd (congrArg name (Option.some.inj hitem)) hn
    · intro n item hget
      rw [Dict.get?_set] at hget
      split_ifs at hget with hn
      · exact ⟨c,by simp,by rw [hsb]; exact hget⟩
      · obtain ⟨c',hc',hwhy'⟩ := hwhy n item hget
        exact ⟨c',List.mem_append_left _ hc',hwhy'⟩

theorem removalRecords_ok {getCoinRecord : CoinReader} {peak : BlockRecord} {additions : List Coin}
    (hnamed : ∀ n r,getCoinRecord n=some r → E.coinName r.coin=n) {names : List Bytes32}
    {p : Dict Bytes32 CoinRecord × ℕ} (h : removalRecords E getCoinRecord peak additions names = .ok p) :
    (∀ k,k∈p.1.keys ↔ k∈names) ∧ ∀ k r,p.1.get? k=some r → E.coinName r.coin=k := by
  have hrecord {name : Bytes32} {r : CoinRecord}
      (hr : removalRecord E getCoinRecord peak additions name = .ok r) : E.coinName r.coin=name := by
    unfold removalRecord at hr
    cases hfind : additions.reverse.find? fun c => decide (E.coinName c=name) with
    | some coin =>
      rw [hfind] at hr
      simp only [bind_ok] at hr
      obtain ⟨_,-,_,-,_,-,hr⟩ := hr
      rw [← Except.ok.inj hr]
      have hname := List.find?_some hfind
      exact of_decide_eq_true hname
    | none =>
      rw [hfind] at hr
      cases hget : getCoinRecord name with
      | some record =>
        rw [hget] at hr
        rw [← Except.ok.inj hr]
        exact hnamed name record hget
      | none =>
        rw [hget] at hr
        cases hr
  unfold removalRecords at h
  induction names using List.reverseRecOn generalizing p with
  | nil =>
    rw [← Except.ok.inj h]
    refine ⟨fun k => Iff.rfl,?_⟩
    intro k r hr
    cases hr
  | append_singleton names name ih =>
    rw [List.foldlM_append] at h
    obtain ⟨q,hq,h⟩ := bind_ok.mp h
    obtain ⟨hkeys,hcoins⟩ := ih hq
    simp only [List.foldlM_cons,List.foldlM_nil,bind_ok] at h
    obtain ⟨p',⟨record,hr,amount,-,hp'⟩,hp⟩ := h
    obtain rfl := Except.ok.inj hp
    rw [← Except.ok.inj hp']
    refine ⟨?_,?_⟩
    · intro k
      rw [Dict.mem_keys,List.mem_append,List.mem_singleton,← hkeys k,Dict.mem_keys]
      simp only [Dict.get?_set]
      split_ifs with hk
      · simp [hk]
      · simp [Ne.symm hk]
    · intro k r hget
      dsimp only at hget
      rw [Dict.get?_set] at hget
      split_ifs at hget with hk
      · rw [← Option.some.inj hget,hrecord hr]
        exact hk
      · exact hcoins k r hget

variable {item : MempoolItem} {peak : BlockRecord} {additions : List Coin} {records : Dict Bytes32 CoinRecord}

/-- What `add_spendbundle` has found out about an item when it turns to the pool. -/
structure Checked (E : Env) (S : Coin → Prop) (s : MempoolManager) (item : MempoolItem) (additions : List Coin)
    (records : Dict Bytes32 CoinRecord) : Prop where
  proper : Proper E S item
  new : s.mempool.spends.get? item.name=none
  additions : ∀ k,k∈additions.map E.coinName ↔ k∈item.created E
  keys : ∀ k,k∈records.keys ↔ k∈item.spent E
  coins : ∀ k r,records.get? k=some r → E.coinName r.coin=k
  parsed : ∀ npc∈item.npcResult.npcList,npc.Parsed
  found : ∀ npc∈item.npcResult.npcList,npc.coinName∈records.keys

variable (E records) in
theorem checkRemovals_conflicts (m : Mempool) (h : (checkRemovals E m records).1≠some .doubleSpend) :
    ∀ c,c∈(checkRemovals E m records).2 ↔
      c∈records.values.map (·.coin) ∧ ∃ other,m.removals.get? (E.coinName c)=some other := by
  intro c
  have hfilter : c∈(records.values.map (·.coin)).filter (fun removal => m.removals.contains (E.coinName removal)) ↔
      c∈records.values.map (·.coin) ∧ ∃ other,m.removals.get? (E.coinName c)=some other := by
    rw [List.mem_filter]
    unfold Dict.contains
    rw [Option.isSome_iff_exists]
  unfold checkRemovals at h ⊢
  dsimp only at h ⊢
  by_cases hspent : records.values.any (·.spent)
  · rw [if_pos hspent] at h
    exact absurd rfl h
  · rw [if_neg hspent]
    by_cases hconflict : ((records.values.map (·.coin)).filter
        fun removal => m.removals.contains (E.coinName removal)).length > 0
    · rw [if_pos hconflict]
      exact hfilter
    · rw [if_neg hconflict]
      rw [List.eq_nil_of_length_eq_zero (Nat.eq_zero_of_not_pos hconflict)] at hfilter
      exact hfilter

variable {conflicting : Dict Bytes32 MempoolItem}

theorem removeConflicts_spec (h : Pool E S m)
    (hmem : ∀ n other,conflicting.get? n=some other → other.name=n ∧ m.spends.get? n=some other) :
    ∃ m',conflicting.values.forM (Mempool.removeFromPool E) m=(.ok (),m') ∧ Pool E S m' ∧ Shrunk m m' ∧
      (∀ other∈conflicting.values,m'.spends.get? other.name=none) ∧
        ∀ n,conflicting.get? n=none → m'.spends.get? n=m.spends.get? n := by
  have hnamed (n : Bytes32) (other : MempoolItem) (hget : conflicting.get? n=some other) : other.name=n :=
    (hmem n other hget).1
  have hnames := conflicting.map_values hnamed
  obtain ⟨m',hrun,hpool,hshrunk,hgone,hkept⟩ := removeAll_spec h conflicting.values
    (hnames ▸ conflicting.nodup) fun other ho => (hmem _ other ((conflicting.mem_values hnamed).mp ho)).2
  refine ⟨m',hrun,hpool,hshrunk,hgone,?_⟩
  intro n hn
  exact hkept n (hnames ▸ (conflicting.get?_eq_none_iff n).mp hn)

section
variable (hS : ∀ a b,S a → S b → E.coinName a=E.coinName b → a=b)
include hS

theorem replaceConflicts_fine (hs : Managed E S s) (hc : Checked E S s item additions records)
    (hmem : ∀ n other,conflicting.get? n=some other → other.name=n ∧ s.mempool.spends.get? n=some other)
    (hall : ∀ k∈item.spent E,∀ other,s.mempool.removals.get? k=some other →
      conflicting.get? other.name=some other) (pairs : List (G1Element × Bytes)) (validateSignature : Bool) :
    Fine E S (replaceConflicts E item conflicting additions (records.mapTo (·.coin)) pairs validateSignature) s := by
  obtain ⟨m',hrun,hpool,hshrunk,hgone,-⟩ := removeConflicts_spec hs.pool hmem
  have hfree : ∀ k∈item.spent E,m'.removals.get? k=none := by
    intro k hk
    cases hget : m'.removals.get? k with
    | none => rfl
    | some other =>
      obtain ⟨hstored,hspends⟩ := (hpool.consistent.removals k other).mp hget
      have hold := (hs.pool.consistent.removals k other).mpr ⟨hshrunk.spends _ other hstored,hspends⟩
      have hin := (conflicting.mem_entries _ _).mpr (hall k hk other hold)
      have hnone := hgone other (List.mem_map_of_mem (f := Prod.snd) hin)
      rw [hstored] at hnone
      cases hnone
  have hnew : m'.spends.get? item.name=none := by
    cases hget : m'.spends.get? item.name with
    | none => rfl
    | some other =>
      have hold := hshrunk.spends _ other hget
      rw [hc.new] at hold
      cases hold
  have hrem : ∀ k,k∈(records.mapTo (·.coin)).keys ↔ k∈item.spent E := by
    intro k
    rw [Dict.keys_mapTo]
    exact hc.keys k
  obtain ⟨hadded,herror⟩ := Mempool.addToPool_spec hS hpool hc.proper hnew hfree hc.additions hrem
  unfold replaceConflicts
  refine fine_lift hs (clean_reject _ _) fun _ _ => ?_
  have hout : onMempool (conflicting.values.forM (Mempool.removeFromPool E)) s =
      (.ok (),{ s with mempool := m' }) := by
    unfold onMempool
    rw [hrun]
  refine fine_next hout ?_
  unfold Fine
  rcases hadd : Mempool.addToPool E item additions (records.mapTo (·.coin)) m' with ⟨⟨e⟩ | u,m''⟩
  · have hin : onMempool (Mempool.addToPool E item additions (records.mapTo (·.coin))) { s with mempool := m' } =
        (.error e,{ s with mempool := m'' }) := by
      unfold onMempool
      dsimp only
      rw [hadd]
    rw [hadd] at hadded herror
    rw [Eff.bind_of_error hin]
    refine ⟨⟨hadded,hs.peak⟩,?_⟩
    intro e' he'
    rw [← Except.error.inj he',herror e rfl]
    simp [Fail.Clean]
  · have hin : onMempool (Mempool.addToPool E item additions (records.mapTo (·.coin))) { s with mempool := m' } =
        (.ok u,{ s with mempool := m'' }) := by
      unfold onMempool
      dsimp only
      rw [hadd]
    rw [hadd] at hadded
    rw [Eff.bind_of_ok hin]
    exact fine_pure (s := { s with mempool := m'' }) ⟨hadded,hs.peak⟩ _

theorem tryItem_fine (hs : Managed E S s)
    (hpeak : s.peak=some peak) (hc : Checked E S s item additions records) (validateSignature : Bool) :
    Fine E S (tryItem E item peak additions records validateSignature) s := by
  have htime := hs.peak peak hpeak
  have hget := Eff.get_apply (ε := Fail) s
  unfold tryItem
  refine fine_next hget ?_
  have hconflicts := checkRemovals_conflicts E records s.mempool
  rcases hr : checkRemovals E s.mempool records with ⟨failReason,conflicts⟩
  rw [hr] at hconflicts
  dsimp only at hconflicts ⊢
  by_cases hspent : failReason=some .doubleSpend
  · rw [hspent]
    exact fine_fail hs (by simp [Fail.Clean])
  · have hconflicts := hconflicts hspent
    obtain ⟨conflicting,hitems,hmem,hall,-⟩ := conflictingPoolItems_spec hs.pool conflicts
      fun c hcon => ((hconflicts c).mp hcon).2
    have hcovered : ∀ k∈item.spent E,∀ other,s.mempool.removals.get? k=some other →
        conflicting.get? other.name=some other := by
      intro k hk other hother
      obtain ⟨r,hrec⟩ := (records.mem_keys k).mp ((hc.keys k).mpr hk)
      have hname := hc.coins k r hrec
      have hin : r.coin∈records.values.map (·.coin) :=
        List.mem_map_of_mem (List.mem_map_of_mem (f := Prod.snd) ((records.mem_entries k r).mpr hrec))
      have hremoved : s.mempool.removals.get? (E.coinName r.coin)=some other := by
        rw [hname]
        exact hother
      exact hall r.coin ((hconflicts r.coin).mpr ⟨hin,other,hremoved⟩) other hremoved
    have hspends : CleanCheck (checkSpends E peak item.npcResult.npcList records validateSignature) :=
      checkSpends_clean htime hc.parsed (fun npc hnpc => (records.mem_keys _).mp (hc.found npc hnpc)) _
    have hrest : Fine E S (tryReplace E item peak additions records validateSignature failReason conflicting) s := by
      unfold tryReplace
      apply fine_lift hs
      · split_ifs
        · exact canReplace_clean conflicting records item.fee item.feePerCost
        · exact clean_ok true
      · intro accepted _
        by_cases haccepted : ¬ accepted
        · rw [if_pos haccepted]
          exact pending_fine hs item _
        · rw [if_neg haccepted]
          cases hcheck : checkSpends E peak item.npcResult.npcList records validateSignature with
          | error e =>
            cases e with
            | invalid e =>
              dsimp only
              split_ifs
              · exact pending_fine hs item _
              · exact fine_fail hs (by simp [Fail.Clean])
            | raised e => exact fine_fail hs (hspends _ hcheck)
          | ok pairs => exact replaceConflicts_fine hS hs hc hmem hcovered pairs validateSignature
    have hlift : (Eff.lift (conflictingPoolItems E s.mempool conflicts) : ManagerM _) s=(.ok conflicting,s) := by
      rw [hitems]
      rfl
    cases failReason with
    | none => exact fine_next hlift hrest
    | some e =>
      cases e with
      | doubleSpend => exact absurd rfl hspent
      | _ => exact fine_next hlift hrest

theorem addSpendbundle_fine (hs : Managed E S s)
    {c : SpendbundleCall} (hc : Promised E S c) : Fine E S (c.run E) s := by
  have hget := Eff.get_apply (ε := Fail) s
  have hparsed : ∀ npc∈c.npcResult.npcList,npc.Parsed := by
    obtain ⟨generator,maxCost,hresult⟩ := hc.parsed
    rw [hresult]
    exact getNamePuzzleConditions_parsed generator maxCost true
  unfold SpendbundleCall.run addSpendbundle
  apply fine_failing
  refine fine_next hget ?_
  cases hpeak : s.peak with
  | none => exact fine_pure hs _
  | some peak =>
    refine fine_lift hs (calculateCostOfProgram_clean _ _) fun cost _ => ?_
    refine fine_lift hs (clean_reject _ _) fun _ _ => ?_
    cases herror : c.npcResult.error with
    | some e => exact fine_fail hs (by simp [Fail.Clean])
    | none =>
      refine fine_lift hs (additionsForNpc_clean _) fun additions hadditions => ?_
      refine fine_lift hs (checkAdditions_clean additions) fun amount hamount => ?_
      refine fine_lift hs (clean_reject _ _) fun _ hnames => ?_
      have hnodup : (c.npcResult.npcList.map (·.coinName)).Nodup := not_not.mp (reject_eq_ok.mp hnames)
      by_cases hseen : s.mempool.spends.contains c.spendName
      · rw [if_pos hseen]
        exact fine_pure hs _
      · rw [if_neg hseen]
        refine fine_lift hs (removalRecords_clean (hs.peak peak hpeak) _ _ _) fun p hp => ?_
        obtain ⟨hkeys,hcoins⟩ := removalRecords_ok hc.named hp
        obtain ⟨records,removed⟩ := p
        dsimp only at hkeys hcoins ⊢
        refine fine_lift hs (checkFees_clean _ _ _) fun fees _ => ?_
        split_ifs with hcost
        · exact fine_fail hs (by simp [Fail.Clean])
        · refine fine_lift hs (checkCapacity_clean _ _ _) fun _ _ => ?_
          have hagree := hc.additions additions hadditions
          have hparents := additionsForNpc_parent hadditions
          apply tryItem_fine hS hs hpeak
          refine ⟨⟨?_,?_,?_⟩,?_,?_,?_,hcoins,hparsed,?_⟩
          · exact hc.removals.nodup_iff.mpr hnodup
          · exact (hagree.map E.coinName).nodup_iff.mpr (checkAdditions_nodup hamount)
          · intro a ha
            exact ⟨hc.created a ha,hc.removals.mem_iff.mpr (hparents a (hagree.mem_iff.mp ha))⟩
          · unfold Dict.contains at hseen
            rw [Bool.not_eq_true,Option.isSome_eq_false_iff,Option.isNone_iff_eq_none] at hseen
            exact hseen
          · intro k
            exact (hagree.map E.coinName).mem_iff.symm
          · intro k
            rw [hkeys k]
            exact hc.removals.mem_iff.symm
          · intro npc hnpc
            exact (hkeys _).mpr (List.mem_map_of_mem hnpc)

end

end MempoolManager

open MempoolManager
variable {E : Env} {S : Coin → Prop} {s : MempoolManager}

theorem MempoolRun.managed (hS : ∀ a b,S a → S b → E.coinName a=E.coinName b → a=b) (h : MempoolRun E S s) :
    Managed E S s := by
  induction h with
  | start =>
    refine ⟨Mempool.pool_new _,?_⟩
    intro p hp
    cases hp
  | newPeak _ hp _ =>
    refine ⟨Mempool.pool_new _,?_⟩
    intro p hpeak
    rw [← Option.some.inj hpeak]
    exact hp
  | addSpendbundle _ hc ih => exact (addSpendbundle_fine hS ih hc).1

/-- After every run the indexes of the pool agree, no two items spend a coin, and the next call raises no
`KeyError` and no `AssertionError`. -/
theorem mempool_consistent (hS : ∀ a b,S a → S b → E.coinName a=E.coinName b → a=b) (h : MempoolRun E S s) :
    Consistent E s.mempool ∧
      (∀ n n' item item',s.mempool.spends.get? n=some item → s.mempool.spends.get? n'=some item' →
        ∀ k,k∈item.spent E → k∈item'.spent E → item=item') ∧
      ∀ c,Promised E S c → ∀ e,(c.run E s).1 = .error e → e ≠ .raised .key ∧ e ≠ .raised .assertion := by
  have hs := h.managed hS
  have hcons := hs.pool.consistent
  refine ⟨hcons,?_,?_⟩
  · intro n n' item item' hitem hitem' k hk hk'
    have hleft := (hcons.removals k item).mpr ⟨hcons.named n item hitem ▸ hitem,hk⟩
    have hright := (hcons.removals k item').mpr ⟨hcons.named n' item' hitem' ▸ hitem',hk'⟩
    rw [hleft] at hright
    exact Option.some.inj hright
  · intro c hc e he
    have hclean := (addSpendbundle_fine hS hs hc).2 e he
    exact ⟨hclean.1,hclean.2.1⟩

section Tiny

def tinySpent : Coin := ⟨0,0,5⟩

def tinyPoolEnv : Env :=
  { tinyEnv with
    runGenerator := fun _ _ _ _ =>
      let zeros := SExp.atom (List.replicate 32 0)
      let createCoin := SExp.pair (.atom [51]) (.pair zeros (.pair (.atom [1]) (.atom [])))
      let spend := SExp.pair zeros (.pair zeros (.pair (.atom [5]) (.pair (.pair createCoin (.atom [])) (.atom []))))
      some (0,.pair (.pair spend (.atom [])) (.atom [])) }

def tinyMade : Coin := ⟨tinyEnv.coinName tinySpent,0,1⟩

def tinyCall : SpendbundleCall where
  newSpend := ⟨[tinyMade],[tinySpent],[],[]⟩
  npcResult := getNamePuzzleConditions tinyPoolEnv ⟨[],[]⟩ 1000000 true
  spendName := 7
  validateSignature := true
  program := none
  getCoinRecord n := if n=tinyEnv.coinName tinySpent then some ⟨tinySpent,0,0,false,false,0⟩ else none

example : tinyCall.npcResult.npcList.length=1 := by decide +kernel

theorem tinyCall_promised : Promised tinyPoolEnv (· = tinyMade) tinyCall :=
  .of_answers ⟨⟨[],[]⟩,1000000,rfl⟩ (by decide +kernel) (by decide +kernel) (fun _ => rfl) rfl
    fun _ ha => List.mem_singleton.mp ha

def tinyPeak : BlockRecord where
  headerHash := 10
  prevHash := 1
  height := 0
  weight := 7
  totalIters := 100
  signagePointIndex := 0
  challengeVdfOutput := .getDefaultElement
  infusedChallengeVdfOutput := none
  rewardInfusionNewChallenge := 0
  challengeBlockInfoHash := 0
  subSlotIters := 1024
  poolPuzzleHash := 0
  farmerPuzzleHash := 0
  requiredIters := 1
  deficit := 15
  overflow := false
  prevTransactionBlockHeight := 0
  timestamp := some 1
  prevTransactionBlockHash := some 1
  fees := some 0
  rewardClaimsIncorporated := some []
  finishedChallengeSlotHashes := none
  finishedInfusedChallengeSlotHashes := none
  finishedRewardSlotHashes := none
  subEpochSummaryIncluded := none

theorem mempool_consistent_tiny : ∃ s : MempoolManager,s.mempool.spends.size=1 ∧ Consistent tinyPoolEnv s.mempool := by
  have hS (a b : Coin) (ha : a=tinyMade) (hb : b=tinyMade) (_ : tinyPoolEnv.coinName a=tinyPoolEnv.coinName b) :
      a=b := ha.trans hb.symm
  have hpeak : tinyPeak.isTransactionBlock := rfl
  have hrun := (MempoolRun.start.newPeak hpeak).addSpendbundle tinyCall_promised
  exact ⟨_,by decide +kernel,(mempool_consistent hS hrun).1⟩

end Tiny
end RoseChain
