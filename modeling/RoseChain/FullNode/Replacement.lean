import RoseChain.FullNode.Eviction

namespace RoseChain
open Lib MempoolItem MempoolManager
variable {E : Env} {S : Coin → Prop} {s s' : MempoolManager} {c : SpendbundleCall}

/-- How an item has entered the pool: what made way for it, and what is left. -/
structure PoolEntry (E : Env) (S : Coin → Prop) (s : MempoolManager) (item : MempoolItem)
    (conflicting : Dict Bytes32 MempoolItem) (left room : Mempool) : Prop where
  proper : Proper E S item
  new : s.mempool.spends.get? item.name=none
  removals : ∀ k,k∈item.removals.map E.coinName ↔ k∈item.spent E
  capacity : checkCapacity s.mempool item.cost item.feePerCost = .ok ()
  mem : ∀ n other,conflicting.get? n=some other → other.name=n ∧ s.mempool.spends.get? n=some other
  all : ∀ k∈item.spent E,∀ other,s.mempool.removals.get? k=some other → conflicting.get? other.name=some other
  shared : ∀ n other,conflicting.get? n=some other → ∃ k∈item.spent E,s.mempool.removals.get? k=some other
  better : conflicting.values≠[] → ∃ records : Dict Bytes32 CoinRecord,
    (∀ k,k∈records.keys ↔ k∈item.spent E) ∧ canReplace E conflicting records item.fee item.feePerCost = .ok true
  pool : Pool E S left
  shrunk : Shrunk s.mempool left
  gone : ∀ n other,conflicting.get? n=some other → left.spends.get? n=none
  kept : ∀ n,conflicting.get? n=none → left.spends.get? n=s.mempool.spends.get? n
  room : Mempool.makeRoom E item.cost (left.spends.size+1) left=(.ok (),room)

section Inversion
variable {α β : Type} {cost : Option ℕ} {b : β}

/-- The computation returns a value, and leaves this state. -/
def Returns (f : ManagerM β) (s : MempoolManager) (b : β) (s' : MempoolManager) : Prop := f s=(.ok b,s')

theorem returns_read {f : MempoolManager → ManagerM β} (h : Returns (Eff.get >>= f) s b s') : Returns (f s) s b s' := h

theorem returns_of (f : ManagerM β) (h : (f s).1 = .ok b) : Returns f s b (f s).2 := by
  unfold Returns
  rw [← h]

theorem returns_check {x : Check α} {f : α → ManagerM β} (h : Returns (Eff.lift x >>= f) s b s') :
    ∃ a,x = .ok a ∧ Returns (f a) s b s' := by
  cases x with
  | error e => cases h
  | ok a => exact ⟨a,rfl,h⟩

theorem returns_failing {f : ManagerM SpendbundleAnswer}
    (h : Returns (failing f) s (cost,.success,none) s') : Returns f s (cost,.success,none) s' := by
  unfold Returns failing at h
  unfold Returns
  rcases hrun : f s with ⟨⟨e | e⟩ | a,t⟩ <;> rw [hrun] at h <;> cases h
  rfl

end Inversion

variable {item : MempoolItem} {conflicting : Dict Bytes32 MempoolItem} {additions : List Coin}
  {records : Dict Bytes32 CoinRecord} {left room : Mempool} {cost : Option ℕ} {peak : BlockRecord}
  {validateSignature : Bool}

theorem replaceConflicts_success (hpool : Pool E S s.mempool)
    (hmem : ∀ n other,conflicting.get? n=some other → other.name=n ∧ s.mempool.spends.get? n=some other)
    {removalsDic : Dict Bytes32 Coin} {pairs : List (G1Element × Bytes)}
    (h : Returns (replaceConflicts E item conflicting additions removalsDic pairs validateSignature) s
      (cost,.success,none) s') : ∃ left room,Pool E S left ∧ Shrunk s.mempool left ∧
      (∀ n other,conflicting.get? n=some other → left.spends.get? n=none) ∧
      (∀ n,conflicting.get? n=none → left.spends.get? n=s.mempool.spends.get? n) ∧
      Mempool.makeRoom E item.cost (left.spends.size+1) left=(.ok (),room) ∧
      s'.mempool.spends=room.spends.set item.name item := by
  obtain ⟨left,hremove,hleft,hshrunk,hgone,hkept⟩ := removeConflicts_spec hpool hmem
  unfold replaceConflicts at h
  obtain ⟨_,-,h⟩ := returns_check h
  unfold Returns at h
  have hout : onMempool (conflicting.values.forM (Mempool.removeFromPool E)) s =
      (.ok (),{ s with mempool := left }) := by
    unfold onMempool
    rw [hremove]
  rw [Eff.bind_of_ok hout] at h
  obtain ⟨_,t,hadd,h⟩ := Eff.bind_ok h
  unfold onMempool Mempool.addToPool at hadd
  dsimp only at hadd
  rw [Eff.bind_get] at hadd
  rcases hroom : Mempool.makeRoom E item.cost (left.spends.size+1) left with ⟨e | u,room⟩
  · rw [Eff.bind_of_error hroom] at hadd
    cases hadd
  · rw [Eff.bind_of_ok hroom] at hadd
    refine ⟨left,room,hleft,hshrunk,?_,hkept,hroom,?_⟩
    · intro n other hget
      obtain rfl := (hmem n other hget).1
      exact hgone other (List.mem_map_of_mem (f := Prod.snd) ((conflicting.mem_entries _ _).mpr hget))
    · rw [← (Prod.mk.inj h).2,← (Prod.mk.inj hadd).2]
      rfl

variable {failReason : Option Err}

theorem tryReplace_success
    (h : Returns (tryReplace E item peak additions records validateSignature failReason conflicting) s
      (cost,.success,none) s') :
    (failReason.isSome → canReplace E conflicting records item.fee item.feePerCost = .ok true) ∧
      ∃ pairs,Returns (replaceConflicts E item conflicting additions (records.mapTo (·.coin)) pairs
        validateSignature) s (cost,.success,none) s' := by
  unfold tryReplace at h
  obtain ⟨accepted,haccepted,h⟩ := returns_check h
  cases accepted with
  | false =>
    rw [if_pos (by decide)] at h
    obtain ⟨_,_,-,h⟩ := Eff.bind_ok h
    cases h
  | true =>
    rw [if_neg (by decide)] at h
    refine ⟨?_,?_⟩
    · intro hsome
      rw [if_pos hsome] at haccepted
      exact haccepted
    · cases hcheck : checkSpends E peak item.npcResult.npcList records validateSignature with
      | error e =>
        rw [hcheck] at h
        cases e with
        | invalid e =>
          dsimp only at h
          split_ifs at h
          · obtain ⟨_,_,-,h⟩ := Eff.bind_ok h
            cases h
          · cases h
        | raised e => cases h
      | ok pairs =>
        rw [hcheck] at h
        exact ⟨pairs,h⟩

theorem mem_of_conflict (hc : Checked E S s item additions records) {k : Bytes32} (hk : k∈item.spent E) :
    ∃ coin∈records.values.map (·.coin),E.coinName coin=k := by
  obtain ⟨r,hrec⟩ := (records.mem_keys k).mp ((hc.keys k).mpr hk)
  refine ⟨r.coin,?_,hc.coins k r hrec⟩
  exact List.mem_map_of_mem (List.mem_map_of_mem (f := Prod.snd) ((records.mem_entries k r).mpr hrec))

theorem spent_of_record (hc : Checked E S s item additions records) {coin : Coin}
    (hin : coin∈records.values.map (·.coin)) : E.coinName coin∈item.spent E := by
  obtain ⟨r,hr,rfl⟩ := List.mem_map.mp hin
  obtain ⟨e,he,rfl⟩ := List.mem_map.mp hr
  have hget := (records.mem_entries _ _).mp he
  rw [hc.coins _ _ hget]
  exact (hc.keys _).mp ((records.mem_keys _).mpr ⟨_,hget⟩)

theorem replace_success (hpool : Pool E S s.mempool) (hc : Checked E S s item additions records)
    (hremovals : item.removals=records.values.map (·.coin))
    (hcapacity : checkCapacity s.mempool item.cost item.feePerCost = .ok ())
    {conflicts : List Coin} (hconflicts : ∀ coin,coin∈conflicts ↔
      coin∈records.values.map (·.coin) ∧ ∃ other,s.mempool.removals.get? (E.coinName coin)=some other)
    (hreason : conflicts≠[] → failReason.isSome)
    (h : Returns (do
      let conflicting ← Eff.lift (conflictingPoolItems E s.mempool conflicts)
      tryReplace E item peak additions records validateSignature failReason conflicting) s
        (cost,.success,none) s') :
    ∃ conflicting left room,PoolEntry E S s item conflicting left room ∧
      s'.mempool.spends=room.spends.set item.name item := by
  obtain ⟨conflicting,hitems,hmem,hall,hwhy⟩ := conflictingPoolItems_spec hpool conflicts
    fun coin hcoin => ((hconflicts coin).mp hcoin).2
  rw [hitems,Eff.lift_ok_bind] at h
  obtain ⟨hbetter,pairs,hrun⟩ := tryReplace_success h
  obtain ⟨left,room,hleft,hshrunk,hgone,hkept,hroom,hspends⟩ := replaceConflicts_success hpool hmem hrun
  refine ⟨conflicting,left,room,
    ⟨hc.proper,hc.new,?_,hcapacity,hmem,?_,?_,?_,hleft,hshrunk,hgone,hkept,hroom⟩,hspends⟩
  · intro k
    rw [hremovals,List.mem_map]
    constructor
    · intro hk
      obtain ⟨coin,hcoin,rfl⟩ := hk
      exact spent_of_record hc hcoin
    · intro hk
      obtain ⟨coin,hcoin,hname⟩ := mem_of_conflict hc hk
      exact ⟨coin,hcoin,hname⟩
  · intro k hk other hother
    obtain ⟨coin,hcoin,rfl⟩ := mem_of_conflict hc hk
    exact hall coin ((hconflicts coin).mpr ⟨hcoin,other,hother⟩) other hother
  · intro n other hget
    obtain ⟨coin,hcoin,hother⟩ := hwhy n other hget
    exact ⟨E.coinName coin,spent_of_record hc ((hconflicts coin).mp hcoin).1,hother⟩
  · intro hvalues
    refine ⟨records,hc.keys,hbetter (hreason ?_)⟩
    intro hnil
    obtain ⟨other,hother⟩ := List.exists_mem_of_ne_nil _ hvalues
    obtain ⟨e,he,rfl⟩ := List.mem_map.mp hother
    obtain ⟨coin,hcoin,-⟩ := hwhy e.1 e.2 ((conflicting.mem_entries _ _).mp he)
    rw [hnil] at hcoin
    cases hcoin

theorem tryItem_success (hpool : Pool E S s.mempool) (hc : Checked E S s item additions records)
    (hremovals : item.removals=records.values.map (·.coin))
    (hcapacity : checkCapacity s.mempool item.cost item.feePerCost = .ok ())
    (h : Returns (tryItem E item peak additions records validateSignature) s (cost,.success,none) s') :
    ∃ conflicting left room,PoolEntry E S s item conflicting left room ∧
      s'.mempool.spends=room.spends.set item.name item := by
  have hconflicts := checkRemovals_conflicts E records s.mempool
  unfold tryItem at h
  have h := returns_read h
  rcases checkRemovals_cases (E := E) s.mempool records with hr | hr | ⟨coin,conflicts,hr⟩
  · rw [hr] at h
    cases h
  · rw [hr] at h hconflicts
    exact replace_success hpool hc hremovals hcapacity (hconflicts (by decide)) (fun hne => absurd rfl hne) h
  · rw [hr] at h hconflicts
    exact replace_success hpool hc hremovals hcapacity (hconflicts (by simp)) (fun _ => rfl) h

theorem run_success (hs : Managed E S s) (hc : Promised E S c) (hnew : ¬ s.mempool.spends.contains c.spendName)
    (h : Returns (c.run E) s (cost,.success,none) s') :
    ∃ item conflicting left room,item.name=c.spendName ∧ item.spendBundle=c.newSpend ∧
      PoolEntry E S s item conflicting left room ∧ s'.mempool.spends=room.spends.set item.name item := by
  have hparsed : ∀ npc∈c.npcResult.npcList,npc.Parsed := by
    obtain ⟨generator,maxCost,hresult⟩ := hc.parsed
    rw [hresult]
    exact getNamePuzzleConditions_parsed generator maxCost true
  have hnone : s.mempool.spends.get? c.spendName=none := by
    simpa [Dict.contains] using hnew
  unfold SpendbundleCall.run addSpendbundle at h
  have h := returns_read (returns_failing h)
  cases hpeak : s.peak with
  | none =>
    rw [hpeak] at h
    cases h
  | some peak =>
    rw [hpeak] at h
    obtain ⟨cost',-,h⟩ := returns_check h
    obtain ⟨_,-,h⟩ := returns_check h
    cases herror : c.npcResult.error with
    | some e =>
      rw [herror] at h
      cases h
    | none =>
      rw [herror] at h
      obtain ⟨additions,hadditions,h⟩ := returns_check h
      obtain ⟨amount,hamount,h⟩ := returns_check h
      obtain ⟨_,hnames,h⟩ := returns_check h
      rw [if_neg hnew] at h
      obtain ⟨⟨records,removed⟩,hp,h⟩ := returns_check h
      obtain ⟨fees,-,h⟩ := returns_check h
      by_cases hcost : cost'=0
      · rw [dif_pos hcost] at h
        cases h
      rw [dif_neg hcost] at h
      obtain ⟨_,hcapacity,h⟩ := returns_check h
      obtain ⟨hkeys,hcoins⟩ := removalRecords_ok hc.named hp
      have hagree := hc.additions additions hadditions
      have hparents := additionsForNpc_parent hadditions
      have hnodup : (c.npcResult.npcList.map (·.coinName)).Nodup := not_not.mp (reject_eq_ok.mp hnames)
      have hchecked : Checked E S s ⟨c.newSpend,fees,c.npcResult,cost',c.spendName,additions,
          records.values.map (·.coin),c.program.getD c.newSpend.simpleSolutionGenerator,hcost⟩ additions records := by
        refine ⟨⟨?_,?_,?_⟩,hnone,?_,?_,hcoins,hparsed,?_⟩
        · exact hc.removals.nodup_iff.mpr hnodup
        · exact (hagree.map E.coinName).nodup_iff.mpr (checkAdditions_nodup hamount)
        · intro a ha
          exact ⟨hc.created a ha,hc.removals.mem_iff.mpr (hparents a (hagree.mem_iff.mp ha))⟩
        · intro k
          exact (hagree.map E.coinName).mem_iff.symm
        · intro k
          rw [hkeys k]
          exact hc.removals.mem_iff.symm
        · intro npc hnpc
          exact (hkeys _).mpr (List.mem_map_of_mem hnpc)
      obtain ⟨conflicting,left,room,hentry,hspends⟩ := tryItem_success hs.pool hchecked rfl hcapacity h
      exact ⟨_,conflicting,left,room,rfl,rfl,hentry,hspends⟩

namespace PoolEntry

theorem room_spec (h : PoolEntry E S s item conflicting left room) : Pool E S room ∧ Shrunk left room := by
  have hroom := Mempool.makeRoom_spec item.cost (left.spends.size+1) h.pool (Nat.lt_succ_self _)
  rw [h.room] at hroom
  exact ⟨hroom.pool,hroom.shrunk⟩

theorem room_shrunk (h : PoolEntry E S s item conflicting left room) : Shrunk s.mempool room :=
  h.shrunk.trans h.room_spec.2

variable {other : MempoolItem}

section
variable (h : PoolEntry E S s item conflicting left room)
include h

theorem conflicts_iff (hpool : Pool E S s.mempool) (hin : s.mempool.spends.get? other.name=some other) :
    conflicting.get? other.name=some other ↔ ∃ k∈other.spent E,k∈item.spent E := by
  constructor
  · intro hget
    obtain ⟨k,hk,hremoval⟩ := h.shared _ _ hget
    exact ⟨k,((hpool.consistent.removals k other).mp hremoval).2,hk⟩
  · intro hshared
    obtain ⟨k,hother,hk⟩ := hshared
    exact h.all k hk other ((hpool.consistent.removals k other).mpr ⟨hin,hother⟩)

/-- What goes to make room, and not because of a conflict, pays less for its cost. -/
theorem evicted_lt (hpool : Pool E S s.mempool)
    (hin : s.mempool.spends.get? other.name=some other) (hfree : conflicting.get? other.name≠some other)
    (hout : room.spends.get? other.name≠some other) : other.feePerCost < item.feePerCost := by
  have hnone : conflicting.get? other.name=none := by
    cases hget : conflicting.get? other.name with
    | none => rfl
    | some o =>
      have hstored := (h.mem _ _ hget).2
      rw [hin] at hstored
      rw [hget,← hstored] at hfree
      exact absurd rfl hfree
  have hleft : left.spends.get? other.name=some other := (h.kept _ hnone).trans hin
  by_cases hfull : s.mempool.atFullCapacity item.cost
  · have hcapacity := h.capacity
    unfold checkCapacity at hcapacity
    rw [if_pos hfull] at hcapacity
    obtain ⟨_,-,hcapacity⟩ := bind_ok.mp hcapacity
    obtain ⟨r,hrate,hcapacity⟩ := bind_ok.mp hcapacity
    have hlt : r < item.feePerCost := not_le.mp (reject_eq_ok.mp hcapacity)
    have habove := Mempool.above_fits hpool.consistent hfull hrate
    have hless := Mempool.above_le (r := r) hpool.consistent h.pool.consistent h.shrunk
    have hmax := h.shrunk.maxSizeInCost
    have hfits : left.above r+item.cost≤left.maxSizeInCost := by omega
    by_contra hhigh
    have hstays := Mempool.makeRoom_above (r := r) (left.spends.size+1) h.pool (Nat.lt_succ_self _)
      hfits hleft (lt_of_lt_of_le hlt (not_lt.mp hhigh))
    rw [h.room] at hstays
    exact hout hstays
  · have hless := Mempool.total_le hpool.consistent h.pool.consistent h.shrunk
    have hmax := h.shrunk.maxSizeInCost
    have hleftFull : ¬ left.atFullCapacity item.cost := by
      unfold Mempool.atFullCapacity at hfull ⊢
      rw [decide_eq_true_eq] at hfull ⊢
      omega
    have hroom := h.room
    rw [Mempool.makeRoom_enough hleftFull] at hroom
    rw [← (Prod.mk.inj hroom).2] at hout
    exact absurd hleft hout

theorem get?_spends (hspends : s'.mempool.spends=room.spends.set item.name item)
    (hin : s.mempool.spends.get? other.name=some other) :
    s'.mempool.spends.get? other.name=room.spends.get? other.name := by
  have hne : item.name≠other.name := by
    intro heq
    have hnew := h.new
    rw [heq,hin] at hnew
    cases hnew
  rw [hspends,Dict.get?_set,if_neg hne]

end

end PoolEntry

/-- Every item that goes for an accepted bundle, and shares no coin with it, pays strictly less for its cost. -/
theorem evicted_cheaper (hS : ∀ a b,S a → S b → E.coinName a=E.coinName b → a=b) (h : MempoolRun E S s)
    (hc : Promised E S c) (hrun : Returns (c.run E) s (cost,.success,none) s') :
    ∃ new,s'.mempool.spends.get? c.spendName=some new ∧
      ∀ item,s.mempool.spends.get? item.name=some item → s'.mempool.spends.get? item.name≠some item →
        (∀ k∈item.spent E,k∉new.spent E) → item.feePerCost<new.feePerCost := by
  have hs := h.managed hS
  by_cases hnew : s.mempool.spends.contains c.spendName
  · have hsame := addSpendbundle_present (E := E) hnew
    unfold Returns at hrun
    unfold Kept at hsame
    rw [hrun] at hsame
    dsimp only at hsame
    rw [hsame]
    obtain ⟨new,hget⟩ := Option.isSome_iff_exists.mp hnew
    refine ⟨new,hget,?_⟩
    intro item hin hout
    exact absurd hin hout
  · obtain ⟨new,conflicting,left,room,hname,-,hentry,hspends⟩ := run_success hs hc hnew hrun
    refine ⟨new,?_,?_⟩
    · rw [hspends,← hname,Dict.get?_set_self]
    · intro item hin hout hfree
      rw [hentry.get?_spends hspends hin] at hout
      apply hentry.evicted_lt hs.pool hin _ hout
      intro hconflict
      obtain ⟨k,hk,hk'⟩ := (hentry.conflicts_iff hs.pool hin).mp hconflict
      exact hfree k hk hk'

section Crowded

/-- A generator names the parent of the coin it spends by its first byte, the rest is the amount; it creates one of
amount one. The pool has room for two such bundles. -/
def crowdedEnv : Env :=
  { tinyEnv with
    maxBlockCostClvm := 3600
    mempoolBlockBuffer := 1
    runGenerator := fun _ _ program _ =>
      let zeros := SExp.atom (List.replicate 32 0)
      let parent := SExp.atom (List.replicate 31 0++program.take 1)
      let createCoin := SExp.pair (.atom [51]) (.pair zeros (.pair (.atom [1]) (.atom [])))
      let conditions := SExp.pair (.pair createCoin (.atom [])) (.atom [])
      let spend := SExp.pair parent (.pair zeros (.pair (.atom (program.drop 1)) conditions))
      some (0,.pair (.pair spend (.atom [])) (.atom [])) }

def CrowdedMade (c : Coin) : Prop := c.puzzleHash=0 ∧ c.amount=1

def crowdedCall (parent : Bytes32) (amount : ℕ) (generator : SerializedProgram) : SpendbundleCall where
  newSpend := ⟨[⟨parent+2^100,0,1⟩],[⟨parent,0,amount⟩],[],[]⟩
  npcResult := getNamePuzzleConditions crowdedEnv ⟨generator,[]⟩ 1000000 true
  spendName := parent
  validateSignature := true
  program := none
  getCoinRecord n := if n=parent+2^100 then some ⟨⟨parent,0,amount⟩,0,0,false,false,0⟩ else none

theorem crowdedMade_eq (a b : Coin) (ha : CrowdedMade a) (hb : CrowdedMade b)
    (hname : crowdedEnv.coinName a=crowdedEnv.coinName b) : a=b := by
  have hparent : a.parentCoinInfo=b.parentCoinInfo := add_right_cancel hname
  cases a
  cases b
  simp_all [CrowdedMade]

theorem crowdedCall_promised (parent : Bytes32) (amount : ℕ) (generator : SerializedProgram)
    (hnames : (crowdedCall parent amount generator).npcResult.npcList.map (·.coinName)=[parent+2^100])
    (hadd : additionsForNpc (crowdedCall parent amount generator).npcResult.npcList =
      .ok [⟨parent+2^100,0,1⟩]) : Promised crowdedEnv CrowdedMade (crowdedCall parent amount generator) :=
  .of_answers ⟨⟨generator,[]⟩,1000000,rfl⟩ hnames hadd (fun _ => rfl) rfl fun a ha => by
    rw [List.mem_singleton.mp ha]
    exact ⟨rfl,rfl⟩

def crowdedManager : MempoolManager :=
  ((crowdedCall 2 5 [2,5]).run crowdedEnv
    ((crowdedCall 1 5 [1,5]).run crowdedEnv { MempoolManager.new crowdedEnv with peak := some tinyPeak }).2).2

theorem crowdedManager_run : MempoolRun crowdedEnv CrowdedMade crowdedManager := by
  have hpeak : tinyPeak.isTransactionBlock := rfl
  have hfirst := (MempoolRun.start.newPeak hpeak).addSpendbundle
    (crowdedCall_promised 1 5 [1,5] (by decide +kernel) (by decide +kernel))
  exact hfirst.addSpendbundle (crowdedCall_promised 2 5 [2,5] (by decide +kernel) (by decide +kernel))

/-- A bundle that pays nearly 20000 puts one of the two out. -/
theorem evicted_cheaper_crowded : ∃ item new,crowdedManager.mempool.spends.get? item.name=some item ∧
      ((crowdedCall 3 20000 [3,78,32]).run crowdedEnv crowdedManager).2.mempool.spends.get? item.name=none ∧
      ((crowdedCall 3 20000 [3,78,32]).run crowdedEnv crowdedManager).2.mempool.spends.get? 3=some new ∧
      item.feePerCost<new.feePerCost := by
  have hcall : Promised crowdedEnv CrowdedMade (crowdedCall 3 20000 [3,78,32]) :=
    crowdedCall_promised 3 20000 [3,78,32] (by decide +kernel) (by decide +kernel)
  have hstatus : ((crowdedCall 3 20000 [3,78,32]).run crowdedEnv crowdedManager).1 =
      .ok (some 1800,.success,none) := by decide +kernel
  obtain ⟨new,hnew,hcheaper⟩ := evicted_cheaper crowdedMade_eq crowdedManager_run hcall (returns_of _ hstatus)
  have hold : (crowdedManager.mempool.spends.get? 1).map (fun i => (i.name,i.spent crowdedEnv)) =
      some (1,[1+2^100]) := by decide +kernel
  have hspent : (((crowdedCall 3 20000 [3,78,32]).run crowdedEnv crowdedManager).2.mempool.spends.get? 3).map
      (fun i => i.spent crowdedEnv)=some [3+2^100] := by decide +kernel
  have hout : ((crowdedCall 3 20000 [3,78,32]).run crowdedEnv crowdedManager).2.mempool.spends.get? 1=none := by
    decide +kernel
  obtain ⟨item,hitem,hat⟩ := Option.map_eq_some_iff.mp hold
  obtain ⟨hname,hspends⟩ := Prod.mk.inj hat
  have hnew' : ((crowdedCall 3 20000 [3,78,32]).run crowdedEnv crowdedManager).2.mempool.spends.get? 3 =
      some new := hnew
  rw [hnew'] at hspent
  refine ⟨item,new,?_,?_,hnew',?_⟩
  · rw [hname,hitem]
  · rw [hname,hout]
  · apply hcheaper item
    · rw [hname,hitem]
    · rw [hname,hout]
      exact (Option.some_ne_none item).symm
    · intro k hk hk'
      have hspentNew : new.spent crowdedEnv=[3+2^100] := Option.some.inj hspent
      rw [hspends,List.mem_singleton] at hk
      rw [hspentNew,List.mem_singleton,hk] at hk'
      exact absurd hk' (by decide +kernel)

end Crowded

theorem canReplace_true {fees : ℕ} {feesPerCost : ℚ}
    (h : canReplace E conflicting records fees feesPerCost = .ok true) :
    (∀ other∈conflicting.values,∀ coin∈other.removals,E.coinName coin∈records.keys) ∧
      trueDiv (conflicting.values.map (·.fee)).sum (conflicting.values.map (·.cost)).sum<feesPerCost ∧
      (conflicting.values.map (·.fee)).sum+10000≤fees := by
  unfold canReplace at h
  dsimp only at h
  split_ifs at h with hcoins hzero hrate
  · cases h
  · cases h
  · refine ⟨?_,not_le.mp hrate,?_⟩
    · intro other hother coin hcoin
      by_contra hnot
      apply hcoins
      rw [List.any_eq_true]
      refine ⟨other,hother,?_⟩
      rw [List.any_eq_true]
      refine ⟨coin,hcoin,?_⟩
      rw [← Dict.get?_eq_none_iff] at hnot
      simp [Dict.contains,hnot]
    · have hincrease := of_decide_eq_true (Except.ok.inj h)
      unfold minFeeIncrease at hincrease
      omega

/-- The coins that an item is kept under are the coins that it spends. -/
def Reserving (E : Env) (m : Mempool) : Prop :=
  ∀ n item,m.spends.get? n=some item → ∀ k,k∈item.removals.map E.coinName ↔ k∈item.spent E

theorem MempoolRun.reserving (hS : ∀ a b,S a → S b → E.coinName a=E.coinName b → a=b)
    (hbuffer : 0<E.mempoolBlockBuffer) (h : MempoolRun E S s) : Reserving E s.mempool := by
  induction h with
  | start =>
    intro n item hget
    cases hget
  | newPeak =>
    intro n item hget
    cases hget
  | @addSpendbundle s h c hc ih =>
    have hs := h.managed hS
    rcases addSpendbundle_atomic hs (h.limit_le hS hbuffer) hc with hsame | ⟨⟨cost,hok⟩,-⟩
    · rw [hsame]
      exact ih
    by_cases hnew : s.mempool.spends.contains c.spendName
    · have hsame := addSpendbundle_present (E := E) hnew
      unfold Kept at hsame
      rw [hsame]
      exact ih
    · have hrun : Returns (c.run E) s (cost,.success,none) (c.run E s).2 := returns_of _ hok
      obtain ⟨new,conflicting,left,room,-,-,hentry,hspends⟩ := run_success hs hc hnew hrun
      intro n item hget
      rw [hspends,Dict.get?_set] at hget
      split_ifs at hget with hn
      · rw [← Option.some.inj hget]
        exact hentry.removals
      · exact ih n item (hentry.room_shrunk.spends n item hget)

def totalFees (m : Mempool) : ℕ := m.spends.total (·.fee)

def sharesCoin (E : Env) (new item : MempoolItem) : Bool := (item.spent E).any fun k => (new.spent E).contains k

theorem sharesCoin_iff {new : MempoolItem} : sharesCoin E new item ↔ ∃ k∈item.spent E,k∈new.spent E := by
  simp [sharesCoin]

/-- Items of the pool that spend a coin of the new one. -/
def replacedItems (E : Env) (m : Mempool) (new : MempoolItem) : List MempoolItem :=
  m.spends.values.filter (sharesCoin E new)

def crowdedOut (E : Env) (m m' : Mempool) (new : MempoolItem) : List MempoolItem :=
  m.spends.values.filter fun item => !sharesCoin E new item && !decide (m'.spends.get? item.name=some item)

namespace PoolEntry

section
variable (h : PoolEntry E S s item conflicting left room)
include h

theorem replaced_perm (hpool : Pool E S s.mempool) :
    conflicting.values.Perm (replacedItems E s.mempool item) := by
  have hnamed (n : Bytes32) (other : MempoolItem) (hget : conflicting.get? n=some other) : other.name=n :=
    (h.mem n other hget).1
  have hnodup : conflicting.values.Nodup := conflicting.nodup_values hnamed
  apply (List.perm_ext_iff_of_nodup hnodup ((Mempool.values_nodup hpool.consistent).filter _)).mpr
  intro other
  rw [List.mem_filter,Mempool.mem_values hpool.consistent,conflicting.mem_values hnamed,sharesCoin_iff]
  constructor
  · intro hget
    have hin := (h.mem _ _ hget).2
    exact ⟨hin,(h.conflicts_iff hpool hin).mp hget⟩
  · intro hin
    exact (h.conflicts_iff hpool hin.1).mpr hin.2

theorem replaced_gone (hpool : Pool E S s.mempool)
    (hspends : s'.mempool.spends=room.spends.set item.name item) {other : MempoolItem}
    (hin : s.mempool.spends.get? other.name=some other) (hshares : sharesCoin E item other=true) :
    s'.mempool.spends.get? other.name=none := by
  have hgone := h.gone _ _ ((h.conflicts_iff hpool hin).mpr (sharesCoin_iff.mp hshares))
  rw [h.get?_spends hspends hin]
  cases hget : room.spends.get? other.name with
  | none => rfl
  | some o =>
    have hleft := h.room_spec.2.spends _ _ hget
    rw [hgone] at hleft
    cases hleft

theorem room_new : room.spends.get? item.name=none := by
  cases hget : room.spends.get? item.name with
  | none => rfl
  | some o =>
    have hold := h.room_shrunk.spends _ _ hget
    rw [h.new] at hold
    cases hold

theorem room_perm (hpool : Pool E S s.mempool)
    (hspends : s'.mempool.spends=room.spends.set item.name item) : room.spends.values.Perm
      (s.mempool.spends.values.filter fun other => decide (s'.mempool.spends.get? other.name=some other)) := by
  have hroom := h.room_spec.1.consistent
  apply (List.perm_ext_iff_of_nodup (Mempool.values_nodup hroom)
    ((Mempool.values_nodup hpool.consistent).filter _)).mpr
  intro other
  rw [List.mem_filter,Mempool.mem_values hpool.consistent,Mempool.mem_values hroom,decide_eq_true_eq]
  constructor
  · intro hget
    have hin := h.room_shrunk.spends _ _ hget
    exact ⟨hin,(h.get?_spends hspends hin).trans hget⟩
  · intro hin
    rw [← h.get?_spends hspends hin.1]
    exact hin.2

theorem fees (hpool : Pool E S s.mempool) (hspends : s'.mempool.spends=room.spends.set item.name item) :
    totalFees s'.mempool+((replacedItems E s.mempool item).map (·.fee)).sum +
        ((crowdedOut E s.mempool s'.mempool item).map (·.fee)).sum = totalFees s.mempool+item.fee := by
  let stays (other : MempoolItem) : Bool := decide (s'.mempool.spends.get? other.name=some other)
  have hsplit := sum_filter_add (·.fee) (sharesCoin E item) s.mempool.spends.values
  have hrest := sum_filter_add (·.fee) stays (s.mempool.spends.values.filter fun other => !sharesCoin E item other)
  have hin : (s.mempool.spends.values.filter fun other => !sharesCoin E item other).filter stays =
      s.mempool.spends.values.filter stays := by
    rw [List.filter_filter]
    apply List.filter_congr
    intro other hother
    cases hshares : sharesCoin E item other with
    | false => simp
    | true =>
      have hgone := h.replaced_gone hpool hspends ((Mempool.mem_values hpool.consistent).mp hother) hshares
      simp [stays,hgone]
  have hout : (s.mempool.spends.values.filter fun other => !sharesCoin E item other).filter (fun other => !stays other) =
      crowdedOut E s.mempool s'.mempool item := by
    unfold crowdedOut
    rw [List.filter_filter]
    apply List.filter_congr
    intro other _
    exact Bool.and_comm _ _
  have htotal : totalFees s'.mempool=(room.spends.values.map (·.fee)).sum+item.fee := by
    unfold totalFees
    rw [hspends,Dict.total_set _ _ _ h.room_new]
    rfl
  have hkept : (room.spends.values.map (·.fee)).sum=((s.mempool.spends.values.filter stays).map (·.fee)).sum :=
    ((h.room_perm hpool hspends).map (·.fee)).sum_eq
  rw [hin,hout] at hrest
  have hbefore : totalFees s.mempool=(s.mempool.spends.values.map (·.fee)).sum := rfl
  unfold replacedItems
  omega

end

end PoolEntry

/-- One accepted bundle that conflicts with the pool. -/
structure Replaces (E : Env) (m m' : Mempool) (new : MempoolItem) : Prop where
  coins : ∀ item∈replacedItems E m new,∀ k∈item.spent E,k∈new.spent E
  gone : ∀ item∈replacedItems E m new,m'.spends.get? item.name=none
  rate : trueDiv ((replacedItems E m new).map (·.fee)).sum ((replacedItems E m new).map (·.cost)).sum <
    new.feePerCost
  fees : totalFees m+10000≤totalFees m'+((crowdedOut E m m' new).map (·.fee)).sum

theorem PoolEntry.replaces (h : PoolEntry E S s item conflicting left room) (hpool : Pool E S s.mempool)
    (hreserving : Reserving E s.mempool) (hspends : s'.mempool.spends=room.spends.set item.name item)
    (hsome : replacedItems E s.mempool item≠[]) : Replaces E s.mempool s'.mempool item := by
  have hperm := h.replaced_perm hpool
  have hvalues : conflicting.values≠[] := by
    intro hnil
    rw [hnil] at hperm
    exact hsome (List.nil_perm.mp hperm)
  obtain ⟨records,hkeys,hreplace⟩ := h.better hvalues
  obtain ⟨hcoins,hrate,hfees⟩ := canReplace_true hreplace
  have hin {other : MempoolItem} (hother : other∈replacedItems E s.mempool item) :
      s.mempool.spends.get? other.name=some other :=
    (Mempool.mem_values hpool.consistent).mp (List.mem_of_mem_filter hother)
  have hsum (f : MempoolItem → ℕ) : (conflicting.values.map f).sum=((replacedItems E s.mempool item).map f).sum :=
    (hperm.map f).sum_eq
  rw [hsum,hsum] at hrate
  rw [hsum] at hfees
  refine ⟨?_,?_,hrate,?_⟩
  · intro other hother k hk
    obtain ⟨coin,hcoin,rfl⟩ := List.mem_map.mp ((hreserving _ _ (hin hother) k).mpr hk)
    exact (hkeys _).mp (hcoins other (hperm.mem_iff.mpr hother) coin hcoin)
  · intro other hother
    exact h.replaced_gone hpool hspends (hin hother) (List.mem_filter.mp hother).2
  · have hall := h.fees hpool hspends
    omega

/-- Managers after more calls, none of which puts out an item just to make room. -/
inductive RoomyCalls (E : Env) (S : Coin → Prop) (s : MempoolManager) : MempoolManager → Prop
  | refl : RoomyCalls E S s s
  | call {t : MempoolManager} (h : RoomyCalls E S s t) {c : SpendbundleCall} (hc : Promised E S c)
      (hroom : ∀ new,(c.run E t).2.mempool.spends.get? c.spendName=some new →
        crowdedOut E t.mempool (c.run E t).2.mempool new=[]) : RoomyCalls E S s (c.run E t).2

theorem RoomyCalls.run (h : RoomyCalls E S s s') (hs : MempoolRun E S s) : MempoolRun E S s' := by
  induction h with
  | refl => exact hs
  | call _ hc _ ih => exact ih.addSpendbundle hc

theorem run_keeps_reserved (hS : ∀ a b,S a → S b → E.coinName a=E.coinName b → a=b)
    (hbuffer : 0<E.mempoolBlockBuffer) (h : MempoolRun E S s) (hc : Promised E S c)
    (hroom : ∀ new,(c.run E s).2.mempool.spends.get? c.spendName=some new →
      crowdedOut E s.mempool (c.run E s).2.mempool new=[]) :
    (∀ k,s.mempool.removals.contains k → (c.run E s).2.mempool.removals.contains k) ∧
      totalFees s.mempool≤totalFees (c.run E s).2.mempool := by
  have hs := h.managed hS
  have hs' := (h.addSpendbundle hc).managed hS
  rcases addSpendbundle_atomic hs (h.limit_le hS hbuffer) hc with hsame | ⟨⟨cost,hok⟩,-⟩
  · rw [hsame]
    exact ⟨fun _ hk => hk,le_refl _⟩
  by_cases hold : s.mempool.spends.contains c.spendName
  · have hsame := addSpendbundle_present (E := E) hold
    unfold Kept at hsame
    rw [hsame]
    exact ⟨fun _ hk => hk,le_refl _⟩
  have hrun : Returns (c.run E) s (cost,.success,none) (c.run E s).2 := returns_of _ hok
  obtain ⟨new,conflicting,left,room,hname,-,hentry,hspends⟩ := run_success hs hc hold hrun
  have hnew : (c.run E s).2.mempool.spends.get? new.name=some new := by
    rw [hspends,Dict.get?_set_self]
  have hnone := hroom new (hname ▸ hnew)
  constructor
  · intro k hk
    obtain ⟨other,hother⟩ := Option.isSome_iff_exists.mp hk
    obtain ⟨hin,hspent⟩ := (hs.pool.consistent.removals k other).mp hother
    apply Option.isSome_iff_exists.mpr
    by_cases hstays : (c.run E s).2.mempool.spends.get? other.name=some other
    · exact ⟨other,(hs'.pool.consistent.removals k other).mpr ⟨hstays,hspent⟩⟩
    · have hshares : sharesCoin E new other=true := by
        by_contra hfree
        have hcrowded : other∈crowdedOut E s.mempool (c.run E s).2.mempool new := by
          unfold crowdedOut
          rw [List.mem_filter,Mempool.mem_values hs.pool.consistent]
          exact ⟨hin,by simp [hfree,hstays]⟩
        rw [hnone] at hcrowded
        cases hcrowded
      have hreplaced : other∈replacedItems E s.mempool new :=
        List.mem_filter.mpr ⟨(Mempool.mem_values hs.pool.consistent).mpr hin,hshares⟩
      have hreplaces := hentry.replaces hs.pool (h.reserving hS hbuffer) hspends (List.ne_nil_of_mem hreplaced)
      exact ⟨new,(hs'.pool.consistent.removals k new).mpr ⟨hnew,hreplaces.coins other hreplaced k hspent⟩⟩
  · have hfees := hentry.fees hs.pool hspends
    rw [hnone,List.map_nil,List.sum_nil] at hfees
    by_cases hsome : replacedItems E s.mempool new=[]
    · rw [hsome,List.map_nil,List.sum_nil] at hfees
      omega
    · have hreplaces := hentry.replaces hs.pool (h.reserving hS hbuffer) hspends hsome
      have hmore := hreplaces.fees
      rw [hnone,List.map_nil,List.sum_nil] at hmore
      omega

/-- An accepted bundle replaces the items it conflicts with on all three terms; and calls that put out nothing just
to make room free no reserved coin and do not lower the fees of the pool. -/
theorem replacement_not_abused (hS : ∀ a b,S a → S b → E.coinName a=E.coinName b → a=b)
    (hbuffer : 0<E.mempoolBlockBuffer) (h : MempoolRun E S s) :
    (∀ c,Promised E S c → ¬ s.mempool.spends.contains c.spendName →
      ∀ cost s',Returns (c.run E) s (cost,.success,none) s' →
        ∃ new,s'.mempool.spends.get? c.spendName=some new ∧ new.spendBundle=c.newSpend ∧
          (replacedItems E s.mempool new≠[] → Replaces E s.mempool s'.mempool new)) ∧
    ∀ s',RoomyCalls E S s s' → (∀ k,s.mempool.removals.contains k → s'.mempool.removals.contains k) ∧
        totalFees s.mempool≤totalFees s'.mempool := by
  have hs := h.managed hS
  constructor
  · intro c hc hnew cost s' hrun
    obtain ⟨new,conflicting,left,room,hname,hbundle,hentry,hspends⟩ := run_success hs hc hnew hrun
    refine ⟨new,?_,hbundle,hentry.replaces hs.pool (h.reserving hS hbuffer) hspends⟩
    rw [hspends,← hname,Dict.get?_set_self]
  · intro s' hcalls
    induction hcalls with
    | refl => exact ⟨fun _ hk => hk,le_refl _⟩
    | call hcalls hc hroom ih =>
      obtain ⟨hcoins,hfees⟩ := run_keeps_reserved hS hbuffer (hcalls.run h) hc hroom
      exact ⟨fun k hk => hcoins k (ih.1 k hk),le_trans ih.2 hfees⟩

section Rich

def richCoin : Coin := ⟨0,0,20005⟩

/-- A generator that spends one coin: the empty one leaves a small fee, any other one nearly all. -/
def richEnv : Env :=
  { tinyEnv with
    runGenerator := fun _ _ generator _ =>
      let amount : Bytes := if generator.length=0 then [78,33] else [1]
      let zeros := SExp.atom (List.replicate 32 0)
      let createCoin := SExp.pair (.atom [51]) (.pair zeros (.pair (.atom amount) (.atom [])))
      let spend := SExp.pair zeros (.pair zeros (.pair (.atom [78,37]) (.pair (.pair createCoin (.atom [])) (.atom []))))
      some (0,.pair (.pair spend (.atom [])) (.atom []))
    coinName := fun c => c.parentCoinInfo+c.amount+2^100 }

def richMade (amount : ℕ) : Coin := ⟨richEnv.coinName richCoin,0,amount⟩

def richCall (program : SerializedProgram) (amount : ℕ) (name : Bytes32) : SpendbundleCall where
  newSpend := ⟨[richMade amount],[richCoin],[],program⟩
  npcResult := getNamePuzzleConditions richEnv ⟨program,[]⟩ 1000000 true
  spendName := name
  validateSignature := true
  program := none
  getCoinRecord n := if n=richEnv.coinName richCoin then some ⟨richCoin,0,0,false,false,0⟩ else none

def richManager : MempoolManager := { MempoolManager.new richEnv with peak := some tinyPeak }

example : ((richCall [] 20001 7).run richEnv richManager).2.mempool.spends.size=1 := by decide +kernel

theorem richCall_promised (S : Coin → Prop) (program : SerializedProgram) (amount : ℕ) (name : Bytes32)
    (hS : S (richMade amount))
    (hadd : additionsForNpc (richCall program amount name).npcResult.npcList = .ok [richMade amount])
    (hnames : (richCall program amount name).npcResult.npcList.map (·.coinName)=[richEnv.coinName richCoin]) :
    Promised richEnv S (richCall program amount name) :=
  .of_answers ⟨⟨program,[]⟩,1000000,rfl⟩ hnames hadd (fun _ => rfl) rfl fun a ha => by
    rw [List.mem_singleton.mp ha]
    exact hS

/-- The second bundle spends the coin of the first one for a higher fee, and takes its place. -/
theorem replacement_not_abused_rich :
    let s := ((richCall [] 20001 7).run richEnv richManager).2
    let s' := ((richCall [1] 1 8).run richEnv s).2
    s.mempool.spends.contains 7 ∧ ∃ new,s'.mempool.spends.get? 8=some new ∧
      replacedItems richEnv s.mempool new≠[] ∧ Replaces richEnv s.mempool s'.mempool new := by
  intro s s'
  let S (c : Coin) : Prop := c=richMade 20001 ∨ c=richMade 1
  have hS (a b : Coin) (ha : S a) (hb : S b) (hname : richEnv.coinName a=richEnv.coinName b) : a=b := by
    have hdiffer : richEnv.coinName (richMade 20001)≠richEnv.coinName (richMade 1) := by decide +kernel
    obtain rfl | rfl := ha <;> obtain rfl | rfl := hb
    · rfl
    · exact absurd hname hdiffer
    · exact absurd hname.symm hdiffer
    · rfl
  have hpeak : tinyPeak.isTransactionBlock := rfl
  have hfirst : Promised richEnv S (richCall [] 20001 7) :=
    richCall_promised S [] 20001 7 (Or.inl rfl) (by decide +kernel) (by decide +kernel)
  have hsecond : Promised richEnv S (richCall [1] 1 8) :=
    richCall_promised S [1] 1 8 (Or.inr rfl) (by decide +kernel) (by decide +kernel)
  have hrun : MempoolRun richEnv S s := (MempoolRun.start.newPeak hpeak).addSpendbundle hfirst
  have hheld : s.mempool.spends.contains 7 := by decide +kernel
  have hnew : ¬ s.mempool.spends.contains 8 := by decide +kernel
  have hstatus : ((richCall [1] 1 8).run richEnv s).1 = .ok (some 13800,.success,none) := by decide +kernel
  have hreturns : Returns ((richCall [1] 1 8).run richEnv) s (some 13800,.success,none) s' := returns_of _ hstatus
  obtain ⟨new,hget,-,hreplaces⟩ := (replacement_not_abused hS (by decide) hrun).1 _ hsecond hnew _ _ hreturns
  have hsome : replacedItems richEnv s.mempool new≠[] := by
    have hconflict : (s'.mempool.spends.get? 8).any fun new => !(replacedItems richEnv s.mempool new).isEmpty := by
      decide +kernel
    change s'.mempool.spends.get? 8=some new at hget
    rw [hget] at hconflict
    intro hnil
    rw [Option.any_some,hnil] at hconflict
    cases hconflict
  exact ⟨hheld,new,hget,hsome,hreplaces hsome⟩

end Rich

end RoseChain
