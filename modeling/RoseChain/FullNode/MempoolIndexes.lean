import RoseChain.FullNode.Mempool

namespace RoseChain
open Lib MempoolItem

/-- The four indexes of the pool say the same. -/
structure Consistent (E : Env) (m : Mempool) : Prop where
  named : Named name m.spends
  sorted : Buckets feePerCost m.spends m.sortedSpends
  additions : Indexes name (created E) m.spends m.additions
  removals : Indexes name (spent E) m.spends m.removals
  total : m.totalMempoolCost=m.spends.total (·.cost)
  fits : m.totalMempoolCost ≤ m.maxSizeInCost

/-- No coin occurs twice in an item, and what it creates has a spent coin as its parent; `S` holds of the
coins created in a run. -/
structure Proper (E : Env) (S : Coin → Prop) (item : MempoolItem) : Prop where
  spent : (item.spent E).Nodup
  created : (item.created E).Nodup
  parents : ∀ a∈item.spendBundle.additions,S a ∧ a.parentCoinInfo∈item.spent E

structure Pool (E : Env) (S : Coin → Prop) (m : Mempool) : Prop where
  consistent : Consistent E m
  proper : ∀ n item,m.spends.get? n=some item → Proper E S item

/-- Items may have gone, none has come. -/
structure Shrunk (m m' : Mempool) : Prop where
  spends : ∀ n item,m'.spends.get? n=some item → m.spends.get? n=some item
  maxSizeInCost : m'.maxSizeInCost=m.maxSizeInCost

theorem Shrunk.refl (m : Mempool) : Shrunk m m := ⟨fun _ _ h => h,rfl⟩

theorem Shrunk.trans {a b c : Mempool} (h : Shrunk a b) (h' : Shrunk b c) : Shrunk a c :=
  ⟨fun n item hn => h.spends n item (h'.spends n item hn),h'.maxSizeInCost.trans h.maxSizeInCost⟩

namespace Mempool
variable {E : Env} {S : Coin → Prop} {m : Mempool} {item : MempoolItem}

theorem pool_new (max : ℕ) : Pool E S (Mempool.new max) := by
  refine ⟨⟨named_empty,buckets_empty,indexes_empty,indexes_empty,rfl,Int.natCast_nonneg _⟩,?_⟩
  intro n item h
  cases h

def without (E : Env) (m : Mempool) (item : MempoolItem) : Mempool :=
  { m with
    spends := m.spends.erase item.name
    sortedSpends := dropFromBucket m.sortedSpends item.feePerCost
      ((m.sortedSpends.get? item.feePerCost).getD Dict.empty) item.name
    additions := m.additions.eraseAll (item.created E)
    removals := m.removals.eraseAll (item.spent E)
    totalMempoolCost := m.totalMempoolCost-item.cost }

theorem forM_del {del : Coin → MempoolM Unit} {i : Mempool → Dict Bytes32 MempoolItem}
    {p : Mempool → Dict Bytes32 MempoolItem → Mempool} (hself : ∀ m,p m (i m)=m)
    (hindex : ∀ m d,i (p m d)=d) (hput : ∀ m d d',p (p m d) d'=p m d')
    (hdel : ∀ c m item,(i m).get? (E.coinName c)=some item → del c m=(.ok (),p m ((i m).erase (E.coinName c))))
    (l : List Coin) (m : Mempool) (hn : (l.map E.coinName).Nodup)
    (hin : ∀ k∈l.map E.coinName,∃ item,(i m).get? k=some item) :
    l.forM del m=(.ok (),p m ((i m).eraseAll (l.map E.coinName))) := by
  induction l generalizing m with
  | nil => exact congrArg (Prod.mk _) (hself m).symm
  | cons c l ih =>
    rw [List.map_cons,List.nodup_cons] at hn
    obtain ⟨item,hitem⟩ := hin (E.coinName c) List.mem_cons_self
    rw [Eff.forM_cons_of_ok (hdel c m item hitem),ih _ hn.2,hindex,hput]
    · rfl
    · intro k hk
      obtain ⟨other,hother⟩ := hin k (List.mem_cons_of_mem _ hk)
      have hne : E.coinName c≠k := fun heq => hn.1 (heq ▸ hk)
      exact ⟨other,by rw [hindex,Dict.get?_erase,if_neg hne,hother]⟩

theorem delRemovals_run (l : List Coin) (m : Mempool) (hn : (l.map E.coinName).Nodup)
    (hin : ∀ k∈l.map E.coinName,∃ item,m.removals.get? k=some item) :
    l.forM (fun rem => delRemoval (E.coinName rem)) m =
      (.ok (),{ m with removals := m.removals.eraseAll (l.map E.coinName) }) := by
  apply forM_del (E := E) (i := Mempool.removals) (p := fun m d => { m with removals := d })
    (fun _ => rfl) (fun _ _ => rfl) (fun _ _ _ => rfl) ?_ l m hn hin
  intro c m item hitem
  simp [delRemoval,hitem,lookup]

theorem delAdditions_run (l : List Coin) (m : Mempool) (hn : (l.map E.coinName).Nodup)
    (hin : ∀ k∈l.map E.coinName,∃ item,m.additions.get? k=some item) :
    l.forM (fun add => delAddition (E.coinName add)) m =
      (.ok (),{ m with additions := m.additions.eraseAll (l.map E.coinName) }) := by
  apply forM_del (E := E) (i := Mempool.additions) (p := fun m d => { m with additions := d })
    (fun _ => rfl) (fun _ _ => rfl) (fun _ _ _ => rfl) ?_ l m hn hin
  intro c m item hitem
  simp [delAddition,hitem,lookup]

theorem total_erase (h : Pool E S m) (hitem : m.spends.get? item.name=some item) :
    m.totalMempoolCost=(m.spends.erase item.name).total (·.cost)+item.cost := by
  rw [h.consistent.total,m.spends.total_erase _ hitem]
  push_cast
  rfl

theorem removeFromPool_run (h : Pool E S m) (hitem : m.spends.get? item.name=some item) :
    removeFromPool E item m=(.ok (),m.without E item) := by
  have hp := h.proper _ item hitem
  have hrem := delRemovals_run item.spendBundle.removals m hp.spent
    fun k hk => ⟨item,(h.consistent.removals k item).mpr ⟨hitem,hk⟩⟩
  have hadd := delAdditions_run item.spendBundle.additions
    { m with removals := m.removals.eraseAll (item.spendBundle.removals.map E.coinName) } hp.created
    fun k hk => ⟨item,(h.consistent.additions k item).mpr ⟨hitem,hk⟩⟩
  obtain ⟨dic,hdic,hin⟩ := h.consistent.sorted.get hitem
  have hpos : (item.cost : ℤ) ≤ m.totalMempoolCost := by
    have htotal := total_erase h hitem
    omega
  unfold removeFromPool
  rw [Eff.bind_of_ok hrem,Eff.bind_of_ok hadd]
  simp [hitem,hdic,hin,lookup,assertThat,hpos,without,spent,created]

theorem without_pool (h : Pool E S m) (hitem : m.spends.get? item.name=some item) :
    Pool E S (m.without E item) := by
  obtain ⟨dic,hdic,-⟩ := h.consistent.sorted.get hitem
  have htotal := total_erase h hitem
  refine ⟨⟨h.consistent.named.erase _,?_,h.consistent.additions.erase hitem,
    h.consistent.removals.erase hitem,?_,?_⟩,?_⟩
  · unfold without
    rw [hdic]
    exact h.consistent.sorted.drop hitem hdic
  · change m.totalMempoolCost-item.cost=((m.spends.erase item.name).total (·.cost) : ℕ)
    omega
  · have hfits := h.consistent.fits
    change m.totalMempoolCost-item.cost ≤ m.maxSizeInCost
    omega
  · intro n other hother
    unfold without at hother
    dsimp only at hother
    rw [Dict.get?_erase] at hother
    split_ifs at hother
    exact h.proper n other hother

theorem without_shrunk (m : Mempool) (item : MempoolItem) : Shrunk m (m.without E item) := by
  refine ⟨?_,rfl⟩
  intro n other hother
  unfold without at hother
  dsimp only at hother
  rw [Dict.get?_erase] at hother
  split_ifs at hother
  exact hother

theorem cheapest_mem (h : Pool E S m) {r : ℚ} {val : Dict Bytes32 MempoolItem}
    (hhead : (sortedItems m.sortedSpends).head?=some (r,val)) :
    ∃ item,val.values.head?=some item ∧ m.spends.get? item.name=some item ∧ item.feePerCost=r := by
  have hmem := List.mem_of_mem_head? (Option.mem_def.mpr hhead)
  unfold sortedItems at hmem
  rw [List.mem_mergeSort,Dict.mem_entries] at hmem
  have hsize := h.consistent.sorted.nonempty r val hmem
  cases hl : val.entries with
  | nil => exact absurd (congrArg List.length hl) hsize
  | cons e l =>
    have hin : val.get? e.1=some e.2 := (val.mem_entries _ _).mp (hl ▸ List.mem_cons_self)
    obtain ⟨hstored,hrate⟩ := (h.consistent.sorted.mem r e.1 e.2).mp (by rw [hmem,Option.bind_some,hin])
    refine ⟨e.2,?_,?_,hrate⟩
    · unfold Dict.values
      rw [hl]
      rfl
    · rw [h.consistent.named _ _ hstored]
      exact hstored

theorem makeRoom_step (h : Pool E S m) {cost : ℕ} (n : ℕ) (hfull : m.atFullCapacity cost)
    {p : ℚ × Dict Bytes32 MempoolItem} (hhead : (sortedItems m.sortedSpends).head?=some p) :
    ∃ item,makeRoom E cost (n+1) m=makeRoom E cost n (m.without E item) ∧ Pool E S (m.without E item) ∧
      (m.without E item).spends.size < m.spends.size ∧ m.spends.get? item.name=some item ∧
        item.feePerCost=p.1 := by
  obtain ⟨r,val⟩ := p
  obtain ⟨item,hitem,hstored,hrate⟩ := cheapest_mem h hhead
  have hfirst : (Eff.lift (index (some (r,val))) : MempoolM _) m=(.ok (r,val),m) := rfl
  have hsecond : (Eff.lift (index val.values.head?) : MempoolM _) m=(.ok item,m) := by
    rw [hitem]
    rfl
  have hsize : (m.without E item).spends.size < m.spends.size := by
    have hlast := m.spends.size_erase hstored
    change (m.spends.erase item.name).size<_
    omega
  refine ⟨item,?_,without_pool h hstored,hsize,hstored,hrate⟩
  rw [makeRoom,Eff.bind_get,if_pos hfull,hhead,Eff.bind_of_ok hfirst]
  dsimp only
  rw [Eff.bind_of_ok hsecond,Eff.bind_of_ok (removeFromPool_run h hstored)]

/-- What may come out of making room. -/
structure Roomy (E : Env) (S : Coin → Prop) (cost : ℕ) (m : Mempool) (r : Except Fail Unit) (m' : Mempool) :
    Prop where
  pool : Pool E S m'
  shrunk : Shrunk m m'
  room : r = .ok () → m'.totalMempoolCost+cost ≤ m'.maxSizeInCost
  error : ∀ e,r = .error e → e = .raised .index

theorem makeRoom_spec (cost n : ℕ) (h : Pool E S m) (hn : m.spends.size<n) :
    Roomy E S cost m (makeRoom E cost n m).1 (makeRoom E cost n m).2 := by
  induction n generalizing m with
  | zero => omega
  | succ n ih =>
    by_cases hfull : m.atFullCapacity cost
    · cases hhead : (sortedItems m.sortedSpends).head? with
      | none =>
        have hstop : (Eff.lift (index (none : Option (ℚ × Dict Bytes32 MempoolItem))) :
            MempoolM (ℚ × Dict Bytes32 MempoolItem)) m=(.error (.raised .index),m) := rfl
        rw [makeRoom,Eff.bind_get,if_pos hfull,hhead,Eff.bind_of_error hstop]
        exact ⟨h,Shrunk.refl m,fun hr => (by cases hr),fun e he => (Except.error.inj he).symm⟩
      | some p =>
        obtain ⟨item,hrun,hpool,hsize,-⟩ := makeRoom_step h n hfull hhead
        have hrest := ih hpool (by omega)
        rw [hrun]
        exact ⟨hrest.pool,(without_shrunk m item).trans hrest.shrunk,hrest.room,hrest.error⟩
    · rw [makeRoom,Eff.bind_get,if_neg hfull]
      refine ⟨h,Shrunk.refl m,?_,fun e he => (by cases he)⟩
      intro _
      unfold atFullCapacity at hfull
      rw [decide_eq_true_eq] at hfull
      change m.totalMempoolCost+cost ≤ m.maxSizeInCost
      omega

section
variable (hS : ∀ a b,S a → S b → E.coinName a=E.coinName b → a=b)
include hS

theorem additions_free (h : Pool E S m)
    (hp : Proper E S item) (hfree : ∀ k∈item.spent E,m.removals.get? k=none) :
    ∀ k∈item.created E,m.additions.get? k=none := by
  intro k hk
  cases hother : m.additions.get? k with
  | none => rfl
  | some other =>
    obtain ⟨hstored,hmem⟩ := (h.consistent.additions k other).mp hother
    obtain ⟨a,ha,hka⟩ := List.mem_map.mp hk
    obtain ⟨b,hb,hkb⟩ := List.mem_map.mp hmem
    obtain ⟨hSa,hparent⟩ := hp.parents a ha
    obtain ⟨hSb,hparent'⟩ := (h.proper _ other hstored).parents b hb
    obtain rfl := hS a b hSa hSb (hka.trans hkb.symm)
    have htaken := (h.consistent.removals _ other).mpr ⟨hstored,hparent'⟩
    rw [hfree _ hparent] at htaken
    cases htaken

theorem addToPool_spec (h : Pool E S m) (hp : Proper E S item) (hnew : m.spends.get? item.name=none)
    (hfree : ∀ k∈item.spent E,m.removals.get? k=none) {additions : List Coin}
    {removalsDic : Dict Bytes32 Coin} (hadd : ∀ k,k∈additions.map E.coinName ↔ k∈item.created E)
    (hrem : ∀ k,k∈removalsDic.keys ↔ k∈item.spent E) : Pool E S (addToPool E item additions removalsDic m).2 ∧
      ∀ e,(addToPool E item additions removalsDic m).1 = .error e → e = .raised .index := by
  have hroom := makeRoom_spec item.cost (m.spends.size+1) h (Nat.lt_succ_self _)
  unfold addToPool
  rw [Eff.bind_get]
  rcases hrun : makeRoom E item.cost (m.spends.size+1) m with ⟨r,s⟩
  rw [hrun] at hroom
  have hs := hroom.pool
  cases r with
  | error e =>
    rw [Eff.bind_of_error hrun]
    exact ⟨hs,fun e' he => hroom.error e' he⟩
  | ok u =>
    rw [Eff.bind_of_ok hrun]
    refine ⟨?_,fun e he => (by cases he)⟩
    have hfits := hroom.room rfl
    have hnew' : s.spends.get? item.name=none := by
      cases hitem : s.spends.get? item.name with
      | none => rfl
      | some other =>
        have hold := hroom.shrunk.spends _ other hitem
        rw [hnew] at hold
        cases hold
    have hfree' : ∀ k∈item.spent E,s.removals.get? k=none := fun k hk =>
      h.consistent.removals.of_sub hs.consistent.removals hroom.shrunk.spends (hfree k hk)
    have hcreated := additions_free hS hs hp hfree'
    have htotal := hs.consistent.total
    refine ⟨⟨hs.consistent.named.set item,hs.consistent.sorted.set hnew',
      hs.consistent.additions.set hnew' hadd (fun k hk => hcreated k ((hadd k).mp hk)),
      hs.consistent.removals.set hnew' hrem (fun k hk => hfree' k ((hrem k).mp hk)),?_,hfits⟩,?_⟩
    · change s.totalMempoolCost+item.cost=((s.spends.set item.name item).total (·.cost) : ℕ)
      rw [s.spends.total_set _ item hnew',htotal]
      push_cast
      rfl
    · intro n other hother
      change (s.spends.set item.name item).get? n=some other at hother
      rw [Dict.get?_set] at hother
      split_ifs at hother
      · rw [← Option.some.inj hother]
        exact hp
      · exact hs.proper n other hother

end

end Mempool
end RoseChain
