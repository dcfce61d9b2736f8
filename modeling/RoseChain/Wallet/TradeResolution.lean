import Mathlib.Data.List.Perm.Basic
import RoseChain.Wallet.TradeManager

namespace RoseChain
open Lib

def TradeRecord.HasCoin (t : TradeRecord) (c : Coin) : Prop := c∈t.removals ∨ c∈t.additions

def TradeRecord.Pending (t : TradeRecord) : Prop :=
  t.status = .pendingAccept ∨ t.status = .pendingConfirm ∨ t.status = .pendingCancel

instance (t : TradeRecord) (c : Coin) : Decidable (t.HasCoin c) := inferInstanceAs (Decidable (_ ∨ _))

instance (t : TradeRecord) : Decidable t.Pending := inferInstanceAs (Decidable (_ ∨ _ ∨ _))

namespace TradeManager
variable (E : Env) (removals additions : List Coin) (height : ℕ) (s : TradeStore)

def Complete (t : TradeRecord) : Prop :=
  (∀ c∈t.removals,E.coinName c∈removals.map E.coinName) ∧ ∀ c∈t.additions,E.coinName c∈additions.map E.coinName

def Touched (t : TradeRecord) : Prop := ∃ c∈removals++additions,t.HasCoin c

instance (t : TradeRecord) : Decidable (Complete E removals additions t) := inferInstanceAs (Decidable (_ ∧ _))

instance (t : TradeRecord) : Decidable (Touched removals additions t) := inferInstanceAs (Decidable (∃ c∈_,_))

def expected (t : TradeRecord) : TradeRecord :=
  if t.Pending ∧ Complete E removals additions t then { t with confirmedAtIndex := height,status := .confirmed }
  else if t.status = .pendingCancel ∧ Touched removals additions t then { t with status := .canceled }
  else if t.status = .pendingConfirm ∧ Touched removals additions t then { t with status := .failed }
  else t

def settled (t : TradeRecord) : TradeRecord :=
  if Complete E removals additions t then
    { t with confirmedAtIndex := if height≠0 then height else t.confirmedAtIndex,status := .confirmed }
  else if t.status = .pendingCancel then { t with status := .canceled }
  else if t.status = .pendingConfirm then { t with status := .failed }
  else t

/-- Every order of the coins and of the rows leads to the expected trades. -/
def ResolvesExactly : Prop :=
  ∀ rowOrder : ℕ → List TradeRecord → List TradeRecord,(∀ n l,(rowOrder n l).Perm l) →
    ∀ removals' additions',removals'.Perm removals → additions'.Perm additions → ∀ tradeId,
      (coinsOfInterestFarmed E rowOrder removals' additions' height s).tradeRecords.get? tradeId =
        (s.tradeRecords.get? tradeId).map (expected E removals additions height)

/-- A coin that no other trade has, unless it is canceled. -/
def OwnCoin (t : TradeRecord) (c : Coin) : Prop :=
  t.HasCoin c ∧ ∀ tradeId u,s.tradeRecords.get? tradeId=some u → u.status ≠ .canceled →
    (∃ d,u.HasCoin d ∧ E.coinName d=E.coinName c) → u=t

/-- Each trade that is to change has a coin of its own in the block; finding one that is over changes nothing.
-/
structure Separate : Prop where
  own : ∀ {tradeId t},s.tradeRecords.get? tradeId=some t → expected E removals additions height t≠t →
    ∃ c∈removals++additions,OwnCoin E s t c
  ended : ∀ {tradeId t},s.tradeRecords.get? tradeId=some t → t.status = .confirmed ∨ t.status = .failed →
    Touched removals additions t → Complete E removals additions t →
    t.status = .confirmed ∧ (height=0 ∨ t.confirmedAtIndex=height)
  index : ∀ {tradeId t},s.tradeRecords.get? tradeId=some t → t.Pending → Complete E removals additions t → height=0 →
    t.confirmedAtIndex=0

/-- No trade that is to change is hidden behind others, and no finding of a removed coin changes one that is
over. -/
structure Unshadowed : Prop where
  reachable : ∀ {tradeId t},s.tradeRecords.get? tradeId=some t → expected E removals additions height t≠t →
    ∃ c∈removals++additions,t.HasCoin c ∧ ∀ tradeId' u,s.tradeRecords.get? tradeId'=some u → u≠t →
      u.status ≠ .canceled → u.HasCoin c → u.status = .pendingCancel ∧ ¬ Complete E removals additions u
  ended : ∀ {tradeId t},s.tradeRecords.get? tradeId=some t → t.status = .confirmed ∨ t.status = .failed →
    (∃ c∈removals,c∈t.removals) → Complete E removals additions t →
    t.status = .confirmed ∧ (height=0 ∨ t.confirmedAtIndex=height)
  index : ∀ {tradeId t},s.tradeRecords.get? tradeId=some t → t.Pending → Complete E removals additions t → height=0 →
    t.confirmedAtIndex=0

variable {E removals additions height s} {t : TradeRecord} {rowOrder : ℕ → List TradeRecord → List TradeRecord}
  {found : List Bytes32} {z : Farming} {tradeId : Bytes32}

theorem settled_coins (t : TradeRecord) : (settled E removals additions height t).removals=t.removals ∧
    (settled E removals additions height t).additions=t.additions ∧
    (settled E removals additions height t).tradeId=t.tradeId := by
  unfold settled
  split_ifs <;> exact ⟨rfl,rfl,rfl⟩

variable {c : Coin}

theorem settled_hasCoin : (settled E removals additions height t).HasCoin c ↔ t.HasCoin c := by
  obtain ⟨hr,ha,-⟩ := @settled_coins E removals additions height t
  unfold TradeRecord.HasCoin
  rw [hr,ha]

theorem settled_complete : Complete E removals additions (settled E removals additions height t) ↔
    Complete E removals additions t := by
  obtain ⟨hr,ha,-⟩ := @settled_coins E removals additions height t
  unfold Complete
  rw [hr,ha]

theorem settled_settled (t : TradeRecord) : settled E removals additions height (settled E removals additions height t) =
    settled E removals additions height t := by
  by_cases hc : Complete E removals additions t
  · rw [settled,if_pos (settled_complete.mpr hc)]
    unfold settled
    rw [if_pos hc]
    dsimp only
    split_ifs <;> rfl
  · rw [settled,if_neg (mt settled_complete.mp hc)]
    unfold settled
    rw [if_neg hc]
    split_ifs <;> simp_all

theorem settled_eq_expected (hactive : t.status ≠ .canceled) (ht : Touched removals additions t)
    (hover : t.status = .confirmed ∨ t.status = .failed → Complete E removals additions t →
      t.status = .confirmed ∧ (height=0 ∨ t.confirmedAtIndex=height))
    (hindex : t.Pending → Complete E removals additions t → height=0 → t.confirmedAtIndex=0) :
    settled E removals additions height t=expected E removals additions height t := by
  by_cases hc : Complete E removals additions t
  · have hsettled : settled E removals additions height t =
        { t with confirmedAtIndex := if height≠0 then height else t.confirmedAtIndex,status := .confirmed } := if_pos hc
    rw [hsettled]
    by_cases hp : t.Pending
    · have hexpected : expected E removals additions height t =
          { t with confirmedAtIndex := height,status := .confirmed } := if_pos ⟨hp,hc⟩
      rw [hexpected]
      split_ifs with hheight
      · rfl
      · rw [hindex hp hc (not_not.mp hheight),not_not.mp hheight]
    · have hdone : t.status = .confirmed ∨ t.status = .failed := by
        unfold TradeRecord.Pending at hp
        cases hstatus : t.status <;> simp_all
      obtain ⟨hstatus,hheight⟩ := hover hdone hc
      have hexpected : expected E removals additions height t=t := by simp [expected,hp,hstatus]
      rw [hexpected]
      obtain ⟨index,_,_,_,_,_,_,_,status⟩ := t
      obtain rfl : status = .confirmed := hstatus
      split_ifs with h0
      · obtain rfl : index=height := hheight.resolve_left h0
        rfl
      · rfl
  · rw [settled,if_neg hc,expected,if_neg (fun h => hc (And.right h))]
    simp only [ht,and_true]

variable (E removals additions height s) in
/-- Where a run stands: the trades that were found are settled, all others are as they were. -/
structure Progress (found : List Bytes32) (z : Farming) : Prop where
  rows : ∀ tradeId,z.tradeStore.tradeRecords.get? tradeId=(s.tradeRecords.get? tradeId).map fun t =>
    if tradeId∈found then settled E removals additions height t else t
  active : ∀ tradeId∈found,∃ t,s.tradeRecords.get? tradeId=some t ∧ t.status ≠ .canceled ∧ Touched removals additions t
  checked : ∀ name∈z.checked,∃ tradeId∈found,∃ t d,s.tradeRecords.get? tradeId=some t ∧ t.HasCoin d ∧ E.coinName d=name

theorem Progress.start (s : TradeStore) : Progress E removals additions height s [] ⟨0,[],s⟩ where
  rows tradeId := by simp
  active := by simp
  checked := by simp

theorem mem_getAllTrades {s : TradeStore} : t∈s.getAllTrades ↔ s.tradeRecords.get? t.tradeId=some t := by
  unfold TradeStore.getAllTrades Dict.values
  rw [List.mem_map]
  constructor
  · intro ⟨e,he,heq⟩
    obtain ⟨id,r⟩ := e
    obtain rfl : r=t := heq
    have hget := (s.tradeRecords.mem_entries id r).mp he
    rw [s.keyed hget]
    exact hget
  · intro h
    exact ⟨(t.tradeId,t),(s.tradeRecords.mem_entries _ _).mpr h,rfl⟩

variable {status : TradeStatus}

theorem setStatus_get? {index : ℕ} (h : s.tradeRecords.get? t.tradeId=some t) (q : Bytes32) :
    (s.setStatus t.tradeId status index).tradeRecords.get? q=if q=t.tradeId then
      some { t with confirmedAtIndex := if index≠0 then index else t.confirmedAtIndex,status := status }
      else s.tradeRecords.get? q := by
  unfold TradeStore.setStatus TradeStore.getTradeRecord
  rw [h]
  exact (Dict.get?_set _ _ _ _).trans (by simp only [eq_comm])

theorem settleTrade_get? (h : s.tradeRecords.get? t.tradeId=some t) (q : Bytes32) :
    (settleTrade E (removals.map E.coinName) (additions.map E.coinName) height t s).tradeRecords.get? q =
      if q=t.tradeId then some (settled E removals additions height t) else s.tradeRecords.get? q := by
  have hcomplete : (¬ (t.removals.any (fun c => !(removals.map E.coinName).contains (E.coinName c)) ||
      t.additions.any (fun c => !(additions.map E.coinName).contains (E.coinName c)))=true) ↔
      Complete E removals additions t := by
    unfold Complete
    simp only [Bool.or_eq_true,List.any_eq_true,Bool.not_eq_true',← Bool.not_eq_true,List.contains_iff_mem]
    push Not
    rfl
  unfold settleTrade settled
  simp only [hcomplete]
  by_cases hc : Complete E removals additions t
  · rw [if_pos hc,if_pos hc]
    exact setStatus_get? h q
  rw [if_neg hc,if_neg hc]
  by_cases hcancel : t.status = .pendingCancel
  · rw [if_pos hcancel,if_pos hcancel]
    exact setStatus_get? h q
  rw [if_neg hcancel,if_neg hcancel]
  by_cases hconfirm : t.status = .pendingConfirm
  · rw [if_pos hconfirm,if_pos hconfirm]
    exact setStatus_get? h q
  rw [if_neg hconfirm,if_neg hconfirm]
  split_ifs with hq
  · rw [hq]
    exact h
  · rfl

theorem Progress.row (h : Progress E removals additions height s found z) {u : TradeRecord} (hu : u∈z.tradeStore.getAllTrades) :
    ∃ t,s.tradeRecords.get? u.tradeId=some t ∧
      u=if u.tradeId∈found then settled E removals additions height t else t := by
  have hrow := mem_getAllTrades.mp hu
  rw [h.rows] at hrow
  obtain ⟨t,ht,heq⟩ := Option.map_eq_some_iff.mp hrow
  exact ⟨t,ht,heq.symm⟩

theorem Progress.mem (h : Progress E removals additions height s found z) (ht : s.tradeRecords.get? tradeId=some t) :
    (if tradeId∈found then settled E removals additions height t else t)∈z.tradeStore.getAllTrades := by
  have hrow := h.rows tradeId
  rw [ht,Option.map_some] at hrow
  apply mem_getAllTrades.mpr
  rw [z.tradeStore.keyed hrow]
  exact hrow

variable {l : List TradeRecord}

theorem getTradeByCoin_some (h : getTradeByCoin l c=some t) : t∈l ∧ t.status ≠ .canceled ∧ t.HasCoin c := by
  have hp := List.find?_some h
  simp only [Bool.and_eq_true,Bool.or_eq_true,decide_eq_true_eq] at hp
  exact ⟨List.mem_of_find?_eq_some h,hp.1,hp.2⟩

theorem getTradeByCoin_none (h : getTradeByCoin l c=none) (ht : t∈l)
    (hactive : t.status ≠ .canceled) : ¬ t.HasCoin c := by
  have hp := List.find?_eq_none.mp h t ht
  simp only [Bool.and_eq_true,Bool.or_eq_true,decide_eq_true_eq] at hp
  exact fun hc => hp ⟨hactive,hc⟩

section Farming
variable (hperm : ∀ n l,(rowOrder n l).Perm l) (h : Progress E removals additions height s found z)
include hperm h

theorem farmCoin_cases (hc : c∈removals++additions) :
    let z' := farmCoin E rowOrder (removals.map E.coinName) (additions.map E.coinName) height z c
    (Progress E removals additions height s found z' ∧
      (E.coinName c∈z.checked ∨ getTradeByCoin (rowOrder z.reads z.tradeStore.getAllTrades) c=none)) ∨
    ∃ t u,s.tradeRecords.get? t.tradeId=some t ∧ t.status ≠ .canceled ∧ t.HasCoin c ∧ u.tradeId=t.tradeId ∧
      getTradeByCoin (rowOrder z.reads z.tradeStore.getAllTrades) c=some u ∧
      Progress E removals additions height s (t.tradeId::found) z' := by
  dsimp only
  unfold farmCoin
  simp only [List.contains_iff_mem]
  split_ifs with hchecked
  · exact Or.inl ⟨h,Or.inl hchecked⟩
  cases hget : getTradeByCoin (rowOrder z.reads z.tradeStore.getAllTrades) c with
  | none => exact Or.inl ⟨⟨h.rows,h.active,h.checked⟩,Or.inr rfl⟩
  | some u =>
    obtain ⟨hmem,hactive,hhas⟩ := getTradeByCoin_some hget
    have hrow := (hperm _ _).mem_iff.mp hmem
    obtain ⟨t,ht,hut⟩ := h.row hrow
    have hid : u.tradeId=t.tradeId := (s.keyed ht).symm
    rw [hid] at ht hut
    have hsame : settled E removals additions height u=settled E removals additions height t := by
      rw [hut]
      split_ifs
      · exact settled_settled t
      · rfl
    have hhas' : ∀ d,u.HasCoin d ↔ t.HasCoin d := by
      intro d
      rw [hut]
      split_ifs
      · exact settled_hasCoin
      · rfl
    have hactive' : t.status ≠ .canceled := by
      by_cases hin : t.tradeId∈found
      · obtain ⟨t',ht',hstatus,-⟩ := h.active _ hin
        obtain rfl := Option.some.inj (ht.symm.trans ht')
        exact hstatus
      · rw [if_neg hin] at hut
        rw [← hut]
        exact hactive
    refine Or.inr ⟨t,u,ht,hactive',(hhas' c).mp hhas,hid,rfl,?_⟩
    constructor
    · intro q
      dsimp only
      rw [settleTrade_get? (mem_getAllTrades.mp hrow),hid,hsame,h.rows]
      by_cases hq : q=t.tradeId
      · rw [if_pos hq,hq,ht]
        simp
      · simp [hq]
    · intro q hq
      obtain rfl | hq := List.mem_cons.mp hq
      · exact ⟨t,ht,hactive',c,hc,(hhas' c).mp hhas⟩
      · exact h.active q hq
    · intro name hname
      simp only [List.mem_append,List.mem_map] at hname
      obtain (⟨d,hd,rfl⟩ | ⟨_,-,rfl⟩) | hname := hname
      · exact ⟨_,List.mem_cons_self,t,d,ht,(hhas' d).mp (Or.inl hd),rfl⟩
      · exact ⟨_,List.mem_cons_self,t,c,ht,(hhas' c).mp hhas,rfl⟩
      · obtain ⟨q,hq,t',d,h1,h2,h3⟩ := h.checked name hname
        exact ⟨q,List.mem_cons_of_mem _ hq,t',d,h1,h2,h3⟩

theorem farmCoin_own (hc : c∈removals++additions) : ∃ found',found ⊆ found' ∧ Progress E removals additions height s found'
        (farmCoin E rowOrder (removals.map E.coinName) (additions.map E.coinName) height z c) ∧
      ∀ t,s.tradeRecords.get? t.tradeId=some t → t.status ≠ .canceled → OwnCoin E s t c → t.tradeId∈found' := by
  obtain ⟨hprogress,hchecked⟩ | ⟨u,_,hu,hactive,hhas,-,-,hprogress⟩ := farmCoin_cases hperm h hc
  · refine ⟨found,List.Subset.refl _,hprogress,?_⟩
    intro t ht hactive hown
    obtain hchecked | hnone := hchecked
    · obtain ⟨q,hq,u,d,hu,hd,hname⟩ := h.checked _ hchecked
      obtain ⟨u',hu',hactive',-⟩ := h.active q hq
      obtain rfl := Option.some.inj (hu.symm.trans hu')
      rw [← hown.2 q u hu hactive' ⟨d,hd,hname⟩,s.keyed hu]
      exact hq
    · by_contra hnot
      have hmem := h.mem ht
      rw [if_neg hnot] at hmem
      exact getTradeByCoin_none hnone ((hperm _ _).mem_iff.mpr hmem) hactive hown.1
  · refine ⟨_,List.subset_cons_self _ _,hprogress,?_⟩
    intro t ht _ hown
    rw [hown.2 _ u hu hactive ⟨c,hhas,rfl⟩]
    exact List.mem_cons_self

theorem farmCoins_own {coins : List Coin} (hcoins : coins ⊆ removals++additions) : ∃ found',found ⊆ found' ∧
      Progress E removals additions height s found'
        (coins.foldl (farmCoin E rowOrder (removals.map E.coinName) (additions.map E.coinName) height) z) ∧
      ∀ c∈coins,∀ t,s.tradeRecords.get? t.tradeId=some t → t.status ≠ .canceled → OwnCoin E s t c →
        t.tradeId∈found' := by
  induction coins generalizing found z with
  | nil => exact ⟨found,List.Subset.refl _,h,by simp⟩
  | cons c coins ih =>
    obtain ⟨found₁,hsub₁,h₁,hown₁⟩ := farmCoin_own hperm h (hcoins List.mem_cons_self)
    obtain ⟨found₂,hsub₂,h₂,hown₂⟩ := ih h₁ fun d hd => hcoins (List.mem_cons_of_mem _ hd)
    refine ⟨found₂,List.Subset.trans hsub₁ hsub₂,h₂,?_⟩
    intro d hd t ht hactive hown
    obtain rfl | hd := List.mem_cons.mp hd
    · exact hsub₂ (hown₁ t ht hactive hown)
    · exact hown₂ d hd t ht hactive hown

end Farming

variable {coins : List Coin}

theorem expected_active (h : expected E removals additions height t≠t) : t.status ≠ .canceled := by
  intro hcanceled
  apply h
  simp [expected,TradeRecord.Pending,hcanceled]

variable {removals' additions' : List Coin}

section
variable (hr : removals'.Perm removals)
include hr

theorem complete_perm (ha : additions'.Perm additions) :
    Complete E removals' additions' t ↔ Complete E removals additions t := by
  unfold Complete
  simp only [(hr.map E.coinName).mem_iff,(ha.map E.coinName).mem_iff]

theorem touched_perm (ha : additions'.Perm additions) :
    Touched removals' additions' t ↔ Touched removals additions t := by
  unfold Touched
  simp only [(hr.append ha).mem_iff]

theorem settled_perm (ha : additions'.Perm additions) :
    settled E removals' additions' height t=settled E removals additions height t := by
  simp only [settled,complete_perm hr ha]

end

theorem Separate.resolves (h : Separate E removals additions height s) : ResolvesExactly E removals additions height s := by
  intro rowOrder hperm removals' additions' hr ha tradeId
  have hstart : Progress E removals' additions' height s [] ⟨0,[],s⟩ := Progress.start s
  obtain ⟨found,-,hprogress,hown⟩ := farmCoins_own hperm hstart (List.Subset.refl _)
  unfold coinsOfInterestFarmed
  rw [hprogress.rows]
  cases hget : s.tradeRecords.get? tradeId with
  | none => rfl
  | some t =>
    obtain rfl := s.keyed hget
    simp only [Option.map_some,Option.some.injEq]
    split_ifs with hfound
    · obtain ⟨t',ht',hactive,htouched⟩ := hprogress.active _ hfound
      obtain rfl := Option.some.inj (hget.symm.trans ht')
      have htouched := (touched_perm hr ha).mp htouched
      rw [settled_perm hr ha]
      exact settled_eq_expected hactive htouched (fun hdone => h.ended hget hdone htouched) (h.index hget)
    · by_contra hne
      obtain ⟨c,hc,hcown⟩ := h.own hget (Ne.symm hne)
      exact hfound (hown c ((hr.append ha).mem_iff.mpr hc) t hget (expected_active (Ne.symm hne)) hcown)

theorem farmCoins_avoid (hperm : ∀ n l,(rowOrder n l).Perm l) (h : Progress E removals additions height s found z)
    (hcoins : coins ⊆ removals++additions) (hnot : tradeId∉found)
    (hfirst : ∀ found z,Progress E removals additions height s found z → tradeId∉found → ∀ c∈coins,∀ u,
      getTradeByCoin (rowOrder z.reads z.tradeStore.getAllTrades) c=some u → u.tradeId≠tradeId) :
    ∃ found',tradeId∉found' ∧ Progress E removals additions height s found'
      (coins.foldl (farmCoin E rowOrder (removals.map E.coinName) (additions.map E.coinName) height) z) := by
  induction coins generalizing found z with
  | nil => exact ⟨found,hnot,h⟩
  | cons c coins ih =>
    have hrest : coins ⊆ removals++additions := fun d hd => hcoins (List.mem_cons_of_mem _ hd)
    have hfirst' := fun found z hp hn d hd => hfirst found z hp hn d (List.mem_cons_of_mem c hd)
    obtain ⟨hprogress,-⟩ | ⟨t,u,-,-,-,hid,hget,hprogress⟩ := farmCoin_cases hperm h (hcoins List.mem_cons_self)
    · exact ih hprogress hrest hnot hfirst'
    · apply ih hprogress hrest ?_ hfirst'
      have hne := hfirst found z h hnot c List.mem_cons_self u hget
      rw [hid] at hne
      simp [hnot,hne.symm]

def frontRows (p : TradeRecord → Bool) (l : List TradeRecord) : List TradeRecord := l.filter p++l.filter fun t => !p t

theorem frontRows_perm (p : TradeRecord → Bool) (l : List TradeRecord) : (frontRows p l).Perm l :=
  List.filter_append_perm p l

theorem getTradeByCoin_front {p : TradeRecord → Bool} (ht : t∈l) (hp : p t=true)
    (hactive : t.status ≠ .canceled) (hhas : t.HasCoin c) :
    ∃ u∈l,p u=true ∧ getTradeByCoin (frontRows p l) c=some u := by
  have hmem : t∈l.filter p := List.mem_filter.mpr ⟨ht,hp⟩
  cases hget : getTradeByCoin (l.filter p) c with
  | none => exact absurd hhas (getTradeByCoin_none hget hmem hactive)
  | some u =>
    obtain ⟨hu,hpu⟩ := List.mem_filter.mp (getTradeByCoin_some hget).1
    refine ⟨u,hu,hpu,?_⟩
    unfold getTradeByCoin frontRows at *
    rw [List.find?_append,hget]
    rfl

section
variable (h : ResolvesExactly E removals additions height s)
include h

theorem ResolvesExactly.row (hperm : ∀ n l,(rowOrder n l).Perm l)
    (hr : removals'.Perm removals) (ha : additions'.Perm additions) (ht : s.tradeRecords.get? tradeId=some t)
    (hp : Progress E removals' additions' height s found ((removals'++additions').foldl
      (farmCoin E rowOrder (removals'.map E.coinName) (additions'.map E.coinName) height) ⟨0,[],s⟩)) :
    (if tradeId∈found then settled E removals additions height t else t)=expected E removals additions height t := by
  have hres := h rowOrder hperm removals' additions' hr ha tradeId
  unfold coinsOfInterestFarmed at hres
  rw [hp.rows,ht] at hres
  simpa only [Option.map_some,Option.some.injEq,settled_perm hr ha] using hres

theorem ResolvesExactly.index (ht : s.tradeRecords.get? tradeId=some t)
    (hpending : t.Pending) (hc : Complete E removals additions t) (h0 : height=0) : t.confirmedAtIndex=0 := by
  have hperm (n : ℕ) (l : List TradeRecord) : ((fun _ l => l : ℕ → List TradeRecord → List TradeRecord) n l).Perm l :=
    List.Perm.refl l
  have hstart : Progress E removals additions height s [] ⟨0,[],s⟩ := Progress.start s
  obtain ⟨found,-,hp,-⟩ := farmCoins_own hperm hstart (List.Subset.refl _)
  have hrow := h.row hperm (List.Perm.refl _) (List.Perm.refl _) ht hp
  have hexpected : expected E removals additions height t =
      { t with confirmedAtIndex := height,status := .confirmed } := if_pos ⟨hpending,hc⟩
  rw [hexpected] at hrow
  split_ifs at hrow
  · have hindex := congrArg TradeRecord.confirmedAtIndex hrow
    simp only [settled,if_pos hc,h0,ne_eq,not_true_eq_false,if_false] at hindex
    exact hindex
  · have hstatus := congrArg TradeRecord.status hrow
    obtain hs | hs | hs := hpending <;> rw [hs] at hstatus <;> cases hstatus

theorem ResolvesExactly.ended (ht : s.tradeRecords.get? tradeId=some t)
    (hdone : t.status = .confirmed ∨ t.status = .failed) (hcoin : ∃ c∈removals,c∈t.removals)
    (hc : Complete E removals additions t) : t.status = .confirmed ∧ (height=0 ∨ t.confirmedAtIndex=height) := by
  obtain ⟨c,hcr,hct⟩ := hcoin
  have hactive : t.status ≠ .canceled := by
    obtain hs | hs := hdone <;> rw [hs] <;> decide
  have hr : (c::removals.erase c).Perm removals := (List.perm_cons_erase hcr).symm
  have hperm (n : ℕ) (l : List TradeRecord) : ((fun _ l => frontRows (fun u => decide (u=t)) l :
      ℕ → List TradeRecord → List TradeRecord) n l).Perm l := frontRows_perm _ l
  have hstart : Progress E (c::removals.erase c) additions height s [] ⟨0,[],s⟩ := Progress.start s
  have hmem : t∈s.getAllTrades := by
    have hrow := hstart.mem ht
    rwa [if_neg List.not_mem_nil] at hrow
  obtain ⟨u,-,hu,hget⟩ := getTradeByCoin_front (p := fun u => decide (u=t)) hmem (decide_eq_true rfl) hactive (Or.inl hct)
  obtain rfl : u=t := of_decide_eq_true hu
  obtain ⟨-,hchecked | hnone⟩ | ⟨t',u',-,-,-,hid,hget',hfirst⟩ :=
    farmCoin_cases hperm hstart (List.mem_append_left additions List.mem_cons_self)
  · cases hchecked
  · exact absurd (hnone.symm.trans hget) nofun
  obtain rfl := Option.some.inj (hget.symm.trans hget')
  have hcoins : removals.erase c++additions ⊆ c::removals.erase c++additions := fun d hd => List.mem_cons_of_mem c hd
  obtain ⟨found,hsub,hp,-⟩ := farmCoins_own hperm hfirst hcoins
  have hrow := h.row hperm hr (List.Perm.refl _) ht hp
  rw [if_pos (hsub (by rw [← hid,s.keyed ht]; exact List.mem_cons_self))] at hrow
  have hsame : expected E removals additions height u=u := by
    obtain hs | hs := hdone <;> simp [expected,TradeRecord.Pending,hs]
  rw [hsame,settled,if_pos hc] at hrow
  have hstatus := congrArg TradeRecord.status hrow
  have hindex := congrArg TradeRecord.confirmedAtIndex hrow
  refine ⟨hstatus.symm,?_⟩
  dsimp only at hindex
  split_ifs at hindex with h0
  · exact Or.inr hindex.symm
  · exact Or.inl (not_not.mp h0)

end

theorem settled_active (hactive : t.status ≠ .canceled) (hc : t.status = .pendingCancel → Complete E removals additions t) :
    (settled E removals additions height t).status ≠ .canceled := by
  unfold settled
  by_cases hcomplete : Complete E removals additions t
  · rw [if_pos hcomplete]
    exact nofun
  rw [if_neg hcomplete]
  split_ifs with hcancel
  · exact absurd (hc hcancel) hcomplete
  · exact nofun
  · exact hactive

theorem ResolvesExactly.reachable (h : ResolvesExactly E removals additions height s)
    (ht : s.tradeRecords.get? tradeId=some t) (hdue : expected E removals additions height t≠t) :
    ∃ c∈removals++additions,t.HasCoin c ∧ ∀ tradeId' u,s.tradeRecords.get? tradeId'=some u → u≠t →
      u.status ≠ .canceled → u.HasCoin c → u.status = .pendingCancel ∧ ¬ Complete E removals additions u := by
  by_contra hshadowed
  push Not at hshadowed
  have hperm (n : ℕ) (l : List TradeRecord) : ((fun _ l => frontRows (fun u => decide (u.tradeId≠tradeId)) l :
      ℕ → List TradeRecord → List TradeRecord) n l).Perm l := frontRows_perm _ l
  have hstart : Progress E removals additions height s [] ⟨0,[],s⟩ := Progress.start s
  have hnone : tradeId∉([] : List Bytes32) := List.not_mem_nil
  obtain ⟨found,hnot,hp⟩ := farmCoins_avoid hperm hstart (List.Subset.refl _) hnone (by
      intro found z hprogress hnot c hc u hget hid
      have hrows := fun (q : TradeRecord) => (hperm 0 z.tradeStore.getAllTrades).mem_iff (a := q)
      obtain ⟨hu,-,hhas⟩ := getTradeByCoin_some hget
      obtain ⟨t',ht',hut⟩ := hprogress.row ((hrows u).mp hu)
      rw [hid,if_neg hnot] at hut
      rw [hid] at ht'
      obtain rfl := Option.some.inj (ht.symm.trans ht')
      rw [hut] at hhas
      obtain ⟨q,v,hv,hne,hactive,hvc,hstays⟩ := hshadowed c hc hhas
      have hvid : v.tradeId≠tradeId := by
        intro heq
        rw [← heq,s.keyed hv,hv] at ht
        exact hne (Option.some.inj ht)
      have hmem := hprogress.mem hv
      obtain ⟨w,-,hw,hfront⟩ := getTradeByCoin_front (p := fun u => decide (u.tradeId≠tradeId)) (c := c) hmem
        (by split_ifs <;> simp [settled_coins,hvid])
        (by split_ifs; exacts [settled_active hactive hstays,hactive])
        (by split_ifs; exacts [settled_hasCoin.mpr hvc,hvc])
      obtain rfl := Option.some.inj (hfront.symm.trans hget)
      exact of_decide_eq_true hw hid)
  have hrow := h.row hperm (List.Perm.refl _) (List.Perm.refl _) ht hp
  rw [if_neg hnot] at hrow
  exact hdue hrow.symm

def twoTrades (status status' : TradeStatus) (coin coin' : Coin) : TradeStore :=
  (TradeStore.addTradeRecord ⟨0,none,5,true,0,[],[coin'],2,status'⟩
    (TradeStore.addTradeRecord ⟨0,none,4,true,0,[],[coin],1,status⟩ ⟨Dict.empty,nofun⟩))

theorem twoTrades_get? {status' : TradeStatus} {coin coin' : Coin}
    (h : (twoTrades status status' coin coin').tradeRecords.get? tradeId=some t) :
    t=⟨0,none,5,true,0,[],[coin'],2,status'⟩ ∨ t=⟨0,none,4,true,0,[],[coin],1,status⟩ := by
  unfold twoTrades TradeStore.addTradeRecord at h
  simp only [Dict.get?_set] at h
  split_ifs at h
  · exact Or.inl (Option.some.inj h).symm
  · exact Or.inr (Option.some.inj h).symm
  · cases h

end TradeManager

end RoseChain
