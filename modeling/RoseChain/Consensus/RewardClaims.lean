import RoseChain.Consensus.HeaderChecks
import RoseChain.Consensus.Runs

namespace RoseChain
open Lib Blockchain
variable {E : Env} {w s : World} {b x : FullBlock} {L : List FullBlock}

def poolCoin (E : Env) (b : FullBlock) : Coin :=
  createPoolCoin E.constants b.height b.foliage.foliageBlockData.poolTarget.puzzleHash
    (calculatePoolReward b.height)

/-- What the farmer gets on top of the reward: the fees of a transaction block. -/
def farmerFees (b : FullBlock) : ℕ :=
  if b.isTransactionBlock then (b.transactionsInfo.map (·.fees)).getD 0 else 0

def farmerCoin (E : Env) (b : FullBlock) : Coin :=
  createFarmerCoin E.constants b.height b.foliage.foliageBlockData.farmerRewardPuzzleHash
    (calculateBaseFarmerReward b.height+farmerFees b)

/-- The claims in a block; none without transactions info. -/
def rewardClaims (b : FullBlock) : List Coin :=
  (b.transactionsInfo.map (·.rewardClaimsIncorporated)).getD []

section Walk
variable {V : BlockView} {k : Bytes32} {rs : List BlockRecord} (hp : V.forest.Path k rs)
  (hroot : ∀ r,rs[0]?=some r → r.isTransactionBlock)
include hp hroot

variable {i : ℕ} {r : BlockRecord}

theorem previousRecord_ok {u : BlockRecord} (hr : rs[i]?=some r) (htx : ¬ r.isTransactionBlock)
    (hu : V.blockRecord r.prevHash = .ok u) : ∃ j,i=j+1 ∧ rs[j]?=some u := by
  cases i with
  | zero => exact absurd (hroot r hr) htx
  | succ i =>
    have hlt : i < rs.length := by
      obtain ⟨hlt,-⟩ := List.getElem?_eq_some_iff.mp hr
      omega
    have hrec := hp.find_parent (List.getElem?_eq_getElem hlt) hr
    have hlook : V.blockRecords.get? r.prevHash=some u := lookup_eq_ok.mp hu
    refine ⟨i,rfl,?_⟩
    rw [List.getElem?_eq_getElem hlt,← hrec]
    exact hlook

variable {n : ℕ}

theorem walk_ok {c : BlockRecord} (hr : rs[i]?=some r)
    (h : V.walk (·.isTransactionBlock) n r = .ok c) : ∃ p ≤ i,rs[p]?=some c ∧ c.isTransactionBlock ∧
      ∀ q y,p<q → q ≤ i → rs[q]?=some y → ¬ y.isTransactionBlock := by
  induction n generalizing i r with
  | zero => cases h
  | succ n ih =>
    unfold BlockView.walk at h
    by_cases hs : r.isTransactionBlock
    · rw [if_pos hs] at h
      obtain rfl : r=c := Except.ok.inj h
      exact ⟨i,Nat.le_refl i,hr,hs,fun q y h₁ h₂ => absurd h₁ (by omega)⟩
    · rw [if_neg hs] at h
      obtain ⟨u,hu,h⟩ := bind_ok.mp h
      obtain ⟨j,rfl,hj⟩ := previousRecord_ok hp hroot hr hs hu
      obtain ⟨p,hpi,hc,hstop,hbetween⟩ := ih hj h
      refine ⟨p,by omega,hc,hstop,?_⟩
      intro q y hq hqi hy
      by_cases hqe : q=j+1
      · rw [hqe,hr] at hy
        rw [← Option.some.inj hy]
        exact hs
      · exact hbetween q y hq (by omega) hy

theorem rewardsBefore_ok {C : ConsensusConstants} {coins : List Coin}
    (hr : rs[i]?=some r) (h : rewardsBefore C V n r = .ok coins) :
    ∃ p ≤ i,(∃ y,rs[p]?=some y ∧ y.isTransactionBlock) ∧
      (∀ q y,p<q → q ≤ i → rs[q]?=some y → ¬ y.isTransactionBlock) ∧
      ∀ c,c∈coins ↔ ∃ q y,p<q ∧ q ≤ i ∧ rs[q]?=some y ∧ c∈rewardCoins C y 0 := by
  induction n generalizing i r coins with
  | zero => cases h
  | succ n ih =>
    unfold rewardsBefore at h
    by_cases hs : r.isTransactionBlock
    · rw [if_pos hs] at h
      rw [← Except.ok.inj h]
      refine ⟨i,Nat.le_refl i,⟨r,hr,hs⟩,fun q y h₁ h₂ => absurd h₁ (by omega),fun c => ?_⟩
      constructor
      · intro hc
        cases hc
      · intro hc
        obtain ⟨q,y,hq,hqi,-⟩ := hc
        omega
    · rw [if_neg hs] at h
      obtain ⟨u,hu,h⟩ := bind_ok.mp h
      obtain ⟨older,hold,h⟩ := bind_ok.mp h
      obtain ⟨j,rfl,hj⟩ := previousRecord_ok hp hroot hr hs hu
      obtain ⟨p,hpi,hstop,hbetween,hcoins⟩ := ih hj hold
      refine ⟨p,by omega,hstop,?_,?_⟩
      · intro q y hq hqi hy
        by_cases hqe : q=j+1
        · rw [hqe,hr] at hy
          rw [← Option.some.inj hy]
          exact hs
        · exact hbetween q y hq (by omega) hy
      · intro c
        rw [← Except.ok.inj h,List.mem_append,hcoins]
        constructor
        · intro hc
          obtain hc | ⟨q,y,hq,hqi,hy,hc⟩ := hc
          · exact ⟨j+1,r,by omega,Nat.le_refl _,hr,hc⟩
          · exact ⟨q,y,hq,by omega,hy,hc⟩
        · intro hc
          obtain ⟨q,y,hq,hqi,hy,hc⟩ := hc
          by_cases hqe : q=j+1
          · rw [hqe,hr] at hy
            rw [Option.some.inj hy]
            exact Or.inl hc
          · exact Or.inr ⟨q,y,hq,by omega,hy,hc⟩

end Walk

/-- There is a transaction block at an index of a chain. -/
def TxAt (L : List FullBlock) (p : ℕ) : Prop := ∃ x,L[p]?=some x ∧ x.isTransactionBlock

/-- The last transaction block before an index. -/
structure PrevTx (L : List FullBlock) (j p : ℕ) : Prop where
  before : p<j
  tx : TxAt L p
  between : ∀ q,p<q → q<j → ¬ TxAt L q

/-- The first transaction block whose previous transaction block is at or after an index. -/
structure FirstAfter (L : List FullBlock) (i j : ℕ) : Prop where
  tx : TxAt L j
  after : ∃ p,PrevTx L j p ∧ i≤p
  first : ∀ j'<j,TxAt L j' → ∀ p,PrevTx L j' p → p < i

variable {p' : ℕ}

theorem PrevTx.unique {j p : ℕ} (h : PrevTx L j p) (h' : PrevTx L j p') : p=p' := by
  obtain hlt | rfl | hgt := Nat.lt_trichotomy p p'
  · exact absurd h'.tx (h.between p' hlt h'.before)
  · rfl
  · exact absurd h.tx (h'.between p hgt h.before)

variable {j' : ℕ}

theorem PrevTx.mono {j p : ℕ} (h : PrevTx L j p) (h' : PrevTx L j' p') (hj : j≤j') : p≤p' := by
  by_contra hlt
  exact h'.between p (by omega) (Nat.lt_of_lt_of_le h.before hj) h.tx

variable {i : ℕ}

theorem firstAfter_iff {j p : ℕ} (hj : TxAt L j) (h : PrevTx L j p) (h' : PrevTx L p p') :
    FirstAfter L i j ↔ p' < i ∧ i≤p := by
  constructor
  · intro hf
    obtain ⟨q,hq,hiq⟩ := hf.after
    rw [hq.unique h] at hiq
    exact ⟨hf.first p h.before h.tx p' h',hiq⟩
  · intro hi
    refine ⟨hj,⟨p,h,hi.2⟩,?_⟩
    intro j' hlt htx q hq
    have hle : j'≤p := by
      by_contra hgt
      exact h.between j' (by omega) hlt htx
    have hqp := hq.mono h' hle
    omega

theorem firstAfter_iff_zero {j : ℕ} (hj : TxAt L j) (h : PrevTx L j 0) : FirstAfter L i j ↔ i=0 := by
  constructor
  · intro hf
    obtain ⟨q,hq,hiq⟩ := hf.after
    rw [hq.unique h] at hiq
    omega
  · intro hi
    refine ⟨hj,⟨0,h,by omega⟩,?_⟩
    intro j' hlt htx q hq
    have hbefore := hq.before
    exact absurd htx (h.between j' (by omega) hlt)

/-- Header and body validation of a block pass in a state, whatever else they are given. -/
structure Validated (E : Env) (w : World) (b : FullBlock) : Prop where
  header : ∃ header additions removals filter summary difficulty iters n,
    getBlockHeader E b additions removals = .ok header ∧
      validateFinishedHeaderBlock E w.chain.view header filter difficulty iters summary = .ok n
  body : ∃ peak npcResult forkPointWithPeak g out s,
    validateBlockBody E w.chain.view peak b.body b.height npcResult forkPointWithPeak g w=(.ok out,s)

/-- A block passes in some state where its ancestors are stored; no block hashes to the genesis challenge. -/
def ValidatedOn (E : Env) (L : List FullBlock) (b : FullBlock) : Prop :=
  ∃ w,Indexed E w ∧ (w.forest E).OnTop L b ∧ w.block? E.genesisChallenge=none ∧ Validated E w b

/-- Blocks one on top of the other from height zero, each of them validated at some time. -/
def ValidChain (E : Env) (L : List FullBlock) : Prop := ∀ j b,L[j]?=some b → ValidatedOn E (L.take j) b

section Body
variable {V : BlockView} {peak : Option BlockRecord} {npcResult out : Option NPCResult}
  {forkPointWithPeak : Option ℕ} {g : GetBlockGenerator}

theorem validateBlockBody_claims
    (h : validateBlockBody E V peak b.body b.height npcResult forkPointWithPeak g w=(.ok out,s)) :
    (b.foliage.foliageTransactionBlockHash=none ∧ b.foliageTransactionBlock=none ∧ b.transactionsInfo=none) ∨
      ∃ ftb info answer,b.foliageTransactionBlock=some ftb ∧ b.transactionsInfo=some info ∧
        validateRewardClaims E V b.height ftb info = .ok answer := by
  unfold validateBlockBody at h
  by_cases hnone : b.body.foliageTransactionBlockHash.isNone
  · rw [if_pos hnone] at h
    obtain ⟨_,_,hbody,-⟩ := Eff.bind_ok h
    have hbody : validateNoBody E V b.body = .ok _ := congrArg Prod.fst hbody
    obtain ⟨_,hreject,-⟩ := bind_ok.mp hbody
    rw [reject_eq_ok,not_or,not_or] at hreject
    exact Or.inl ⟨Option.isNone_iff_eq_none.mp hnone,Option.not_isSome_iff_eq_none.mp hreject.1,
      Option.not_isSome_iff_eq_none.mp hreject.2.1⟩
  · rw [if_neg hnone] at h
    right
    cases hftb : b.foliageTransactionBlock with
    | none =>
      have hftb' : b.body.foliageTransactionBlock=none := hftb
      rw [hftb'] at h
      cases h
    | some ftb =>
      cases hinfo : b.transactionsInfo with
      | none =>
        have hftb' : b.body.foliageTransactionBlock=some ftb := hftb
        have hinfo' : b.body.transactionsInfo=none := hinfo
        rw [hftb',hinfo'] at h
        cases h
      | some info =>
        have hftb' : b.body.foliageTransactionBlock=some ftb := hftb
        have hinfo' : b.body.transactionsInfo=some info := hinfo
        rw [hftb',hinfo'] at h
        obtain ⟨_,_,_,h⟩ := Eff.bind_ok h
        obtain ⟨_,_,_,h⟩ := Eff.bind_ok h
        obtain ⟨answer,_,hclaims,_⟩ := Eff.bind_ok h
        exact ⟨ftb,info,answer,rfl,rfl,congrArg Prod.fst hclaims⟩

end Body

/-- Check 24: the previous transaction block that a foliage has to name. -/
def requiredPrevHash (E : Env) (V : BlockView) (prevB : Option BlockRecord) : Check Bytes32 :=
  match prevB with
  | none => return E.genesisChallenge
  | some prev => do return (← V.lastTransactionBlock prev).headerHash

variable {ftb : FoliageTransactionBlock}

theorem validateFoliage_prevHash {V : BlockView} {prevB : Option BlockRecord} {header : UnfinishedHeaderBlock} {checkFilter : Bool}
    (hftb : header.foliageTransactionBlock=some ftb)
    (h : validateFoliage E V prevB header checkFilter = .ok ()) :
    requiredPrevHash E V prevB = .ok ftb.prevTransactionBlockHash := by
  unfold validateFoliage at h
  obtain ⟨_,-,h⟩ := bind_ok.mp h
  obtain ⟨_,-,h⟩ := bind_ok.mp h
  rw [hftb] at h
  obtain ⟨_,-,h⟩ := bind_ok.mp h
  cases prevB with
  | none =>
    obtain ⟨_,hhash,-⟩ := bind_ok.mp h
    exact congrArg Except.ok (of_not_not (reject_eq_ok.mp hhash)).symm
  | some prev =>
    obtain ⟨curr,hcurr,h⟩ := bind_ok.mp h
    obtain ⟨_,hhash,-⟩ := bind_ok.mp h
    rw [requiredPrevHash,bind_of_ok hcurr]
    exact congrArg Except.ok (of_not_not (reject_eq_ok.mp hhash)).symm

theorem validateRewardClaims_mem {V : BlockView} {height : ℕ} {info : TransactionsInfo}
    {answer : List Coin × ℕ} {curr : BlockRecord} (h : validateRewardClaims E V height ftb info = .ok answer)
    (hheight : 0<height) (hcurr : V.blockRecord ftb.prevTransactionBlockHash = .ok curr) :
    ∃ coins,expectedRewardCoins E V curr = .ok coins ∧ ∀ c,c∈info.rewardClaimsIncorporated ↔ c∈coins := by
  unfold validateRewardClaims at h
  rw [if_pos hheight,hcurr] at h
  dsimp only at h
  obtain ⟨_,hsame,h⟩ := bind_ok.mp h
  obtain rfl := Except.ok.inj hsame
  obtain ⟨coins,hcoins,h⟩ := bind_ok.mp h
  obtain ⟨_,hp,h⟩ := bind_ok.mp h
  rw [← Except.ok.inj hp] at h
  obtain ⟨_,hsets,-⟩ := bind_ok.mp h
  rw [reject_eq_ok,Classical.not_not] at hsets
  refine ⟨coins,hcoins,fun c => ?_⟩
  rw [← List.mem_dedup (l := coins)]
  exact ⟨fun hc => hsets.1 hc,fun hc => hsets.2 hc⟩

theorem getBlockHeader_fields {header : HeaderBlock} {additions : List Coin} {removals : List Bytes32}
    (h : getBlockHeader E b additions removals = .ok header) : header.foliage=b.foliage ∧
      header.foliageTransactionBlock=b.foliageTransactionBlock ∧ header.rewardChainBlock=b.rewardChainBlock := by
  unfold getBlockHeader at h
  obtain ⟨_,_,h⟩ := bind_ok.mp h
  rw [← Except.ok.inj h]
  exact ⟨rfl,rfl,rfl⟩

theorem ValidatedOn.first (h : ValidatedOn E [] b) : b.isTransactionBlock := by
  obtain ⟨w,hi,htop,hgen,hv⟩ := h
  obtain ⟨header,_,_,_,_,_,_,_,hheader,hvalid⟩ := hv.header
  obtain ⟨hfol,-,hrcb⟩ := getBlockHeader_fields hheader
  have hz : header.rewardChainBlock.height=0 := by
    rw [hrcb]
    exact htop.1
  have hprev := validateFinishedHeaderBlock_first hz hvalid
  have hno : w.chain.view.tryBlockRecord header.foliage.prevBlockHash=none := by
    rw [hprev]
    cases hrec : w.chain.view.tryBlockRecord E.genesisChallenge with
    | none => rfl
    | some r =>
      obtain ⟨x,hx,-⟩ := hi.blockOf hrec
      rw [hgen] at hx
      cases hx
  obtain ⟨sp,htx,-⟩ := validateFinishedHeaderBlock_foliage hvalid
  rw [hno] at htx
  have hsome : b.foliage.foliageTransactionBlockHash≠none := by
    intro hnone
    unfold validateIsTransactionBlock at htx
    rw [hfol,hnone,reject_eq_ok] at htx
    exact htx rfl
  obtain ⟨_,_,_,_,_,_,hbody⟩ := hv.body
  obtain ⟨hnone,-⟩ | ⟨ftb,_,_,hftb,-⟩ := validateBlockBody_claims hbody
  · exact absurd hnone hsome
  · unfold FullBlock.isTransactionBlock
    rw [hftb]
    rfl

variable {r : BlockRecord}

theorem RecordOf.mem_rewardCoins (h : RecordOf E b r) (c : Coin) :
    c∈rewardCoins E.constants r (farmerFees b) ↔ c=poolCoin E b ∨ c=farmerCoin E b := by
  obtain ⟨_,_,_,_,_,_,rfl⟩ := h
  unfold rewardCoins poolCoin farmerCoin
  rw [List.mem_cons,List.mem_singleton]
  rfl

theorem RecordOf.fees (h : RecordOf E b r) : r.fees=b.transactionsInfo.map (·.fees) := by
  obtain ⟨_,_,_,_,_,_,rfl⟩ := h
  rfl

theorem forall₂_getElem?_right {α β : Type} {R : α → β → Prop} {l : List α} {m : List β}
    (h : List.Forall₂ R l m) {c : β} (hc : m[i]?=some c) : ∃ a,l[i]?=some a ∧ R a c := by
  obtain ⟨hi,rfl⟩ := List.getElem?_eq_some_iff.mp hc
  have hi' : i<l.length := by rw [h.length_eq]; exact hi
  have hr := h.get hi' hi
  exact ⟨l[i],List.getElem?_eq_getElem hi',by simpa using hr⟩

section Chain
variable {rs : List BlockRecord} {j : ℕ}

variable {q : ℕ} {y : BlockRecord}

section
variable (hall : List.Forall₂ (RecordOf E) (L.take j) rs)
include hall

theorem txAt_of_record (hy : rs[q]?=some y) :
    ∃ x,L[q]?=some x ∧ RecordOf E x y ∧ q<j ∧ (TxAt L q ↔ y.isTransactionBlock) := by
  obtain ⟨x,hx,hr⟩ := forall₂_getElem?_right hall hy
  obtain ⟨hq,-⟩ := List.getElem?_eq_some_iff.mp hx
  have hqj : q<j := by
    rw [List.length_take] at hq
    omega
  rw [List.getElem?_take_of_lt hqj] at hx
  refine ⟨x,hx,hr,hqj,?_⟩
  rw [hr.isTransactionBlock]
  constructor
  · intro ht
    obtain ⟨x',hx',ht⟩ := ht
    rw [hx] at hx'
    rw [Option.some.inj hx']
    exact ht
  · exact fun ht => ⟨x,hx,ht⟩

theorem prevTx_of_walk {p i : ℕ} {c : BlockRecord}
    (hi : i < rs.length) (hpi : p ≤ i) (hc : rs[p]?=some c) (htx : c.isTransactionBlock)
    (hbetween : ∀ q y,p<q → q ≤ i → rs[q]?=some y → ¬ y.isTransactionBlock) : PrevTx L (i+1) p := by
  obtain ⟨x,hx,-,-,hiff⟩ := txAt_of_record hall hc
  refine ⟨by omega,hiff.mpr htx,?_⟩
  intro q hq hqi ht
  have hlt : q < rs.length := by omega
  obtain ⟨-,-,-,-,hiff'⟩ := txAt_of_record hall (List.getElem?_eq_getElem hlt)
  exact hbetween q _ hq (by omega) (List.getElem?_eq_getElem hlt) (hiff'.mp ht)

theorem mem_rewardCoins_plain (hy : rs[q]?=some y) (htx : ¬ y.isTransactionBlock) : ∃ x,L[q]?=some x ∧
      ∀ c,c∈rewardCoins E.constants y 0 ↔ c=poolCoin E x ∨ c=farmerCoin E x := by
  obtain ⟨x,hx,hr,-,-⟩ := txAt_of_record hall hy
  have hzero : farmerFees x=0 := if_neg (by rw [← hr.isTransactionBlock]; exact htx)
  refine ⟨x,hx,fun c => ?_⟩
  rw [← hzero]
  exact hr.mem_rewardCoins c

end

section Expected
variable {V : BlockView} {k : Bytes32} (hrs : V.forest.Path k rs) (hroot : ∀ r,rs[0]?=some r → r.isTransactionBlock)
  {p : ℕ} {curr : BlockRecord} (hp : rs[p]?=some curr) {coins : List Coin}
  (hcoins : expectedRewardCoins E V curr = .ok coins)
include hrs hroot hp hcoins

theorem expectedRewardCoins_mem : ∃ fees,curr.fees=some fees ∧
    (p=0 → ∀ c,c∈coins ↔ c∈rewardCoins E.constants curr fees) ∧
    (0<p → ∃ p'<p,(∃ y,rs[p']?=some y ∧ y.isTransactionBlock) ∧
      (∀ q y,p'<q → q<p → rs[q]?=some y → ¬ y.isTransactionBlock) ∧
      ∀ c,c∈coins ↔ c∈rewardCoins E.constants curr fees ∨
        ∃ q y,p'<q ∧ q<p ∧ rs[q]?=some y ∧ c∈rewardCoins E.constants y 0) := by
  obtain ⟨hlt,hget⟩ := List.getElem?_eq_some_iff.mp hp
  have hheight : curr.height=p := by
    have hh := hrs.height_getElem p hlt
    rw [hget] at hh
    exact hh
  unfold expectedRewardCoins at hcoins
  obtain ⟨fees,hfees,hcoins⟩ := bind_ok.mp hcoins
  obtain ⟨_,-,hcoins⟩ := bind_ok.mp hcoins
  refine ⟨fees,assertSome_eq_ok.mp hfees,?_,?_⟩
  · intro hzero c
    rw [if_neg (by omega)] at hcoins
    rw [← Except.ok.inj hcoins]
  · intro hpos
    rw [if_pos (by omega)] at hcoins
    obtain ⟨u,hu,hcoins⟩ := bind_ok.mp hcoins
    obtain ⟨older,holder,hcoins⟩ := bind_ok.mp hcoins
    obtain ⟨i,rfl⟩ : ∃ i,p=i+1 := ⟨p - 1,by omega⟩
    have huAt : rs[i]?=some u := by
      have hi : i < rs.length := by omega
      have hf := hrs.find_parent (List.getElem?_eq_getElem hi) hp
      have hlook : V.blockRecords.get? curr.prevHash=some u := lookup_eq_ok.mp hu
      rw [List.getElem?_eq_getElem hi,← hf]
      exact hlook
    obtain ⟨p',hp',hstop,hbetween,hmem⟩ := rewardsBefore_ok hrs hroot huAt holder
    refine ⟨p',by omega,hstop,fun q y hq hqi => hbetween q y hq (by omega),fun c => ?_⟩
    rw [← Except.ok.inj hcoins,List.mem_append,hmem]
    simp only [Nat.lt_succ_iff]

theorem expectedRewardCoins_firstAfter (hall : List.Forall₂ (RecordOf E) (L.take j) rs) (htx : TxAt L j)
    (hprevTx : PrevTx L j p) (c : Coin) :
    c∈coins ↔ ∃ i x,L[i]?=some x ∧ FirstAfter L i j ∧ (c=poolCoin E x ∨ c=farmerCoin E x) := by
  obtain ⟨fees,hfees,hfirst,hlater⟩ := expectedRewardCoins_mem hrs hroot hp hcoins
  obtain ⟨x,hx,hr,hpj,-⟩ := txAt_of_record hall hp
  have hown : c∈rewardCoins E.constants curr fees ↔ c=poolCoin E x ∨ c=farmerCoin E x := by
    obtain ⟨x',hx',hxtx⟩ := hprevTx.tx
    obtain rfl : x=x' := Option.some.inj (hx.symm.trans hx')
    have hff : farmerFees x=fees := by
      unfold farmerFees
      rw [if_pos hxtx,← hr.fees,hfees]
      rfl
    rw [← hff]
    exact hr.mem_rewardCoins c
  obtain rfl | hpos := Nat.eq_zero_or_pos p
  · rw [hfirst rfl,hown]
    constructor
    · exact fun hc => ⟨0,x,hx,(firstAfter_iff_zero htx hprevTx).mpr rfl,hc⟩
    · intro ⟨i,z,hz,hafter,hc⟩
      rw [(firstAfter_iff_zero htx hprevTx).mp hafter,hx] at hz
      rw [Option.some.inj hz]
      exact hc
  · obtain ⟨p',hp',⟨y,hy,hstop⟩,hbetween,hmem⟩ := hlater hpos
    obtain ⟨hlt,-⟩ := List.getElem?_eq_some_iff.mp hp
    have hprevTx' := prevTx_of_walk hall (i := p-1) (by omega) (by omega) hy hstop
      fun q u hq hqi => hbetween q u hq (by omega)
    rw [Nat.sub_add_cancel hpos] at hprevTx'
    have hwindow (i : ℕ) := firstAfter_iff (i := i) htx hprevTx hprevTx'
    rw [hmem,hown]
    constructor
    · rintro (hc | ⟨q,u,hq,hqp,hu,hc⟩)
      · exact ⟨p,x,hx,(hwindow p).mpr ⟨hp',Nat.le_refl p⟩,hc⟩
      · obtain ⟨z,hz,hcoin⟩ := mem_rewardCoins_plain hall hu (hbetween q u hq hqp hu)
        exact ⟨q,z,hz,(hwindow q).mpr ⟨hq,by omega⟩,(hcoin c).mp hc⟩
    · intro ⟨i,z,hz,hafter,hc⟩
      obtain ⟨hlo,hhi⟩ := (hwindow i).mp hafter
      by_cases hip : i=p
      · rw [hip,hx] at hz
        rw [Option.some.inj hz]
        exact Or.inl hc
      · have hu : rs[i]?=some rs[i] := List.getElem?_eq_getElem (by omega)
        obtain ⟨z',hz',hcoin⟩ := mem_rewardCoins_plain hall hu (hbetween i _ hlo (by omega) hu)
        obtain rfl : z=z' := Option.some.inj (hz.symm.trans hz')
        exact Or.inr ⟨i,_,hlo,by omega,hu,(hcoin c).mpr hc⟩

end Expected

theorem Validated.prevTransactionBlock (hv : Validated E w b) {prev : BlockRecord} {ftb : FoliageTransactionBlock}
    (hprev : w.chain.view.tryBlockRecord b.foliage.prevBlockHash=some prev) (hftb : b.foliageTransactionBlock=some ftb) :
    ∃ curr,w.chain.view.lastTransactionBlock prev = .ok curr ∧ curr.headerHash=ftb.prevTransactionBlockHash := by
  obtain ⟨header,_,_,_,_,_,_,_,hheader,hvalid⟩ := hv.header
  obtain ⟨hfol,hhftb,-⟩ := getBlockHeader_fields hheader
  obtain ⟨_,-,hfoliage⟩ := validateFinishedHeaderBlock_foliage hvalid
  rw [hfol,hprev] at hfoliage
  have hreq := validateFoliage_prevHash (hhftb.trans hftb) hfoliage
  obtain ⟨curr,hcurr,hhash⟩ := bind_ok.mp hreq
  exact ⟨curr,hcurr,Except.ok.inj hhash⟩

theorem ValidatedOn.claims (h : ValidatedOn E (L.take j) b) (hj : 0<j) (hlen : j≤L.length)
    (hfirst : TxAt L 0) (htx : TxAt L j) (hb : L[j]?=some b) (c : Coin) :
    c∈rewardClaims b ↔ ∃ i x,L[i]?=some x ∧ FirstAfter L i j ∧ (c=poolCoin E x ∨ c=farmerCoin E x) := by
  obtain ⟨w,hi,htop,-,hv⟩ := h
  have hheight : b.height=j := by
    have hh := htop.1
    rw [worldForest_height,List.length_take] at hh
    omega
  obtain ⟨rs,hrs,hall⟩ := hi.path (htop.path (by rw [worldForest_height]; omega))
  have hlength : rs.length=j := by
    rw [← hall.length_eq,List.length_take]
    omega
  have hroot : ∀ r,rs[0]?=some r → r.isTransactionBlock := by
    intro r hr
    obtain ⟨_,_,_,_,hiff⟩ := txAt_of_record hall hr
    exact hiff.mp hfirst
  obtain ⟨x',hx',htx'⟩ := htx
  obtain rfl : b=x' := Option.some.inj (hb.symm.trans hx')
  obtain ⟨_,_,_,_,_,_,hbody⟩ := hv.body
  obtain ⟨-,hno,-⟩ | ⟨ftb,info,answer,hftb,hinfo,hclaims⟩ := validateBlockBody_claims hbody
  · unfold FullBlock.isTransactionBlock at htx'
    rw [hno] at htx'
    cases htx'
  -- the transaction block before
  obtain ⟨prev,hprev,hlast,-⟩ := hrs.last
  obtain ⟨curr,hcurr,hhash⟩ := hv.prevTransactionBlock hprev hftb
  have hprevAt : rs[j-1]?=some prev := by
    rw [← hlength,← List.getLast?_eq_getElem?]
    exact hlast
  obtain ⟨p,hpj,hp,hstop,hbetween⟩ := walk_ok hrs hroot hprevAt hcurr
  have hprevTx := prevTx_of_walk hall (by omega) hpj hp hstop hbetween
  rw [Nat.sub_add_cancel hj] at hprevTx
  have hfind : w.chain.view.blockRecord ftb.prevTransactionBlockHash = .ok curr := by
    obtain ⟨hlt,hget⟩ := List.getElem?_eq_some_iff.mp hp
    have hf := hrs.find_getElem hi.view_keyed p hlt
    rw [hget] at hf
    rw [← hhash]
    exact lookup_eq_ok.mpr hf
  -- the claims are the coins that are expected after it
  obtain ⟨coins,hcoins,hmem⟩ := validateRewardClaims_mem hclaims (by omega) hfind
  have hrc : rewardClaims b=info.rewardClaimsIncorporated := by
    unfold rewardClaims
    rw [hinfo]
    rfl
  rw [hrc,hmem]
  exact expectedRewardCoins_firstAfter hrs hroot hp hcoins hall ⟨b,hb,htx'⟩ hprevTx c

end Chain

theorem ValidChain.claims (h : ValidChain E L) {j : ℕ} (hb : L[j]?=some b) (c : Coin) :
    c∈rewardClaims b ↔ ∃ i x,L[i]?=some x ∧ FirstAfter L i j ∧ (c=poolCoin E x ∨ c=farmerCoin E x) := by
  obtain ⟨hlt,-⟩ := List.getElem?_eq_some_iff.mp hb
  have hv := h j b hb
  have hfirst : TxAt L 0 := by
    have hlt0 : 0<L.length := by omega
    have h0 := h 0 _ (List.getElem?_eq_getElem hlt0)
    rw [List.take_zero] at h0
    exact ⟨_,List.getElem?_eq_getElem hlt0,h0.first⟩
  have hnone (hno : rewardClaims b=[]) (hnot : ∀ i,¬ FirstAfter L i j) : c∈rewardClaims b ↔
      ∃ i x,L[i]?=some x ∧ FirstAfter L i j ∧ (c=poolCoin E x ∨ c=farmerCoin E x) := by
    rw [hno]
    constructor
    · intro hc
      cases hc
    · intro hc
      obtain ⟨i,_,_,hf,_⟩ := hc
      exact absurd hf (hnot i)
  by_cases htx : TxAt L j
  · by_cases hj : 0<j
    · exact hv.claims hj (by omega) hfirst htx hb c
    · obtain rfl : j=0 := by omega
      apply hnone
      · obtain ⟨w,-,htop,-,hval⟩ := hv
        obtain ⟨_,_,_,_,_,_,hbody⟩ := hval.body
        have hz : b.height=0 := htop.1
        unfold rewardClaims
        obtain ⟨-,-,hinfo⟩ | ⟨ftb,info,answer,-,hinfo,hclaims⟩ := validateBlockBody_claims hbody
        · rw [hinfo]
          rfl
        · rw [hinfo]
          unfold validateRewardClaims at hclaims
          rw [if_neg (by omega)] at hclaims
          dsimp only at hclaims
          obtain ⟨_,hp,hclaims⟩ := bind_ok.mp hclaims
          rw [← Except.ok.inj hp] at hclaims
          obtain ⟨_,hsets,-⟩ := bind_ok.mp hclaims
          rw [reject_eq_ok,Classical.not_not] at hsets
          exact List.subset_nil.mp hsets.1
      · intro i hf
        obtain ⟨p,hp,_⟩ := hf.after
        have hbefore := hp.before
        omega
  · apply hnone
    · obtain ⟨w,-,-,-,hval⟩ := hv
      obtain ⟨_,_,_,_,_,_,hbody⟩ := hval.body
      unfold rewardClaims
      obtain ⟨-,-,hinfo⟩ | ⟨ftb,info,answer,hftb,-,-⟩ := validateBlockBody_claims hbody
      · rw [hinfo]
        rfl
      · refine absurd ⟨b,hb,?_⟩ htx
        unfold FullBlock.isTransactionBlock
        rw [hftb]
        rfl
    · intro i hf
      exact htx hf.tx

theorem ValidChain.height (h : ValidChain E L) {j : ℕ} (hb : L[j]?=some b) : b.height=j ∧ j<2^32 := by
  obtain ⟨hlt,-⟩ := List.getElem?_eq_some_iff.mp hb
  obtain ⟨w,hi,htop,-,hv⟩ := h j b hb
  have hheight : b.height=j := by
    have hh := htop.1
    rw [worldForest_height,List.length_take] at hh
    omega
  refine ⟨hheight,?_⟩
  by_cases hj : j=0
  · omega
  · have hpath := htop.path (by rw [worldForest_height]; omega)
    obtain ⟨rs,hrs,hall⟩ := hi.path hpath
    obtain ⟨prev,hprev,-,hlast⟩ := hrs.last
    obtain ⟨header,_,_,_,_,_,_,_,hheader,hvalid⟩ := hv.header
    obtain ⟨hfol,-,-⟩ := getBlockHeader_fields hheader
    have hprevB : w.chain.view.tryBlockRecord header.foliage.prevBlockHash=some prev := by
      rw [hfol]
      exact hprev
    have hbound := validateFinishedHeaderBlock_height hprevB hvalid
    rw [← hall.length_eq,List.length_take] at hlast
    rw [forest_height] at hlast
    omega

theorem rewardParentId_height {half half' h h' : ℕ} (hh : half<2^128) (hh' : half'<2^128)
    (hlt : h<2^32) (hlt' : h'<2^32) (heq : rewardParentId half h=rewardParentId half' h') : h=h' := by
  unfold rewardParentId at heq
  rw [Nat.mod_eq_of_lt (by omega),Nat.mod_eq_of_lt (by omega)] at heq
  have hnat := ofNat_inj (by omega) (by omega) heq
  omega

theorem rewardCoin_height {y : FullBlock} {c : Coin} (hx : x.height<2^32) (hy : y.height<2^32)
    (hcx : c=poolCoin E x ∨ c=farmerCoin E x) (hcy : c=poolCoin E y ∨ c=farmerCoin E y) :
    x.height=y.height := by
  have hgen := E.genesisChallenge.isLt
  have hhi : E.genesisChallenge.toNat / 2^128<2^128 := Nat.div_lt_of_lt_mul (by omega)
  have hlo : E.genesisChallenge.toNat % 2^128<2^128 := Nat.mod_lt _ (by norm_num)
  have hparent {z : FullBlock} (hc : c=poolCoin E z ∨ c=farmerCoin E z) :
      ∃ half<2^128,c.parentCoinInfo=rewardParentId half z.height := by
    obtain rfl | rfl := hc
    · exact ⟨_,hhi,rfl⟩
    · exact ⟨_,hlo,rfl⟩
  obtain ⟨half,hhalf,hpx⟩ := hparent hcx
  obtain ⟨half',hhalf',hpy⟩ := hparent hcy
  exact rewardParentId_height hhalf hhalf' hx hy (hpx.symm.trans hpy)

theorem FirstAfter.unique {j : ℕ} (h : FirstAfter L i j) (h' : FirstAfter L i j') : j=j' := by
  obtain ⟨p,hp,hip⟩ := h.after
  obtain ⟨p',hp',hip'⟩ := h'.after
  obtain hlt | heq | hgt := Nat.lt_trichotomy j j'
  · have hfirst := h'.first j hlt h.tx p hp
    omega
  · exact heq
  · have hfirst := h.first j' hgt h'.tx p' hp'
    omega

theorem exists_firstAfter {j p : ℕ} (hj : TxAt L j) (hp : PrevTx L j p) (hip : i≤p) : ∃ j,FirstAfter L i j := by
  classical
  have hex : ∃ j,TxAt L j ∧ ∃ p,PrevTx L j p ∧ i≤p := ⟨j,hj,p,hp,hip⟩
  refine ⟨Nat.find hex,(Nat.find_spec hex).1,(Nat.find_spec hex).2,?_⟩
  intro j' hlt htx q hq
  by_contra hle
  exact Nat.find_min hex hlt ⟨htx,q,hq,by omega⟩

/-- Where the rewards of a block are claimed. -/
structure ClaimedOnce (E : Env) (L : List FullBlock) (i : ℕ) (x : FullBlock) : Prop where
  pool : ∀ j b,L[j]?=some b → (poolCoin E x∈rewardClaims b ↔ FirstAfter L i j)
  farmer : ∀ j b,L[j]?=some b → (farmerCoin E x∈rewardClaims b ↔ FirstAfter L i j)
  once : ∀ j j',FirstAfter L i j → FirstAfter L i j' → j=j'
  due : ∀ j p,TxAt L j → PrevTx L j p → i≤p → ∃ j,FirstAfter L i j

/-- On a valid chain both rewards of every block are claimed in the first transaction block after the next
transaction block, and nothing else is claimed. -/
theorem rewards_claimed_once (h : ValidChain E L) : (∀ i x,L[i]?=some x → ClaimedOnce E L i x) ∧
    ∀ (j : ℕ) (b : FullBlock) (c : Coin),L[j]?=some b → c∈rewardClaims b →
      ∃ (i : ℕ) (x : FullBlock),L[i]?=some x ∧ (c=poolCoin E x ∨ c=farmerCoin E x) := by
  have hcoin {i : ℕ} {x : FullBlock} {c : Coin} (hx : L[i]?=some x) (hc : c=poolCoin E x ∨ c=farmerCoin E x) (j : ℕ)
      (b : FullBlock) (hb : L[j]?=some b) : c∈rewardClaims b ↔ FirstAfter L i j := by
    rw [h.claims hb]
    constructor
    · intro hclaim
      obtain ⟨i',y,hy,hf,hcy⟩ := hclaim
      obtain ⟨hxi,hxlt⟩ := h.height hx
      obtain ⟨hyi,hylt⟩ := h.height hy
      have hsame := rewardCoin_height (by omega) (by omega) hc hcy
      rw [show i=i' by omega]
      exact hf
    · intro hf
      exact ⟨i,x,hx,hf,hc⟩
  refine ⟨?_,?_⟩
  · intro i x hx
    exact ⟨hcoin hx (Or.inl rfl),hcoin hx (Or.inr rfl),fun _ _ hf hf' => hf.unique hf',
      fun _ _ hj hp hip => exists_firstAfter hj hp hip⟩
  · intro j b c hb hc
    obtain ⟨i,x,hx,-,hcx⟩ := (h.claims hb c).mp hc
    exact ⟨i,x,hx,hcx⟩

/-- The first block of the network of `tinyEnv`, with all that its header is checked for. -/
def provedGenesis : FullBlock :=
  { tinyGenesis with
    rewardChainBlock := { tinyGenesis.rewardChainBlock with
      posSsCcChallengeHash := 1
      proofOfSpace := ⟨0,some [],none,[],32,[]⟩
      totalIters := 49
      challengeChainIpVdf := ⟨1,49,.getDefaultElement⟩
      rewardChainIpVdf := ⟨1,49,.getDefaultElement⟩
      isTransactionBlock := true }
    foliage := { tinyGenesis.foliage with
      foliageBlockData := { tinyGenesis.foliage.foliageBlockData with poolSignature := some [] }
      foliageTransactionBlockSignature := some [] }
    foliageTransactionBlock := some ⟨1,1,0,0,0,0⟩ }

theorem provedGenesis_validated : Validated tinyEnv (World.empty 5 5) provedGenesis := by
  have hheader : ((getBlockHeader tinyEnv provedGenesis [] []).bind fun header =>
      validateFinishedHeaderBlock tinyEnv (World.empty 5 5).chain.view header false 7 1024 true).isOk := by
    decide +kernel
  have hbody : (validateBlockBody tinyEnv (World.empty 5 5).chain.view none provedGenesis.body
      provedGenesis.height none none (fun _ => pure none) (World.empty 5 5)).1.isOk := by
    decide +kernel
  refine ⟨?_,?_⟩
  · rcases hh : getBlockHeader tinyEnv provedGenesis [] [] with e | header
    · rw [hh] at hheader
      cases hheader
    · rw [hh] at hheader
      rcases hv : validateFinishedHeaderBlock tinyEnv (World.empty 5 5).chain.view header false 7 1024 true
        with e | n
      · change (validateFinishedHeaderBlock tinyEnv (World.empty 5 5).chain.view header false 7 1024 true).isOk
          at hheader
        rw [hv] at hheader
        cases hheader
      · exact ⟨header,[],[],false,true,7,1024,n,hh,hv⟩
  · rcases hb : validateBlockBody tinyEnv (World.empty 5 5).chain.view none provedGenesis.body
      provedGenesis.height none none (fun _ => pure none) (World.empty 5 5) with ⟨e | out,s⟩
    · rw [hb] at hbody
      cases hbody
    · exact ⟨none,none,none,_,out,s,hb⟩

end RoseChain
