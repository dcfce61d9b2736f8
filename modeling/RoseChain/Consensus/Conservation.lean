import Mathlib.Order.Interval.Finset.Nat
import RoseChain.Consensus.RewardClaims
import RoseChain.Lib.LedgerTotals

namespace RoseChain
open Lib Blockchain
variable {E : Env} {fx : FullBlock → Effects} {w : World} {b : FullBlock} {L Q : List FullBlock}

def unspentTotal (t : Dict Bytes32 CoinRecord) : ℕ :=
  ((t.values.filter fun r => !r.spent).map (·.coin.amount)).sum

def FullBlock.declaredFees (b : FullBlock) : ℕ := (b.transactionsInfo.map (·.fees)).getD 0

def amountIn (p : CoinPayload) : ℕ := p.coin.amount

section Totals
variable {t t' : Dict Bytes32 CoinRecord} {book book' : CoinBook}

theorem sum_filter_map {α : Type} (l : List α) (keep : α → Bool) (f : α → ℕ) :
    ((l.filter keep).map f).sum=(l.map fun a => if keep a then f a else 0).sum := by
  induction l with
  | nil => rfl
  | cons a l ih =>
    cases h : keep a <;> simp [h,ih]

theorem unspentTotal_eq (h : Shows E t book) : unspentTotal t=Book.total amountIn t.keys.toFinset book := by
  have hkeys : t.keys.Nodup := t.nodup
  rw [unspentTotal,sum_filter_map,Book.total,List.sum_toFinset _ hkeys,Dict.values,Dict.keys,List.map_map,
    List.map_map]
  congr 1
  refine List.map_congr_left fun entry hentry => ?_
  have hget := (Dict.mem_entries t entry.1 entry.2).mp hentry
  rw [h.get] at hget
  obtain ⟨e,he,hrec⟩ := Option.map_eq_some_iff.mp hget
  obtain ⟨p,k,d⟩ := e
  rw [Function.comp_apply,Function.comp_apply,he,← hrec]
  cases d <;> rfl

theorem Shows.mem_keys (h : Shows E t book) {n : Bytes32} (hn : book n≠none) : n∈t.keys.toFinset := by
  obtain ⟨e,he⟩ := Option.ne_none_iff_exists'.mp hn
  rw [List.mem_toFinset,Dict.mem_keys]
  exact ⟨coinRecordOf e,by rw [h.get,he]; rfl⟩

theorem Shows.total_eq (h : Shows E t book) {T : Finset Bytes32} (hT : t.keys.toFinset ⊆ T) :
    unspentTotal t=Book.total amountIn T book := by
  rw [unspentTotal_eq h,Book.total_of_subset hT fun n _ hn => h.mem_keys hn]

theorem created_amounts {e : Effects} {ftb : FoliageTransactionBlock} (hf : b.foliageTransactionBlock=some ftb) :
    ((blockDelta E b e).created.map fun c => amountIn c.2).sum =
      (e.2.map (·.amount)).sum+(b.rewards.map (·.amount)).sum := by
  unfold blockDelta
  rw [hf]
  simp [newCoins,amountIn,Function.comp_def]

theorem Posts.total (hp : Posts E b (fx b) book book') (hs : Shows E t book) (hs' : Shows E t' book')
    (htx : b.isTransactionBlock) (hfees : ∀ info,b.transactionsInfo=some info →
      ((fx b).2.map (·.amount)).sum+info.fees=((fx b).1.map (amountOf book')).sum) :
    unspentTotal t'+b.declaredFees=unspentTotal t+(b.rewards.map (·.amount)).sum := by
  obtain ⟨ftb,hf⟩ := Option.isSome_iff_exists.mp htx
  obtain ⟨info,hinfo⟩ := Option.isSome_iff_exists.mp (hp.info htx)
  have hspent : (blockDelta E b (fx b)).spent=(fx b).1 := by
    unfold blockDelta
    rw [hf]
  let T : Finset Bytes32 := t.keys.toFinset ∪ t'.keys.toFinset ∪
    ((blockDelta E b (fx b)).created.map Prod.fst).toFinset ∪ (fx b).1.toFinset
  have hcreated : ∀ n∈(blockDelta E b (fx b)).created.map Prod.fst,n∈T := by
    intro n hn
    simp only [T,Finset.mem_union,List.mem_toFinset]
    exact Or.inl (Or.inr hn)
  have hremoved : ∀ n∈(blockDelta E b (fx b)).spent,n∈T := by
    intro n hn
    rw [hspent] at hn
    simp only [T,Finset.mem_union,List.mem_toFinset]
    exact Or.inr hn
  have htotal : Book.total amountIn T book'+_=Book.total amountIn T book+_ :=
    Book.total_apply hp.applied hcreated hremoved
  have hpaid : ((fx b).1.map (Book.valueOf amountIn book')).sum=((fx b).2.map (·.amount)).sum+info.fees :=
    (hfees info hinfo).symm
  rw [hspent,created_amounts hf,hpaid,← hs.total_eq,← hs'.total_eq] at htotal
  · have hdeclared : b.declaredFees=info.fees := by
      unfold FullBlock.declaredFees
      rw [hinfo]
      rfl
    omega
  · intro n hn
    simp only [T,Finset.mem_union]
    exact Or.inl (Or.inl (Or.inr hn))
  · intro n hn
    simp only [T,Finset.mem_union]
    exact Or.inl (Or.inl (Or.inl hn))

end Totals
section Chain

/-- A block that both validations accept in a node that stores the blocks below it. Its generator's result gives
its removals and additions, and its coins have names of their own. -/
structure AcceptedBy (E : Env) (fx : FullBlock → Effects) (w : World) (Q : List FullBlock) (b : FullBlock) : Prop where
  reached : Reached E fx w
  onTop : (w.forest E).OnTop Q b
  genesis : w.block? E.genesisChallenge=none
  fixed : FixedEffects E fx w
  header : ∃ header additions removals filter summary difficulty iters n,
    getBlockHeader E b additions removals = .ok header ∧
    validateFinishedHeaderBlock E w.chain.view header filter difficulty iters summary = .ok n
  body : ∃ peak npcResult forkPointWithPeak out s,getPeak w.chain = .ok peak ∧
    ProperFork E w b forkPointWithPeak ∧ resultEffects npcResult = .ok (fx b) ∧
    validateBlockBody E w.chain.view peak b.body b.height npcResult forkPointWithPeak blockGenerator w=(.ok out,s)
  fresh : ∀ n∈madeNames E b (fx b),∀ a∈Q,n∉madeNames E a (fx a)

/-- Blocks one on top of the other from height zero, each accepted by some node. -/
def AcceptedChain (E : Env) (fx : FullBlock → Effects) (L : List FullBlock) : Prop :=
  ∀ j b,L[j]?=some b → ∃ w,AcceptedBy E fx w (L.take j) b

theorem AcceptedBy.posts (h : AcceptedBy E fx w Q b) (hd : E.HalvesDiffer) {bookQ : CoinBook}
    (hrepQ : Replays E fx Q bookQ) : ∃ book',Posts E b (fx b) bookQ book' ∧ ∀ info,b.transactionsInfo=some info →
      ((fx b).2.map (·.amount)).sum+info.fees=((fx b).1.map (amountOf book')).sum := by
  have hs := h.reached.settled hd
  obtain ⟨P,book,hm,hrep,hshow⟩ := hs.chain
  obtain ⟨peak,npcResult,forkPointWithPeak,out,s,hpeak,hfork,heffects,hbody⟩ := h.body
  have hobs : observe (validateBlockBody E w.chain.view peak b.body b.height npcResult forkPointWithPeak blockGenerator)
      w = .ok out := by
    obtain ⟨w',hrun,-,-⟩ :=
      (validateBlockBody_observes blockGenerator_observes peak b.body b.height npcResult forkPointWithPeak).run
        hs.coherent
    exact (congrArg Prod.fst (hrun.symm.trans hbody))
  have hcommon : CommonHeight P Q forkPointWithPeak := by
    rintro f rfl
    obtain ⟨P',Q',a,hP',hQ',hPf,hQf⟩ := hfork f rfl
    rw [hP'.unique hs.indexed hm] at hPf
    rw [hQ'.unique h.onTop] at hQf
    exact ⟨a,hPf,hQf⟩
  exact (bodyAccepted_of_ok hs.coherent.calm blockGenerator_observes hobs).posts hs.coherent.calm hs.indexed hm h.onTop
    hshow hrep hrepQ h.fixed hpeak hcommon heffects hd fun n hn => hrepQ.fresh (h.fresh n hn)

theorem AcceptedBy.validatedOn (h : AcceptedBy E fx w Q b) (hd : E.HalvesDiffer) : ValidatedOn E Q b := by
  obtain ⟨peak,npcResult,forkPointWithPeak,out,s,-,-,-,hbody⟩ := h.body
  exact ⟨w,(h.reached.settled hd).indexed,h.onTop,h.genesis,h.header,
    ⟨peak,npcResult,forkPointWithPeak,blockGenerator,out,s,hbody⟩⟩

theorem AcceptedChain.valid (h : AcceptedChain E fx L) (hd : E.HalvesDiffer) : ValidChain E L := by
  intro j b hb
  obtain ⟨w,hw⟩ := h j b hb
  exact hw.validatedOn hd

theorem AcceptedChain.replays (h : AcceptedChain E fx L) (hd : E.HalvesDiffer) (k : ℕ) (hk : k≤L.length) :
    ∃ book,Replays E fx (L.take k) book := by
  induction k with
  | zero => exact ⟨Book.empty,.nil _⟩
  | succ k ih =>
    obtain ⟨book,hrep⟩ := ih (by omega)
    have hlt : k<L.length := by omega
    obtain ⟨w,hw⟩ := h k _ (List.getElem?_eq_getElem hlt)
    obtain ⟨book',hpost,-⟩ := hw.posts hd hrep
    refine ⟨book',?_⟩
    rw [List.take_succ_eq_append_getElem hlt]
    exact postAll_concat_iff.mpr ⟨book,hrep,hpost⟩

/-- The coin table after `new_block` for every transaction block of a list. -/
def coinsAfter (E : Env) (fx : FullBlock → Effects) (l : List FullBlock) : Dict Bytes32 CoinRecord :=
  (replayCoins E fx l (World.empty 0 0)).2.db.coinRecord

theorem Replays.coinsAfter {book : CoinBook} (h : Replays E fx Q book) : Shows E (coinsAfter E fx Q) book := by
  obtain ⟨s,hrun,hshow⟩ := replayCoins_run 0 0 h
  unfold RoseChain.coinsAfter
  rw [hrun]
  exact hshow

theorem AcceptedChain.step (h : AcceptedChain E fx L) (hd : E.HalvesDiffer) {j : ℕ} (hb : L[j]?=some b) :
    (b.isTransactionBlock → unspentTotal (coinsAfter E fx (L.take (j+1)))+b.declaredFees =
      unspentTotal (coinsAfter E fx (L.take j))+(b.rewards.map (·.amount)).sum) ∧ (¬ b.isTransactionBlock →
      unspentTotal (coinsAfter E fx (L.take (j+1)))=unspentTotal (coinsAfter E fx (L.take j))) := by
  obtain ⟨hlt,hget⟩ := List.getElem?_eq_some_iff.mp hb
  obtain ⟨book,hrep⟩ := h.replays hd j (Nat.le_of_lt hlt)
  obtain ⟨w,hw⟩ := h j b hb
  obtain ⟨book',hpost,hfees⟩ := hw.posts hd hrep
  have hnext : Replays E fx (L.take (j+1)) book' := by
    rw [List.take_succ_eq_append_getElem hlt,hget]
    exact postAll_concat_iff.mpr ⟨book,hrep,hpost⟩
  refine ⟨fun htx => hpost.total hrep.coinsAfter hnext.coinsAfter htx hfees,fun htx => ?_⟩
  obtain rfl := (posts_of_not_transactionBlock htx).mp hpost
  rw [hnext.coinsAfter.total_eq Finset.subset_union_left,hrep.coinsAfter.total_eq Finset.subset_union_right]

end Chain

section Window
variable {P B : FullBlock} {j p lo : ℕ}

/-- The blocks up to `p` and after the transaction block before start at `lo`. -/
def WindowStart (L : List FullBlock) (p lo : ℕ) : Prop := p=0 ∧ lo=0 ∨ 0<lo ∧ PrevTx L p (lo-1)

theorem WindowStart.firstAfter (h : WindowStart L p lo) (hj : TxAt L j) (hp : PrevTx L j p) (i : ℕ) :
    FirstAfter L i j ↔ lo ≤ i ∧ i≤p := by
  obtain ⟨rfl,rfl⟩ | ⟨hpos,hprev⟩ := h
  · rw [firstAfter_iff_zero hj hp]
    omega
  · rw [firstAfter_iff hj hp hprev]
    omega

theorem WindowStart.plain (h : WindowStart L p lo) {i : ℕ} (hlo : lo ≤ i) (hip : i<p) : ¬ TxAt L i := by
  obtain ⟨rfl,rfl⟩ | ⟨hpos,hprev⟩ := h
  · omega
  · exact hprev.between i (by omega) hip

theorem WindowStart.le (h : WindowStart L p lo) : lo≤p := by
  obtain ⟨rfl,rfl⟩ | ⟨hpos,hprev⟩ := h
  · exact Nat.le_refl 0
  · have hbefore := hprev.before
    omega

def rewardPair (E : Env) (b : FullBlock) : Finset Coin := {poolCoin E b,farmerCoin E b}

theorem sum_rewardPair (hd : E.HalvesDiffer) (b : FullBlock) : ∑ c∈rewardPair E b,c.amount =
    calculatePoolReward b.height+calculateBaseFarmerReward b.height+farmerFees b := by
  have hne : poolCoin E b≠farmerCoin E b := createPoolCoin_ne _ hd _ _ _ _ _ _
  rw [rewardPair,Finset.sum_pair hne,Nat.add_assoc]
  rfl

variable {c : Coin}

theorem mem_rewardPair {b : FullBlock} : c∈rewardPair E b ↔ c=poolCoin E b ∨ c=farmerCoin E b := by
  rw [rewardPair,Finset.mem_insert,Finset.mem_singleton]

theorem mem_rewards : c∈b.rewards ↔ c∈rewardClaims b := by
  unfold FullBlock.rewards rewardClaims
  cases b.transactionsInfo with
  | none => rfl
  | some info => exact List.mem_dedup

theorem rewards_nodup (b : FullBlock) : b.rewards.Nodup := by
  unfold FullBlock.rewards
  cases b.transactionsInfo with
  | none => exact List.nodup_nil
  | some info => exact List.nodup_dedup _

theorem ValidChain.claimed (h : ValidChain E L) (hd : E.HalvesDiffer) (hB : L[j]?=some B) (hP : L[p]?=some P)
    (hj : TxAt L j) (hp : PrevTx L j p) (hlo : WindowStart L p lo) : (B.rewards.map (·.amount)).sum =
      ∑ i∈Finset.Icc lo p,(calculatePoolReward i+calculateBaseFarmerReward i)+P.declaredFees := by
  have hlen : j<L.length := (List.getElem?_eq_some_iff.mp hB).1
  have hbefore := hp.before
  let block (i : ℕ) : FullBlock := (L[i]?).getD P
  have hblock (i : ℕ) (hi : i≤p) : L[i]?=some (block i) := by
    have hlt : i<L.length := by omega
    simp only [block,List.getElem?_eq_getElem hlt,Option.getD_some]
  have hheight (i : ℕ) (hi : i≤p) : (block i).height=i := (h.height (hblock i hi)).1
  have hcoins : B.rewards.toFinset=(Finset.Icc lo p).biUnion fun i => rewardPair E (block i) := by
    ext c
    rw [List.mem_toFinset,mem_rewards,h.claims hB,Finset.mem_biUnion]
    constructor
    · rintro ⟨i,x,hx,hfirst,hc⟩
      have hi := (hlo.firstAfter hj hp i).mp hfirst
      obtain rfl : x=block i := Option.some.inj (hx.symm.trans (hblock i hi.2))
      exact ⟨i,Finset.mem_Icc.mpr hi,mem_rewardPair.mpr hc⟩
    · rintro ⟨i,hi,hc⟩
      have hi := Finset.mem_Icc.mp hi
      exact ⟨i,block i,hblock i hi.2,(hlo.firstAfter hj hp i).mpr hi,mem_rewardPair.mp hc⟩
  have hdisjoint : ∀ i∈Finset.Icc lo p,∀ k∈Finset.Icc lo p,i≠k →
      Disjoint (rewardPair E (block i)) (rewardPair E (block k)) := by
    intro i hi k hk hne
    have hi := (Finset.mem_Icc.mp hi).2
    have hk := (Finset.mem_Icc.mp hk).2
    rw [Finset.disjoint_left]
    intro c hci hck
    have hlt (m : ℕ) (hm : m≤p) : (block m).height<2^32 := by
      have hfit := h.height (hblock m hm)
      omega
    have hsame := rewardCoin_height (hlt i hi) (hlt k hk) (mem_rewardPair.mp hci) (mem_rewardPair.mp hck)
    rw [hheight i hi,hheight k hk] at hsame
    exact hne hsame
  have hfees : ∑ i∈Finset.Icc lo p,farmerFees (block i)=P.declaredFees := by
    rw [Finset.sum_eq_single_of_mem p (Finset.mem_Icc.mpr ⟨hlo.le,Nat.le_refl p⟩)]
    · obtain ⟨x,hx,htx⟩ := hp.tx
      have hlast : block p=P := Option.some.inj ((hblock p (Nat.le_refl p)).symm.trans hP)
      rw [hlast,Option.some.inj (hP.symm.trans hx)]
      exact if_pos htx
    · intro i hi hne
      have hi := Finset.mem_Icc.mp hi
      exact if_neg fun htx => hlo.plain hi.1 (by omega) ⟨block i,hblock i hi.2,htx⟩
  rw [← List.sum_toFinset _ (rewards_nodup B),hcoins,Finset.sum_biUnion hdisjoint,← hfees,← Finset.sum_add_distrib]
  refine Finset.sum_congr rfl fun i hi => ?_
  rw [sum_rewardPair hd,hheight i (Finset.mem_Icc.mp hi).2]

theorem AcceptedChain.between (h : AcceptedChain E fx L) (hd : E.HalvesDiffer) (hlen : j<L.length)
    (hp : PrevTx L j p) (i : ℕ) (hpi : p < i) (hij : i≤j) :
    unspentTotal (coinsAfter E fx (L.take i))=unspentTotal (coinsAfter E fx (L.take (p+1))) := by
  induction i,hpi using Nat.le_induction with
  | base => rfl
  | succ i hpi ih =>
    have hlt : i<L.length := by omega
    have hplain : ¬ L[i].isTransactionBlock := fun htx =>
      hp.between i hpi (by omega) ⟨L[i],List.getElem?_eq_getElem hlt,htx⟩
    rw [(h.step hd (List.getElem?_eq_getElem hlt)).2 hplain]
    exact ih (by omega)

/-- The unspent coins and the fees of a transaction block exceed those of the one before by the rewards of the
blocks in between, and no other block changes the amount. -/
theorem money_conserved (h : AcceptedChain E fx L) (hd : E.HalvesDiffer) (hB : L[j]?=some B) (hP : L[p]?=some P)
    (hj : TxAt L j) (hp : PrevTx L j p) (hlo : WindowStart L p lo) :
    (∀ i≤L.length,(replayCoins E fx (L.take i) (World.empty 0 0)).1 = .ok ()) ∧
    unspentTotal (coinsAfter E fx (L.take (j+1)))+B.declaredFees =
      unspentTotal (coinsAfter E fx (L.take (p+1)))+P.declaredFees +
        ∑ i∈Finset.Icc lo p,(calculatePoolReward i+calculateBaseFarmerReward i) ∧ ∀ i,p < i → i≤j →
      unspentTotal (coinsAfter E fx (L.take i))=unspentTotal (coinsAfter E fx (L.take (p+1))) := by
  have hlen : j<L.length := (List.getElem?_eq_some_iff.mp hB).1
  have hbetween := h.between hd hlen hp
  refine ⟨fun i hi => ?_,?_,hbetween⟩
  · obtain ⟨book,hrep⟩ := h.replays hd i hi
    obtain ⟨s,hrun,-⟩ := replayCoins_run 0 0 hrep
    rw [hrun]
  · have htx : B.isTransactionBlock := by
      obtain ⟨x,hx,htx⟩ := hj
      rw [Option.some.inj (hB.symm.trans hx)]
      exact htx
    have hstep := (h.step hd hB).1 htx
    have hclaimed := (h.valid hd).claimed hd hB hP hj hp hlo
    have hsame := hbetween j hp.before (Nat.le_refl j)
    omega

end Window

section Second

def provedState : World := (receiveBlock tinyEnv provedGenesis tinyPre none (World.empty 5 5)).2

/-- A second transaction block on the network of `tinyEnv`, with all that its header is checked for. -/
def provedNext : FullBlock where
  finishedSubSlots := []
  rewardChainBlock := ⟨14,1,113,4,1,⟨0,some [],none,[],32,[]⟩,some ⟨1,64,.getDefaultElement⟩,[],
    ⟨1,113,.getDefaultElement⟩,some ⟨0,15,.getDefaultElement⟩,[],⟨0,64,.getDefaultElement⟩,
    some ⟨0,64,.getDefaultElement⟩,true⟩
  challengeChainSpProof := some tinyProof
  challengeChainIpProof := tinyProof
  rewardChainSpProof := some tinyProof
  rewardChainIpProof := tinyProof
  infusedChallengeChainIpProof := some tinyProof
  foliage := ⟨10,0,⟨0,⟨0,0⟩,some [],0,11⟩,[],some 0,some []⟩
  foliageTransactionBlock := some ⟨10,2,0,0,0,0⟩
  transactionsInfo := some ⟨0,ones32,[],0,0,firstClaims⟩
  transactionsGenerator := none
  transactionsGeneratorRefList := []

example : provedState.chain.peakHeight=some 0 := by decide +kernel

theorem provedGenesis_proper : ProperCall tinyEnv noEffects (World.empty 5 5) provedGenesis tinyPre none :=
  properCall_none (Q := []) (by decide +kernel) (by decide +kernel) (Or.inl (by decide +kernel))

theorem provedState_reached : Reached tinyEnv noEffects provedState :=
  (Reached.start 5 5).call provedGenesis_proper

theorem provedState_block? {h : Bytes32} {b : FullBlock} (hb : provedState.block? h=some b) :
    h=10 ∧ b=provedGenesis := by
  have hrows : provedState.db.fullBlocks.entries.map (fun e => (e.1,e.2.block))=[(10,provedGenesis)] := by
    decide +kernel
  obtain ⟨row,hrow,rfl⟩ := Option.map_eq_some_iff.mp hb
  have hmem := (Dict.mem_entries _ _ _).mpr hrow
  have hpair : (h,row.block)∈provedState.db.fullBlocks.entries.map (fun e => (e.1,e.2.block)) :=
    List.mem_map.mpr ⟨(h,row),hmem,rfl⟩
  rw [hrows,List.mem_singleton] at hpair
  exact ⟨congrArg Prod.fst hpair,congrArg Prod.snd hpair⟩

theorem provedGenesis_accepted : AcceptedBy tinyEnv noEffects (World.empty 5 5) [] provedGenesis := by
  have hbody : (validateBlockBody tinyEnv (World.empty 5 5).chain.view none provedGenesis.body
      provedGenesis.height none none blockGenerator (World.empty 5 5)).1.isOk := by
    decide +kernel
  refine ⟨.start 5 5,⟨rfl,Or.inl rfl⟩,rfl,fun _ _ h => (by cases h),provedGenesis_validated.header,?_,
    fun _ _ _ ha => absurd ha List.not_mem_nil⟩
  rcases hb : validateBlockBody tinyEnv (World.empty 5 5).chain.view none provedGenesis.body provedGenesis.height none none
    blockGenerator (World.empty 5 5) with ⟨e | out,s⟩
  · rw [hb] at hbody
    cases hbody
  · exact ⟨none,none,none,out,s,rfl,fun _ h => (by cases h),rfl,hb⟩

theorem provedNext_accepted : AcceptedBy tinyEnv noEffects provedState [provedGenesis] provedNext := by
  have hheader : ((getBlockHeader tinyEnv provedNext [] []).bind fun header =>
      validateFinishedHeaderBlock tinyEnv provedState.chain.view header false 7 1024 true).isOk := by
    decide +kernel
  have hbody : ((getPeak provedState.chain).map fun peak => (validateBlockBody tinyEnv provedState.chain.view peak
      provedNext.body provedNext.height none none blockGenerator provedState).1.isOk) = .ok true := by
    decide +kernel
  refine ⟨provedState_reached,⟨rfl,Or.inr ?_⟩,?_,?_,?_,?_,?_⟩
  · exact Forest.path_iff.mpr ⟨provedGenesis,[],rfl,rfl,rfl,Or.inl rfl⟩
  · rcases hnone : provedState.block? tinyEnv.genesisChallenge with - | b
    · rfl
    · have hhash := (provedState_block? hnone).1
      exact absurd hhash (by decide)
  · intro h b hb
    obtain ⟨-,rfl⟩ := provedState_block? hb
    exact ⟨rfl,rfl⟩
  · rcases hh : getBlockHeader tinyEnv provedNext [] [] with e | header
    · rw [hh] at hheader
      cases hheader
    · rw [hh] at hheader
      rcases hv : validateFinishedHeaderBlock tinyEnv provedState.chain.view header false 7 1024 true with e | n
      · change (validateFinishedHeaderBlock tinyEnv provedState.chain.view header false 7 1024 true).isOk at hheader
        rw [hv] at hheader
        cases hheader
      · exact ⟨header,[],[],false,true,7,1024,n,hh,hv⟩
  · rcases hpeak : getPeak provedState.chain with e | peak
    · rw [hpeak] at hbody
      cases hbody
    · rw [hpeak] at hbody
      have hok := Except.ok.inj hbody
      dsimp only at hok
      rcases hb : validateBlockBody tinyEnv provedState.chain.view peak provedNext.body provedNext.height none none
        blockGenerator provedState with ⟨e | out,s⟩
      · rw [hb] at hok
        cases hok
      · exact ⟨peak,none,none,out,s,rfl,fun _ h => (by cases h),rfl,hb⟩
  · intro n _ a ha
    rw [List.mem_singleton.mp ha]
    have hno : madeNames tinyEnv provedGenesis (noEffects provedGenesis)=[] := by decide +kernel
    rw [hno]
    exact List.not_mem_nil

theorem provedPair_accepted : AcceptedChain tinyEnv noEffects [provedGenesis,provedNext] := by
  intro j b hb
  match j,hb with
  | 0,hb =>
    obtain rfl : provedGenesis=b := Option.some.inj hb
    exact ⟨_,provedGenesis_accepted⟩
  | 1,hb =>
    obtain rfl : provedNext=b := Option.some.inj hb
    exact ⟨_,provedNext_accepted⟩

/-- The rewards of the first block are claimed by the second one, and nowhere else. -/
theorem rewards_claimed_once_second : ClaimedOnce tinyEnv [provedGenesis,provedNext] 0 provedGenesis ∧
    ∀ c∈rewardClaims provedNext,c=poolCoin tinyEnv provedGenesis ∨ c=farmerCoin tinyEnv provedGenesis := by
  have hfirst : [provedGenesis,provedNext][0]?=some provedGenesis := rfl
  refine ⟨(rewards_claimed_once (provedPair_accepted.valid tinyEnv_halvesDiffer)).1 0 provedGenesis hfirst,?_⟩
  decide +kernel

theorem money_conserved_second : unspentTotal (coinsAfter tinyEnv noEffects [provedGenesis,provedNext]) +
      provedNext.declaredFees =
    unspentTotal (coinsAfter tinyEnv noEffects [provedGenesis])+provedGenesis.declaredFees +
      ∑ i∈Finset.Icc 0 0,(calculatePoolReward i+calculateBaseFarmerReward i) := by
  have hfirst : TxAt [provedGenesis,provedNext] 0 := ⟨provedGenesis,rfl,rfl⟩
  have hsecond : TxAt [provedGenesis,provedNext] 1 := ⟨provedNext,rfl,rfl⟩
  have hprev : PrevTx [provedGenesis,provedNext] 1 0 :=
    ⟨Nat.one_pos,hfirst,fun _ h₁ h₂ => absurd h₂ (Nat.not_lt.mpr h₁)⟩
  have hP : [provedGenesis,provedNext][0]?=some provedGenesis := rfl
  have hB : [provedGenesis,provedNext][1]?=some provedNext := rfl
  obtain ⟨-,htotal,-⟩ :=
    money_conserved provedPair_accepted tinyEnv_halvesDiffer hB hP hsecond hprev (Or.inl ⟨rfl,rfl⟩)
  have hone : [provedGenesis,provedNext].take (0+1)=[provedGenesis] := rfl
  have htwo : [provedGenesis,provedNext].take (1+1)=[provedGenesis,provedNext] := rfl
  rw [hone,htwo] at htotal
  exact htotal

end Second

end RoseChain
