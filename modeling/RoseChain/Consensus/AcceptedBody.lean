import RoseChain.Consensus.RemovalChecks

namespace RoseChain
open Lib
variable (E : Env)

/-- What the body checks have established of a block. -/
inductive BodyAccepted (V : BlockView) (peak : Option BlockRecord) (block : BlockBody) (height : ℕ)
    (npcResult : Option NPCResult) (forkPointWithPeak : Option ℕ) (g : GetBlockGenerator) (w : World) :
    Prop
  | noData (hash : block.foliageTransactionBlockHash=none) (body : validateNoBody E V block = .ok ())
  | data {ftb : FoliageTransactionBlock} {info : TransactionsInfo} {coinbase : List Coin}
      {prevTransactionBlockHeight : ℕ} {result : BodyResult} {records : Dict Bytes32 CoinRecord}
      {pairs : List (G1Element × Bytes)}
      (hash : block.foliageTransactionBlockHash=some (E.hashFoliageTransactionBlock ftb))
      (foliage : block.foliageTransactionBlock=some ftb) (isInfo : block.transactionsInfo=some info)
      (claims : validateRewardClaims E V height ftb info = .ok (coinbase,prevTransactionBlockHeight))
      (generator : validateGenerator E height block ftb info = .ok ())
      (cost : validateCost E block info npcResult = .ok result)
      (outputs : validateAdditionsAndRemovals E ftb (result.additions++coinbase) result.removals =
        .ok ())
      (removals : observe (validateRemovals E V peak block.prevHeaderHash height ftb.timestamp
        (result.additions++coinbase) result.removals forkPointWithPeak g) w = .ok records)
      (fees : validateFees E height info result records = .ok ())
      (conditions : validateConditions E prevTransactionBlockHeight ftb.timestamp result records =
        .ok pairs)
      (signature : validateAggregateSignature E info pairs = .ok ())

variable {E} {V : BlockView} {w : World} {height : ℕ} {info : TransactionsInfo}
  {ftb : FoliageTransactionBlock}

theorem observe_lift_bind {α β : Type} (x : Check α) (f : α → NodeM β) (w : World) :
    observe (Eff.lift x >>= f) w=x >>= fun a => observe (f a) w := by
  cases x <;> rfl

variable {block : BlockBody} {npcResult : Option NPCResult}

theorem bodyAccepted_of_ok (hw : w.interrupt=none) {g : GetBlockGenerator}
    (hg : ∀ b,Observes E (g b)) {peak : Option BlockRecord}
    {out : Option NPCResult} {forkPointWithPeak : Option ℕ}
    (h : observe (validateBlockBody E V peak block height npcResult forkPointWithPeak g) w = .ok out) :
    BodyAccepted E V peak block height npcResult forkPointWithPeak g w := by
  unfold validateBlockBody at h
  split at h
  · rename_i hnone
    rw [observe_lift_bind,bind_ok] at h
    obtain ⟨_,hbody,-⟩ := h
    exact .noData (by simpa using hnone) hbody
  · split at h
    · rename_i ftb info hf hi
      simp only [observe_lift_bind,bind_ok,reject_eq_ok,Classical.not_not] at h
      obtain ⟨_,-,_,hhash,⟨coinbase,prevHeight⟩,hclaims,_,hgen,result,hcost,_,hout,h⟩ := h
      rw [(validateRemovals_observes hg _ _ _ _ _ _ _).observe_bind _ hw,bind_ok] at h
      obtain ⟨records,hrem,h⟩ := h
      simp only [observe_lift_bind,bind_ok] at h
      obtain ⟨_,hfees,pairs,hcond,_,hsig,-⟩ := h
      exact .data hhash hf hi hclaims hgen hcost hout hrem hfees hcond hsig
    · simp at h

theorem expectedRewardCoins_ok {prev : BlockRecord} {coins : List Coin}
    (h : expectedRewardCoins E V prev = .ok coins) :
    ∃ fees older,prev.fees=some fees ∧ coins=rewardCoins E.constants prev fees++older := by
  unfold expectedRewardCoins at h
  rw [bind_ok] at h
  obtain ⟨fees,hfees,h⟩ := h
  rw [bind_ok] at h
  obtain ⟨_,-,h⟩ := h
  refine ⟨fees,?_⟩
  split at h
  · simp only [bind_ok,pure,Except.pure,Except.ok.injEq] at h
    obtain ⟨_,-,older,-,rfl⟩ := h
    exact ⟨older,by simpa using hfees,rfl⟩
  · cases h
    exact ⟨[],by simpa using hfees,by simp⟩

theorem validateRewardClaims_ok (hd : E.HalvesDiffer) {coinbase : List Coin} {prevTransactionBlockHeight : ℕ}
    (h : validateRewardClaims E V height ftb info = .ok (coinbase,prevTransactionBlockHeight)) :
    coinbase.Nodup ∧ coinbase.Perm info.rewardClaimsIncorporated.dedup ∧
      if height=0 then coinbase.length=0 else 2 ≤ coinbase.length := by
  unfold validateRewardClaims at h
  obtain ⟨expected,hfacts,hsub,hsup,rfl⟩ : ∃ expected : List Coin,
      (expected.Nodup ∧ if height=0 then expected.length=0 else 2≤expected.length) ∧
        info.rewardClaimsIncorporated ⊆ expected ∧ expected ⊆ info.rewardClaimsIncorporated ∧
          expected=coinbase := by
    by_cases hz : height > 0
    · simp only [hz,if_true,bind_ok,reject_eq_ok,Classical.not_not,pure,
        Except.pure,Except.ok.injEq,Prod.mk.injEq] at h
      obtain ⟨prev,-,coins,hcoins,_,rfl,_,⟨hsub,hsup⟩,_,-,hexp,-⟩ := h
      obtain ⟨fees,older,-,rfl⟩ := expectedRewardCoins_ok hcoins
      refine ⟨_,⟨List.nodup_dedup _,?_⟩,hsub,hsup,hexp⟩
      rw [if_neg (by omega)]
      have hnd : (rewardCoins E.constants prev fees).Nodup := by
        simpa [rewardCoins] using createPoolCoin_ne _ hd _ _ _ _ _ _
      exact (List.subperm_of_subset hnd fun c hc =>
        List.mem_dedup.mpr (List.mem_append_left older hc)).length_le
    · simp only [hz,if_false,bind_ok,reject_eq_ok,Classical.not_not,pure,
        Except.pure,Except.ok.injEq,Prod.mk.injEq] at h
      obtain ⟨_,rfl,_,⟨hsub,hsup⟩,_,-,hexp,-⟩ := h
      exact ⟨[],by simp; omega,hsub,hsup,hexp⟩
  refine ⟨hfacts.1,?_,hfacts.2⟩
  rw [List.perm_ext_iff_of_nodup hfacts.1 (List.nodup_dedup _)]
  exact fun c => ⟨fun hc => List.mem_dedup.mpr (hsup hc),fun hc => hsub (List.mem_dedup.mp hc)⟩

theorem validateCost_ok {result : BodyResult} (h : validateCost E block info npcResult = .ok result) :
    resultEffects npcResult = .ok (result.removals,result.additions) ∧
      (npcResult.isSome ↔ block.transactionsGenerator.isSome) := by
  unfold validateCost at h
  cases hg : block.transactionsGenerator with
  | none =>
    simp only [hg,bind_ok,assertThat_eq_ok,reject_eq_ok,pure,Except.pure,Except.ok.injEq] at h
    obtain ⟨_,hnone,_,rfl,_,-,rfl⟩ := h
    rw [Option.isNone_iff_eq_none] at hnone
    subst hnone
    exact ⟨rfl,by simp⟩
  | some generator =>
    simp only [hg,bind_ok,assertSome_eq_ok,reject_eq_ok] at h
    obtain ⟨r,rfl,cost,-,_,-,h⟩ := h
    cases he : r.error with
    | some e => simp [he,bind,Except.bind] at h
    | none =>
      simp only [he,bind_ok,pure,Except.pure,Except.ok.injEq] at h
      obtain ⟨additions,hadd,_,-,_,-,_,rfl,_,-,rfl⟩ := h
      refine ⟨?_,by simp⟩
      simp [resultEffects,txRemovalsAndAdditions,hadd,bind,Except.bind,pure,Except.pure]

theorem validateAdditionsAndRemovals_ok {allAdditions : List Coin} {removals : List Bytes32}
    (h : validateAdditionsAndRemovals E ftb allAdditions removals = .ok ()) :
    (∀ c∈allAdditions,c.amount≤E.maxCoinAmount) ∧ (allAdditions.map E.coinName).Nodup := by
  unfold validateAdditionsAndRemovals at h
  simp only [bind_ok,reject_eq_ok,Classical.not_not] at h
  obtain ⟨_,hmax,_,-,_,-,hnd⟩ := h
  exact ⟨by simpa using hmax,hnd⟩

theorem validateFees_ok {result : BodyResult} {records : Dict Bytes32 CoinRecord}
    (h : validateFees E height info result records = .ok ()) :
    (result.additions.map (·.amount)).sum+info.fees=(records.values.map (·.coin.amount)).sum := by
  unfold validateFees at h
  simp only [bind_ok,reject_eq_ok,Classical.not_not,not_lt] at h
  obtain ⟨_,hmint,_,-,_,-,_,-,hfees⟩ := h
  omega

def madeNames (E : Env) (b : FullBlock) (fx : Effects) : List Bytes32 :=
  (blockDelta E b fx).created.map Prod.fst

section Posting
variable {fx : FullBlock → Effects} {P Q : List FullBlock} {b : FullBlock} {bookP bookQ : CoinBook}
  {result : BodyResult} {coinbase : List Coin}

theorem created_perm (hf : b.foliageTransactionBlock=some ftb) (hi : b.transactionsInfo=some info)
    (hperm : coinbase.Perm info.rewardClaimsIncorporated.dedup)
    (hfx : fx b=(result.removals,result.additions)) :
    ((blockDelta E b (fx b)).created.map (·.2.coin)).Perm (result.additions++coinbase) := by
  have hr : b.rewards=info.rewardClaimsIncorporated.dedup := by simp [FullBlock.rewards,hi]
  simp only [blockDelta,hf,hr,hfx,newCoins,List.map_append,List.map_map]
  refine List.Perm.append ?_ ?_
  · exact List.Perm.of_eq (List.map_id _)
  · exact (List.Perm.of_eq (List.map_id _)).trans hperm.symm

theorem created_name {n : Bytes32} {p : CoinPayload} {e : Effects}
    (h : (n,p)∈(blockDelta E b e).created) : n=E.coinName p.coin := (blockDelta_named h).symm

theorem madeNames_eq (e : Effects) :
    madeNames E b e=((blockDelta E b e).created.map (·.2.coin)).map E.coinName := by
  rw [madeNames,List.map_map]
  exact List.map_congr_left fun c hc => created_name hc

theorem RecordFor.amount {book' : CoinBook} (hpost : bookQ.apply (blockDelta E b (fx b))=some book')
    (hperm : ((blockDelta E b (fx b)).created.map (·.2.coin)).Perm (result.additions++coinbase))
    {timestamp : ℕ} {rem : Bytes32} {record : CoinRecord}
    (h : RecordFor E height timestamp (result.additions++coinbase) bookQ rem record) :
    record.coin.amount=amountOf book' rem := by
  rcases h with ⟨c,hc,rfl,rfl⟩ | ⟨-,e,he,-,hcoin,-⟩
  · obtain ⟨⟨n,p⟩,hmem,rfl⟩ := List.mem_map.mp (hperm.symm.subset hc)
    obtain rfl := created_name hmem
    obtain ⟨d,hd⟩ := Book.apply_created hpost hmem
    simp [amountOf,hd]
  · obtain ⟨d,hd⟩ := Book.apply_keeps hpost he
    simp [amountOf,hd,hcoin]

theorem BodyAccepted.posts (hw : w.interrupt=none) (hi : Indexed E w) (hm : MainChain E w P)
    (htop : (w.forest E).OnTop Q b) (hs : Shows E w.db.coinRecord bookP) (hrepP : Replays E fx P bookP)
    (hrepQ : Replays E fx Q bookQ) (hfx : FixedEffects E fx w) {peak : Option BlockRecord}
    (hpeak : Blockchain.getPeak w.chain = .ok peak) {npcResult : Option NPCResult}
    {forkPointWithPeak : Option ℕ} (hf : CommonHeight P Q forkPointWithPeak)
    (h : BodyAccepted E w.chain.view peak b.body b.height npcResult forkPointWithPeak
      Blockchain.blockGenerator w) (hres : resultEffects npcResult = .ok (fx b)) (hd : E.HalvesDiffer)
    (hfresh : ∀ n∈madeNames E b (fx b),bookQ n=none) :
    ∃ book',Posts E b (fx b) bookQ book' ∧ ∀ info,b.transactionsInfo=some info →
      ((fx b).2.map (·.amount)).sum+info.fees=((fx b).1.map (amountOf book')).sum := by
  cases h with
  | noData hash body =>
    simp only [validateNoBody,bind_ok,reject_eq_ok,not_or] at body
    obtain ⟨_,⟨hftb,hinfo,-⟩,-⟩ := body
    have ht : ¬ b.isTransactionBlock := hftb
    refine ⟨bookQ,(posts_of_not_transactionBlock ht).mpr rfl,fun info hi' => ?_⟩
    simp [FullBlock.body,hi'] at hinfo
  | @data ftb info coinbase _ result records _ hash foliage isInfo claims _ cost outputs removals fees =>
    change b.foliageTransactionBlock=some ftb at foliage
    change b.transactionsInfo=some info at isInfo
    obtain ⟨hnd,hclaims,hcount⟩ := validateRewardClaims_ok hd claims
    obtain ⟨heffects,-⟩ := validateCost_ok cost
    rw [hres,Except.ok.injEq] at heffects
    obtain ⟨-,hnames⟩ := validateAdditionsAndRemovals_ok outputs
    have hpaid := validateFees_ok fees
    have hperm := created_perm (E := E) foliage isInfo hclaims heffects
    have hstored : ∀ b'∈Q,w.block? (b'.headerHash E)=some b' :=
      fun b' hb' => htop.find_mem hi.keyed hb'
    have hheight : b.height=Q.length := htop.1
    rw [hheight] at removals hcount
    rcases observe_validateRemovals hw hi hm htop.2 hs hrepP hrepQ Blockchain.blockGenerator_observes
      (fun b' hb' => (hfx _ b' (hstored b' hb')).2) (fun b' hb' ht => hfx.plain hi (hstored b' hb') ht)
      hpeak hf ftb.timestamp (result.additions++coinbase) result.removals with
      ⟨⟨honce,hspend⟩,records',rs,hok,hrecs,hentries⟩ | ⟨-,code,herr⟩
    swap
    · exact absurd (removals.symm.trans herr) (by simp)
    obtain rfl : records=records' := by simpa using removals.symm.trans hok
    have hpostable : Book.Postable bookQ (blockDelta E b (fx b)) := by
      have hmade := madeNames_eq (E := E) (b := b) (fx b)
      have hspent : (blockDelta E b (fx b)).spent=result.removals := by
        simp [blockDelta,foliage,heffects]
      refine ⟨?_,hfresh,hspent ▸ honce,fun n hn => ?_⟩
      · change (madeNames E b (fx b)).Nodup
        rw [hmade]
        exact (hperm.map _).nodup_iff.mpr hnames
      · change n∈madeNames E b (fx b) ∨ _
        rw [hmade]
        exact (hspend n (hspent ▸ hn)).imp_left ((hperm.map _).symm.subset ·)
    obtain ⟨book',happ⟩ : ∃ book',bookQ.apply (blockDelta E b (fx b))=some book' :=
      ⟨_,(Book.apply_eq_some_iff bookQ _ _).mpr ⟨hpostable,rfl⟩⟩
    have hamounts : records.values.map (·.coin.amount)=result.removals.map (amountOf book') := by
      rw [Dict.values,hentries,List.map_snd_zip (by rw [hrecs.length_eq])]
      exact map_eq_of_forall₂ (hrecs.imp fun rem record hrec => hrec.amount happ hperm)
    rw [hamounts] at hpaid
    have hrewards : b.rewards.length=coinbase.length := by
      simp [FullBlock.rewards,isInfo,hclaims.length_eq]
    refine ⟨book',⟨happ,fun _ => by simp [isInfo],fun _ => ?_,fun _ => ?_⟩,fun info' hi' => ?_⟩
    · rw [hrewards,hheight]
      exact hcount
    · rw [heffects]
      simp only
      omega
    · rw [isInfo,Option.some.injEq] at hi'
      rw [heffects,← hi']
      exact hpaid

end Posting

end RoseChain
