import RoseChain.FullNode.ProofReads

namespace RoseChain
open Lib Blockchain Eff
variable {E : Env} {w : World} {P Q : List FullBlock} {c : Chain} {tipHeight : ℕ}

namespace WeightProof

section Summaries

theorem sesHeights_concat (b : FullBlock) : sesHeights E w (Q++[b]) =
    sesHeights E w Q++if (summaryOf E w b).isSome then [Q.length] else [] := by
  have hlow : (List.range Q.length).filter (hasSummaryAt E w (Q++[b]))=sesHeights E w Q := by
    apply List.filter_congr
    intro i hi
    rw [hasSummaryAt,hasSummaryAt,List.getElem?_append_left (List.mem_range.mp hi)]
  have hlast : hasSummaryAt E w (Q++[b]) Q.length=(summaryOf E w b).isSome := by simp [hasSummaryAt]
  rw [sesHeights,List.length_append,List.length_singleton,List.range_succ,List.filter_append,hlow,
    List.filter_singleton,hlast,Bool.cond_eq_ite]

theorem sesHeights_summaries : (sesHeights E w Q).map (fun i => (Q[i]?).bind (summaryOf E w)) =
    (Q.filterMap (summaryOf E w)).map some := by
  induction Q using List.reverseRecOn with
  | nil => rfl
  | append_singleton Q b ih =>
    have hlow : (sesHeights E w Q).map (fun i => ((Q++[b])[i]?).bind (summaryOf E w)) =
        (sesHeights E w Q).map fun i => (Q[i]?).bind (summaryOf E w) := by
      apply List.map_congr_left
      intro i hi
      rw [List.getElem?_append_left (List.mem_range.mp (List.mem_filter.mp hi).1)]
    rw [sesHeights_concat,List.map_append,hlow,ih,List.filterMap_append,List.map_append]
    cases hses : summaryOf E w b with
    | none => simp [hses]
    | some ses => simp [hses]

theorem sesHeights_upTo (htip : tipHeight<P.length) :
    (sesHeights E w P).takeWhile (fun i => decide (i≤tipHeight))=sesHeights E w (P.take (tipHeight+1)) ∧
      (sesHeights E w P).filter (fun i => decide (i≤tipHeight))=sesHeights E w (P.take (tipHeight+1)) := by
  obtain ⟨more,hmore,hhigh⟩ := sesHeights_append (E := E) (w := w) (Q := P.take (tipHeight+1))
    (R := P.drop (tipHeight+1))
  have hlength : (P.take (tipHeight+1)).length=tipHeight+1 := by rw [List.length_take]; omega
  rw [List.take_append_drop] at hmore
  have hlow : ∀ i∈sesHeights E w (P.take (tipHeight+1)),decide (i≤tipHeight)=true := by
    intro i hi
    have hlt := List.mem_range.mp (List.mem_filter.mp hi).1
    exact decide_eq_true (by omega)
  have hout : ∀ i∈more,¬ decide (i≤tipHeight)=true := by
    intro i hi
    have hle := hhigh i hi
    rw [decide_eq_true_eq]
    omega
  have hnone : more.takeWhile (fun i => decide (i≤tipHeight))=[] := by
    cases more with
    | nil => rfl
    | cons i more => exact List.takeWhile_cons_of_neg (hout i List.mem_cons_self)
  rw [hmore]
  constructor
  · rw [List.takeWhile_append_of_pos hlow,hnone,List.append_nil]
  · rw [List.filter_append,List.filter_eq_self.mpr hlow,List.filter_eq_nil_iff.mpr hout,List.append_nil]

theorem subEpochDataUpTo_eq {summaryHeights : List ℕ} {data : List SubEpochData}
    (h : subEpochDataUpTo c tipHeight summaryHeights = .ok data) :
    data.map some=(summaryHeights.takeWhile fun i => decide (i≤tipHeight)).map
      fun i => (c.subEpochSummaries.get? i).map createSubEpochData := by
  induction summaryHeights generalizing data with
  | nil =>
    obtain rfl := Except.ok.inj h
    rfl
  | cons sesHeight more ih =>
    rw [subEpochDataUpTo] at h
    split_ifs at h with hhigh
    · obtain rfl := Except.ok.inj h
      rw [List.takeWhile_cons_of_neg (by simpa using hhigh)]
      rfl
    · obtain ⟨ses,hses,h⟩ := bind_ok.mp h
      obtain ⟨rest,hrest,h⟩ := bind_ok.mp h
      obtain rfl := Except.ok.inj h
      rw [List.takeWhile_cons_of_pos (by simpa using hhigh),List.map_cons,List.map_cons,ih hrest,lookup_eq_ok.mp hses]
      rfl

end Summaries

section MainChain
variable (hses : SummariesOf E w P)
include hses

theorem getSesHeights_mainChain : getSesHeights w.chain=sesHeights E w P := by
  have hkeys : w.chain.subEpochSummaries.keys.Perm (sesHeights E w P) := by
    apply (List.perm_ext_iff_of_nodup w.chain.subEpochSummaries.nodup (sesHeights_sorted.imp fun hlt => hlt.ne)).mpr
    intro i
    have hkey := w.chain.subEpochSummaries.mem_keys i
    rw [hses,← Option.isSome_iff_exists] at hkey
    exact hkey.trans mem_sesHeights.symm
  have hperm := (List.perm_insertionSort (· ≤ ·) w.chain.subEpochSummaries.keys).trans hkeys
  exact hperm.eq_of_pairwise' (List.pairwise_insertionSort (· ≤ ·) _) (sesHeights_sorted.imp le_of_lt)

theorem subEpochDataUpTo_mainChain (htip : tipHeight<P.length) {data : List SubEpochData}
    (h : subEpochDataUpTo w.chain tipHeight (getSesHeights w.chain) = .ok data) :
    data=((P.take (tipHeight+1)).filterMap (summaryOf E w)).map createSubEpochData := by
  have hdata := subEpochDataUpTo_eq h
  rw [getSesHeights_mainChain hses,(sesHeights_upTo htip).1] at hdata
  have hsame : (sesHeights E w (P.take (tipHeight+1))).map (fun i =>
      (w.chain.subEpochSummaries.get? i).map createSubEpochData) =
      ((sesHeights E w (P.take (tipHeight+1))).map fun i =>
        ((P.take (tipHeight+1))[i]?).bind (summaryOf E w)).map (Option.map createSubEpochData) := by
    rw [List.map_map]
    apply List.map_congr_left
    intro i hi
    have hlt := List.mem_range.mp (List.mem_filter.mp hi).1
    rw [List.length_take] at hlt
    rw [hses,Function.comp_apply,List.getElem?_take_of_lt (by omega)]
  rw [hsame,sesHeights_summaries,List.map_map] at hdata
  apply List.map_injective_iff.mpr (Option.some_injective _)
  rw [hdata,List.map_map]
  rfl

theorem getSeedForProof_two (htip : tipHeight<P.length) {seed : Bytes32}
    (h : getSeedForProof E w.chain (getSesHeights w.chain) tipHeight = .ok seed) :
    2≤((P.take (tipHeight+1)).filterMap (summaryOf E w)).length := by
  obtain ⟨sesHeight,hlast,-⟩ := bind_ok.mp h
  have hget := assertSome_eq_ok.mp hlast
  rw [lastButOneSes,getSesHeights_mainChain hses,List.filter_reverse,(sesHeights_upTo htip).2] at hget
  have hlt := (List.getElem?_eq_some_iff.mp hget).1
  have hlength := congrArg List.length (sesHeights_summaries (E := E) (w := w) (Q := P.take (tipHeight+1)))
  rw [List.length_map,List.length_map] at hlength
  rw [List.length_reverse] at hlt
  omega

end MainChain

theorem Proves.last {wp : WeightProof} (h : Proves E w Q wp) {tip : Bytes32} (hpath : (w.forest E).Path tip Q)
    (hkeyed : (w.forest E).Keyed) : ∃ last,wp.recentChainData.getLast?=some last ∧ last.headerHash E=tip := by
  obtain ⟨m,hm,hall⟩ := h.recent
  obtain ⟨b,hb,hlast,-⟩ := hpath.last
  have hdrop : (Q.drop m).getLast?=some b := by rw [List.getLast?_drop,if_neg (by omega),hlast]
  rw [List.getLast?_eq_getElem?] at hdrop
  obtain ⟨header,hheader,hof⟩ := forall₂_getElem? hall hdrop
  rw [hall.length_eq,← List.getLast?_eq_getElem?] at hheader
  exact ⟨header,hheader,hof.fields.1.trans (hkeyed tip b hb)⟩

/-- Kept between requests: segments of the chains of their blocks, and a proof for the block that it ends in. -/
structure Seen (E : Env) (w : World) (n : ProofNode) : Prop where
  world : AtRest w n.world
  stored : ∀ hash segments,n.subEpochSegments.get? hash=some segments → SegmentsOf E w hash segments
  cached : ∀ hash segments,n.sesChallengeCache.cache.get? hash=some segments → SegmentsOf E w hash segments
  proof : ∀ wp,n.proof=some wp → ∃ last,wp.recentChainData.getLast?=some last ∧ ProofFor E w (last.headerHash E) wp

theorem inWorld_answers {α : Type} {m : NodeM α} {Q : α → Prop} (h : Answers (AtRest w) m Q) :
    Answers (Seen E w) (inWorld m) Q :=
  h.within (fun _ hn => hn.world) fun _ _ hn hv => ⟨hv,hn.stored,hn.cached,hn.proof⟩

theorem getSubEpochChallengeSegments_answers (hash : Bytes32) :
    Answers (Seen E w) (getSubEpochChallengeSegments hash) fun o => ∀ segments,o=some segments →
      SegmentsOf E w hash segments := by
  refine Answers.read fun n hn => ?_
  have hmoved : Answers (Seen E w)
      (Eff.modify fun n => { n with sesChallengeCache := (n.sesChallengeCache.get hash).2 } : ProofM Unit)
      fun _ => True := by
    refine Answers.modify fun n hn => ⟨hn.world,hn.stored,fun k segments hk => ?_,hn.proof⟩
    dsimp only at hk
    rw [LRUCache.get_snd_cache] at hk
    exact hn.cached k segments hk
  refine hmoved.bind fun _ _ => ?_
  rw [LRUCache.get_fst]
  cases hcached : n.sesChallengeCache.cache.get? hash with
  | some segments =>
    refine Answers.pure fun segments' hsame => ?_
    rw [← Option.some.inj hsame]
    exact hn.cached hash segments hcached
  | none =>
    cases hstored : n.subEpochSegments.get? hash with
    | none => exact Answers.pure fun _ hnone => by cases hnone
    | some segments =>
      have hof := hn.stored hash segments hstored
      have hput : Answers (Seen E w)
          (Eff.modify fun n => { n with sesChallengeCache := n.sesChallengeCache.put hash segments } : ProofM Unit)
          fun _ => True := by
        refine Answers.modify fun n hn => ⟨hn.world,hn.stored,fun k segments' hk => ?_,hn.proof⟩
        obtain ⟨rfl,rfl⟩ | ⟨-,hk⟩ := LRUCache.get?_put _ hk
        · exact hof
        · exact hn.cached k segments' hk
      refine hput.bind fun _ _ => Answers.pure fun segments' hsame => ?_
      rw [← Option.some.inj hsame]
      exact hof

def RecordAt (E : Env) (w : World) (P : List FullBlock) (i : ℕ) (r : BlockRecord) : Prop :=
  ∃ b,P[i]?=some b ∧ w.record? (b.headerHash E)=some r

theorem start_le_stop {subEpochN start stop : ℕ} (hstop : (sesHeights E w P)[subEpochN]?=some stop)
    (hstart : (0::sesHeights E w P)[subEpochN]?=some start) : start ≤ stop := by
  cases subEpochN with
  | zero =>
    obtain rfl := Option.some.inj hstart
    exact Nat.zero_le _
  | succ n =>
    rw [List.getElem?_cons_succ] at hstart
    obtain ⟨hi,rfl⟩ := List.getElem?_eq_some_iff.mp hstart
    obtain ⟨hj,rfl⟩ := List.getElem?_eq_some_iff.mp hstop
    exact (List.pairwise_iff_getElem.mp sesHeights_sorted n (n+1) hi hj (Nat.lt_succ_self n)).le

/-- The rest of the summaries with their blocks, and the block where the next sub-epoch starts. -/
structure AtSummary (E : Env) (w : World) (P : List FullBlock) (subEpochN : ℕ) (prevSesBlock : BlockRecord)
    (rest : List (ℕ × BlockRecord)) : Prop where
  start : ∃ start,(0::sesHeights E w P)[subEpochN]?=some start ∧ RecordAt E w P start prevSesBlock
  rest : ∀ j e,rest[j]?=some e → (sesHeights E w P)[subEpochN+j]?=some e.1 ∧ RecordAt E w P e.1 e.2

theorem AtSummary.next {subEpochN : ℕ} {prevSesBlock : BlockRecord} {e : ℕ × BlockRecord} {rest : List (ℕ × BlockRecord)}
    (h : AtSummary E w P subEpochN prevSesBlock (e::rest)) : AtSummary E w P (subEpochN+1) e.2 rest := by
  obtain ⟨hheight,hrecord⟩ := h.rest 0 e rfl
  refine ⟨⟨e.1,hheight,hrecord⟩,fun j e' he' => ?_⟩
  have hnext := h.rest (j+1) e' he'
  rwa [show subEpochN+1+j=subEpochN+(j+1) by omega]

theorem collectRecent_range {block : ℕ → Check (HeaderBlock × BlockRecord)} {currHeight sesCount : ℕ}
    {recentChain result : List HeaderBlock} (h : collectRecent block currHeight sesCount recentChain = .ok result) :
    ∃ m headers,m ≤ currHeight ∧ result=headers++recentChain ∧
      List.Forall₂ (fun k header => ∃ r,block k = .ok (header,r)) (List.range' m (currHeight+1-m)) headers := by
  induction currHeight generalizing sesCount recentChain with
  | zero =>
    obtain ⟨⟨header,r⟩,hblock,h⟩ := bind_ok.mp h
    exact ⟨0,[header],le_rfl,(Except.ok.inj h).symm,.cons ⟨r,hblock⟩ .nil⟩
  | succ currHeight ih =>
    rw [collectRecent] at h
    obtain ⟨⟨header,r⟩,hblock,h⟩ := bind_ok.mp h
    dsimp only at h
    by_cases hcount : sesCount ≥ 2
    · rw [if_pos hcount] at h
      refine ⟨currHeight+1,[header],le_rfl,(Except.ok.inj h).symm,?_⟩
      rw [Nat.add_sub_cancel_left]
      exact .cons ⟨r,hblock⟩ .nil
    · rw [if_neg hcount] at h
      obtain ⟨m,headers,hm,rfl,hall⟩ := ih h
      refine ⟨m,headers++[header],by omega,by simp,?_⟩
      rw [show currHeight+1+1-m=currHeight+1-m+1 by omega,List.range'_concat]
      refine List.rel_append hall (.cons ⟨r,?_⟩ .nil)
      rw [show m+1*(currHeight+1-m)=currHeight+1 by omega]
      exact hblock

section Requests
variable (hrest : Resting E w P)
include hrest

variable {i : ℕ}

variable {b : FullBlock}

theorem mainChain_index (hb : P[i]?=some b) : w.chain.heightToHash.get? i=some (b.headerHash E) := by
  obtain ⟨hlt,rfl⟩ := List.getElem?_eq_some_iff.mp hb
  exact hrest.main.index i hlt

theorem mainChain_path (hb : P[i]?=some b) : (w.forest E).Path (b.headerHash E) (P.take (i+1)) := by
  obtain ⟨hlt,rfl⟩ := List.getElem?_eq_some_iff.mp hb
  obtain ⟨k,hk⟩ := hrest.main.path (List.ne_nil_of_length_pos (by omega))
  exact hk.take hrest.indexed.keyed i hlt

theorem RecordAt.fields {r : BlockRecord} (h : RecordAt E w P i r) :
    ∃ b,P[i]?=some b ∧ r.headerHash=b.headerHash E ∧ r.height=i := by
  obtain ⟨b,hb,hr⟩ := h
  obtain ⟨r',hr',hrecord⟩ := hrest.indexed.record (hrest.stored (List.mem_of_getElem? hb))
  obtain rfl : r=r' := Option.some.inj (hr.symm.trans hrecord)
  obtain ⟨hlt,rfl⟩ := List.getElem?_eq_some_iff.mp hb
  obtain ⟨k,hk⟩ := hrest.main.path (List.ne_nil_of_length_pos (by omega))
  exact ⟨_,hb,hr'.headerHash,hr'.height.trans (hk.height_getElem i hlt)⟩

section SubEpoch
variable {subEpochN start stop : ℕ} {sesBlock seStart : BlockRecord}
  (hstop : (sesHeights E w P)[subEpochN]?=some stop) (hstart : (0::sesHeights E w P)[subEpochN]?=some start)
  (hses : RecordAt E w P stop sesBlock) (hse : RecordAt E w P start seStart)
include hstop hstart hses hse

theorem createSubEpochSegments_answers (hheights : HeightsStored w) :
    Answers (AtRest w) (createSubEpochSegments E sesBlock seStart subEpochN) fun segments =>
      ∀ seg∈segments,SegmentOf E w (P.take (stop+1)) seg := by
  obtain ⟨b,hb,-,hsesHeight⟩ := hses.fields hrest
  obtain ⟨a,ha,hstartHash,hstartHeight⟩ := hse.fields hrest
  have hle := start_le_stop hstop hstart
  have hlength : (P.take (stop+1)).length=stop+1 := by
    have hlt := (List.getElem?_eq_some_iff.mp hb).1
    rw [List.length_take]
    omega
  have hindex : ∀ i b,(P.take (stop+1))[i]?=some b → w.chain.heightToHash.get? i=some (b.headerHash E) := by
    intro i b hb
    have hlt := (List.getElem?_eq_some_iff.mp hb).1
    rw [List.getElem?_take_of_lt (by omega)] at hb
    exact mainChain_index hrest hb
  refine (segmentView_answers hrest.indexed hheights hindex).bind fun V hV => Answers.lift fun segments h => ?_
  obtain ⟨curr,hcurr,h⟩ := bind_ok.mp h
  have hat : V.headerAt start = .ok curr := by
    rw [SegmentView.headerAt,bind_of_ok (hV.1.heightToHash start a (by rw [List.getElem?_take_of_lt (by omega),ha])),
      ← hstartHash]
    exact hcurr
  rw [hsesHeight,hstartHeight] at h
  apply segmentsFrom_segmentOf hV.1 hV.2 (.take hstop hstart) _ hat le_rfl
  · rw [hlength,Nat.add_sub_cancel]
    exact h
  · exact fun b hb => hrest.stored (List.mem_of_mem_take hb)

theorem segmentsOfSubEpoch_answers (hheights : HeightsStored w) :
    Answers (Seen E w) (segmentsOfSubEpoch E sesBlock seStart subEpochN) fun segments =>
      ∀ seg∈segments,SegmentOf E w (P.take (stop+1)) seg := by
  obtain ⟨b,hb,hhash,-⟩ := hses.fields hrest
  have hpath := mainChain_path hrest hb
  rw [← hhash] at hpath
  refine (getSubEpochChallengeSegments_answers sesBlock.headerHash).bind fun o ho => ?_
  cases o with
  | some segments =>
    obtain ⟨Q,hQ,hall⟩ := ho segments rfl
    obtain rfl := hQ.unique hpath
    exact Answers.pure hall
  | none =>
    have hnew := createSubEpochSegments_answers hrest hstop hstart hses hse hheights
    refine (inWorld_answers hnew).bind fun segments hall => ?_
    have hput : Answers (Seen E w) (persistSubEpochChallengeSegments sesBlock.headerHash segments) fun _ => True := by
      refine Answers.modify fun n hn => ⟨hn.world,fun k segments' hk => ?_,hn.cached,hn.proof⟩
      dsimp only at hk
      rw [Dict.get?_set] at hk
      split_ifs at hk with hsame
      · obtain rfl := Option.some.inj hk
        rw [← hsame]
        exact ⟨_,hpath,hall⟩
      · exact hn.stored k segments' hk
    exact hput.bind fun _ _ => Answers.pure hall

end SubEpoch

theorem segmentsUpTo_answers (hheights : HeightsStored w) {subEpochN : ℕ} {weightToCheck : Option (List ℕ)} {sampleN : ℕ}
    {prevSesBlock : BlockRecord} {rest : List (ℕ × BlockRecord)} (h : AtSummary E w P subEpochN prevSesBlock rest) :
    Answers (Seen E w) (segmentsUpTo E tipHeight weightToCheck subEpochN sampleN prevSesBlock rest) fun o =>
      ∀ segments,o=some segments → ∀ seg∈segments,∃ Q,Q <+: P.take (tipHeight+1) ∧ SegmentOf E w Q seg := by
  induction rest generalizing subEpochN sampleN prevSesBlock with
  | nil =>
    refine Answers.pure fun segments hsame => ?_
    rw [← Option.some.inj hsame]
    simp
  | cons e rest ih =>
    obtain ⟨sesHeight,sesBlock⟩ := e
    rw [segmentsUpTo]
    by_cases hend : sesHeight > tipHeight ∨ sampleN ≥ MAX_SAMPLES
    · rw [if_pos hend]
      refine Answers.pure fun segments hsame => ?_
      rw [← Option.some.inj hsame]
      simp
    rw [if_neg hend]
    by_cases hnone : sesBlock.subEpochSummaryIncluded.isNone
    · rw [if_pos hnone]
      exact Answers.pure fun segments hsame => by cases hsame
    rw [if_neg hnone]
    refine (Answers.lift (Q := fun _ => True) fun _ _ => trivial).bind fun sampled _ => ?_
    by_cases hsampled : sampled=true
    · rw [if_pos hsampled]
      obtain ⟨start,hstart,hse⟩ := h.start
      obtain ⟨hstop,hses⟩ := h.rest 0 _ rfl
      have hsegments := segmentsOfSubEpoch_answers hrest hstop hstart hses hse hheights
      refine hsegments.bind fun segments hall => (ih h.next).bind fun o ho => Answers.pure fun segments' hsame => ?_
      obtain ⟨more,rfl,rfl⟩ := Option.map_eq_some_iff.mp hsame
      intro seg hseg
      obtain hseg | hseg := List.mem_append.mp hseg
      · exact ⟨_,List.take_prefix_take_left (by omega),hall seg hseg⟩
      · exact ho more rfl seg hseg
    · rw [if_neg hsampled]
      exact ih h.next

theorem recentChain_answers (htip : tipHeight<P.length) : Answers (AtRest w) (recentChain E tipHeight) fun recent =>
    ∃ m,m<(P.take (tipHeight+1)).length ∧ List.Forall₂ (HeaderOf E) ((P.take (tipHeight+1)).drop m) recent := by
  have hlength : (P.take (tipHeight+1)).length=tipHeight+1 := by rw [List.length_take]; omega
  refine Answers.read fun v hv => (getHeaderBlocksInRange_answers hrest.indexed).bind fun headers hheaders => ?_
  refine getBlockRecordsInRange_answers.bind fun blocks _ => Answers.lift fun recent h => ?_
  obtain ⟨m,found,hm,rfl,hall⟩ := collectRecent_range h
  have hcount := hall.length_eq
  rw [List.length_range'] at hcount
  refine ⟨m,by omega,?_⟩
  rw [List.append_nil]
  apply List.forall₂_iff_get.mpr
  refine ⟨by rw [List.length_drop,hlength,hcount],fun i hi hfound => ?_⟩
  obtain ⟨r,hblock⟩ := hall.get (by rw [List.length_range']; omega) hfound
  rw [List.get_eq_getElem,List.get_eq_getElem,List.getElem_range',Nat.one_mul] at hblock
  obtain ⟨hash,hhash,hblock⟩ := bind_ok.mp hblock
  obtain ⟨header,hheader,hblock⟩ := bind_ok.mp hblock
  obtain ⟨_,-,hsame⟩ := bind_ok.mp hblock
  rw [hv.chain] at hhash
  have hb : P[m+i]?=some P[m+i] := List.getElem?_eq_getElem (by omega)
  have hindexed := lookup_eq_ok.mp hhash
  obtain rfl := Option.some.inj ((mainChain_index hrest hb).symm.trans hindexed)
  obtain ⟨b,hstored,-,hof⟩ := hheaders _ _ (lookup_eq_ok.mp hheader)
  rw [hrest.stored (List.mem_of_getElem? hb)] at hstored
  obtain rfl := Option.some.inj hstored
  rw [List.get_eq_getElem,List.get_eq_getElem,List.getElem_drop,List.getElem_take,
    ← (Prod.mk.inj (Except.ok.inj hsame)).1]
  exact hof

variable {weightProofRecentBlocks : ℕ} {getWeightsForSampling : WeightsForSampling} {tip : Bytes32} {tipRec : BlockRecord}
  (hses : SummariesOf E w P) (hheights : HeightsStored w) (hknown : w.chain.blockRecords.get? tip=some tipRec)
  (htip : tipRec.height<P.length)
include hses hheights hknown htip

theorem createProofOfWeight_answers : Answers (Seen E w) (createProofOfWeight E getWeightsForSampling tip) fun o =>
    ∀ wp,o=some wp → Proves E w (P.take (tipRec.height+1)) wp := by
  refine Answers.read fun n hn => ?_
  have hsame : n.world.chain.view.tryBlockRecord tip=some tipRec := by
    rw [hn.world.chain]
    exact hknown
  rw [hsame]
  dsimp only
  refine (inWorld_answers (recentChain_answers hrest htip)).bind fun recent hrecent => ?_
  have hgenesis : Answers (AtRest w) (do getBlockRecordFromDb (← heightToHash 0)) fun o =>
      ∀ r,o=some r → RecordAt E w P 0 r := by
    refine (heightToHash_answers 0).bind fun hash hhash => ?_
    refine (getBlockRecordFromDb_answers hrest.indexed hash).mono fun o ho r hr => ?_
    have hb : P[0]?=some P[0] := List.getElem?_eq_getElem (by omega)
    obtain rfl := Option.some.inj ((mainChain_index hrest hb).symm.trans hhash)
    exact ⟨_,hb,ho r hr⟩
  refine (inWorld_answers hgenesis).bind fun o ho => ?_
  cases o with
  | none => exact Answers.pure fun wp hwp => by cases hwp
  | some prevSesBlock =>
    dsimp only
    rw [hn.world.chain]
    refine (Answers.lift fun data hdata => subEpochDataUpTo_mainChain hses htip hdata).bind fun data hdata => ?_
    refine (Answers.lift fun seed hseed => getSeedForProof_two hses htip hseed).bind fun seed htwo => ?_
    refine (Answers.lift (Q := fun _ => True) fun _ _ => trivial).bind fun weightToCheck _ => ?_
    refine (inWorld_answers (getBlockRecordsAt_answers hrest.indexed _)).bind fun sesBlocks hsesBlocks => ?_
    rw [getSesHeights_mainChain hses] at hsesBlocks ⊢
    have hat : AtSummary E w P 0 prevSesBlock ((sesHeights E w P).zip sesBlocks) := by
      refine ⟨⟨0,rfl,ho prevSesBlock rfl⟩,fun j e he => ?_⟩
      obtain ⟨hashes,hhashes,hrecords⟩ := hsesBlocks
      obtain ⟨hheight,hrecord⟩ := List.getElem?_zip_eq_some.mp he
      obtain ⟨hash,hhash,hindexed⟩ := forall₂_getElem? hhashes hheight
      obtain ⟨r,hr,hstored⟩ := forall₂_getElem? hrecords hhash
      obtain rfl := Option.some.inj (hrecord.symm.trans hr)
      have hlt := List.mem_range.mp (List.mem_filter.mp (List.mem_of_getElem? hheight)).1
      have hb : P[e.1]?=some P[e.1] := List.getElem?_eq_getElem hlt
      obtain rfl := Option.some.inj ((mainChain_index hrest hb).symm.trans hindexed)
      rw [Nat.zero_add]
      exact ⟨hheight,_,hb,hstored⟩
    refine (segmentsUpTo_answers hrest hheights hat).bind fun o hsegments => ?_
    cases o with
    | none => exact Answers.pure fun wp hwp => by cases hwp
    | some segments =>
      refine Answers.pure fun wp hwp => ?_
      obtain rfl := Option.some.inj hwp
      refine ⟨hrecent,hdata,?_,hsegments segments rfl⟩
      rw [hdata,List.length_map]
      exact htwo

theorem getProofOfWeight_answers :
    Answers (Seen E w) (getProofOfWeight E weightProofRecentBlocks getWeightsForSampling tip) fun o => ∀ wp,o=some wp →
      ∃ last,wp.recentChainData.getLast?=some last ∧ ProofFor E w (last.headerHash E) wp ∧
        (last.headerHash E=tip ∨ w.chain.heightToHash.get? tipRec.height=some (last.headerHash E)) := by
  refine Answers.read fun n hn => ?_
  have hsame : n.world.chain.view.tryBlockRecord tip=some tipRec := by
    rw [hn.world.chain]
    exact hknown
  rw [hsame]
  dsimp only
  split_ifs
  · exact Answers.pure fun wp hwp => by cases hwp
  have hkept : Answers (Seen E w) (Eff.lift (keptProof E tip n.proof)) fun o => ∀ wp,o=some wp →
      ∃ last,wp.recentChainData.getLast?=some last ∧ ProofFor E w (last.headerHash E) wp ∧ last.headerHash E=tip := by
    refine Answers.lift fun o ho wp hwp => ?_
    cases hproof : n.proof with
    | none =>
      rw [hproof] at ho
      rw [← Except.ok.inj ho] at hwp
      cases hwp
    | some kept =>
      rw [hproof] at ho
      obtain ⟨last,hlast,ho⟩ := bind_ok.mp ho
      rw [← Except.ok.inj ho] at hwp
      split_ifs at hwp with hends
      obtain rfl := Option.some.inj hwp
      obtain ⟨last',hlast',hfor⟩ := hn.proof kept hproof
      rw [index_eq_ok] at hlast
      obtain rfl := Option.some.inj (hlast.symm.trans hlast')
      exact ⟨last,hlast,hfor,hends⟩
  refine hkept.bind fun o ho => ?_
  cases o with
  | some wp =>
    refine Answers.pure fun wp' hwp => ?_
    obtain rfl := Option.some.inj hwp
    obtain ⟨last,hlast,hfor,hends⟩ := ho wp rfl
    exact ⟨last,hlast,hfor,Or.inl hends⟩
  | none =>
    refine (createProofOfWeight_answers hrest hses hheights hknown htip).bind fun o ho => ?_
    cases o with
    | none => exact Answers.pure fun wp hwp => by cases hwp
    | some wp =>
      have hb : P[tipRec.height]?=some P[tipRec.height] := List.getElem?_eq_getElem htip
      have hproves := ho wp rfl
      have hfor := (⟨_,mainChain_path hrest hb,hproves⟩ : ProofFor E w (P[tipRec.height].headerHash E) wp)
      obtain ⟨last,hlast,hends⟩ := hproves.last (mainChain_path hrest hb) hrest.indexed.keyed
      rw [← hends] at hfor
      have hput : Answers (Seen E w)
          (Eff.modify fun n => { n with proof := some wp,tip := some tip } : ProofM Unit) fun _ => True := by
        refine Answers.modify fun n hn => ⟨hn.world,hn.stored,hn.cached,fun wp' hwp => ?_⟩
        obtain rfl := Option.some.inj hwp
        exact ⟨last,hlast,hfor⟩
      refine hput.bind fun _ _ => Answers.pure fun wp' hwp => ?_
      obtain rfl := Option.some.inj hwp
      refine ⟨last,hlast,hfor,Or.inr ?_⟩
      rw [hends]
      exact mainChain_index hrest hb

end Requests

end WeightProof
end RoseChain
