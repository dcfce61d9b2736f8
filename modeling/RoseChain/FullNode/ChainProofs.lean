import RoseChain.FullNode.ProofOfWeight

namespace RoseChain
open Lib Blockchain
variable {E : Env} {w s : World} {P Q R : List FullBlock} {b : FullBlock} {header : HeaderBlock}

def HeaderOf (E : Env) (b : FullBlock) (header : HeaderBlock) : Prop := getBlockHeader E b [] [] = .ok header

theorem HeaderOf.fields (h : HeaderOf E b header) :
    header.headerHash E=b.headerHash E ∧ header.height=b.height ∧ header.prevHeaderHash=b.prevHeaderHash := by
  obtain ⟨rewards,-,h⟩ := bind_ok.mp h
  obtain rfl := Except.ok.inj h
  exact ⟨rfl,rfl,rfl⟩

/-- The stored blocks and records of one state are those of another. -/
structure World.Grown (w s : World) : Prop where
  block : ∀ h b,w.block? h=some b → s.block? h=some b
  record : ∀ h r,w.record? h=some r → s.record? h=some r

theorem World.Grown.of_db (hs : s.db=w.db) : w.Grown s := by
  constructor
  · unfold World.block?
    rw [hs]
    exact fun _ _ h => h
  · unfold World.record?
    rw [hs]
    exact fun _ _ h => h

variable {k : Bytes32}

theorem World.Grown.path (hg : w.Grown s) (h : (w.forest E).Path k P) : (s.forest E).Path k P :=
  h.mono hg.block rfl rfl

def HasRecords (E : Env) (w : World) (P : List FullBlock) : Prop := ∀ b∈P,(w.record? (b.headerHash E)).isSome

theorem Indexed.hasRecords (hi : Indexed E w) (h : (w.forest E).Path k P) : HasRecords E w P := by
  intro b hb
  obtain ⟨r,-,hr⟩ := hi.record (h.find_mem hi.keyed hb)
  exact Option.isSome_of_eq_some hr

theorem HasRecords.summaryOf (hr : HasRecords E w P) (hg : w.Grown s) (hb : b∈P) : summaryOf E s b=summaryOf E w b := by
  obtain ⟨r,hr⟩ := Option.isSome_iff_exists.mp (hr b hb)
  rw [RoseChain.summaryOf,RoseChain.summaryOf,hr,hg.record _ _ hr]

namespace WeightProof

/-- The block at a height of a chain includes a summary. -/
def hasSummaryAt (E : Env) (w : World) (P : List FullBlock) (i : ℕ) : Bool := ((P[i]?).bind (summaryOf E w)).isSome

def sesHeights (E : Env) (w : World) (P : List FullBlock) : List ℕ :=
  (List.range P.length).filter (hasSummaryAt E w P)

theorem mem_sesHeights {i : ℕ} : i∈sesHeights E w P ↔ hasSummaryAt E w P i := by
  rw [sesHeights,List.mem_filter,List.mem_range,and_iff_right_iff_imp]
  intro h
  by_contra hi
  rw [hasSummaryAt,List.getElem?_eq_none (by omega)] at h
  cases h

theorem sesHeights_sorted : (sesHeights E w P).Pairwise (· < ·) := List.pairwise_lt_range.filter _

theorem sesHeights_append : ∃ more,sesHeights E w (Q++R)=sesHeights E w Q++more ∧ ∀ i∈more,Q.length ≤ i := by
  refine ⟨((List.range R.length).map (Q.length + ·)).filter (hasSummaryAt E w (Q++R)),?_,?_⟩
  · rw [sesHeights,List.length_append,List.range_add,List.filter_append,sesHeights]
    congr 1
    apply List.filter_congr
    intro i hi
    rw [hasSummaryAt,hasSummaryAt,List.getElem?_append_left (List.mem_range.mp hi)]
  · intro i hi
    obtain ⟨j,-,rfl⟩ := List.mem_map.mp (List.mem_filter.mp hi).1
    exact Nat.le_add_right _ _

theorem HasRecords.sesHeights (hr : HasRecords E w P) (hg : w.Grown s) : sesHeights E s P=sesHeights E w P := by
  apply List.filter_congr
  intro i hi
  rw [hasSummaryAt,hasSummaryAt,List.getElem?_eq_getElem (List.mem_range.mp hi),Option.bind_some,Option.bind_some,
    hr.summaryOf hg (List.getElem_mem _)]

/-- A chain whose last block includes the summary with a number, and where its sub-epoch starts. -/
structure EndsSubEpoch (E : Env) (w : World) (Q : List FullBlock) (subEpochN start : ℕ) : Prop where
  nonempty : Q≠[]
  stop : (sesHeights E w Q)[subEpochN]?=some (Q.length-1)
  start : (0::sesHeights E w Q)[subEpochN]?=some start

theorem EndsSubEpoch.take {subEpochN start stop : ℕ} (hstop : (sesHeights E w P)[subEpochN]?=some stop)
    (hstart : (0::sesHeights E w P)[subEpochN]?=some start) :
    EndsSubEpoch E w (P.take (stop+1)) subEpochN start := by
  have hmem := mem_sesHeights.mp (List.mem_of_getElem? hstop)
  have hlt : stop<P.length := by
    by_contra hge
    rw [hasSummaryAt,List.getElem?_eq_none (by omega)] at hmem
    cases hmem
  have hlength : (P.take (stop+1)).length=stop+1 := by rw [List.length_take]; omega
  obtain ⟨more,hmore,hhigh⟩ := sesHeights_append (E := E) (w := w) (Q := P.take (stop+1)) (R := P.drop (stop+1))
  rw [List.take_append_drop] at hmore
  -- the height is not among the higher ones
  have hin : subEpochN<(sesHeights E w (P.take (stop+1))).length := by
    by_contra hout
    rw [hmore,List.getElem?_append_right (by omega)] at hstop
    have := hhigh stop (List.mem_of_getElem? hstop)
    omega
  refine ⟨?_,?_,?_⟩
  · apply List.ne_nil_of_length_pos
    omega
  · rw [hmore,List.getElem?_append_left hin] at hstop
    rw [hstop,hlength,Nat.add_sub_cancel]
  · rw [hmore,← List.cons_append,List.getElem?_append_left (by rw [List.length_cons]; omega)] at hstart
    exact hstart

/-- What segments are made from: stored headers and records, and the hashes of a chain at its heights. -/
structure ViewOf (E : Env) (w : World) (Q : List FullBlock) (V : SegmentView) : Prop where
  heightToHash : ∀ i b,Q[i]?=some b → V.heightToHash i = .ok (b.headerHash E)
  headerBlocks : ∀ h header,V.headerBlocks.get? h=some header →
    ∃ b,w.block? h=some b ∧ b.headerHash E=h ∧ HeaderOf E b header
  blocks : ∀ h r,V.blocks.get? h=some r → w.record? h=some r

/-- A segment of the sub-epoch at the end of a chain, made for one of its challenge blocks. -/
structure SegmentOf (E : Env) (w : World) (Q : List FullBlock) (seg : SubEpochChallengeSegment) : Prop where
  made : ∃ V start height b header record first endHeight,ViewOf E w Q V ∧ EndsSubEpoch E w Q seg.subEpochN start ∧
    start≤height ∧ height<Q.length-1 ∧ Q[height]?=some b ∧ HeaderOf E b header ∧
    w.record? (b.headerHash E)=some record ∧ record.isChallengeBlock E.constants ∧
    createChallengeSegment E V header seg.subEpochN first = .ok (seg,endHeight)

/-- The segments kept for a summary block are those of its own chain. -/
def SegmentsOf (E : Env) (w : World) (sesBlockHash : Bytes32) (segments : List SubEpochChallengeSegment) : Prop :=
  ∃ Q,(w.forest E).Path sesBlockHash Q ∧ ∀ seg∈segments,SegmentOf E w Q seg

/-- A weight proof for a chain. -/
structure Proves (E : Env) (w : World) (P : List FullBlock) (wp : WeightProof) : Prop where
  recent : ∃ m,m<P.length ∧ List.Forall₂ (HeaderOf E) (P.drop m) wp.recentChainData
  subEpochs : wp.subEpochs=(P.filterMap (summaryOf E w)).map createSubEpochData
  twoSummaries : 2≤wp.subEpochs.length
  segments : ∀ seg∈wp.subEpochSegments,∃ Q,Q <+: P ∧ SegmentOf E w Q seg

/-- A weight proof for a tip: for the chain of the tip and its ancestors. -/
def ProofFor (E : Env) (w : World) (tip : Bytes32) (wp : WeightProof) : Prop :=
  ∃ P,(w.forest E).Path tip P ∧ Proves E w P wp

section Grown
variable (hg : w.Grown s)
include hg

theorem ViewOf.grown {V : SegmentView} (h : ViewOf E w Q V) : ViewOf E s Q V where
  heightToHash := h.heightToHash
  headerBlocks k header hk := by
    obtain ⟨b,hb,hhash,hheader⟩ := h.headerBlocks k header hk
    exact ⟨b,hg.block k b hb,hhash,hheader⟩
  blocks k r hk := hg.record k r (h.blocks k r hk)

theorem EndsSubEpoch.grown {subEpochN start : ℕ} (hr : HasRecords E w Q) (h : EndsSubEpoch E w Q subEpochN start) :
    EndsSubEpoch E s Q subEpochN start := by
  have hsame := HasRecords.sesHeights hr hg
  refine ⟨h.nonempty,?_,?_⟩
  · rw [hsame]
    exact h.stop
  · rw [hsame]
    exact h.start

theorem SegmentOf.grown {seg : SubEpochChallengeSegment} (hr : HasRecords E w Q) (h : SegmentOf E w Q seg) :
    SegmentOf E s Q seg := by
  obtain ⟨V,start,height,b,header,record,first,endHeight,hV,hends,hle,hlt,hb,hheader,hrecord,hch,hseg⟩ :=
    h.made
  exact ⟨V,start,height,b,header,record,first,endHeight,hV.grown hg,hends.grown hg hr,hle,hlt,hb,hheader,
    hg.record _ _ hrecord,hch,hseg⟩

theorem SegmentsOf.grown (hi : Indexed E w) {hash : Bytes32} {segments : List SubEpochChallengeSegment}
    (h : SegmentsOf E w hash segments) : SegmentsOf E s hash segments := by
  obtain ⟨Q,hQ,hall⟩ := h
  exact ⟨Q,hg.path hQ,fun seg hseg => (hall seg hseg).grown hg (hi.hasRecords hQ)⟩

theorem ProofFor.grown (hi : Indexed E w) {tip : Bytes32} {wp : WeightProof} (h : ProofFor E w tip wp) :
    ProofFor E s tip wp := by
  obtain ⟨P,hP,h⟩ := h
  have hr := hi.hasRecords hP
  refine ⟨P,hg.path hP,h.recent,?_,h.twoSummaries,?_⟩
  · rw [h.subEpochs]
    congr 1
    apply List.filterMap_congr
    intro b hb
    rw [hr.summaryOf hg hb]
  · intro seg hseg
    obtain ⟨Q,hQ,hof⟩ := h.segments seg hseg
    exact ⟨Q,hQ,hof.grown hg fun b hb => hr b (hQ.subset hb)⟩

end Grown

section Made
variable {V : SegmentView} {seg : SubEpochChallengeSegment} {subEpochN start : ℕ} {first : Bool}

def Ordered (V : SegmentView) : Prop := ∀ i header,V.headerAt i = .ok header → header.height=i

variable {n endHeight : ℕ}

theorem slotEndFrom_height (hV : Ordered V) {subSlotsData tmpSubSlotsData slots : List SubSlotData}
    (h : slotEndFrom E V n header subSlotsData tmpSubSlotsData = .ok (slots,endHeight)) : header.height≤endHeight := by
  induction n generalizing header subSlotsData tmpSubSlotsData with
  | zero => cases h
  | succ n ih =>
    rw [slotEndFrom] at h
    obtain ⟨record,-,h⟩ := bind_ok.mp h
    split_ifs at h with hchallenge
    · exact le_of_eq (Prod.mk.inj (Except.ok.inj h)).2
    all_goals
      obtain ⟨ended,-,h⟩ := bind_ok.mp h
      obtain ⟨ssd,-,h⟩ := bind_ok.mp h
      obtain ⟨height,hheight,h⟩ := bind_ok.mp h
      obtain ⟨next,hnext,h⟩ := bind_ok.mp h
      have hle := ih h
      rw [hV height next hnext] at hle
      have := (uint_eq_ok.mp hheight).1
      omega

theorem createChallengeSegment_ok (hV : Ordered V)
    (h : createChallengeSegment E V header subEpochN first = .ok (seg,endHeight)) :
    seg.subEpochN=subEpochN ∧ header.height<endHeight := by
  obtain ⟨⟨firstSubSlots,rc⟩,-,h⟩ := bind_ok.mp h
  obtain ⟨record,-,h⟩ := bind_ok.mp h
  obtain ⟨ssd,-,h⟩ := bind_ok.mp h
  obtain ⟨height,hheight,h⟩ := bind_ok.mp h
  obtain ⟨⟨slots,endHeight'⟩,hend,h⟩ := bind_ok.mp h
  obtain ⟨rfl,rfl⟩ := Prod.mk.inj (Except.ok.inj h)
  obtain ⟨next,hnext,hend⟩ := bind_ok.mp hend
  have hle := slotEndFrom_height hV hend
  rw [hV height next hnext] at hle
  have := (uint_eq_ok.mp hheight).1
  exact ⟨rfl,by omega⟩

variable {height : ℕ}

theorem ViewOf.headerAt (hV : ViewOf E w Q V) (hstored : ∀ b∈Q,w.block? (b.headerHash E)=some b)
    (hb : Q[height]?=some b) (h : V.headerAt height = .ok header) : HeaderOf E b header := by
  rw [SegmentView.headerAt,bind_of_ok (hV.heightToHash height b hb)] at h
  obtain ⟨b',hb',-,hheader⟩ := hV.headerBlocks _ _ (lookup_eq_ok.mp h)
  rw [hstored b (List.mem_of_getElem? hb)] at hb'
  rwa [Option.some.inj hb']

theorem segmentsFrom_segmentOf (hV : ViewOf E w Q V) (hordered : Ordered V) (hends : EndsSubEpoch E w Q subEpochN start)
    (hstored : ∀ b∈Q,w.block? (b.headerHash E)=some b) {segments : List SubEpochChallengeSegment}
    (hcurr : V.headerAt height = .ok header) (hle : start≤height)
    (h : segmentsFrom E V (Q.length-1) subEpochN n header height first = .ok segments) :
    ∀ seg∈segments,SegmentOf E w Q seg := by
  induction n generalizing header height first segments with
  | zero => cases h
  | succ n ih =>
    rw [segmentsFrom,hordered height header hcurr] at h
    by_cases hlow : height<Q.length-1
    · have hb : Q[height]?=some Q[height] := List.getElem?_eq_getElem (by omega)
      have hheader := hV.headerAt hstored hb hcurr
      rw [if_pos hlow] at h
      obtain ⟨record,hrecord,h⟩ := bind_ok.mp h
      by_cases hchallenge : record.isChallengeBlock E.constants=true
      · rw [if_pos hchallenge] at h
        obtain ⟨⟨seg,endHeight⟩,hseg,h⟩ := bind_ok.mp h
        obtain ⟨next,hnext,h⟩ := bind_ok.mp h
        obtain ⟨more,hmore,h⟩ := bind_ok.mp h
        obtain rfl := Except.ok.inj h
        obtain ⟨rfl,hend⟩ := createChallengeSegment_ok hordered hseg
        rw [hordered height header hcurr] at hend
        have hstoredRecord := hV.blocks _ _ (lookup_eq_ok.mp hrecord)
        rw [hheader.fields.1] at hstoredRecord
        have hof : SegmentOf E w Q seg := ⟨V,start,height,_,header,record,first,endHeight,hV,hends,hle,hlow,
          hb,hheader,hstoredRecord,hchallenge,hseg⟩
        exact List.forall_mem_cons.mpr ⟨hof,ih hnext (by omega) hmore⟩
      · rw [if_neg hchallenge] at h
        obtain ⟨next,hnext,h⟩ := bind_ok.mp h
        exact ih hnext (by omega) h
    · rw [if_neg hlow] at h
      obtain rfl := Except.ok.inj h
      simp

end Made

end WeightProof
end RoseChain
