import RoseChain.Consensus.ForkChoice

namespace RoseChain
open Lib Blockchain
variable {E : Env} {w s : World} {P Q : List FullBlock} {b : FullBlock} {r : BlockRecord}
  {pre : Option PreValidationResult} {forkPointWithPeak : Option ℕ}

def summaryOf (E : Env) (w : World) (b : FullBlock) : Option SubEpochSummary :=
  (w.record? (b.headerHash E)).bind (·.subEpochSummaryIncluded)

/-- The row of the last block of a path is marked as the peak, and no other row is. -/
def PeakMarked (E : Env) (w : World) (P : List FullBlock) : Prop :=
  ∀ h row,w.db.blockRecords.get? h=some row →
    (row.isPeak=true ↔ ∃ p,P.getLast?=some p ∧ p.headerHash E=h)

/-- The index holds the main chain and nothing else, and only the row of its last block is marked. -/
structure Durable (E : Env) (w : World) (P : List FullBlock) : Prop where
  heightToHash : ∀ i,w.chain.heightToHash.get? i=(P[i]?).map (·.headerHash E)
  summaries : ∀ i,w.chain.subEpochSummaries.get? i=(P[i]?).bind (summaryOf E w)
  peakRow : PeakMarked E w P

/-- What is loaded from the block store is the path that is given. -/
structure Rebuilt (E : Env) (w : World) (P : List FullBlock) (c : Chain) : Prop where
  load : loadChainFromStore E w.db = .ok c
  heightToHash : ∀ i,c.heightToHash.get? i=(P[i]?).map (·.headerHash E)
  summaries : ∀ i,c.subEpochSummaries.get? i=(P[i]?).bind (summaryOf E w)
  peakHeight : c.peakHeight=w.chain.peakHeight

/-- What the block store would give is what is in memory. -/
structure Reloads (E : Env) (w : World) (c : Chain) : Prop where
  load : loadChainFromStore E w.db = .ok c
  heightToHash : ∀ i,c.heightToHash.get? i=w.chain.heightToHash.get? i
  summaries : ∀ i,c.subEpochSummaries.get? i=w.chain.subEpochSummaries.get? i
  peakHeight : c.peakHeight=w.chain.peakHeight

theorem Indexed.rowOf (hi : Indexed E w) {k : Bytes32} (hb : w.block? k=some b) :
    ∃ row,w.db.blockRecords.get? k=some row ∧ row.prevHash=b.prevHeaderHash ∧ row.height=b.height ∧
      row.subEpochSummary=summaryOf E w b ∧ row.block.headerHash=k ∧ row.block.height=b.height := by
  obtain ⟨r,isPeak,hr,hrow⟩ := hi.row k b hb
  have hkey := hi.key k b hb
  refine ⟨_,hrow,rfl,rfl,?_,?_,hr.height⟩
  · unfold summaryOf World.record?
    rw [hkey,hrow]
    rfl
  · exact hr.headerHash.trans hkey

/-- What the walk back from the end of a path fills in. -/
structure Filled (E : Env) (w : World) (l : List FullBlock) (H H' : Dict ℕ Bytes32)
    (S S' : Dict ℕ SubEpochSummary) : Prop where
  hashes : ∀ i,H'.get? i=((l[i]?).map (·.headerHash E)).or (H.get? i)
  size : H'.size=H.size+l.length
  summaries : ∀ i,S'.get? i=((l[i]?).bind (summaryOf E w)).or (S.get? i)

theorem heightDicts_succ {t : Tables} {k : Bytes32} {row : BlockRecordRow} (hrow : t.blockRecords.get? k=some row)
    (n h : ℕ) (H : Dict ℕ Bytes32) (S : Dict ℕ SubEpochSummary) : BlockStore.heightDicts t (n+1) k h (H,S) =
      if h=0 then .ok (H.set h k,row.subEpochSummary.elim S (S.set h))
      else lookup (t.blockRecords.get? row.prevHash) >>= fun prev =>
        BlockStore.heightDicts t n row.prevHash prev.height
          (H.set h k,row.subEpochSummary.elim S (S.set h)) := by
  rw [BlockStore.heightDicts,hrow,Option.bind_some]
  cases row.subEpochSummary with
  | none => rfl
  | some ses => rfl

theorem heightDicts_run (hi : Indexed E w) {k : Bytes32} {l : List FullBlock} (hp : (w.forest E).Path k l)
    {n : ℕ} (hn : l.length≤n) (H : Dict ℕ Bytes32) (S : Dict ℕ SubEpochSummary)
    (hH : ∀ i<l.length,H.get? i=none) :
    ∃ H' S',BlockStore.heightDicts w.db n k (l.length-1) (H,S) = .ok (H',S') ∧ Filled E w l H H' S S' := by
  induction l using List.reverseRecOn generalizing k n H S with
  | nil => exact absurd hp.length_pos (by simp)
  | append_singleton l v ih =>
    obtain ⟨v',m,hv,hlist,htop⟩ := Forest.path_iff.mp hp
    obtain ⟨rfl,hvv⟩ := List.append_inj' hlist rfl
    obtain rfl : v=v' := by simpa using hvv
    obtain ⟨row,hrow,hprev,hheight,hses,-,-⟩ := hi.rowOf hv
    have hlen : (l++[v]).length-1=l.length := by simp
    rw [List.length_append,List.length_singleton] at hn
    obtain ⟨n,rfl⟩ : ∃ m,n=m+1 := Nat.exists_eq_succ_of_ne_zero (by omega)
    rw [hlen]
    rw [heightDicts_succ hrow,hses]
    obtain ⟨S₁,hS₁⟩ : ∃ S₁,S₁=(summaryOf E w v).elim S (S.set l.length) := ⟨_,rfl⟩
    rw [← hS₁]
    have hkey := hi.key k v hv
    have hS₁get (i : ℕ) : S₁.get? i=if i=l.length then (summaryOf E w v).or (S.get? i) else S.get? i := by
      rw [hS₁]
      cases summaryOf E w v with
      | none => simp
      | some ses => simp only [Option.elim_some,Dict.get?_set,Option.some_or,eq_comm]
    have hfilled {H₂ : Dict ℕ Bytes32} {S₂ : Dict ℕ SubEpochSummary}
        (h : Filled E w l (H.set l.length k) H₂ S₁ S₂) : Filled E w (l++[v]) H H₂ S S₂ := by
      refine ⟨?_,?_,?_⟩
      · intro i
        rw [h.hashes,Dict.get?_set]
        obtain hlt | rfl | hgt := Nat.lt_trichotomy i l.length
        · rw [List.getElem?_append_left hlt,if_neg (by omega)]
        · simp [hkey]
        · rw [if_neg (by omega),List.getElem?_eq_none (by omega),List.getElem?_eq_none (by simp; omega)]
      · rw [h.size,Dict.size_set_of_not_mem _ _ (hH _ (by simp)),List.length_append,List.length_singleton]
        omega
      · intro i
        rw [h.summaries,hS₁get]
        obtain hlt | rfl | hgt := Nat.lt_trichotomy i l.length
        · rw [List.getElem?_append_left hlt,if_neg (by omega)]
        · simp
        · rw [if_neg (by omega),List.getElem?_eq_none (by omega),List.getElem?_eq_none (by simp; omega)]
    by_cases hz : l.length=0
    · have hl : l=[] := List.eq_nil_of_length_eq_zero hz
      have hbase : Filled E w l (H.set l.length k) (H.set l.length k) S₁ S₁ := by
        rw [hl]
        exact ⟨by simp,by simp,by simp⟩
      exact ⟨_,_,if_pos hz,hfilled hbase⟩
    · have hheight' : v.height=l.length := htop.1
      have hpath : (w.forest E).Path v.prevHeaderHash l := htop.path (by rw [worldForest_height]; omega)
      obtain ⟨u,hu,hlast,hlu⟩ := hpath.last
      obtain ⟨prow,hprow,-,hpheight,-⟩ := hi.rowOf hu
      have hH' : ∀ i<l.length,(H.set l.length k).get? i=none := by
        intro i hi
        rw [Dict.get?_set,if_neg (by omega)]
        exact hH i (by simp; omega)
      obtain ⟨H₂,S₂,hrun,hf⟩ := ih hpath (n := n) (by omega) (H.set l.length k) S₁ hH'
      refine ⟨H₂,S₂,?_,hfilled hf⟩
      rw [if_neg hz]
      have hup : u.height=l.length-1 := by
        rw [worldForest_height] at hlu
        omega
      rw [← hup] at hrun
      rw [hprev,hprow]
      simp only [lookup,bind,Except.bind,hpheight]
      exact hrun

theorem foldl_addBlockRecord (L : List (Bytes32 × BlockRecord)) (c : Chain) :
    (L.foldl (fun c e => addBlockRecord e.2 c) c).heightToHash=c.heightToHash ∧
      (L.foldl (fun c e => addBlockRecord e.2 c) c).subEpochSummaries=c.subEpochSummaries ∧
      (L.foldl (fun c e => addBlockRecord e.2 c) c).peakHeight=c.peakHeight := by
  induction L generalizing c with
  | nil => exact ⟨rfl,rfl,rfl⟩
  | cons e L ih => exact ih (addBlockRecord e.2 c)

theorem foldl_addBlockRecord_get {L : List (Bytes32 × BlockRecord)} (c : Chain) {r : BlockRecord}
    (hall : ∀ e∈L,e.2.headerHash=r.headerHash → e.2=r)
    (hr : (∃ e∈L,e.2=r) ∨ c.blockRecords.get? r.headerHash=some r) :
    (L.foldl (fun c e => addBlockRecord e.2 c) c).blockRecords.get? r.headerHash=some r := by
  induction L generalizing c with
  | nil =>
    obtain ⟨e,he,_⟩ | hr := hr
    · cases he
    · exact hr
  | cons e L ih =>
    apply ih _ fun e' he' => hall e' (List.mem_cons_of_mem _ he')
    by_cases hin : ∃ e'∈L,e'.2=r
    · exact Or.inl hin
    · right
      change (c.blockRecords.set e.2.headerHash e.2).get? r.headerHash=some r
      rw [Dict.get?_set]
      split_ifs with hk
      · rw [hall e (by simp) hk]
      · obtain ⟨e',he',hr'⟩ | hr := hr
        · obtain rfl | he' := List.mem_cons.mp he'
          · rw [hr'] at hk
            exact absurd rfl hk
          · exact absurd ⟨e',he',hr'⟩ hin
        · exact hr

theorem PeakMarked.peakRow_eq (he : PeakMarked E w P) (hi : Indexed E w) {p : FullBlock} (hp : P.getLast?=some p)
    (hstored : w.block? (p.headerHash E)=some p) : ∃ row,BlockStore.peakRow w.db=some (p.headerHash E,row) ∧
      w.db.blockRecords.get? (p.headerHash E)=some row := by
  obtain ⟨row,hrow,_⟩ := hi.rowOf hstored
  have hmark : row.isPeak=true := (he _ row hrow).mpr ⟨p,hp,rfl⟩
  unfold BlockStore.peakRow
  have hmem := (Dict.mem_entries _ _ _).mpr hrow
  cases hfind : w.db.blockRecords.entries.find? (fun e => e.2.isPeak) with
  | none => exact absurd hmark (by simpa using List.find?_eq_none.mp hfind _ hmem)
  | some e =>
    obtain ⟨h',row'⟩ := e
    have hmark' : row'.isPeak=true := by simpa using List.find?_some hfind
    have hrow' := (Dict.mem_entries _ _ _).mp (List.mem_of_find?_eq_some hfind)
    obtain ⟨q,hq,hqh⟩ := (he _ row' hrow').mp hmark'
    have hpq : p=q := Option.some.inj (hp.symm.trans hq)
    subst hpq
    subst hqh
    exact ⟨row',rfl,hrow'⟩

theorem PeakMarked.rebuilt (he : PeakMarked E w P) (hi : Indexed E w) (hm : MainChain E w P) :
    ∃ c,Rebuilt E w P c := by
  obtain rfl | ⟨P,p,rfl⟩ := P.eq_nil_or_concat
  · have hno : BlockStore.peakRow w.db=none := by
      unfold BlockStore.peakRow
      rw [List.find?_eq_none]
      intro e hmem hmark
      obtain ⟨p,hp,_⟩ := (he e.1 e.2 ((Dict.mem_entries _ _ _).mp hmem)).mp hmark
      cases hp
    refine ⟨⟨Dict.empty,Dict.empty,Dict.empty,Dict.empty,none⟩,?_,?_,?_,?_⟩
    · unfold loadChainFromStore BlockStore.getPeakHeightDicts BlockStore.getBlockRecordsCloseToPeak
      rw [hno]
      rfl
    · exact fun _ => rfl
    · exact fun _ => rfl
    · exact hm.peakHeight.symm
  · rw [List.concat_eq_append] at *
    obtain ⟨k,hk⟩ := hm.path (by simp)
    have hstored : w.block? (p.headerHash E)=some p := hk.find_mem hi.keyed (by simp)
    have hpath : (w.forest E).Path (p.headerHash E) (P++[p]) := by
      obtain ⟨v,hv,hlast,_⟩ := hk.last
      obtain rfl : p=v := by simpa using hlast
      rwa [← hi.key k p hv] at hk
    have hlast : (P++[p]).getLast?=some p := by simp
    obtain ⟨row,hpeak,hrow⟩ := he.peakRow_eq hi hlast hstored
    obtain ⟨row',hrow',-,hheight,-,hhash,hblock⟩ := hi.rowOf hstored
    obtain rfl : row=row' := Option.some.inj (hrow.symm.trans hrow')
    have hpheight : p.height=P.length := by
      have := inHeightOrder_of_path hpath P.length (by simp)
      simpa using this
    obtain ⟨H,S,hdicts,hf⟩ := heightDicts_run hi hpath (n := P.length+1) (by simp) Dict.empty Dict.empty
      (fun _ _ => rfl)
    rw [show (P++[p]).length-1=row.height by simp [hheight,hpheight],
      show P.length+1=row.height+1 by rw [hheight,hpheight]] at hdicts
    -- the record of the peak is among those that are loaded
    set L := (w.db.blockRecords.entries.filter fun e =>
      decide ((e.2.height : ℤ) ≥ row.height-E.blocksCacheSize)).map fun e => (e.1,e.2.block) with hL
    have hmem : (p.headerHash E,row.block)∈L := by
      rw [hL,List.mem_map]
      refine ⟨(p.headerHash E,row),List.mem_filter.mpr ⟨(Dict.mem_entries _ _ _).mpr hrow,?_⟩,rfl⟩
      simp
    have hall : ∀ e∈L,e.2.headerHash=row.block.headerHash → e.2=row.block := by
      intro e hin hsame
      rw [hL,List.mem_map] at hin
      obtain ⟨⟨h',row'⟩,hin,rfl⟩ := hin
      have hrow' := (Dict.mem_entries _ _ _).mp (List.mem_filter.mp hin).1
      obtain ⟨x,hx⟩ := Option.isSome_iff_exists.mp (hi.block h' row' hrow')
      obtain ⟨row'',hrow'',-,-,-,hhash',-⟩ := hi.rowOf hx
      obtain rfl : row'=row'' := Option.some.inj (hrow'.symm.trans hrow'')
      dsimp only at hsame ⊢
      rw [hhash',hhash] at hsame
      rw [hsame,hrow,Option.some.injEq] at hrow'
      rw [hrow']
    have hne : L.length≠0 := by
      intro hz
      rw [List.length_eq_zero_iff.mp hz] at hmem
      cases hmem
    have hget := foldl_addBlockRecord_get ⟨Dict.empty,Dict.empty,H,S,none⟩ hall (Or.inl ⟨_,hmem,rfl⟩)
    obtain ⟨hh,hs,-⟩ := foldl_addBlockRecord L ⟨Dict.empty,Dict.empty,H,S,none⟩
    set c := L.foldl (fun c e => addBlockRecord e.2 c) ⟨Dict.empty,Dict.empty,H,S,none⟩ with hc
    refine ⟨{ c with peakHeight := some row.block.height },?_,?_,?_,?_⟩
    · unfold loadChainFromStore BlockStore.getPeakHeightDicts BlockStore.getBlockRecordsCloseToPeak
      rw [hpeak]
      dsimp only
      rw [hdicts]
      simp only [bind,Except.bind]
      rw [← hL,← hc,if_neg hne]
      have hrecord : c.view.blockRecord (p.headerHash E) = .ok row.block := by
        unfold BlockView.blockRecord
        rw [lookup_eq_ok,← hhash]
        exact hget
      simp only [assertSome,hrecord]
      have hsize : H.size=row.block.height+1 := by
        rw [hf.size,hblock,hpheight]
        simp [Dict.size,Dict.empty]
      simp [assertThat,hsize,pure,Except.pure]
    · intro i
      change c.heightToHash.get? i=_
      rw [hh,hf.hashes]
      simp
    · intro i
      change c.subEpochSummaries.get? i=_
      rw [hs,hf.summaries]
      simp
    · rw [hm.peakHeight]
      simp [hblock,hpheight]

theorem Durable.reloads (he : Durable E w P) (hi : Indexed E w) (hm : MainChain E w P) : ∃ c,Reloads E w c := by
  obtain ⟨c,hc⟩ := he.peakRow.rebuilt hi hm
  refine ⟨c,hc.load,?_,?_,hc.peakHeight⟩
  · intro i
    rw [hc.heightToHash,he.heightToHash]
  · intro i
    rw [hc.summaries,he.summaries]

/-- A block that is heavier than the peak is not lower. -/
def Level (w : World) (b : FullBlock) : Prop :=
  ∀ p,getPeak w.chain = .ok (some p) → p.weight<b.weight → p.height≤b.height

/-- The runs of calls that return, where each block meets a condition on the state before it. -/
inductive RunOf (E : Env) (C : World → FullBlock → Prop) : World → Prop
  | start (blockCacheSize coinCacheSize : ℕ) : RunOf E C (World.empty blockCacheSize coinCacheSize)
  | call {w : World} (h : RunOf E C w) {b : FullBlock} {p : Option PreValidationResult}
      {forkPointWithPeak : Option ℕ} (hfork : ProperFork E w b forkPointWithPeak) (hc : C w b)
      (i : Option (ℕ × PyErr)) {a : ReceiveBlockResult × Option Err × Option ℕ}
      (hret : (receiveBlock E b p forkPointWithPeak (w.due i)).1 = .ok a) :
      RunOf E C (receiveBlock E b p forkPointWithPeak (w.due i)).2

theorem indexRecords_subEpochSummaries {k : ℕ} {records : List BlockRecord} (c : Chain)
    (hk : ∀ j (hj : j < records.length),records[j].height=k+j) (i : ℕ) :
    (indexRecords records c).subEpochSummaries.get? i =
      if k ≤ i then ((records[i-k]?).bind (·.subEpochSummaryIncluded)).or (c.subEpochSummaries.get? i)
      else c.subEpochSummaries.get? i := by
  apply indexRecords_fill (f := fun c i => c.subEpochSummaries.get? i) _ c hk i
  intro c r i
  unfold indexRecord
  cases r.subEpochSummaryIncluded with
  | none => simp
  | some ses =>
    simp only [Dict.get?_set]
    split_ifs <;> rfl

variable {x : FullBlock}

theorem Resting.stored (h : Resting E w P) (hx : x∈P) : w.block? (x.headerHash E)=some x := by
  obtain ⟨k,hk⟩ := h.main.path (List.ne_nil_of_mem hx)
  exact hk.find_mem h.indexed.keyed hx

theorem Arrival.summaryOf_adding (ha : Arrival E w P Q b r) (hr : s.record?=(w.adding E b r).record?)
    (hx : w.block? (x.headerHash E)=some x) : summaryOf E s x=summaryOf E w x := by
  unfold summaryOf
  rw [hr,adding_record?,if_neg]
  intro hsame
  rw [← hsame,ha.isNew] at hx
  cases hx

variable {c : Chain} {o : Option Tables}

theorem Adding.record? (hs : Adding E w b r (w.adding E b r).db.blockRecords c o s) :
    s.record?=(w.adding E b r).record? := by
  unfold World.record?
  rw [hs.blockRecords]

theorem Adding.record?_peak (hs : Adding E w b r (peakAt (b.headerHash E) (w.adding E b r).db.blockRecords) c o s) :
    s.record?=(w.adding E b r).record? := by
  funext h
  unfold World.record?
  rw [hs.blockRecords,peakAt,Dict.get?_mapVals,Option.map_map]
  rfl

theorem PeakMarked.orphan (he : PeakMarked E w P) (hrest : Resting E w P) (ha : Arrival E w P Q b r)
    (hs : Adding E w b r (w.adding E b r).db.blockRecords (addBlockRecord r w.chain) none s) :
    PeakMarked E s P := by
  intro h row hrow
  rw [hs.blockRecords] at hrow
  simp only [World.adding,BlockStore.withBlock,Dict.get?_set] at hrow
  split_ifs at hrow with hk
  · have hrow : BlockRecordRow.of b r=row := Option.some.inj hrow
    rw [← hrow]
    constructor
    · intro hmark
      cases hmark
    · intro hlast
      obtain ⟨p,hp,hph⟩ := hlast
      have hstored := hrest.peak_stored hp
      rw [hph,← hk,ha.isNew] at hstored
      cases hstored
  · exact he h row hrow

theorem Adding.peakMarked (hs : Adding E w b r (peakAt (b.headerHash E) (w.adding E b r).db.blockRecords) c o s) :
    PeakMarked E s (Q++[b]) := by
  intro h row hrow
  rw [hs.blockRecords,peakAt,Dict.get?_mapVals,Option.map_eq_some_iff] at hrow
  obtain ⟨old,_,rfl⟩ := hrow
  simp [eq_comm]

/-- The summaries in memory are those of the main chain. -/
def SummariesOf (E : Env) (w : World) (P : List FullBlock) : Prop :=
  ∀ i,w.chain.subEpochSummaries.get? i=(P[i]?).bind (summaryOf E w)

theorem SummariesOf.orphan (h : SummariesOf E w P) (hrest : Resting E w P) (ha : Arrival E w P Q b r)
    (hs : Adding E w b r (w.adding E b r).db.blockRecords (addBlockRecord r w.chain) none s) : SummariesOf E s P := by
  intro i
  rw [hs.chain]
  change w.chain.subEpochSummaries.get? i=_
  rw [h]
  cases hi : P[i]? with
  | none => rfl
  | some x =>
    rw [Option.bind_some,Option.bind_some,
      ha.summaryOf_adding hs.record? (hrest.stored (List.mem_of_getElem? hi))]

theorem Durable.orphan (he : Durable E w P) (hrest : Resting E w P) (ha : Arrival E w P Q b r)
    (hs : Adding E w b r (w.adding E b r).db.blockRecords (addBlockRecord r w.chain) none s) : Durable E s P := by
  refine ⟨?_,SummariesOf.orphan he.summaries hrest ha hs,he.peakRow.orphan hrest ha hs⟩
  intro i
  rw [hs.chain]
  exact he.heightToHash i

theorem forall₂_getElem? {α β : Type} {R : α → β → Prop} {l : List α} {m : List β} (h : List.Forall₂ R l m)
    {i : ℕ} {a : α} (ha : l[i]?=some a) : ∃ c,m[i]?=some c ∧ R a c := by
  obtain ⟨hi,rfl⟩ := List.getElem?_eq_some_iff.mp ha
  have hi' : i < m.length := by rw [← h.length_eq]; exact hi
  have hr := h.get hi hi'
  exact ⟨m[i],List.getElem?_eq_getElem hi',by simpa using hr⟩

section NewPeak
variable {k : ℕ} {records : List BlockRecord}

theorem SummariesOf.before (h : SummariesOf E w P) (i : ℕ) : (indexBefore w P (k-1)).subEpochSummaries.get? i =
      if i<k then w.chain.subEpochSummaries.get? i else none := by
  unfold indexBefore
  split_ifs with hP hik hik
  · rfl
  · rw [h,hP]
    rfl
  · simp only [World.pruned,Dict.get?_filter]
    have hle : (i : ℤ)≤k-1 := by omega
    simp only [hle,decide_true]
    cases w.chain.subEpochSummaries.get? i <;> rfl
  · simp only [World.pruned,Dict.get?_filter]
    have hle : ¬ (i : ℤ)≤k-1 := by omega
    simp [hle]

variable {i : ℕ}

theorem ForkAt.getElem?_lt (hat : ForkAt P Q k) (hi : i<k) : (Q++[b])[i]?=P[i]? := by
  have hright := hat.right
  rw [List.getElem?_append_left (by omega),← List.getElem?_take_of_lt hi,← hat.take,List.getElem?_take_of_lt hi]

variable {l : List FullBlock}

theorem getElem?_drop_sub (hi : k ≤ i) : (l.drop k)[i-k]?=l[i]? := by
  rw [List.getElem?_drop,Nat.add_sub_cancel' hi]

theorem getElem?_records_none {R : FullBlock → BlockRecord → Prop}
    (hrecs : List.Forall₂ R (l.drop k) records) (hi : l[i]?=none) : records[i-k]?=none := by
  have hlen := hrecs.length_eq
  rw [List.length_drop] at hlen
  rw [List.getElem?_eq_none_iff] at hi
  exact List.getElem?_eq_none (by omega)

theorem SummariesOf.newPeak (h : SummariesOf E w P) (hrest : Resting E w P) (ha : Arrival E w P Q b r)
    (hat : ForkAt P Q k) (hrecs : List.Forall₂ (StoredAs E (w.adding E b r)) ((Q++[b]).drop k) records)
    (hs : Adding E w b r (peakAt (b.headerHash E) (w.adding E b r).db.blockRecords)
      { indexRecords records (addBlockRecord r (indexBefore w P (k-1))) with
        peakHeight := some r.height } none s) : SummariesOf E s (Q++[b]) := by
  intro i
  rw [hs.chain]
  simp only
  rw [indexRecords_subEpochSummaries _ (ha.records_height (StoredAs.forall₂ hrecs))]
  change (if k ≤ i then (records[i-k]?.bind _).or ((indexBefore w P (k-1)).subEpochSummaries.get? i)
    else (indexBefore w P (k-1)).subEpochSummaries.get? i)=_
  rw [h.before]
  split_ifs with hki hik hik
  · omega
  · cases hx : (Q++[b])[i]? with
    | none => rw [getElem?_records_none hrecs hx]; rfl
    | some x =>
      obtain ⟨rec,hrec,hstored⟩ := forall₂_getElem? hrecs ((getElem?_drop_sub hki).trans hx)
      rw [hrec,Option.bind_some,Option.bind_some,Option.or_none,summaryOf,hs.record?_peak,hstored.stored]
      rfl
  · rw [h,hat.getElem?_lt hik]
    cases hx : P[i]? with
    | none => rfl
    | some x =>
      rw [Option.bind_some,Option.bind_some,
        ha.summaryOf_adding hs.record?_peak (hrest.stored (List.mem_of_getElem? hx))]
  · omega

theorem Durable.newPeak (he : Durable E w P) (hrest : Resting E w P) (ha : Arrival E w P Q b r)
    (hat : ForkAt P Q k) (hlong : P.length≤Q.length+1)
    (hrecs : List.Forall₂ (StoredAs E (w.adding E b r)) ((Q++[b]).drop k) records)
    (hs : Adding E w b r (peakAt (b.headerHash E) (w.adding E b r).db.blockRecords)
      { indexRecords records (addBlockRecord r (indexBefore w P (k-1))) with
        peakHeight := some r.height } none s) : Durable E s (Q++[b]) := by
  refine ⟨?_,SummariesOf.newPeak he.summaries hrest ha hat hrecs hs,hs.peakMarked⟩
  intro i
  rw [ha.newPeak_heightToHash hrecs hs]
  split_ifs with hki
  · cases hx : (Q++[b])[i]? with
    | none =>
      have hP : P[i]?=none := by
        rw [List.getElem?_eq_none_iff,List.length_append,List.length_singleton] at hx
        exact List.getElem?_eq_none (by omega)
      rw [getElem?_records_none hrecs hx,he.heightToHash,hP]
      rfl
    | some x =>
      obtain ⟨rec,hrec,hstored⟩ := forall₂_getElem? hrecs ((getElem?_drop_sub hki).trans hx)
      rw [hrec,Option.map_some,Option.some_or,hstored.of.headerHash]
      rfl
  · rw [he.heightToHash,hat.getElem?_lt (by omega)]

end NewPeak

theorem Heavier.long (hrest : Resting E w P) (ha : Arrival E w P Q b r) (h : Heavier P b) (hl : Level w b) :
    P.length≤Q.length+1 := by
  obtain rfl | ⟨P,p,rfl⟩ := P.eq_nil_or_concat
  · simp
  · rw [List.concat_eq_append] at *
    obtain ⟨rp,hpeak,hrp,-⟩ := getPeak_concat hrest.indexed hrest.main
    obtain ⟨_,p',hp',hlt⟩ := h.resolve_left (by simp)
    have hpp : p=p' := by simpa using hp'
    subst hpp
    have hle := hl rp hpeak (by rw [hrp.weight]; exact hlt)
    obtain ⟨h,hpath⟩ := hrest.main.path (by simp)
    have hheight := inHeightOrder_of_path hpath P.length (by simp)
    have hb : b.height=Q.length := ha.onTop.1
    rw [hrp.height] at hle
    simp at hheight ⊢
    omega

theorem durable_empty (m n : ℕ) : Durable E (World.empty m n) [] := by
  refine ⟨fun _ => rfl,fun _ => rfl,?_⟩
  intro h row hrow
  cases hrow

theorem summaryOf_congr (hs : s.db=w.db) : summaryOf E s=summaryOf E w := by
  unfold summaryOf World.record?
  rw [hs]

variable {answer : ReceiveBlockResult × Option Err × Option ℕ}

theorem SummariesOf.answered (hrest : Resting E w P)
    (h : SummariesOf E w P) (ha : Answered E w s P b pre (.ok answer)) :
    ∃ P',Resting E s P' ∧ SummariesOf E s P' := by
  cases ha with
  | still hs hno =>
    refine ⟨P,hrest.still ⟨rfl,rfl,rfl⟩ hs,?_⟩
    rw [SummariesOf,hs.chain,summaryOf_congr hs.db]
    exact h
  | orphan ha hweight hheavy hs => exact ⟨P,ha.resting_orphan hheavy hs,h.orphan hrest ha hs⟩
  | newPeak ha hweight hheavy hat hapart hrecs hs =>
    exact ⟨_,ha.resting_newPeak hat hrecs hs,h.newPeak hrest ha hat hrecs hs⟩

theorem Durable.answered (hrest : Resting E w P)
    (he : Durable E w P) (hl : Level w b) (ha : Answered E w s P b pre (.ok answer)) :
    ∃ P',Resting E s P' ∧ Durable E s P' := by
  cases ha with
  | still hs hno =>
    refine ⟨P,hrest.still ⟨rfl,rfl,rfl⟩ hs,?_,?_,?_⟩
    · rw [hs.chain]
      exact he.heightToHash
    · rw [hs.chain,summaryOf_congr hs.db]
      exact he.summaries
    · unfold PeakMarked
      rw [hs.db]
      exact he.peakRow
  | orphan ha hweight hheavy hs => exact ⟨P,ha.resting_orphan hheavy hs,he.orphan hrest ha hs⟩
  | newPeak ha hweight hheavy hat hapart hrecs hs =>
    exact ⟨_,ha.resting_newPeak hat hrecs hs,he.newPeak hrest ha hat (hheavy.long hrest ha hl) hrecs hs⟩

theorem resting_empty (m n : ℕ) : Resting E (World.empty m n) [] :=
  ⟨indexed_empty m n,mainChain_empty m n,(coherent_empty (E := E) m n).blocks⟩

theorem RunOf.summaries {C : World → FullBlock → Prop} (h : RunOf E C w) :
    ∃ P,Resting E w P ∧ SummariesOf E w P := by
  induction h with
  | start m n => exact ⟨[],resting_empty m n,fun _ => rfl⟩
  | @call w _ b pre forkPointWithPeak hfork hc i answer hret ih =>
    obtain ⟨P,hrest,h⟩ := ih
    have ha : Answered E w _ P b pre _ := hrest.answered hfork i
    rw [hret] at ha
    exact h.answered hrest ha

theorem RunOf.durable (h : RunOf E Level w) : ∃ P,Resting E w P ∧ Durable E w P := by
  induction h with
  | start m n => exact ⟨[],resting_empty m n,durable_empty m n⟩
  | @call w _ b pre forkPointWithPeak hfork hc i answer hret ih =>
    obtain ⟨P,hrest,he⟩ := ih
    have ha : Answered E w _ P b pre _ := hrest.answered hfork i
    rw [hret] at ha
    exact he.answered hrest hc ha

/-- As long as no heavier block is lower than the peak, the index in memory is the one of the block store, and
it holds the path to the peak and nothing else. -/
theorem runOf_reloads (h : RunOf E Level w) : ∃ P c,MainChain E w P ∧ Reloads E w c ∧
    ∀ i,w.chain.heightToHash.get? i=(P[i]?).map (·.headerHash E) := by
  obtain ⟨P,hrest,he⟩ := h.durable
  obtain ⟨c,hc⟩ := he.reloads hrest.indexed hrest.main
  exact ⟨P,c,hrest.main,hc,he.heightToHash⟩

theorem level_of_peak {b : FullBlock} (p : Option (ℕ × ℕ))
    (hpeak : (getPeak w.chain).map (·.map fun r => (r.weight,r.height)) = .ok p)
    (hl : ∀ q∈p,q.1<b.weight → q.2≤b.height) : Level w b := by
  intro r hr
  rw [hr] at hpeak
  exact hl (r.weight,r.height) (Except.ok.inj hpeak).symm

theorem forkRun_runOf : RunOf tinyEnv Level (tinyState (forkRun++[forkTip])) := by
  have hnone {w : World} {b : FullBlock} : ProperFork tinyEnv w b none := by
    intro f hf
    cases hf
  have h1 := RunOf.call (RunOf.start (E := tinyEnv) (C := Level) 5 5) (b := tinyGenesis) (p := tinyPre) hnone
    (level_of_peak none (by decide +kernel) (by decide)) none (a := (.newPeak,none,some 0)) (by decide +kernel)
  have h2 := RunOf.call h1 (b := tinyBlock 11 10 1 8) (p := tinyPre) hnone
    (level_of_peak (some (7,0)) (by decide +kernel) (by decide)) none (a := (.newPeak,none,some 0))
    (by decide +kernel)
  have h3 := RunOf.call h2 (b := tinyBlock 12 11 2 9) (p := tinyPre) hnone
    (level_of_peak (some (8,1)) (by decide +kernel) (by decide)) none (a := (.newPeak,none,some 1))
    (by decide +kernel)
  have h4 := RunOf.call h3 (b := tinyBlock 21 10 1 8) (p := tinyPre) hnone
    (level_of_peak (some (9,2)) (by decide +kernel) (by decide)) none (a := (.addedAsOrphan,none,none))
    (by decide +kernel)
  exact RunOf.call h4 (b := forkTip) (p := tinyPre) hnone
    (level_of_peak (some (9,2)) (by decide +kernel) (by decide)) none (a := (.newPeak,none,some 0))
    (by decide +kernel)

theorem runOf_reloads_fork : ∃ P c,MainChain tinyEnv (tinyState (forkRun++[forkTip])) P ∧
    Reloads tinyEnv (tinyState (forkRun++[forkTip])) c ∧
    ∀ i,(tinyState (forkRun++[forkTip])).chain.heightToHash.get? i=(P[i]?).map (·.headerHash tinyEnv) :=
  runOf_reloads forkRun_runOf

def lowerRun : List FullBlock := [tinyGenesis,tinyBlock 11 10 1 8,tinyBlock 12 11 2 9,tinyBlock 21 10 1 15]

example : (tinyState lowerRun).chain.peakHeight=some 1 := by decide +kernel

theorem lowerRun_runOf : RunOf tinyEnv (fun _ _ => True) (tinyState lowerRun) := by
  have hnone {w : World} {b : FullBlock} : ProperFork tinyEnv w b none := by
    intro f hf
    cases hf
  have h1 := RunOf.call (RunOf.start (E := tinyEnv) (C := fun _ _ => True) 5 5) (b := tinyGenesis) (p := tinyPre)
    hnone trivial none (a := (.newPeak,none,some 0)) (by decide +kernel)
  have h2 := RunOf.call h1 (b := tinyBlock 11 10 1 8) (p := tinyPre)
    hnone trivial none (a := (.newPeak,none,some 0)) (by decide +kernel)
  have h3 := RunOf.call h2 (b := tinyBlock 12 11 2 9) (p := tinyPre)
    hnone trivial none (a := (.newPeak,none,some 1)) (by decide +kernel)
  exact RunOf.call h3 (b := tinyBlock 21 10 1 15) (p := tinyPre)
    hnone trivial none (a := (.newPeak,none,some 0)) (by decide +kernel)

/-- The peak is at height one, the index still has the old block of height two, the reloaded one not. -/
theorem not_reloads_lower : ∃ w,RunOf tinyEnv (fun _ _ => True) w ∧ ¬ ∃ c,Reloads tinyEnv w c := by
  refine ⟨_,lowerRun_runOf,?_⟩
  intro hc
  obtain ⟨c,hload,hheights,-,-⟩ := hc
  have hmem : (tinyState lowerRun).chain.heightToHash.get? 2=some 12 := by decide +kernel
  have hdisk : (loadChainFromStore tinyEnv (tinyState lowerRun).db).map (·.heightToHash.get? 2) = .ok none := by
    decide +kernel
  rw [hload,Except.map,hheights,hmem] at hdisk
  cases hdisk

end RoseChain
