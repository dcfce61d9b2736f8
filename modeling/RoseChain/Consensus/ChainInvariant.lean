import RoseChain.Consensus.StoreBlock

namespace RoseChain
open Lib Blockchain
variable {E : Env} {fx : FullBlock → Effects} {w : World} {P Q : List FullBlock} {b : FullBlock}
  {r : BlockRecord}

theorem Arrival.indexed_after (ha : Arrival E w P Q b r) {w' : World} (hclosed : w'.saved=none)
    (hblock : ∀ h,w'.block? h=(w.adding E b r).block? h) (g : Bytes32 → BlockRecordRow → Bool)
    (hrow : ∀ h,w'.db.blockRecords.get? h=((w.adding E b r).db.blockRecords.get? h).map
      fun row => { row with isPeak := g h row })
    (hmem : w'.chain.blockRecords=w.chain.blockRecords.set r.headerHash r) : Indexed E w' where
  closed := hclosed
  key := by
    intro h b' hb
    rw [hblock] at hb
    exact (ha.recorded hb).1
  row := by
    intro h b' hb
    rw [hblock,adding_block?] at hb
    simp only [hrow,World.adding,BlockStore.withBlock,Dict.get?_set]
    split_ifs at hb ⊢ with hk
    · simp only [Option.some.injEq] at hb
      subst hb
      exact ⟨r,_,ha.record,rfl⟩
    · obtain ⟨r',isPeak,hr',hold⟩ := ha.indexed.row h b' hb
      exact ⟨r',_,hr',by rw [hold]; rfl⟩
  block := by
    intro h row hr
    rw [hblock,adding_block?]
    simp only [hrow,World.adding,BlockStore.withBlock,Dict.get?_set] at hr
    split_ifs at hr ⊢ with hk
    · rfl
    · obtain ⟨row',hrow',-⟩ := Option.map_eq_some_iff.mp hr
      exact ha.indexed.block h row' hrow'
  memory := by
    intro h
    rw [hmem,Dict.get?_set,ha.record.headerHash]
    simp only [World.record?,hrow,World.adding,BlockStore.withBlock,Dict.get?_set]
    split_ifs with hk
    · rfl
    · rw [ha.indexed.memory h,World.record?,Option.map_map]
      rfl
  ancestors := by
    intro h b' hb
    have hgrow : ∀ k v,w.block? k=some v → w'.block? k=some v := by
      intro k v hv
      rw [hblock,adding_block?,if_neg,hv]
      rintro rfl
      simp [ha.isNew] at hv
    rw [hblock,adding_block?] at hb
    split_ifs at hb with hk
    · simp only [Option.some.injEq] at hb
      subst hb
      exact ⟨Q,ha.onTop.mono hgrow rfl rfl⟩
    · obtain ⟨l,hl⟩ := ha.indexed.ancestors h b' hb
      exact ⟨l,hl.mono hgrow rfl rfl⟩
  plain := by
    intro h b' hb ht
    rw [hblock,adding_block?] at hb
    split_ifs at hb with hk
    · simp only [Option.some.injEq] at hb
      subst hb
      exact ha.plain ht
    · exact ha.indexed.plain h b' hb ht

theorem Arrival.orphaned_indexed (ha : Arrival E w P Q b r) : Indexed E (w.orphaned E b r) := by
  refine ha.indexed_after rfl (fun _ => rfl) (fun _ row => row.isPeak) (fun h => ?_) rfl
  simp [World.orphaned,World.adding]

theorem Arrival.orphaned_mainChain (ha : Arrival E w P Q b r) (h : ¬ Heavier P b) :
    MainChain E (w.orphaned E b r) P where
  peakHeight := ha.main.peakHeight
  path := by
    intro hP
    obtain ⟨k,hk⟩ := ha.main.path hP
    refine ⟨k,hk.mono (fun k v hv => ?_) rfl rfl⟩
    rw [worldForest_find] at hv ⊢
    rw [show (w.orphaned E b r).block? k=_ from adding_block? w b r k,if_neg,hv]
    rintro rfl
    simp [ha.isNew] at hv
  index := ha.main.index
  start := fun hP => absurd (Or.inl hP) h

variable {k : ℕ} {records : List BlockRecord}

theorem indexRecords_fill {β : Type} {f : Chain → ℕ → Option β} {g : BlockRecord → Option β}
    (hstep : ∀ c r i,f (indexRecord c r) i=if r.height=i then (g r).or (f c i) else f c i)
    (c : Chain) (hk : ∀ j (hj : j < records.length),records[j].height=k+j) (i : ℕ) :
    f (indexRecords records c) i=if k ≤ i then ((records[i-k]?).bind g).or (f c i) else f c i := by
  induction records generalizing k c with
  | nil => simp [indexRecords]
  | cons r records ih =>
    have hr : r.height=k := hk 0 (by simp)
    have hrest : ∀ j (hj : j < records.length),records[j].height=k+1+j := by
      intro j hj
      have h := hk (j+1) (by simpa using hj)
      simp only [List.getElem_cons_succ] at h
      omega
    rw [show indexRecords (r::records) c=indexRecords records (indexRecord c r) from rfl,
      ih (indexRecord c r) hrest,hstep,hr]
    rcases Nat.lt_trichotomy i k with hlt | rfl | hgt
    · rw [if_neg (by omega),if_neg (by omega),if_neg (by omega)]
    · rw [if_neg (by omega),if_pos rfl,if_pos (Nat.le_refl _)]
      simp
    · rw [if_pos (by omega),if_neg (by omega),if_pos (by omega)]
      obtain ⟨j,rfl⟩ : ∃ j,i=k+1+j := ⟨i - (k+1),by omega⟩
      rw [show k+1+j-(k+1)=j by omega,show k+1+j-k=j+1 by omega,
        List.getElem?_cons_succ]

theorem indexRecords_heightToHash (c : Chain) (hk : ∀ j (hj : j < records.length),records[j].height=k+j) (i : ℕ) :
    (indexRecords records c).heightToHash.get? i =
      if k ≤ i then ((records[i-k]?).map (·.headerHash)).or (c.heightToHash.get? i)
      else c.heightToHash.get? i := by
  rw [Option.map_eq_bind]
  apply indexRecords_fill (f := fun c i => c.heightToHash.get? i) _ c hk i
  intro c r i
  exact Dict.get?_set _ _ _ _

variable {c : Chain}

theorem Arrival.seated_indexed (ha : Arrival E w P Q b r) (t : Dict Bytes32 CoinRecord)
    (hc : c.blockRecords=w.chain.blockRecords) (records : List BlockRecord) :
    Indexed E (w.seated E b r t c records) := by
  refine ha.indexed_after rfl (fun _ => rfl) (fun h _ => decide (h=b.headerHash E)) (fun h => ?_) ?_
  · simp only [World.seated,BlockStore.withPeak,Dict.get?_mapVals]
    rfl
  · simp [World.seated,addBlockRecord,hc]

theorem indexBefore_blockRecords (f : ℤ) : (indexBefore w P f).blockRecords=w.chain.blockRecords := by
  unfold indexBefore
  split <;> rfl

theorem indexBefore_heightToHash (f : ℤ) : (indexBefore w P f).heightToHash=w.chain.heightToHash := by
  unfold indexBefore
  split <;> rfl

theorem Arrival.records_height (ha : Arrival E w P Q b r) (hr : List.Forall₂ (RecordOf E) ((Q++[b]).drop k) records) (j : ℕ) (hj : j < records.length) :
    records[j].height=k+j := by
  have hlen := hr.length_eq
  have hj' : j<((Q++[b]).drop k).length := by omega
  have hrec := hr.get hj' hj
  rw [List.get_eq_getElem,List.get_eq_getElem] at hrec
  rw [hrec.height,List.getElem_drop]
  exact inHeightOrder_of_onTop ha.onTop (k+j) (by simp at hj' ⊢; omega)

theorem Arrival.seated_mainChain (ha : Arrival E w P Q b r) (hat : ForkAt P Q k)
    (hr : List.Forall₂ (RecordOf E) ((Q++[b]).drop k) records)
    (t : Dict Bytes32 CoinRecord) (hc : c.heightToHash=w.chain.heightToHash) :
    MainChain E (w.seated E b r t c records) (Q++[b]) where
  peakHeight := by
    have hh : r.height=Q.length := ha.record.height.trans ha.onTop.1
    simp [World.seated,hh]
  path := fun _ => ⟨b.headerHash E,ha.path.mono (fun _ _ hv => hv) rfl rfl⟩
  index := by
    intro i hi
    have hlen := hr.length_eq
    have hright := hat.right
    have hleft := hat.left
    simp only [World.seated]
    rw [indexRecords_heightToHash _ (ha.records_height hr)]
    simp only [addBlockRecord,hc]
    simp only [List.length_drop,List.length_append,List.length_singleton] at hlen hi
    split_ifs with hki
    · have hj : i-k < records.length := by omega
      have hj' : i-k<((Q++[b]).drop k).length := by simp; omega
      have hrec := hr.get hj' hj
      rw [List.get_eq_getElem,List.get_eq_getElem,List.getElem_drop] at hrec
      rw [List.getElem?_eq_getElem hj]
      simp only [Option.map_some,Option.some_or,hrec.headerHash,Nat.add_sub_cancel' hki]
    · rw [ha.main.index i (by omega),hat.getElem (by omega) (by omega) (by omega),
        List.getElem_append_left (by omega)]
  start := fun h => by simp at h

end RoseChain
