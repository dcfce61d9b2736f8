import RoseChain.FullNode.ChainProofs

namespace RoseChain
open Lib Blockchain Eff
variable {E : Env} {w : World} {P : List FullBlock} {α : Type} {start stop : ℤ}

/-- Every height of the index has a stored block of this height, also above the peak. -/
def HeightsStored (w : World) : Prop :=
  ∀ i h,w.chain.heightToHash.get? i=some h → ∃ b,w.block? h=some b ∧ b.height=i

section Reads

theorem fetch_answers (q : Tables → α) : Answers (AtRest w) (fetch q) (· = q w.db) := by
  intro v hv
  have hdue (i : Option (ℕ × PyErr)) : AtRest w (v.due i) := ⟨hv.db,hv.saved,hv.chain,hv.blocks⟩
  obtain ⟨i,hrun | ⟨e,hrun⟩⟩ := fetch_cases q v
  · rw [hrun]
    exact ⟨hdue i,by rw [hv.db]⟩
  · rw [hrun]
    exact hdue i

theorem heightToHash_answers (height : ℕ) :
    Answers (AtRest w) (heightToHash height) fun h => w.chain.heightToHash.get? height=some h := by
  refine Answers.read fun v hv => Answers.lift fun h hh => ?_
  rw [← hv.chain]
  exact lookup_eq_ok.mp hh

theorem cachedBlock_answers (headerHash : Bytes32) :
    Answers (AtRest w) (cachedBlock headerHash) fun o => ∀ b,o=some b → w.block? headerHash=some b := by
  refine Answers.read fun v hv => ?_
  have hcached : ∀ b,(v.blockCache.get headerHash).1=some b → w.block? headerHash=some b := by
    intro b hb
    rw [LRUCache.get_fst] at hb
    exact hv.blocks headerHash b hb
  have hmoved : Answers (AtRest w) (modifyBlockCache fun c => (c.get headerHash).2) fun _ => True :=
    Answers.modify fun u hu => ⟨hu.db,hu.saved,hu.chain,hu.blocks.get headerHash⟩
  exact hmoved.bind fun _ _ => Answers.pure hcached

theorem foldl_set_get? {K V ρ : Type} [DecidableEq K] {key : ρ → K} {value : ρ → V} {Q : K → V → Prop} {rows : List ρ}
    {d : Dict K V} (hrows : ∀ e∈rows,Q (key e) (value e)) (hd : ∀ k v,d.get? k=some v → Q k v) {k : K} {v : V}
    (h : (rows.foldl (fun d e => d.set (key e) (value e)) d).get? k=some v) : Q k v := by
  induction rows generalizing d with
  | nil => exact hd k v h
  | cons e rows ih =>
    refine ih (fun e' he' => hrows e' (List.mem_cons_of_mem _ he')) ?_ h
    intro k' v' hset
    rw [Dict.get?_set] at hset
    split_ifs at hset with hk
    · obtain rfl := Option.some.inj hset
      rw [← hk]
      exact hrows e List.mem_cons_self
    · exact hd k' v' hset

theorem exists_of_forall₂ {β : Type} {R : α → β → Prop} {l : List α} {m : List β} (h : List.Forall₂ R l m) {b : β}
    (hb : b∈m) : ∃ a∈l,R a b := by
  induction h with
  | nil => cases hb
  | cons hab _ ih =>
    obtain rfl | hb := List.mem_cons.mp hb
    · exact ⟨_,List.mem_cons_self,hab⟩
    · obtain ⟨a,ha,hr⟩ := ih hb
      exact ⟨a,List.mem_cons_of_mem _ ha,hr⟩

theorem foundOrValueError_eq_ok {o : Option α} {a : α} : foundOrValueError o = .ok a ↔ o=some a := by
  cases o <;> simp [foundOrValueError]

theorem getBlocksByHash_answers (headerHashes : List Bytes32) :
    Answers (AtRest w) (BlockStore.getBlocksByHash headerHashes) fun blocks => ∀ b∈blocks,∃ h,w.block? h=some b := by
  unfold BlockStore.getBlocksByHash
  split_ifs
  · exact Answers.pure (by simp)
  refine (fetch_answers _).bind fun rows hrows => ?_
  have hrow : ∀ e∈rows,w.block? e.1=some e.2.block := by
    intro e he
    rw [hrows] at he
    rw [World.block?,(Dict.mem_entries _ _ _).mp (List.mem_filter.mp he).1]
    rfl
  have hall : Answers (AtRest w) (rows.foldlM (fun (d : Dict Bytes32 FullBlock) e => do
      modifyBlockCache (·.put e.1 e.2.block)
      return d.set e.1 e.2.block) Dict.empty) fun d => ∀ h b,d.get? h=some b → w.block? h=some b := by
    refine Answers.foldlM (fun e he d hd => ?_) (by simp)
    have hput : Answers (AtRest w) (modifyBlockCache (·.put e.1 e.2.block)) fun _ => True :=
      Answers.modify fun u hu => ⟨hu.db,hu.saved,hu.chain,hu.blocks.put (hrow e he)⟩
    refine hput.bind fun _ _ => Answers.pure fun h b hb => ?_
    rw [Dict.get?_set] at hb
    split_ifs at hb with hk
    · rw [← hk,hrow e he,hb]
    · exact hd h b hb
  refine hall.bind fun d hd => Answers.lift fun blocks hblocks b hb => ?_
  obtain ⟨h,-,hfound⟩ := exists_of_forall₂ (mapM_eq_ok.mp hblocks) hb
  exact ⟨h,hd h b (foundOrValueError_eq_ok.mp hfound)⟩

theorem getBlockRecordsInRange_answers : Answers (AtRest w) (getBlockRecordsInRange start stop) fun d =>
    ∀ h r,d.get? h=some r → w.record? h=some r := by
  refine (fetch_answers _).bind fun rows hrows => Answers.pure fun h r hr => ?_
  refine foldl_set_get? (Q := fun h r => w.record? h=some r) (fun e he => ?_) (by simp) hr
  rw [hrows] at he
  obtain ⟨row,hrow,rfl⟩ := List.mem_map.mp he
  dsimp only
  rw [World.record?,(Dict.mem_entries _ _ _).mp (List.mem_filter.mp hrow).1]
  rfl

section Indexed
variable (hi : Indexed E w)
include hi

theorem getHeaderBlocksInRange_answers : Answers (AtRest w) (getHeaderBlocksInRange E start stop) fun d =>
    ∀ h header,d.get? h=some header → ∃ b,w.block? h=some b ∧ b.headerHash E=h ∧ HeaderOf E b header := by
  refine Answers.read fun v hv => (Answers.lift (Q := fun _ => True) fun _ _ => trivial).bind fun hashes _ => ?_
  have hcached : Answers (AtRest w) ((hashes.filterMap id).mapM fun hash => do return (hash,← cachedBlock hash))
      (List.Forall₂ (fun _ e => ∀ b,e.2=some b → ∃ h,w.block? h=some b) (hashes.filterMap id)) := by
    refine Answers.mapM fun hash _ => (cachedBlock_answers hash).bind fun o ho => Answers.pure fun b hb => ?_
    exact ⟨hash,ho b hb⟩
  refine hcached.bind fun found hfound => (getBlocksByHash_answers _).bind fun blocksOnDisk hdisk => ?_
  refine Answers.foldlM (fun b hb d hd => ?_) (by simp)
  have hstored : ∃ h,w.block? h=some b := by
    obtain hb | hb := List.mem_append.mp hb
    · obtain ⟨e,he,hsome⟩ := List.mem_filterMap.mp hb
      obtain ⟨_,-,hof⟩ := exists_of_forall₂ hfound he
      exact hof b hsome
    · exact hdisk b hb
  obtain ⟨k,hk⟩ := hstored
  refine (heightToHash_answers _).bind fun hash hhash => ?_
  split_ifs with hfork
  · exact Answers.fail _
  refine (Answers.lift (Q := fun header => HeaderOf E b header) fun header hheader => hheader).bind fun header hheader => ?_
  refine Answers.pure fun h header' hget => ?_
  rw [Dict.get?_set] at hget
  split_ifs at hget with hsame
  · obtain rfl := Option.some.inj hget
    have hkey := hi.key k b hk
    rw [hheader.fields.1] at hsame
    exact ⟨b,by rw [← hsame,hkey,hk],hsame,hheader⟩
  · exact hd h header' hget

theorem getBlockRecordsByHash_answers (headerHashes : List Bytes32) :
    Answers (AtRest w) (BlockStore.getBlockRecordsByHash headerHashes)
      (List.Forall₂ (fun h r => w.record? h=some r) headerHashes) := by
  unfold BlockStore.getBlockRecordsByHash
  split_ifs with hnil
  · rw [hnil]
    exact Answers.pure .nil
  refine (fetch_answers _).bind fun rows hrows => Answers.lift fun records hrecords => ?_
  refine (mapM_eq_ok.mp hrecords).imp fun h r hfound => ?_
  have hget := foundOrValueError_eq_ok.mp hfound
  refine foldl_set_get? (Q := fun h r => w.record? h=some r) (fun e he => ?_) (by simp) hget
  obtain ⟨k,row⟩ := e
  rw [hrows] at he
  have hk := (Dict.mem_entries _ _ _).mp (List.mem_filter.mp he).1
  obtain ⟨x,hx⟩ := Option.isSome_iff_exists.mp (hi.block k row hk)
  obtain ⟨row',hrow',-,-,-,hhash,-⟩ := hi.rowOf hx
  obtain rfl : row=row' := Option.some.inj (hk.symm.trans hrow')
  dsimp only
  rw [hhash,World.record?,hk]
  rfl

theorem recordsAtFrom_answers (heights : List ℕ) (hashes : List Bytes32) :
    Answers (AtRest w) (recordsAtFrom heights hashes) fun records =>
      ∃ more,List.Forall₂ (fun i h => w.chain.heightToHash.get? i=some h) heights more ∧
        List.Forall₂ (fun h r => w.record? h=some r) (hashes++more) records := by
  induction heights generalizing hashes with
  | nil =>
    refine (getBlockRecordsByHash_answers hi hashes).mono fun records h => ⟨[],.nil,?_⟩
    rwa [List.append_nil]
  | cons height heights ih =>
    refine (heightToHash_answers height).bind fun hash hhash => ?_
    dsimp only
    split_ifs
    · refine (getBlockRecordsByHash_answers hi _).bind fun res hres => (ih []).bind fun rest hrest => Answers.pure ?_
      obtain ⟨more,hmore,hrest⟩ := hrest
      refine ⟨hash::more,.cons hhash hmore,?_⟩
      rw [List.append_cons]
      exact List.rel_append hres hrest
    · refine (ih _).mono fun records h => ?_
      obtain ⟨more,hmore,h⟩ := h
      refine ⟨hash::more,.cons hhash hmore,?_⟩
      rwa [List.append_cons]

theorem getBlockRecordsAt_answers (heights : List ℕ) : Answers (AtRest w) (getBlockRecordsAt heights) fun records =>
    ∃ hashes,List.Forall₂ (fun i h => w.chain.heightToHash.get? i=some h) heights hashes ∧
      List.Forall₂ (fun h r => w.record? h=some r) hashes records :=
  recordsAtFrom_answers hi heights []

theorem getBlockRecordFromDb_answers (headerHash : Bytes32) :
    Answers (AtRest w) (getBlockRecordFromDb headerHash) fun o => ∀ r,o=some r → w.record? headerHash=some r := by
  refine Answers.read fun v hv => ?_
  cases hget : v.chain.blockRecords.get? headerHash with
  | some r =>
    refine Answers.pure fun r' hr' => ?_
    rw [← hi.memory,← hv.chain,hget,hr']
  | none =>
    refine (fetch_answers _).bind fun row hrow => Answers.pure fun r hr => ?_
    rw [World.record?,← hr,hrow]

end Indexed

namespace WeightProof

theorem renewed_answers (renew : Bool) (currRec : BlockRecord) (blocks : Dict Bytes32 BlockRecord) :
    Answers (AtRest w) (renewed renew currRec blocks) fun _ => True := by
  unfold renewed
  split_ifs
  · exact getBlockRecordsInRange_answers.mono fun _ _ => trivial
  · exact Answers.pure trivial

theorem prevTwoSlots_answers (n slot : ℕ) (currRec : BlockRecord) (blocks : Dict Bytes32 BlockRecord) (stop : ℕ) :
    Answers (AtRest w) (prevTwoSlots n slot currRec blocks stop) fun _ => True := by
  induction n generalizing slot currRec blocks stop with
  | zero => exact Answers.fail _
  | succ n ih =>
    unfold prevTwoSlots
    by_cases hmore : slot<2 ∧ currRec.height > 0
    · rw [if_pos hmore]
      refine (renewed_answers _ _ _).bind fun _ _ => (heightToHash_answers _).bind fun _ _ => ?_
      exact (Answers.lift (Q := fun _ => True) fun _ _ => trivial).bind fun _ _ => ih _ _ _ _
    · rw [if_neg hmore]
      exact Answers.pure trivial

variable {sesBlock seStart : BlockRecord}

theorem segmentView_answers (hi : Indexed E w) (hheights : HeightsStored w) {Q : List FullBlock}
    (hindex : ∀ i b,Q[i]?=some b → w.chain.heightToHash.get? i=some (b.headerHash E)) :
    Answers (AtRest w) (segmentView E sesBlock seStart) fun V => ViewOf E w Q V ∧ Ordered V := by
  have hprev : Answers (AtRest w) (getPrevTwoSlotsHeight seStart) fun _ => True :=
    getBlockRecordsInRange_answers.bind fun _ _ => prevTwoSlots_answers _ _ _ _ _
  refine hprev.bind fun startHeight _ => getBlockRecordsInRange_answers.bind fun blocks hblocks => ?_
  refine (getHeaderBlocksInRange_answers hi).bind fun headerBlocks hheaders => Answers.read fun v hv => Answers.pure ?_
  refine ⟨⟨fun i b hb => ?_,hheaders,hblocks⟩,fun i header hheader => ?_⟩
  · rw [hv.chain]
    exact lookup_eq_ok.mpr (hindex i b hb)
  · obtain ⟨h,hh,hget⟩ := bind_ok.mp hheader
    rw [hv.chain] at hh
    obtain ⟨b,hb,hheight⟩ := hheights i h (lookup_eq_ok.mp hh)
    obtain ⟨b',hb',-,hof⟩ := hheaders h header (lookup_eq_ok.mp hget)
    obtain rfl := Option.some.inj (hb.symm.trans hb')
    rw [hof.fields.2.1,hheight]

end WeightProof
end Reads
end RoseChain
