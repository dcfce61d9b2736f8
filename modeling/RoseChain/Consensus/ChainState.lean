import RoseChain.Consensus.Reading
import RoseChain.FullNode.Replay

namespace RoseChain
open Lib
variable (E : Env)

def RecordOf (b : FullBlock) (r : BlockRecord) : Prop :=
  ∃ requiredIters subSlotIters overflow deficit prevTransactionBlockHeight ses,
    r=headerBlockToSubBlockRecord E requiredIters b subSlotIters overflow deficit
      prevTransactionBlockHeight ses

def World.forest (w : World) : Forest Bytes32 FullBlock :=
  ⟨w.block?,FullBlock.headerHash E,FullBlock.prevHeaderHash,FullBlock.height⟩

/-- Every stored block has its row, its record and its ancestors; only transaction blocks have a generator. -/
structure Indexed (w : World) : Prop where
  closed : w.saved=none
  key : ∀ h b,w.block? h=some b → b.headerHash E=h
  row : ∀ h b,w.block? h=some b → ∃ r isPeak,RecordOf E b r ∧
    w.db.blockRecords.get? h=some { BlockRecordRow.of b r with isPeak := isPeak }
  block : ∀ h row,w.db.blockRecords.get? h=some row → (w.block? h).isSome
  memory : ∀ h,w.chain.blockRecords.get? h=w.record? h
  ancestors : ∀ h b,w.block? h=some b → ∃ l,(w.forest E).OnTop l b
  plain : ∀ h b,w.block? h=some b → ¬ b.isTransactionBlock → b.transactionsGenerator=none

/-- The blocks from the genesis block to the peak; no block before there is a peak. -/
structure MainChain (w : World) (P : List FullBlock) : Prop where
  peakHeight : w.chain.peakHeight=if P.length=0 then none else some (P.length-1)
  path : P≠[] → ∃ h,(w.forest E).Path h P
  index : ∀ i (hi : i<P.length),w.chain.heightToHash.get? i=some (P[i].headerHash E)
  start : P=[] → ∀ h,w.block? h=none

variable {E} {w : World} {b : FullBlock} {r : BlockRecord} {P : List FullBlock}

section Fields
variable (h : RecordOf E b r)
include h

theorem RecordOf.headerHash : r.headerHash=b.headerHash E := by
  obtain ⟨_,_,_,_,_,_,rfl⟩ := h
  rfl

theorem RecordOf.prevHash : r.prevHash=b.prevHeaderHash := by
  obtain ⟨_,_,_,_,_,_,rfl⟩ := h
  rfl

theorem RecordOf.height : r.height=b.height := by
  obtain ⟨_,_,_,_,_,_,rfl⟩ := h
  rfl

theorem RecordOf.weight : r.weight=b.weight := by
  obtain ⟨_,_,_,_,_,_,rfl⟩ := h
  rfl

theorem RecordOf.isTransactionBlock : r.isTransactionBlock=b.isTransactionBlock := by
  obtain ⟨_,_,_,_,_,_,rfl⟩ := h
  simp [BlockRecord.isTransactionBlock,headerBlockToSubBlockRecord,FullBlock.isTransactionBlock]

end Fields

@[simp] theorem worldForest_find (h : Bytes32) : (w.forest E).find h=w.block? h := rfl
@[simp] theorem worldForest_key (b : FullBlock) : (w.forest E).key b=b.headerHash E := rfl
@[simp] theorem worldForest_parent (b : FullBlock) : (w.forest E).parent b=b.prevHeaderHash := rfl
@[simp] theorem worldForest_height (b : FullBlock) : (w.forest E).height b=b.height := rfl

namespace Indexed

theorem keyed (h : Indexed E w) : (w.forest E).Keyed := h.key

variable {k : Bytes32}

theorem record (h : Indexed E w) (hb : w.block? k=some b) : ∃ r,RecordOf E b r ∧ w.record? k=some r := by
  obtain ⟨r,isPeak,hr,hrow⟩ := h.row k b hb
  exact ⟨r,hr,by simp [World.record?,hrow,BlockRecordRow.of]⟩

theorem blockOf (h : Indexed E w) (hr : w.chain.blockRecords.get? k=some r) :
    ∃ b,w.block? k=some b ∧ RecordOf E b r := by
  rw [h.memory,World.record?,Option.map_eq_some_iff] at hr
  obtain ⟨row,hrow,hr⟩ := hr
  obtain ⟨b,hb⟩ := Option.isSome_iff_exists.mp (h.block k row hrow)
  obtain ⟨r',hr',hrec⟩ := h.record hb
  rw [World.record?,hrow] at hrec
  simp only [Option.map_some,Option.some.injEq] at hrec
  exact ⟨b,hb,by rw [← hr,hrec]; exact hr'⟩

theorem contains_iff (h : Indexed E w) (k : Bytes32) :
    w.chain.view.containsBlock k=true ↔ (w.block? k).isSome := by
  constructor
  · intro hc
    obtain ⟨r,hr⟩ := Option.isSome_iff_exists.mp hc
    obtain ⟨b,hb,-⟩ := h.blockOf hr
    simp [hb]
  · intro hb
    obtain ⟨b,hb⟩ := Option.isSome_iff_exists.mp hb
    obtain ⟨r,-,hr⟩ := h.record hb
    have hm : w.chain.blockRecords.get? k=some r := by rw [h.memory,hr]
    simp [BlockView.containsBlock,Dict.contains,Chain.view,hm]

theorem view_keyed (h : Indexed E w) : w.chain.view.forest.Keyed := by
  intro k r hr
  obtain ⟨b,hb,hrec⟩ := h.blockOf hr
  exact hrec.headerHash.trans (h.key k b hb)

variable {l : List FullBlock}

theorem path (h : Indexed E w) (hp : (w.forest E).Path k l) :
    ∃ rs,w.chain.view.forest.Path k rs ∧ List.Forall₂ (RecordOf E) l rs := by
  apply hp.related
  · intro k v hv
    obtain ⟨r,hr,hk⟩ := h.record hv
    exact ⟨r,(h.memory _).trans hk,hr⟩
  · exact fun _ _ hr => hr.prevHash
  · exact fun _ _ hr => hr.height

theorem onTop (h : Indexed E w) (hl : (w.forest E).OnTop l b) (hr : RecordOf E b r) :
    ∃ rs,w.chain.view.forest.OnTop rs r ∧ List.Forall₂ (RecordOf E) l rs := by
  rcases hl with ⟨hh,rfl | hp⟩
  · exact ⟨[],⟨hr.height.trans hh,Or.inl rfl⟩,.nil⟩
  · obtain ⟨rs,hrs,hall⟩ := h.path hp
    refine ⟨rs,⟨(hr.height.trans hh).trans hall.length_eq,Or.inr ?_⟩,hall⟩
    rw [forest_parent,hr.prevHash]
    exact hrs

end Indexed

variable {l : List FullBlock}

theorem inHeightOrder_of_path {k : Bytes32} (h : (w.forest E).Path k l) :
    InHeightOrder l := fun i hi => h.height_getElem i hi

theorem inHeightOrder_of_onTop (h : (w.forest E).OnTop l b) : InHeightOrder (l++[b]) := by
  intro i hi
  simp only [List.length_append,List.length_singleton] at hi
  have hb : b.height=l.length := h.1
  by_cases hlt : i<l.length
  · rw [List.getElem_append_left hlt]
    rcases h.2 with rfl | hp
    · simp at hlt
    · exact hp.height_getElem i hlt
  · have : i=l.length := by omega
    subst this
    simpa using hb

theorem indexed_empty (m n : ℕ) : Indexed E (World.empty m n) := by
  have hblock : ∀ h,(World.empty m n).block? h=none := fun _ => rfl
  refine ⟨rfl,?_,?_,?_,fun _ => rfl,?_,?_⟩
  · intro h b hb
    simp [hblock] at hb
  · intro h b hb
    simp [hblock] at hb
  · intro h row hrow
    simp [World.empty] at hrow
  · intro h b hb
    simp [hblock] at hb
  · intro h b hb
    simp [hblock] at hb

theorem mainChain_empty (m n : ℕ) : MainChain E (World.empty m n) [] :=
  ⟨rfl,by simp,by simp,fun _ _ => rfl⟩

end RoseChain
