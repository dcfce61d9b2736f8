import RoseChain.Consensus.Reload
import RoseChain.FullNode.ReplaceProof

namespace RoseChain
open Lib Blockchain
variable {E : Env} {w s : World} {P Q : List FullBlock} {b : FullBlock} {r : BlockRecord}
  {pre : Option PreValidationResult} {forkPointWithPeak : Option ℕ}

/-- Two versions of a block, with other proofs of its VDFs. -/
structure SameBlock (b b' : FullBlock) : Prop where
  slots : b'.finishedSubSlots.map (fun s => (s.challengeChain,s.infusedChallengeChain,s.rewardChain)) =
    b.finishedSubSlots.map (fun s => (s.challengeChain,s.infusedChallengeChain,s.rewardChain))
  rewardChainBlock : b'.rewardChainBlock=b.rewardChainBlock
  foliage : b'.foliage=b.foliage
  foliageTransactionBlock : b'.foliageTransactionBlock=b.foliageTransactionBlock
  transactionsInfo : b'.transactionsInfo=b.transactionsInfo
  transactionsGenerator : b'.transactionsGenerator=b.transactionsGenerator
  refList : b'.transactionsGeneratorRefList=b.transactionsGeneratorRefList

namespace SameBlock
variable {x y z : FullBlock}

theorem refl (x : FullBlock) : SameBlock x x := ⟨rfl,rfl,rfl,rfl,rfl,rfl,rfl⟩

section
variable (h : SameBlock x y)
include h

theorem trans (h' : SameBlock y z) : SameBlock x z :=
  ⟨h'.slots.trans h.slots,h'.rewardChainBlock.trans h.rewardChainBlock,h'.foliage.trans h.foliage,
    h'.foliageTransactionBlock.trans h.foliageTransactionBlock,
    h'.transactionsInfo.trans h.transactionsInfo,
    h'.transactionsGenerator.trans h.transactionsGenerator,h'.refList.trans h.refList⟩

theorem symm : SameBlock y x :=
  ⟨h.slots.symm,h.rewardChainBlock.symm,h.foliage.symm,h.foliageTransactionBlock.symm,
    h.transactionsInfo.symm,h.transactionsGenerator.symm,h.refList.symm⟩

theorem headerHash : y.headerHash E=x.headerHash E :=
  congrArg E.hashFoliage h.foliage

theorem prevHeaderHash : y.prevHeaderHash=x.prevHeaderHash :=
  congrArg Foliage.prevBlockHash h.foliage

theorem height : y.height=x.height :=
  congrArg RewardChainBlock.height h.rewardChainBlock

theorem recordOf (hr : RecordOf E x r) : RecordOf E y r := by
  obtain ⟨requiredIters,subSlotIters,overflow,deficit,prevHeight,ses,rfl⟩ := hr
  refine ⟨requiredIters,subSlotIters,overflow,deficit,prevHeight,ses,?_⟩
  have hmap {γ : Type} (f : ChallengeChainSubSlot × Option InfusedChallengeChainSubSlot × RewardChainSubSlot → γ) :
      y.finishedSubSlots.map (fun s => f (s.challengeChain,s.infusedChallengeChain,s.rewardChain)) =
        x.finishedSubSlots.map fun s => f (s.challengeChain,s.infusedChallengeChain,s.rewardChain) := by
    have h := congrArg (List.map f) h.slots
    rw [List.map_map,List.map_map] at h
    exact h
  have hnil : y.finishedSubSlots≠[] ↔ x.finishedSubSlots≠[] := by
    have h := congrArg List.length h.slots
    simp only [List.length_map] at h
    rw [← List.length_pos_iff,← List.length_pos_iff,h]
  have hc := hmap fun t => E.hashChallengeChainSubSlot t.1
  have hi := congrArg (List.filterMap id) (hmap fun t => t.2.1.map E.hashInfusedChallengeChainSubSlot)
  have hrc := hmap fun t => E.hashRewardChainSubSlot t.2.2
  simp only [List.filterMap_map] at hi
  simp only [headerBlockToSubBlockRecord,FullBlock.headerHash,FullBlock.prevHeaderHash,FullBlock.height,
    FullBlock.weight,FullBlock.totalIters,h.rewardChainBlock,h.foliage,h.foliageTransactionBlock,
    h.transactionsInfo,hc,hrc,hnil]
  congr 2
  exact congrArg some hi.symm

end

end SameBlock

theorem replaceSlotProof_slots {belongs : EndOfSubSlotBundle → Bool} {put : SubSlotProofs → SubSlotProofs}
    {l l' : List EndOfSubSlotBundle} (h : FullNode.replaceSlotProof belongs put l=some l') :
    l'.map (fun s => (s.challengeChain,s.infusedChallengeChain,s.rewardChain)) =
      l.map (fun s => (s.challengeChain,s.infusedChallengeChain,s.rewardChain)) := by
  induction l generalizing l' with
  | nil => cases h
  | cons s l ih =>
    unfold FullNode.replaceSlotProof at h
    split_ifs at h
    · rw [← Option.some.inj h]
      rfl
    · obtain ⟨l₁,hl₁,rfl⟩ := Option.map_eq_some_iff.mp h
      rw [List.map_cons,List.map_cons,ih hl₁]

variable {vdfInfo : VDFInfo} {vdfProof : VDFProof} {field : CompressibleVDFField}

theorem compacted_sameBlock {b' : FullBlock} (h : FullNode.compacted vdfInfo vdfProof b field = .ok (some b')) : SameBlock b b' := by
  cases field with
  | ccEosVdf =>
    obtain ⟨l,hl,rfl⟩ := Option.map_eq_some_iff.mp (Except.ok.inj h)
    exact { SameBlock.refl b with slots := replaceSlotProof_slots hl }
  | iccEosVdf =>
    obtain ⟨l,hl,rfl⟩ := Option.map_eq_some_iff.mp (Except.ok.inj h)
    exact { SameBlock.refl b with slots := replaceSlotProof_slots hl }
  | ccSpVdf =>
    simp only [FullNode.compacted] at h
    by_cases hv : b.rewardChainBlock.challengeChainSpVdf=some vdfInfo
    · rw [if_pos hv] at h
      obtain ⟨_,_,h⟩ := bind_ok.mp h
      rw [← Option.some.inj (Except.ok.inj h)]
      exact { SameBlock.refl b with }
    · rw [if_neg hv] at h
      cases Except.ok.inj h
  | ccIpVdf =>
    simp only [FullNode.compacted] at h
    by_cases hv : b.rewardChainBlock.challengeChainIpVdf=vdfInfo
    · rw [if_pos hv] at h
      rw [← Option.some.inj (Except.ok.inj h)]
      exact { SameBlock.refl b with }
    · rw [if_neg hv] at h
      cases Except.ok.inj h

/-- What stays of the rows: each block up to its proofs, each record up to the peak's mark. -/
structure Persisted (w s : World) : Prop where
  blocks : ∀ k x,w.block? k=some x → ∃ y,s.block? k=some y ∧ SameBlock x y
  records : ∀ k row,w.db.blockRecords.get? k=some row →
    ∃ isPeak,s.db.blockRecords.get? k=some { row with isPeak := isPeak }

theorem Persisted.of_eq (h : s.db=w.db) : Persisted w s := by
  refine ⟨?_,?_⟩
  · intro k x hx
    refine ⟨x,?_,.refl x⟩
    unfold World.block?
    rw [h]
    exact hx
  · intro k row hrow
    refine ⟨row.isPeak,?_⟩
    rw [h]
    exact hrow

variable {v : World}

theorem Persisted.trans (h : Persisted w v) (h' : Persisted v s) : Persisted w s := by
  refine ⟨?_,?_⟩
  · intro k x hx
    obtain ⟨y,hy,hxy⟩ := h.blocks k x hx
    obtain ⟨z,hz,hyz⟩ := h'.blocks k y hy
    exact ⟨z,hz,hxy.trans hyz⟩
  · intro k row hrow
    obtain ⟨isPeak,hv⟩ := h.records k row hrow
    exact h'.records k { row with isPeak := isPeak } hv

theorem Resting.kept (h : Resting E w P) (hm : PeakMarked E w P)
    {answer : Check (ReceiveBlockResult × Option Err × Option ℕ)} (ha : Answered E w s P b pre answer) :
    Persisted w s ∧ ∃ P',Resting E s P' ∧ PeakMarked E s P' := by
  have hsame {c : Chain} (hs : AtRest { w with chain := c } s) (hc : SameIndex w c) :
      Persisted w s ∧ ∃ P',Resting E s P' ∧ PeakMarked E s P' := by
    refine ⟨.of_eq hs.db,P,h.still hc hs,?_⟩
    unfold PeakMarked
    rw [hs.db]
    exact hm
  have hold {Q : List FullBlock} {r : BlockRecord} (ha : Arrival E w P Q b r) {k : Bytes32} {row : BlockRecordRow}
      (hrow : w.db.blockRecords.get? k=some row) : (w.adding E b r).db.blockRecords.get? k=some row := by
    simp only [World.adding,BlockStore.withBlock,Dict.get?_set]
    rw [if_neg,hrow]
    intro hk
    have hx := h.indexed.block k row hrow
    rw [← hk,ha.isNew] at hx
    cases hx
  have hblocks {Q : List FullBlock} {r : BlockRecord} (ha : Arrival E w P Q b r)
      (hb : s.block?=(w.adding E b r).block?) :
      ∀ k x,w.block? k=some x → ∃ y,s.block? k=some y ∧ SameBlock x y := by
    intro k x hx
    refine ⟨x,?_,.refl x⟩
    rw [hb,adding_block?,if_neg,hx]
    intro hk
    rw [← hk,ha.isNew] at hx
    cases hx
  cases ha with
  | still hs hno => exact hsame hs ⟨rfl,rfl,rfl⟩
  | raised c hc hs => exact hsame hs hc
  | orphan ha hweight hheavy hs =>
    refine ⟨⟨hblocks ha hs.block?,?_⟩,P,ha.resting_orphan hheavy hs,hm.orphan h ha hs⟩
    intro k row hrow
    rw [hs.blockRecords]
    exact ⟨row.isPeak,hold ha hrow⟩
  | newPeak ha hweight hheavy hat hapart hrecs hs =>
    refine ⟨⟨hblocks ha hs.block?,?_⟩,_,ha.resting_newPeak hat hrecs hs,hs.peakMarked⟩
    intro k row hrow
    rw [hs.blockRecords,peakAt,Dict.get?_mapVals,hold ha hrow]
    exact ⟨_,rfl⟩

/-- What is about to be written: a version of a stored block, and the stored record of that block. -/
def Stored (E : Env) (w : World) (p : FullBlock × BlockRecord) : Prop :=
  (∃ x,w.block? (p.1.headerHash E)=some x ∧ SameBlock x p.1) ∧
    w.record? (p.1.headerHash E)=some p.2

theorem Persisted.stored (h : Persisted w s) {p : FullBlock × BlockRecord} (hp : Stored E w p) : Stored E s p := by
  obtain ⟨⟨x,hx,hxp⟩,hr⟩ := hp
  obtain ⟨y,hy,hxy⟩ := h.blocks _ x hx
  refine ⟨⟨y,hy,hxy.symm.trans hxp⟩,?_⟩
  obtain ⟨row,hrow,hrec⟩ := Option.map_eq_some_iff.mp hr
  obtain ⟨isPeak,hs⟩ := h.records _ row hrow
  unfold World.record?
  rw [hs,← hrec]
  rfl

def World.written (E : Env) (w : World) (p : FullBlock × BlockRecord) : World :=
  { w with
    db := BlockStore.withBlock (p.1.headerHash E) p.1 p.2 w.db
    saved := none
    blockCache := w.blockCache.put (p.1.headerHash E) p.1
    interrupt := none }

theorem replaceProofWrite_calm (w : World) (p : FullBlock × BlockRecord) :
    FullNode.replaceProofWrite E p.1 p.2 (w.due none)=(.ok (),w.written E p) := by
  unfold FullNode.replaceProofWrite
  rw [Eff.bind_of_ok (BlockStore.addFullBlock_calm (w := w.due none) rfl _ _ _)]
  rfl

section Write
variable {p : FullBlock × BlockRecord}

theorem written_block? (k : Bytes32) : (w.written E p).block? k =
    if p.1.headerHash E=k then some p.1 else w.block? k := by
  simp only [World.block?,World.written,BlockStore.withBlock,Dict.get?_set]
  split_ifs <;> rfl

theorem written_row (k : Bytes32) : (w.written E p).db.blockRecords.get? k =
    if p.1.headerHash E=k then some (.of p.1 p.2) else w.db.blockRecords.get? k := by
  simp only [World.written,BlockStore.withBlock,Dict.get?_set]

section
variable (hp : Stored E w p)
include hp

theorem Stored.blocks (k : Bytes32) (x : FullBlock) (hx : w.block? k=some x) :
    ∃ y,(w.written E p).block? k=some y ∧ SameBlock x y := by
  rw [written_block?]
  split_ifs with hk
  · obtain ⟨⟨x',hx',hsame⟩,-⟩ := hp
    rw [hk,hx,Option.some.injEq] at hx'
    exact ⟨p.1,rfl,hx' ▸ hsame⟩
  · exact ⟨x,hx,.refl x⟩

theorem Stored.path {k : Bytes32} {l : List FullBlock} (h : (w.forest E).Path k l) :
    ∃ m,((w.written E p).forest E).Path k m ∧ List.Forall₂ SameBlock l m :=
  h.related hp.blocks (fun _ _ hs => hs.prevHeaderHash) fun _ _ hs => hs.height

theorem Stored.row (hi : Indexed E w) :
    ∃ isPeak,RecordOf E p.1 p.2 ∧ w.db.blockRecords.get? (p.1.headerHash E) =
      some { BlockRecordRow.of p.1 p.2 with isPeak := isPeak } := by
  obtain ⟨⟨x,hx,hsame⟩,hr⟩ := hp
  obtain ⟨r,isPeak,hrec,hrow⟩ := hi.row _ x hx
  have hrp : r=p.2 := by
    rw [World.record?,hrow] at hr
    exact Option.some.inj hr
  rw [hrp] at hrec hrow
  refine ⟨isPeak,hsame.recordOf hrec,hrow.trans ?_⟩
  simp only [BlockRecordRow.of,hsame.prevHeaderHash,hsame.height,FullBlock.isTransactionBlock,
    hsame.foliageTransactionBlock]

theorem Stored.record? : (w.written E p).record?=w.record? := by
  funext k
  rw [World.record?,written_row]
  split_ifs with hk
  · rw [← hk,hp.2]
    rfl
  · rfl

theorem Stored.persisted (hi : Indexed E w) : Persisted w (w.written E p) := by
  refine ⟨hp.blocks,?_⟩
  intro k row hrow
  rw [written_row]
  split_ifs with hk
  · obtain ⟨isPeak,-,hold⟩ := hp.row hi
    rw [hk,hrow,Option.some.injEq] at hold
    exact ⟨false,by rw [hold]; rfl⟩
  · exact ⟨row.isPeak,hrow⟩

theorem Stored.indexed (hi : Indexed E w) : Indexed E (w.written E p) := by
  have hold {k : Bytes32} {y : FullBlock} (hy : (w.written E p).block? k=some y) :
      ∃ x,w.block? k=some x ∧ SameBlock x y := by
    rw [written_block?] at hy
    split_ifs at hy with hk
    · obtain ⟨⟨x,hx,hsame⟩,-⟩ := hp
      rw [← Option.some.inj hy,← hk]
      exact ⟨x,hx,hsame⟩
    · exact ⟨y,hy,.refl y⟩
  refine ⟨rfl,?_,?_,?_,?_,?_,?_⟩
  · intro k y hy
    obtain ⟨x,hx,hsame⟩ := hold hy
    rw [hsame.headerHash,hi.key k x hx]
  · intro k y hy
    rw [written_row]
    rw [written_block?] at hy
    split_ifs at hy ⊢ with hk
    · obtain ⟨isPeak,hrec,-⟩ := hp.row hi
      rw [← Option.some.inj hy]
      exact ⟨p.2,false,hrec,rfl⟩
    · exact hi.row k y hy
  · intro k row hrow
    rw [written_row] at hrow
    rw [written_block?]
    split_ifs at hrow ⊢
    · rfl
    · exact hi.block k row hrow
  · intro k
    rw [hp.record?]
    exact hi.memory k
  · intro k y hy
    obtain ⟨x,hx,hsame⟩ := hold hy
    obtain ⟨l,hheight,hl⟩ := hi.ancestors k x hx
    obtain rfl | hl := hl
    · exact ⟨[],hsame.height.trans hheight,Or.inl rfl⟩
    · obtain ⟨m,hm,hall⟩ := hp.path hl
      refine ⟨m,?_,Or.inr ?_⟩
      · exact (hsame.height.trans hheight).trans hall.length_eq
      · rw [worldForest_parent,hsame.prevHeaderHash]
        exact hm
  · intro k y hy hno
    obtain ⟨x,hx,hsame⟩ := hold hy
    rw [hsame.transactionsGenerator]
    apply hi.plain k x hx
    unfold FullBlock.isTransactionBlock at hno ⊢
    rwa [← hsame.foliageTransactionBlock]

theorem Stored.resting (h : Resting E w P) :
    ∃ P',Resting E (w.written E p) P' ∧ List.Forall₂ SameBlock P P' := by
  have hblocks : (w.written E p).blockCache.Within (w.written E p).block? := by
    intro k v hv
    rw [written_block?]
    obtain ⟨rfl,rfl⟩ | ⟨hne,hv'⟩ := LRUCache.get?_put _ hv
    · rw [if_pos rfl]
    · rw [if_neg hne]
      exact h.blocks k v hv'
  obtain hP | hP := P.eq_nil_or_concat
  · subst hP
    obtain ⟨⟨x,hx,-⟩,-⟩ := hp
    have hnone := h.main.start rfl (p.1.headerHash E)
    rw [hx] at hnone
    cases hnone
  · obtain ⟨k,hk⟩ := h.main.path (by obtain ⟨P,b,rfl⟩ := hP; simp)
    obtain ⟨P',hk',hall⟩ := hp.path hk
    have hlen := hall.length_eq
    refine ⟨P',⟨hp.indexed h.indexed,⟨?_,fun _ => ⟨k,hk'⟩,?_,?_⟩,hblocks⟩,hall⟩
    · rw [← hlen]
      exact h.main.peakHeight
    · intro i hi
      have hsame := hall.get (by rw [hlen]; exact hi) hi
      simp only [List.get_eq_getElem] at hsame
      rw [hsame.headerHash]
      exact h.main.index i (by rw [hlen]; exact hi)
    · intro hnil
      exact absurd hk'.length_pos (by simp [hnil])

end

def NotPeak (E : Env) (w : World) (p : FullBlock × BlockRecord) : Prop :=
  ∀ r,getPeak w.chain = .ok (some r) → r.headerHash≠p.1.headerHash E

theorem PeakMarked.written (hm : PeakMarked E w P) (h : Resting E w P) (hno : NotPeak E w p)
    {P' : List FullBlock} (hall : List.Forall₂ SameBlock P P') : PeakMarked E (w.written E p) P' := by
  have hlast (k : Bytes32) : (∃ x,P'.getLast?=some x ∧ x.headerHash E=k) ↔
      ∃ x,P.getLast?=some x ∧ x.headerHash E=k := by
    have hlen := hall.length_eq
    rw [List.getLast?_eq_getElem?,List.getLast?_eq_getElem?,← hlen]
    have hopt : P'[P.length-1]?.map (·.headerHash E)=P[P.length-1]?.map (·.headerHash E) := by
      by_cases hi : P.length-1<P.length
      · have hsame := hall.get hi (by rw [← hlen]; exact hi)
        simp only [List.get_eq_getElem] at hsame
        rw [List.getElem?_eq_getElem hi,List.getElem?_eq_getElem (by rw [← hlen]; exact hi)]
        exact congrArg some hsame.headerHash
      · rw [List.getElem?_eq_none (by omega),List.getElem?_eq_none (by omega)]
    rw [← Option.map_eq_some_iff,← Option.map_eq_some_iff,hopt]
  intro k row hrow
  rw [hlast]
  rw [written_row] at hrow
  split_ifs at hrow with hk
  · rw [← Option.some.inj hrow]
    constructor
    · intro hmark
      cases hmark
    · intro hx
      obtain ⟨x,hx,hxk⟩ := hx
      obtain ⟨P,rfl⟩ := List.getLast?_eq_some_iff.mp hx
      obtain ⟨r,hpeak,hr,-⟩ := getPeak_concat h.indexed h.main
      exact absurd ((hr.headerHash.trans hxk).trans hk.symm) (hno r hpeak)
  · exact hm k row hrow

end Write

/-- A node, the stored blocks that were found for compact proofs, and the writes that were prepared;
what was found or prepared may be used at any later time. -/
structure Replacing where
  world : World
  found : List FullBlock
  ready : List (FullBlock × BlockRecord)

/-- Blocks come in, and proofs are replaced; `C` says which of the prepared writes may take place. -/
inductive Step (E : Env) (C : World → FullBlock × BlockRecord → Prop) : Replacing → Replacing → Prop
  | receive {n : Replacing} {b : FullBlock} {p : Option PreValidationResult} {f : Option ℕ}
      (hfork : ProperFork E n.world b f) (i : Option (ℕ × PyErr)) :
      Step E C n { n with world := (receiveBlock E b p f (n.world.due i)).2 }
  | find {n : Replacing} (height : ℕ) {l : List FullBlock} {s : World}
      (h : FullNode.replaceProofFind E height (n.world.due none)=(.ok l,s)) :
      Step E C n ⟨s,n.found++l,n.ready⟩
  | make {n : Replacing} {b : FullBlock} (hb : b∈n.found) (vdfInfo : VDFInfo) (vdfProof : VDFProof)
      (field : CompressibleVDFField) {p : FullBlock × BlockRecord} {s : World}
      (h : FullNode.replaceProofMake E vdfInfo vdfProof field b (n.world.due none)=(.ok (some p),s)) :
      Step E C n ⟨s,n.found,n.ready++[p]⟩
  | write {n : Replacing} {p : FullBlock × BlockRecord} (hp : p∈n.ready) (hc : C n.world p) :
      Step E C n { n with world := (FullNode.replaceProofWrite E p.1 p.2 (n.world.due none)).2 }

def Replacing.start (blockCacheSize coinCacheSize : ℕ) : Replacing :=
  ⟨World.empty blockCacheSize coinCacheSize,[],[]⟩

/-- The mark is at the peak, and what waits to be written is a version of what is stored. -/
structure Sound (E : Env) (n : Replacing) (P : List FullBlock) : Prop where
  resting : Resting E n.world P
  marked : PeakMarked E n.world P
  found : ∀ b∈n.found,∃ x,n.world.block? (b.headerHash E)=some x ∧ SameBlock x b
  ready : ∀ p∈n.ready,Stored E n.world p

variable {n : Replacing}

theorem Sound.keeps (h : Sound E n P) (hk : Persisted n.world s) {P' : List FullBlock}
    (hr : Resting E s P') (hm : PeakMarked E s P') : Sound E { n with world := s } P' := by
  refine ⟨hr,hm,?_,fun p hp => hk.stored (h.ready p hp)⟩
  intro b hb
  obtain ⟨x,hx,hxb⟩ := h.found b hb
  obtain ⟨y,hy,hxy⟩ := hk.blocks _ x hx
  exact ⟨y,hy,hxy.symm.trans hxb⟩

theorem replaceProofFind_stored (hv : v.interrupt=none) (hi : Indexed E v) {height : ℕ}
    {l : List FullBlock} (h : FullNode.replaceProofFind E height v=(.ok l,s)) :
    s=v ∧ ∀ b∈l,v.block? (b.headerHash E)=some b := by
  unfold FullNode.replaceProofFind at h
  rw [Eff.bind_of_ok (fetch_calm hv _)] at h
  obtain ⟨_,_,hsome,h⟩ := Eff.bind_ok h
  obtain rfl : v=_ := congrArg Prod.snd hsome
  rw [Eff.bind_get] at h
  obtain ⟨expected,_,hexp,h⟩ := Eff.bind_ok h
  obtain rfl : v=_ := congrArg Prod.snd hexp
  have hl := Except.ok.inj (congrArg Prod.fst h)
  refine ⟨(congrArg Prod.snd h).symm,?_⟩
  intro b hb
  rw [← hl,List.mem_filter] at hb
  obtain ⟨e,he,rfl⟩ := List.mem_map.mp hb.1
  have hrow := (Dict.mem_entries _ _ _).mp (List.mem_filter.mp he).1
  have hstored : v.block? e.1=some e.2.block := by
    rw [World.block?,hrow]
    rfl
  rw [hi.key _ _ hstored]
  exact hstored

theorem replaceProofMake_stored (hv : v.interrupt=none) (hi : Indexed E v) {p : FullBlock × BlockRecord}
    (hb : ∃ x,v.block? (b.headerHash E)=some x ∧ SameBlock x b)
    (h : FullNode.replaceProofMake E vdfInfo vdfProof field b v=(.ok (some p),s)) : s=v ∧ Stored E v p := by
  have hrecord : getBlockRecordFromDb (b.headerHash E) v=(.ok (v.record? (b.headerHash E)),v) := by
    unfold getBlockRecordFromDb
    rw [Eff.bind_get]
    cases hmem : v.chain.blockRecords.get? (b.headerHash E) with
    | some r =>
      rw [← hi.memory,hmem]
      rfl
    | none => exact BlockStore.getBlockRecord_calm hv _
  unfold FullNode.replaceProofMake at h
  rw [Eff.bind_of_ok hrecord] at h
  obtain ⟨record,_,hrec,h⟩ := Eff.bind_ok h
  obtain rfl : v=_ := congrArg Prod.snd hrec
  obtain ⟨newBlock,_,hnew,h⟩ := Eff.bind_ok h
  obtain rfl : v=_ := congrArg Prod.snd hnew
  have hrec : assertSome (v.record? (b.headerHash E)) = .ok record := congrArg Prod.fst hrec
  have hnew : FullNode.compacted vdfInfo vdfProof b field = .ok newBlock := congrArg Prod.fst hnew
  obtain ⟨b',hb',rfl⟩ := Option.map_eq_some_iff.mp (Except.ok.inj (congrArg Prod.fst h))
  rw [hb'] at hnew
  have hsame := compacted_sameBlock hnew
  obtain ⟨x,hx,hxb⟩ := hb
  refine ⟨(congrArg Prod.snd h).symm,⟨x,?_,hxb.trans hsame⟩,?_⟩
  · rw [hsame.headerHash]
    exact hx
  · rw [hsame.headerHash]
    exact assertSome_eq_ok.mp hrec

variable {m : Replacing}

theorem Sound.step (h : Sound E n P) (hs : Step E (NotPeak E) n m) :
    Persisted n.world m.world ∧ ∃ P',Sound E m P' := by
  cases hs with
  | receive hfork i =>
    obtain ⟨hk,P',hr,hm⟩ := h.resting.kept h.marked (h.resting.answered hfork i)
    exact ⟨hk,P',h.keeps hk hr hm⟩
  | find height hfind =>
    obtain ⟨rfl,hl⟩ := replaceProofFind_stored rfl (h.resting.due none).indexed hfind
    refine ⟨.of_eq rfl,P,h.resting.due none,h.marked,?_,h.ready⟩
    intro b hb
    obtain hb | hb := List.mem_append.mp hb
    · exact h.found b hb
    · exact ⟨b,hl b hb,.refl b⟩
  | make hb vdfInfo vdfProof field hmake =>
    obtain ⟨rfl,hp⟩ := replaceProofMake_stored rfl (h.resting.due none).indexed (h.found _ hb) hmake
    refine ⟨.of_eq rfl,P,h.resting.due none,h.marked,h.found,?_⟩
    intro q hq
    obtain hq | hq := List.mem_append.mp hq
    · exact h.ready q hq
    · rw [List.mem_singleton.mp hq]
      exact hp
  | @write p hp hc =>
    have hstored := h.ready p hp
    rw [replaceProofWrite_calm]
    obtain ⟨P',hr,hall⟩ := hstored.resting h.resting
    have hk := hstored.persisted h.resting.indexed
    exact ⟨hk,P',h.keeps hk hr (h.marked.written h.resting hc hall)⟩

theorem Sound.run (h : Sound E n P) (hs : Relation.ReflTransGen (Step E (NotPeak E)) n m) :
    Persisted n.world m.world ∧ ∃ P',Sound E m P' := by
  induction hs with
  | refl => exact ⟨.of_eq rfl,P,h⟩
  | tail _ hstep ih =>
    obtain ⟨hk,P',h'⟩ := ih
    obtain ⟨hk',hsound⟩ := h'.step hstep
    exact ⟨hk.trans hk',hsound⟩

theorem sound_start (m n : ℕ) : Sound E (Replacing.start m n) [] := by
  refine ⟨⟨indexed_empty m n,mainChain_empty m n,(coherent_empty (E := E) m n).blocks⟩,?_,?_,?_⟩
  · intro k row hrow
    cases hrow
  · intro b hb
    cases hb
  · intro p hp
    cases hp

/-- As long as no compact proof is written for the peak, the mark stays with it, no row is lost, and a
restart recovers the peak and the path to it. -/
theorem replacing_recovers {n m : Replacing} {blockCacheSize coinCacheSize : ℕ}
    (h : Relation.ReflTransGen (Step E (NotPeak E)) (Replacing.start blockCacheSize coinCacheSize) n)
    (h' : Relation.ReflTransGen (Step E (NotPeak E)) n m) : Persisted n.world m.world ∧
      ∃ P c,MainChain E m.world P ∧ PeakMarked E m.world P ∧ Rebuilt E m.world P c := by
  obtain ⟨-,P,hn⟩ := (sound_start blockCacheSize coinCacheSize).run h
  obtain ⟨hk,P',hm⟩ := hn.run h'
  obtain ⟨c,hc⟩ := hm.marked.rebuilt hm.resting.indexed hm.resting.main
  exact ⟨hk,P',c,hm.resting.main,hm.marked,hc⟩

variable {C : World → FullBlock × BlockRecord → Prop}

theorem tinyState_run (blocks : List FullBlock) :
    Relation.ReflTransGen (Step tinyEnv C) (Replacing.start 5 5) ⟨tinyState blocks,[],[]⟩ := by
  induction blocks using List.reverseRecOn with
  | nil => exact .refl
  | append_singleton blocks b ih =>
    have hstep := Step.receive (E := tinyEnv) (C := C) (n := ⟨tinyState blocks,[],[]⟩) (b := b) (p := tinyPre)
      (f := none) (fun _ h => (by cases h)) none
    unfold tinyState
    rw [List.foldl_append]
    exact ih.tail hstep

def compactProof : VDFProof := ⟨0,[1],true⟩

def tinyCompact : FullBlock × BlockRecord :=
  ({ tinyGenesis with challengeChainIpProof := compactProof },
    headerBlockToSubBlockRecord tinyEnv 1 tinyGenesis 1024 false 15 0 none)

theorem tinyCompact_run (blocks : List FullBlock)
    (hfind : (FullNode.replaceProofFind tinyEnv 0 ((tinyState blocks).due none)).1 = .ok [tinyGenesis])
    (hmake : (FullNode.replaceProofMake tinyEnv tinyVdf compactProof .ccIpVdf tinyGenesis
      ((tinyState blocks).due none)).1 = .ok (some tinyCompact))
    (hc : C ((tinyState blocks).due none) tinyCompact) :
    ∃ n,Relation.ReflTransGen (Step tinyEnv C) (Replacing.start 5 5) n ∧
      n.world=(tinyState blocks).written tinyEnv tinyCompact := by
  have hindexed : Indexed tinyEnv ((tinyState blocks).due none) := by
    obtain ⟨-,P,h⟩ := (sound_start 5 5).run (tinyState_run (C := NotPeak tinyEnv) blocks)
    exact (h.resting.due none).indexed
  have hfind' : FullNode.replaceProofFind tinyEnv 0 ((tinyState blocks).due none)=(.ok [tinyGenesis],_) :=
    Prod.ext hfind rfl
  have hmake' : FullNode.replaceProofMake tinyEnv tinyVdf compactProof .ccIpVdf tinyGenesis
      ((tinyState blocks).due none)=(.ok (some tinyCompact),_) := Prod.ext hmake rfl
  obtain ⟨hs,hstored⟩ := replaceProofFind_stored rfl hindexed hfind'
  obtain ⟨hs',-⟩ := replaceProofMake_stored rfl hindexed ⟨_,hstored tinyGenesis (by simp),.refl _⟩ hmake'
  rw [hs] at hfind'
  rw [hs'] at hmake'
  have h₁ := (tinyState_run (C := C) blocks).tail (Step.find 0 hfind')
  have h₂ := h₁.tail (Step.make (b := tinyGenesis) (by simp) tinyVdf compactProof .ccIpVdf hmake')
  have h₃ := h₂.tail (Step.write (p := tinyCompact) (by simp) hc)
  refine ⟨_,h₃,?_⟩
  rw [replaceProofWrite_calm]
  rfl

theorem replacing_recovers_genesis : ∃ n : Replacing,
    n.world=(tinyState [tinyGenesis,tinyBlock 11 10 1 8]).written tinyEnv tinyCompact ∧
    Persisted (World.empty 5 5) n.world ∧
      ∃ P c,MainChain tinyEnv n.world P ∧ PeakMarked tinyEnv n.world P ∧ Rebuilt tinyEnv n.world P c := by
  have hno : NotPeak tinyEnv ((tinyState [tinyGenesis,tinyBlock 11 10 1 8]).due none) tinyCompact := by
    intro r hr
    have hpeak : (getPeak (tinyState [tinyGenesis,tinyBlock 11 10 1 8]).chain).map (·.map (·.headerHash)) =
        .ok (some 11) := by decide +kernel
    change getPeak (tinyState [tinyGenesis,tinyBlock 11 10 1 8]).chain=_ at hr
    rw [hr] at hpeak
    have hhash : r.headerHash=11 := Option.some.inj (Except.ok.inj hpeak)
    rw [hhash]
    decide +kernel
  obtain ⟨n,hrun,hn⟩ := tinyCompact_run [tinyGenesis,tinyBlock 11 10 1 8] (by decide +kernel)
    (by decide +kernel) hno
  exact ⟨n,hn,replacing_recovers .refl hrun⟩

/-- A compact proof for the peak itself: no row is marked any more, and a restart begins from nothing. -/
theorem peak_lost_of_compact : ∃ n,Relation.ReflTransGen (Step tinyEnv fun _ _ => True) (Replacing.start 5 5) n ∧
    n.world.chain.peakHeight=some 0 ∧ (BlockStore.peakRow n.world.db).isNone ∧
    (loadChainFromStore tinyEnv n.world.db).map (·.peakHeight) = .ok none := by
  obtain ⟨n,hrun,hn⟩ := tinyCompact_run (C := fun _ _ => True) [tinyGenesis] (by decide +kernel)
    (by decide +kernel) trivial
  refine ⟨n,hrun,?_,?_,?_⟩
  · rw [hn]
    decide +kernel
  · rw [hn]
    decide +kernel
  · rw [hn]
    decide +kernel

end RoseChain
