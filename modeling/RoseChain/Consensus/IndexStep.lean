import RoseChain.Consensus.ChainInvariant
import RoseChain.FullNode.Framing

namespace RoseChain
open Lib Blockchain
variable {E : Env} {w : World} {P Q : List FullBlock} {b : FullBlock} {r : BlockRecord}

def IsFork (w : World) (f : ℤ) (b : FullBlock) : Prop :=
  0≤f ∧ w.chain.heightToHash.get? f.toNat=some (b.headerHash E)

/-- The part of a path from a place on: the block below is the one at the fork height, and none above is. -/
structure CutAt (E : Env) (w : World) (f : ℤ) (l : List FullBlock) (k : ℕ) : Prop where
  le : k≤l.length
  below : ∀ x,0<k → l[k-1]?=some x → IsFork (E := E) w f x
  above : ∀ x∈l.drop k,¬ IsFork (E := E) w f x

/-- The record that is stored for a block. -/
structure StoredAs (E : Env) (v : World) (x : FullBlock) (record : BlockRecord) : Prop where
  of : RecordOf E x record
  stored : v.record? (x.headerHash E)=some record

def RecordedIn (E : Env) (v : World) (l : List FullBlock) (L : List (FullBlock × BlockRecord)) : Prop :=
  L.map Prod.fst=l ∧ ∀ p∈L,StoredAs E v p.1 p.2

theorem atFork_ok {f : ℤ} {a : Bool} {V : BlockView} (hV : w.chain.view=V)
    (h : atFork V f (b.headerHash E) = .ok a) : a=true ↔ IsFork (E := E) w f b := by
  subst hV
  unfold atFork at h
  unfold IsFork
  split at h
  · have hneg : ¬ 0≤f := by omega
    cases h
    simp [hneg]
  · simp only [bind_ok,pure,Except.pure,Except.ok.injEq] at h
    obtain ⟨hash,hhash,rfl⟩ := h
    have hget : w.chain.heightToHash.get? f.toNat=some hash := by
      simpa [BlockView.heightToHash,Chain.view] using hhash
    rw [hget]
    simp [eq_comm,show 0≤f by omega]

/-- Whatever the caches and the interruption do: the walk back gives the end of the path, from the fork on. -/
theorem blocksToAdd_answer {v v' : World} (hcache : v.blockCache.Within v.block?)
    (hrec : ∀ k b,v.block? k=some b → b.headerHash E=k ∧ ∃ r,RecordOf E b r ∧ v.record? k=some r)
    {tip : Bytes32} {l : List FullBlock} (hp : (v.forest E).Path tip l) {f : ℤ} {n : ℕ}
    {L : List (FullBlock × BlockRecord)} (h : blocksToAdd f n tip v=(.ok L,v')) :
    ∃ k,CutAt E v f l k ∧ RecordedIn E v (l.drop k).reverse L := by
  induction n generalizing tip l v L v' with
  | zero => cases h
  | succ n ih =>
    obtain ⟨b,m,hb,rfl,htop⟩ := Forest.path_iff.mp hp
    obtain ⟨hkey,r,hr,hrv⟩ := hrec _ _ hb
    have hh : b.height=m.length := htop.1
    rw [blocksToAdd,Eff.bind_get] at h
    obtain ⟨a,s,hs,h⟩ := Eff.bind_ok h
    obtain rfl : s=v := (congrArg Prod.snd hs).symm
    have ha : atFork s.chain.view f (b.headerHash E) = .ok a := by
      rw [hkey]
      exact congrArg Prod.fst hs
    have hfork := atFork_ok rfl ha
    cases a with
    | true =>
      cases h
      have hat := hfork.mp rfl
      refine ⟨m.length+1,⟨by simp,fun x _ hx => ?_,?_⟩,?_⟩
      · obtain rfl : b=x := by simpa using hx
        exact hat
      · simp
      · exact ⟨by simp,by simp⟩
    | false =>
      have hnot : ¬ IsFork (E := E) s f b := fun hf => by simpa using hfork.mpr hf
      rw [if_neg Bool.false_ne_true] at h
      obtain ⟨o,s₁,h₁,h⟩ := Eff.bind_ok h
      obtain rfl := BlockStore.getFullBlock_answer hcache h₁
      have hq₁ := BlockStore.getFullBlock_quiet (E := E) tip s
      rw [h₁] at hq₁
      obtain ⟨o,s₂,h₂,h⟩ := Eff.bind_ok h
      obtain rfl := BlockStore.getBlockRecord_answer h₂
      have hq₂ := (BlockStore.getBlockRecord_observes (E := E) tip).quiet s₁
      rw [h₂] at hq₂
      have hq := (hq₁.trans hq₂).framed
      rw [hq₁.framed.record?,show s.block? tip=some b from hb,hrv] at h
      change (do
        if b.height=0 then return [(b,r)]
        return (b,r)::(← blocksToAdd f n r.prevHash) : NodeM _) s₂=_ at h
      by_cases hz : b.height=0
      · rw [if_pos hz] at h
        cases h
        obtain rfl : m=[] := List.eq_nil_of_length_eq_zero (by omega)
        have hstored : StoredAs E s b r := ⟨hr,by rw [hkey]; exact hrv⟩
        exact ⟨0,⟨by simp,by simp,by simpa using hnot⟩,by simp,by simpa using hstored⟩
      · rw [if_neg hz] at h
        obtain ⟨rest,s₃,h₃,h⟩ := Eff.bind_ok h
        cases h
        have hforest : (s₂.forest E).Path b.prevHeaderHash m := by
          rw [World.forest,hq.block?]
          exact htop.path hz
        rw [hr.prevHash] at h₃
        obtain ⟨k,hcut,hmap,hall⟩ := ih (by rw [hq.block?]; exact hq.blocks hcache)
          (by rw [hq.block?,hq.record?]; exact hrec) hforest h₃
        have hsame (x : FullBlock) : IsFork (E := E) s₂ f x ↔ IsFork (E := E) s f x := by
          unfold IsFork
          rw [hq.chain]
        refine ⟨k,⟨?_,fun x hk hx => ?_,fun x hx => ?_⟩,?_,?_⟩
        · have hle := hcut.le
          simp
          omega
        · have hle := hcut.le
          rw [List.getElem?_append_left (by omega)] at hx
          exact (hsame x).mp (hcut.below x hk hx)
        · rw [List.drop_append_of_le_length hcut.le] at hx
          rcases List.mem_append.mp hx with hx | hx
          · exact fun hf => hcut.above x hx ((hsame x).mpr hf)
          · obtain rfl : x=b := by simpa using hx
            exact hnot
        · rw [List.drop_append_of_le_length hcut.le]
          simp [hmap]
        · intro p hp'
          rcases List.mem_cons.mp hp' with rfl | hmem
          · exact ⟨hr,by rw [hkey]; exact hrv⟩
          · exact ⟨(hall p hmem).of,by rw [← hq.record?]; exact (hall p hmem).stored⟩

/-- The node rests as `w` does, up to the coin cache and interruptions. -/
structure AtRest (w v : World) : Prop where
  db : v.db=w.db
  saved : v.saved=none
  chain : v.chain=w.chain
  blocks : v.blockCache.Within w.block?

/-- While the block is being added: `R` is the table of records, `c` the index. -/
structure Adding (E : Env) (w : World) (b : FullBlock) (r : BlockRecord)
    (R : Dict Bytes32 BlockRecordRow) (c : Chain) (saved : Option Tables) (v : World) : Prop where
  fullBlocks : v.db.fullBlocks=(w.adding E b r).db.fullBlocks
  blockRecords : v.db.blockRecords=R
  saved : v.saved=saved
  chain : v.chain=c
  blocks : v.blockCache.Within (w.adding E b r).block?

/-- An exception can be handled: the old tables are there, and at most the new block is cached
wrongly. -/
structure Undoable (E : Env) (w : World) (b : FullBlock) (c : Chain) (v : World) : Prop where
  tables : v.saved.getD v.db=w.db
  chain : v.chain=c
  blocks : ∀ h x,h≠b.headerHash E → v.blockCache.cache.get? h=some x → w.block? h=some x

section Transaction
variable {R : Dict Bytes32 BlockRecordRow} {c : Chain} {o : Option Tables} {v : World}

theorem Adding.block? (h : Adding E w b r R c o v) : v.block?=(w.adding E b r).block? := by
  unfold World.block?
  rw [h.fullBlocks]

theorem Adding.undoable (h : Adding E w b r R c (some w.db) v) : Undoable E w b c v where
  tables := by rw [h.saved]; rfl
  chain := h.chain
  blocks k x hk hx := by
    have hb := h.blocks k x hx
    rwa [adding_block?,if_neg (Ne.symm hk)] at hb

theorem Adding.framed {v' : World} (h : Adding E w b r R c o v) (hf : Framed v v') :
    Adding E w b r R c o v' where
  fullBlocks := hf.fullBlocks.trans h.fullBlocks
  blockRecords := hf.blockRecords.trans h.blockRecords
  saved := hf.saved.trans h.saved
  chain := hf.chain.trans h.chain
  blocks := by
    have hb := hf.blocks (by rw [h.block?]; exact h.blocks)
    rwa [h.block?] at hb

theorem KeepsIndex.triple {α : Type} {m : NodeM α} (hm : KeepsIndex m) :
    Eff.Triple (Adding E w b r R c (some w.db)) m (fun _ => Adding E w b r R c (some w.db))
      (fun _ => Undoable E w b c) := by
  intro v hv
  have hf := hm v (by rw [hv.saved]; rfl)
  rcases hr : m v with ⟨e | a,s⟩ <;> rw [hr] at hf
  · exact (hv.framed hf).undoable
  · exact hv.framed hf

theorem execute_cases (f : Tables → Tables) (w : World) : (∃ e i,execute f w=(.error e,w.due i)) ∨
    ∃ r i,execute f w=(r,{ w with db := f w.db,saved := w.saved.or (some w.db),interrupt := i }) := by
  rcases executeCheck_cases (fun t => .ok (f t)) w with h | ⟨db,r,i,hdb,h⟩
  · exact Or.inl h
  · cases hdb
    exact Or.inr ⟨r,i,h⟩

theorem beginTransaction_triple : Eff.Triple (AtRest w) beginTransaction
      (fun _ v => v.db=w.db ∧ v.saved=some w.db ∧ v.chain=w.chain ∧ v.blockCache.Within w.block?)
      (fun _ => Undoable E w b w.chain) := by
  intro v hv
  have hundo (v' : World) (ht : v'.saved.getD v'.db=w.db) (hc : v'.chain=v.chain)
      (hb : v'.blockCache=v.blockCache) : Undoable E w b w.chain v' :=
    ⟨ht,hc.trans hv.chain,fun k x _ hx => hv.blocks k x (hb ▸ hx)⟩
  rcases execute_cases id v with ⟨e,i,h⟩ | ⟨a,i,h⟩
  · rw [beginTransaction,h]
    refine hundo _ ?_ rfl rfl
    simp [World.due,hv.saved,hv.db]
  · rw [beginTransaction,h]
    cases a with
    | ok u => exact ⟨hv.db,by simp [hv.saved,hv.db],hv.chain,hv.blocks⟩
    | error e =>
      refine hundo _ ?_ rfl rfl
      simp [hv.saved,hv.db]

theorem execute_triple {P Q F : World → Prop} {f : Tables → Tables} (hopen : ∀ v,P v → v.saved.isSome)
    (hf : ∀ v i,P v → Q { v with db := f v.db,interrupt := i }) (hbefore : ∀ v i,P v → F (v.due i))
    (hafter : ∀ v,Q v → F v) : Eff.Triple P (execute f) (fun _ => Q) (fun _ => F) := by
  intro v hv
  rcases execute_cases f v with ⟨e,i,h⟩ | ⟨a,i,h⟩
  · rw [h]
    exact hbefore v i hv
  · have hq := hf v i hv
    rw [h,saved_or (hopen v hv)]
    cases a with
    | ok u => exact hq
    | error e => exact hafter _ hq

theorem adding_within {cache : LRUCache Bytes32 FullBlock} (h : cache.Within w.block?) : (cache.put (b.headerHash E) b).Within (w.adding E b r).block? := by
  intro k x hx
  rw [adding_block?]
  obtain ⟨rfl,rfl⟩ | ⟨hne,hx⟩ := LRUCache.get?_put _ hx
  · simp
  · rw [if_neg hne,h k x hx]

theorem addFullBlock_triple : Eff.Triple (fun v => v.db=w.db ∧ v.saved=some w.db ∧ v.chain=w.chain ∧
        v.blockCache.Within w.block?) (BlockStore.addFullBlock (b.headerHash E) b r)
      (fun _ => Adding E w b r (w.adding E b r).db.blockRecords w.chain (some w.db))
      (fun _ => Undoable E w b w.chain) := by
  have hundo (v : World) (hs : v.saved=some w.db) (hc : v.chain=w.chain)
      (hb : v.blockCache.Within (w.adding E b r).block?) : Undoable E w b w.chain v := by
    refine ⟨by rw [hs]; rfl,hc,fun k x hk hx => ?_⟩
    have h := hb k x hx
    rwa [adding_block?,if_neg (Ne.symm hk)] at h
  refine Eff.Triple.bind (Q := fun _ v => v.db=w.db ∧ v.saved=some w.db ∧ v.chain=w.chain ∧
    v.blockCache.Within (w.adding E b r).block?) (fun v hv => ?_) fun _ => ?_
  · exact ⟨hv.1,hv.2.1,hv.2.2.1,adding_within hv.2.2.2⟩
  refine Eff.Triple.bind (Q := fun _ v => v.db = { w.db with
      fullBlocks := (w.adding E b r).db.fullBlocks } ∧ v.saved=some w.db ∧ v.chain=w.chain ∧
    v.blockCache.Within (w.adding E b r).block?) (execute_triple ?_ ?_ ?_ ?_) fun _ => execute_triple ?_ ?_ ?_ ?_
  · exact fun v hv => by rw [hv.2.1]; rfl
  · exact fun v i hv => ⟨by simp [hv.1,World.adding,BlockStore.withBlock],hv.2⟩
  · exact fun v i hv => hundo _ hv.2.1 hv.2.2.1 hv.2.2.2
  · exact fun v hv => hundo v hv.2.1 hv.2.2.1 hv.2.2.2
  · exact fun v hv => by rw [hv.2.1]; rfl
  · exact fun v i hv => ⟨by simp [hv.1],by simp [hv.1,World.adding,BlockStore.withBlock],hv.2.1,
      hv.2.2.1,hv.2.2.2⟩
  · exact fun v i hv => hundo _ hv.2.1 hv.2.2.1 hv.2.2.2
  · exact fun v hv => hv.undoable

def peakAt (hash : Bytes32) (R : Dict Bytes32 BlockRecordRow) : Dict Bytes32 BlockRecordRow :=
  R.mapVals fun h row => { row with isPeak := decide (h=hash) }

theorem setPeak_triple (hash : Bytes32) : Eff.Triple (Adding E w b r R c (some w.db)) (BlockStore.setPeak hash)
      (fun _ => Adding E w b r (peakAt hash R) c (some w.db)) (fun _ => Undoable E w b c) := by
  refine Eff.Triple.bind (Q := fun _ => Adding E w b r
    (R.mapVals fun _ row => { row with isPeak := false }) c (some w.db)) (execute_triple ?_ ?_ ?_ ?_)
    fun _ => execute_triple ?_ ?_ ?_ ?_
  · exact fun v hv => by rw [hv.saved]; rfl
  · exact fun v i hv => ⟨hv.fullBlocks,by simp [hv.blockRecords],hv.saved,hv.chain,hv.blocks⟩
  · exact fun v i hv => (hv.framed (framed_due v i)).undoable
  · exact fun v hv => hv.undoable
  · exact fun v hv => by rw [hv.saved]; rfl
  · refine fun v i hv => ⟨hv.fullBlocks,?_,hv.saved,hv.chain,hv.blocks⟩
    simp only [hv.blockRecords,peakAt,Dict.mapVals,List.map_map,Dict.mk.injEq]
    refine List.map_congr_left fun e _ => ?_
    by_cases hk : e.1=hash <;> simp [hk]
  · exact fun v i hv => (hv.framed (framed_due v i)).undoable
  · exact fun v hv => hv.undoable

theorem commit_triple : Eff.Triple (Adding E w b r R c (some w.db)) commitTransaction
      (fun _ => Adding E w b r R c none) (fun _ => Undoable E w b c) := by
  intro v hv
  unfold commitTransaction
  obtain ⟨i,h | ⟨e,h⟩⟩ := await_cases v
  · rw [Eff.bind_of_ok h]
    exact ⟨hv.fullBlocks,hv.blockRecords,rfl,hv.chain,hv.blocks⟩
  · rw [Eff.bind_of_error h]
    exact (hv.framed (framed_due v i)).undoable

theorem applyBlock_keepsIndex (tip : Bytes32) (npcResult : Option NPCResult)
    (p : FullBlock × BlockRecord) : KeepsIndex (applyBlock E tip npcResult p) := by
  unfold applyBlock
  split
  · exact (getTxRemovalsAndAdditions_observes _ _).keepsIndex.bind fun _ =>
      CoinStore.newBlock_keepsIndex _ _ _
  · exact keepsIndex_pure _

theorem rollbackForReorg_keepsIndex (blockRecord peak : BlockRecord) (f : ℤ) :
    KeepsIndex (rollbackForReorg E blockRecord peak f) := by
  unfold rollbackForReorg
  split
  · exact CoinStore.rollbackToBlock_keepsIndex f
  · exact keepsIndex_pure _

theorem blocksToAdd_triple (ha : Arrival E w P Q b r) {f : ℤ} {n : ℕ} (hc : c.heightToHash =
    w.chain.heightToHash) : Eff.Triple (Adding E w b r (w.adding E b r).db.blockRecords c (some w.db))
      (blocksToAdd f n (b.headerHash E))
      (fun L v => Adding E w b r (w.adding E b r).db.blockRecords c (some w.db) v ∧
        ∃ k,CutAt E w f (Q++[b]) k ∧ RecordedIn E (w.adding E b r) ((Q++[b]).drop k).reverse L)
      (fun _ => Undoable E w b c) := by
  intro v hv
  have hkeep := (blocksToAdd_observes (E := E) f n (b.headerHash E)).keepsIndex.triple v hv
  have hrec : v.record?=(w.adding E b r).record? := by
    unfold World.record?
    rw [hv.blockRecords]
  rcases hrun : blocksToAdd f n (b.headerHash E) v with ⟨e | L,s⟩ <;> rw [hrun] at hkeep
  · exact hkeep
  · refine ⟨hkeep,?_⟩
    have hpath : (v.forest E).Path (b.headerHash E) (Q++[b]) := by
      rw [World.forest,hv.block?]
      exact ha.path
    obtain ⟨k,hcut,hL⟩ := blocksToAdd_answer (by rw [hv.block?]; exact hv.blocks)
      (fun h x hx => by
        rw [hrec]
        rw [hv.block?] at hx
        exact ha.recorded hx) hpath hrun
    have hsame (x : FullBlock) : IsFork (E := E) v f x ↔ IsFork (E := E) w f x := by
      unfold IsFork
      rw [hv.chain,hc]
    exact ⟨k,⟨hcut.le,fun x hk hx => (hsame x).mp (hcut.below x hk hx),
      fun x hx => (hsame x).not.mp (hcut.above x hx)⟩,hL.1,
      fun p hp => ⟨(hL.2 p hp).of,by rw [← hrec]; exact (hL.2 p hp).stored⟩⟩

/-- What a heavier block does to the index: above the fork, the records of its chain come in. -/
structure NewIndex (E : Env) (w : World) (Q : List FullBlock) (b : FullBlock) (r : BlockRecord) (f : ℤ)
    (change : PeakChange) : Prop where
  peakHeight : change.2.1=some r.height
  forkHeight : change.1=some f.toNat
  records : ∃ k,CutAt E w f (Q++[b]) k ∧
    List.Forall₂ (StoredAs E (w.adding E b r)) ((Q++[b]).drop k) change.2.2

theorem RecordedIn.forall₂ {v : World} {l : List FullBlock} {L : List (FullBlock × BlockRecord)}
    (h : RecordedIn E v l.reverse L) : List.Forall₂ (StoredAs E v) l (L.reverse.map Prod.snd) := by
  obtain ⟨hmap,hall⟩ := h
  have hl : l=L.reverse.map Prod.fst := by rw [List.map_reverse,hmap,List.reverse_reverse]
  rw [hl,List.forall₂_map_left_iff,List.forall₂_map_right_iff,List.forall₂_same]
  exact fun p hp => hall p (by simpa using hp)

theorem heavierPeak_triple (ha : Arrival E w P Q b r) {rp : BlockRecord} {forkPointWithPeak : Option ℕ}
    (npcResult : Option NPCResult) :
    Eff.Triple (Adding E w b r (w.adding E b r).db.blockRecords w.chain (some w.db))
      (heavierPeak E r rp forkPointWithPeak npcResult)
      (fun change v => ∃ f,reorgForkHeight w.chain.view r rp forkPointWithPeak = .ok f ∧
        NewIndex E w Q b r f change ∧ Adding E w b r
          (peakAt (b.headerHash E) (w.adding E b r).db.blockRecords) (w.pruned f).chain (some w.db) v)
      (fun _ v => Undoable E w b w.chain v ∨ ∃ f,reorgForkHeight w.chain.view r rp forkPointWithPeak = .ok f ∧
          Undoable E w b (w.pruned f).chain v) := by
  refine .read fun v hv => ?_
  rw [hv.chain]
  refine Eff.Triple.bind (Q := fun f v => reorgForkHeight w.chain.view r rp forkPointWithPeak = .ok f ∧
    Adding E w b r (w.adding E b r).db.blockRecords w.chain (some w.db) v)
    (.lift (fun f hf v hv => ⟨hf,hv⟩) fun _ _ v hv => Or.inl hv.undoable) fun f => ?_
  by_cases hf : reorgForkHeight w.chain.view r rp forkPointWithPeak = .ok f
  swap
  · exact fun v hv => absurd hv.1 hf
  refine Eff.Triple.conseq (P := Adding E w b r (w.adding E b r).db.blockRecords w.chain (some w.db))
    (Q := fun change v => NewIndex E w Q b r f change ∧ Adding E w b r
      (peakAt (b.headerHash E) (w.adding E b r).db.blockRecords) (w.pruned f).chain (some w.db) v)
    (E := fun _ v => Undoable E w b w.chain v ∨ Undoable E w b (w.pruned f).chain v) ?_
    (fun v hv => hv.2) (fun change v h => ⟨f,hf,h⟩) fun e v h => h.imp_right fun h => ⟨f,hf,h⟩
  refine Eff.Triple.bind ((rollbackForReorg_keepsIndex r rp f).triple.conseq (fun _ h => h)
    (fun _ _ h => h) fun _ _ h => Or.inl h) fun _ => ?_
  refine Eff.Triple.bind (Q := fun _ => Adding E w b r (w.adding E b r).db.blockRecords
    (w.pruned f).chain (some w.db)) (fun v hv => ?_) fun _ => ?_
  · exact ⟨hv.fullBlocks,hv.blockRecords,hv.saved,by simp only [hv.chain]; rfl,hv.blocks⟩
  refine Eff.Triple.conseq (P := Adding E w b r (w.adding E b r).db.blockRecords (w.pruned f).chain
    (some w.db)) (E := fun _ => Undoable E w b (w.pruned f).chain) ?_ (fun _ h => h) (fun _ _ h => h)
    fun _ _ h => Or.inr h
  rw [ha.record.headerHash]
  refine (blocksToAdd_triple (c := (w.pruned f).chain) ha rfl).bind fun L => ?_
  by_cases hL : ∃ k,CutAt E w f (Q++[b]) k ∧
    RecordedIn E (w.adding E b r) ((Q++[b]).drop k).reverse L
  swap
  · exact fun v hv => absurd hv.2 hL
  refine Eff.Triple.conseq (P := Adding E w b r (w.adding E b r).db.blockRecords (w.pruned f).chain
    (some w.db)) ?_ (fun _ h => h.1) (fun _ _ h => h) fun _ _ h => h
  refine (keepsIndex_forM (applyBlock_keepsIndex _ _) _).triple.bind fun _ =>
    (setPeak_triple _).bind fun _ => .pure _ fun v hv => ⟨⟨rfl,congrArg some (by omega),?_⟩,hv⟩
  obtain ⟨k,hcut,hrecs⟩ := hL
  exact ⟨k,hcut,hrecs.forall₂⟩

theorem genesisPeak_triple (ha : Arrival E w P Q b r) (npcResult : Option NPCResult) :
    Eff.Triple (Adding E w b r (w.adding E b r).db.blockRecords w.chain (some w.db))
      (genesisPeak E r npcResult) (fun change v => change=(some 0,some 0,[r]) ∧ Adding E w b r
        (peakAt (b.headerHash E) (w.adding E b r).db.blockRecords) w.chain (some w.db) v)
      (fun _ => Undoable E w b w.chain) := by
  refine Eff.Triple.bind ((BlockStore.getFullBlock_observes (E := E) _).keepsIndex.triple) fun o => ?_
  refine Eff.Triple.bind ((keepsIndex_lift _).triple) fun block => ?_
  refine Eff.Triple.bind ((keepsIndex_lift _).triple) fun e => ?_
  refine Eff.Triple.bind ((CoinStore.newBlock_keepsIndex _ _ _).triple) fun _ => ?_
  rw [ha.record.headerHash]
  exact (setPeak_triple _).bind fun _ => .pure _ fun v hv => ⟨rfl,hv⟩

/-- The height at which the chain of a new block leaves the main chain. -/
def ForksAt (w : World) (r : BlockRecord) (forkPointWithPeak : Option ℕ) (f : ℤ) : Prop :=
  ∃ peak,getPeak w.chain = .ok peak ∧
    ∀ rp,peak=some rp → reorgForkHeight w.chain.view r rp forkPointWithPeak = .ok f

/-- The index that an exception leaves: as it was, or without the summaries of an abandoned branch. -/
def Leaves (w : World) (P : List FullBlock) (b : FullBlock) (r : BlockRecord)
    (forkPointWithPeak : Option ℕ) (c : Chain) : Prop :=
  c=w.chain ∨ P≠[] ∧ Heavier P b ∧ ∃ f,ForksAt w r forkPointWithPeak f ∧ c=(w.pruned f).chain

/-- What a peak that is reconsidered comes to. -/
inductive Reconsidered (E : Env) (w : World) (P Q : List FullBlock) (b : FullBlock) (r : BlockRecord)
    (forkPointWithPeak : Option ℕ) (change : PeakChange) (v : World) : Prop
  | stays (h : ¬ Heavier P b) (hc : change=(none,none,[]))
      (hv : Adding E w b r (w.adding E b r).db.blockRecords w.chain (some w.db) v)
  | moves (f : ℤ) (h : Heavier P b) (hg : P=[] → f = -1) (hf : ForksAt w r forkPointWithPeak f)
      (hc : NewIndex E w Q b r f change)
      (hv : Adding E w b r (peakAt (b.headerHash E) (w.adding E b r).db.blockRecords)
        (indexBefore w P f) (some w.db) v)

theorem reconsiderPeak_triple (ha : Arrival E w P Q b r) (forkPointWithPeak : Option ℕ)
    (npcResult : Option NPCResult) :
    Eff.Triple (Adding E w b r (w.adding E b r).db.blockRecords w.chain (some w.db))
      (reconsiderPeak E r (b.height=0) forkPointWithPeak npcResult) (Reconsidered E w P Q b r forkPointWithPeak)
      (fun _ v => ∃ c,Leaves w P b r forkPointWithPeak c ∧ Undoable E w b c v) := by
  refine .read fun v hv => ?_
  rw [hv.chain]
  rcases List.eq_nil_or_concat P with rfl | ⟨P',p,rfl⟩
  · have hQ : Q=[] := by
      by_contra hne
      obtain ⟨v,hv,-⟩ := (ha.onTop.2.resolve_left hne).last
      simp [ha.main.start rfl] at hv
    subst hQ
    have hz : b.height=0 := ha.onTop.1
    have hpeak := getPeak_nil ha.main
    rw [hpeak,Eff.lift_ok_bind,if_pos (decide_eq_true hz),if_pos Option.isNone_none]
    refine (genesisPeak_triple ha npcResult).conseq (fun _ h => h) (fun change v h => ?_)
      fun _ v h => ⟨w.chain,Or.inl rfl,h⟩
    obtain ⟨rfl,hv⟩ := h
    refine .moves (-1) (Or.inl rfl) (fun _ => rfl) ⟨none,hpeak,by simp⟩ ⟨?_,rfl,0,⟨by simp,by simp,?_⟩,?_⟩ ?_
    · simp [ha.record.height,hz]
    · exact fun x _ hf => absurd hf.1 (by decide)
    · exact .cons ⟨ha.record,by rw [adding_record?,if_pos rfl]⟩ .nil
    · simpa [indexBefore] using hv
  · rw [List.concat_eq_append] at ha ⊢
    obtain ⟨rp,hpeak,hrp,-⟩ := getPeak_concat ha.indexed ha.main
    rw [hpeak,Eff.lift_ok_bind]
    have hheavy : Heavier (P'++[p]) b ↔ b.height≠0 ∧ r.weight > rp.weight := by
      rw [ha.record.weight,hrp.weight]
      simp [Heavier]
    have hstays (h : ¬ Heavier (P'++[p]) b) :
        Eff.Triple (Adding E w b r (w.adding E b r).db.blockRecords w.chain (some w.db))
          (return (none,none,[]) : NodeM PeakChange)
          (Reconsidered E w (P'++[p]) Q b r forkPointWithPeak)
          (fun _ v => ∃ c,Leaves w (P'++[p]) b r forkPointWithPeak c ∧ Undoable E w b c v) :=
      .pure _ fun v hv => .stays h rfl hv
    by_cases hz : b.height=0
    · rw [if_pos (decide_eq_true hz),if_neg (by simp)]
      exact hstays fun h => (hheavy.mp h).1 hz
    rw [if_neg (by simpa using hz),assertSome,Eff.lift_ok_bind]
    by_cases hw : r.weight > rp.weight
    swap
    · rw [if_neg hw]
      exact hstays fun h => hw (hheavy.mp h).2
    rw [if_pos hw]
    have hforks (f : ℤ) (hf : reorgForkHeight w.chain.view r rp forkPointWithPeak = .ok f) :
        ForksAt w r forkPointWithPeak f := ⟨some rp,hpeak,fun rp' h => by cases h; exact hf⟩
    have hup := hheavy.mpr ⟨hz,hw⟩
    refine (heavierPeak_triple ha npcResult).conseq (fun _ h => h) (fun change v h => ?_) fun _ v h => ?_
    · obtain ⟨f,hf,hnew,hv⟩ := h
      refine .moves f hup (by simp) (hforks f hf) hnew ?_
      rwa [indexBefore,if_neg (by simp)]
    · rcases h with h | ⟨f,hf,h⟩
      · exact ⟨w.chain,Or.inl rfl,h⟩
      · exact ⟨(w.pruned f).chain,Or.inr ⟨by simp,hup,f,hforks f hf,rfl⟩,h⟩

/-- Where a block ends that goes into the database transaction, whatever fails on the way. -/
inductive Added (E : Env) (w : World) (P Q : List FullBlock) (b : FullBlock) (r : BlockRecord)
    (forkPointWithPeak : Option ℕ) : Check (Option ℕ) → World → Prop
  | failed {e : Fail} {s : World} (c : Chain) (hc : Leaves w P b r forkPointWithPeak c)
      (hs : AtRest { w with chain := c } s) : Added E w P Q b r forkPointWithPeak (.error e) s
  | orphan {s : World} (h : ¬ Heavier P b)
      (hs : Adding E w b r (w.adding E b r).db.blockRecords (addBlockRecord r w.chain) none s) :
      Added E w P Q b r forkPointWithPeak (.ok none) s
  | newPeak {s : World} (f : ℤ) (change : PeakChange) (h : Heavier P b) (hg : P=[] → f = -1)
      (hf : ForksAt w r forkPointWithPeak f) (hc : NewIndex E w Q b r f change)
      (hs : Adding E w b r (peakAt (b.headerHash E) (w.adding E b r).db.blockRecords)
        { indexRecords change.2.2 (addBlockRecord r (indexBefore w P f)) with
          peakHeight := some r.height } none s) :
      Added E w P Q b r forkPointWithPeak (.ok (some f.toNat)) s

theorem Undoable.handled (h : Undoable E w b c v) :
    AtRest { w with chain := c }
      ((do BlockStore.rollbackCacheBlock (b.headerHash E); rollbackTransaction : NodeM Unit) v).2 := by
  have hcache (c : LRUCache Bytes32 FullBlock)
      (hc : ((BlockStore.rollbackCacheBlock (b.headerHash E) : NodeM Unit) v).2.blockCache=c) :
      (do BlockStore.rollbackCacheBlock (b.headerHash E); rollbackTransaction : NodeM Unit) v =
        (.ok (),{ v with
          db := v.saved.getD v.db
          saved := none
          blockCache := c }) := by
    rw [← hc]
    rfl
  cases hb : v.blockCache.cache.get? (b.headerHash E) with
  | none =>
    have hrem : v.blockCache.remove (b.headerHash E) = .error (.raised .key) := by
      simp [LRUCache.remove,hb,lookup,bind,Except.bind]
    rw [hcache v.blockCache (by simp [BlockStore.rollbackCacheBlock,modifyBlockCache,hrem])]
    refine ⟨h.tables,rfl,h.chain,fun k x hx => ?_⟩
    exact h.blocks k x (fun e => by simp [e,hb] at hx) hx
  | some y =>
    have hrem := LRUCache.remove_of_mem _ hb
    rw [hcache _ (by simp only [BlockStore.rollbackCacheBlock,modifyBlockCache,Eff.modify_apply,hrem]; rfl)]
    refine ⟨h.tables,rfl,h.chain,fun k x hx => ?_⟩
    simp only [LRUCache.get?_erase] at hx
    split_ifs at hx with hk
    exact h.blocks k x (Ne.symm hk) hx

theorem addBlock_outcome (ha : Arrival E w P Q b r) (hv : AtRest w v) (forkPointWithPeak : Option ℕ)
    (npcResult : Option NPCResult) :
    Added E w P Q b r forkPointWithPeak (addBlock E b r forkPointWithPeak npcResult v).1
      (addBlock E b r forkPointWithPeak npcResult v).2 := by
  have hstore : Eff.Triple (AtRest w) (storeBlock E b r forkPointWithPeak npcResult)
      (fun o => Added E w P Q b r forkPointWithPeak (.ok o))
      (fun _ v => ∃ c,Leaves w P b r forkPointWithPeak c ∧ Undoable E w b c v) := by
    have hfirst {e : Fail} (v : World) (h : Undoable E w b w.chain v) :
        ∃ c,Leaves w P b r forkPointWithPeak c ∧ Undoable E w b c v := ⟨w.chain,Or.inl rfl,h⟩
    refine (beginTransaction_triple.conseq (fun _ h => h) (fun _ _ h => h)
      fun e v h => hfirst (e := e) v h).bind fun _ => ?_
    refine (addFullBlock_triple.conseq (fun _ h => h) (fun _ _ h => h)
      fun e v h => hfirst (e := e) v h).bind fun _ => ?_
    refine (reconsiderPeak_triple ha forkPointWithPeak npcResult).bind fun change => ?_
    intro v hv
    cases hv with
    | stays h hc hv =>
      subst hc
      refine (Eff.Triple.bind (commit_triple.conseq (fun _ h => h) (fun _ _ h => h)
        fun e v h => hfirst (e := e) v h) fun _ => ?_) v hv
      exact fun v hv => .orphan h ⟨hv.fullBlocks,hv.blockRecords,hv.saved,by rw [← hv.chain]; rfl,
        hv.blocks⟩
    | moves f h hg hf hc hv =>
      obtain ⟨forkHeight,peakHeight,records⟩ := change
      obtain rfl : forkHeight=some f.toNat := hc.forkHeight
      obtain rfl : peakHeight=some r.height := hc.peakHeight
      have hleaves (v : World) (hu : Undoable E w b (indexBefore w P f) v) :
          ∃ c,Leaves w P b r forkPointWithPeak c ∧ Undoable E w b c v := by
        refine ⟨_,?_,hu⟩
        by_cases hP : P=[]
        · exact Or.inl (if_pos hP)
        · exact Or.inr ⟨hP,h,f,hf,if_neg hP⟩
      refine (Eff.Triple.bind (commit_triple.conseq (fun _ h => h) (fun _ _ h => h)
        fun _ v hu => hleaves v hu) fun _ => ?_) v hv
      exact fun v hv => .newPeak f _ h hg hf hc ⟨hv.fullBlocks,hv.blockRecords,hv.saved,
        by rw [← hv.chain]; rfl,hv.blocks⟩
  have hrun := hstore v hv
  unfold addBlock onException
  rcases hres : storeBlock E b r forkPointWithPeak npcResult v with ⟨e | o,s⟩ <;> rw [hres] at hrun
  · obtain ⟨c,hc,hu⟩ := hrun
    exact .failed c hc hu.handled
  · exact hrun

end Transaction

end RoseChain
