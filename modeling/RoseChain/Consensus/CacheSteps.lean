import RoseChain.Consensus.BlockCache
import RoseChain.FullNode.BatchForks

namespace RoseChain
open Lib Blockchain PreValidate
variable {E : Env} {w v : World} {floor : ℤ} {h : Bytes32} {b : FullBlock} {r : BlockRecord} {α β : Type}

/-- The records in memory are in order, and all those stored above the floor are there. -/
structure Cached (w : World) (floor : ℤ) : Prop where
  closed : w.saved=none
  exact : CacheExact w.chain
  keyed : ∀ h r,w.record? h=some r → r.headerHash=h
  agree : ∀ h r r',w.record? h=some r → w.chain.blockRecords.get? h=some r' → r'.height=r.height
  cached : ∀ h r,w.record? h=some r → floor < r.height → (w.chain.blockRecords.get? h).isSome
  main : ∀ height h,w.chain.heightToHash.get? height=some h → ∃ r,w.record? h=some r ∧ r.height=height

variable (E) in
/-- No stored block of another height has the header hash of the block. -/
def Identified (w : World) (b : FullBlock) : Prop := ∀ r,w.record? (b.headerHash E)=some r → r.height=b.height

/-- The parts of the index that are about records. -/
structure SameCache (c c' : Chain) : Prop where
  blockRecords : c'.blockRecords=c.blockRecords
  heightsInCache : c'.heightsInCache=c.heightsInCache
  heightToHash : c'.heightToHash=c.heightToHash

theorem SameCache.refl (c : Chain) : SameCache c c := ⟨rfl,rfl,rfl⟩

variable {c : Chain}

theorem SameCache.trans {a b : Chain} (h : SameCache a b) (h' : SameCache b c) : SameCache a c :=
  ⟨h'.blockRecords.trans h.blockRecords,h'.heightsInCache.trans h.heightsInCache,
    h'.heightToHash.trans h.heightToHash⟩

theorem sameCache_of_eq {c' : Chain} (h : c'=c) : SameCache c c' := h ▸ SameCache.refl c

theorem Cached.congr (hw : Cached w floor) (hdb : v.record?=w.record?) (hsaved : v.saved=none)
    (hc : SameCache w.chain v.chain) : Cached v floor := by
  refine ⟨hsaved,hw.exact.congr hc.blockRecords hc.heightsInCache,?_,?_,?_,?_⟩
  · rw [hdb]
    exact hw.keyed
  · rw [hdb,hc.blockRecords]
    exact hw.agree
  · rw [hdb,hc.blockRecords]
    exact hw.cached
  · rw [hdb,hc.heightToHash]
    exact hw.main

theorem record?_of_db (h : v.db=w.db) : v.record?=w.record? := by
  unfold World.record?
  rw [h]

theorem Cached.quiet (hw : Cached w floor) (hq : Quiet E w v) : Cached v floor :=
  hw.congr (record?_of_db hq.db) (hq.saved.trans hw.closed) (sameCache_of_eq hq.chain)

/-- While a record is being stored: `o` is what a rollback restores. -/
structure Inserting (w : World) (h : Bytes32) (r : BlockRecord) (o : Option Tables) (v : World) : Prop where
  saved : v.saved=o
  index : SameCache w.chain v.chain
  record : ∀ k,v.record? k=if k=h then some r else w.record? k

/-- A rollback gives the records back. -/
structure Revocable (w v : World) : Prop where
  tables : v.saved.getD v.db=w.db
  index : SameCache w.chain v.chain

/-- A stored record, under the hash it has; the new one counts. -/
def Known (w : World) (h : Bytes32) (r x : BlockRecord) : Prop :=
  (if x.headerHash=h then some r else w.record? x.headerHash)=some x

theorem Inserting.revocable (hv : Inserting w h r (some w.db) v) : Revocable w v :=
  ⟨by rw [hv.saved]; rfl,hv.index⟩

variable {o : Option Tables} {s : World}

theorem Inserting.framed (hv : Inserting w h r o v) (hf : Framed v s) : Inserting w h r o s := by
  refine ⟨hf.saved.trans hv.saved,hv.index.trans (sameCache_of_eq hf.chain),fun k => ?_⟩
  rw [hf.record?]
  exact hv.record k

theorem keepsInserting {m : NodeM α} (hm : KeepsIndex m) :
    Eff.Triple (Inserting w h r (some w.db)) m (fun _ => Inserting w h r (some w.db)) (fun _ => Revocable w) := by
  intro s hs
  have hf := hm s (by rw [hs.saved]; rfl)
  rcases hrun : m s with ⟨e | a,s'⟩ <;> rw [hrun] at hf
  · exact (hs.framed hf).revocable
  · exact hs.framed hf

theorem inserting_execute {f : Tables → Tables}
    (hf : ∀ t k,((f t).blockRecords.get? k).map (·.block)=(t.blockRecords.get? k).map (·.block)) :
    Eff.Triple (Inserting w h r (some w.db)) (execute f) (fun _ => Inserting w h r (some w.db))
      (fun _ => Revocable w) := by
  refine execute_triple (fun s hs => by rw [hs.saved]; rfl) (fun s i hs => ?_) (fun s i hs => ?_)
    fun s hs => hs.revocable
  · exact ⟨hs.saved,hs.index,fun k => (hf s.db k).trans (hs.record k)⟩
  · exact ⟨by simp [World.due,hs.saved],hs.index⟩

theorem setPeak_inserting (hash : Bytes32) :
    Eff.Triple (Inserting w h r (some w.db)) (BlockStore.setPeak hash) (fun _ => Inserting w h r (some w.db))
      (fun _ => Revocable w) := by
  refine (inserting_execute fun t k => ?_).bind fun _ => inserting_execute fun t k => ?_
  · simp [Function.comp_def]
  · rw [Dict.get?_mapVals]
    cases t.blockRecords.get? k with
    | none => rfl
    | some row =>
      simp only [Option.map_some]
      split_ifs <;> rfl

/-- The tables are as before, and `o` is what a rollback restores. -/
structure Opened (w : World) (o : Option Tables) (v : World) : Prop where
  db : v.db=w.db
  saved : v.saved=o
  index : SameCache w.chain v.chain

theorem begin_opened : Eff.Triple (Opened w none) beginTransaction (fun _ => Opened w (some w.db))
    (fun _ => Revocable w) := by
  intro s hs
  rcases execute_cases id s with ⟨e,i,hrun⟩ | ⟨a,i,hrun⟩
  · rw [beginTransaction,hrun]
    exact ⟨by simp [World.due,hs.saved,hs.db],hs.index⟩
  · rw [beginTransaction,hrun]
    cases a with
    | ok u => exact ⟨hs.db,by simp [hs.saved,hs.db],hs.index⟩
    | error e => exact ⟨by simp [hs.saved,hs.db],hs.index⟩

theorem addFullBlock_inserting (hb : b.headerHash E=h) :
    Eff.Triple (Opened w (some w.db)) (BlockStore.addFullBlock (b.headerHash E) b r)
      (fun _ => Inserting w h r (some w.db)) (fun _ => Revocable w) := by
  refine Eff.Triple.bind (Q := fun _ => Opened w (some w.db))
    (Eff.Triple.modify fun s hs => ⟨hs.db,hs.saved,hs.index⟩) fun _ => ?_
  refine Eff.Triple.bind (Q := fun _ v => v.db.blockRecords=w.db.blockRecords ∧ v.saved=some w.db ∧
    SameCache w.chain v.chain) (execute_triple ?_ ?_ ?_ ?_) fun _ => execute_triple ?_ ?_ ?_ ?_
  · exact fun s hs => by rw [hs.saved]; rfl
  · exact fun s i hs => ⟨by simp [hs.db],hs.saved,hs.index⟩
  · exact fun s i hs => ⟨by simp [World.due,hs.saved],hs.index⟩
  · exact fun s hs => ⟨by simp [hs.2.1],hs.2.2⟩
  · exact fun s hs => by rw [hs.2.1]; rfl
  · intro s i hs
    refine ⟨hs.2.1,hs.2.2,fun k => ?_⟩
    unfold World.record?
    dsimp only
    rw [Dict.get?_set,hs.1,hb]
    by_cases hk : h=k
    · rw [if_pos hk,if_pos hk.symm]
      rfl
    · rw [if_neg hk,if_neg (Ne.symm hk)]
  · exact fun s i hs => ⟨by simp [World.due,hs.2.1],hs.2.2⟩
  · exact fun s hs => hs.revocable

theorem commit_inserting : Eff.Triple (Inserting w h r (some w.db)) commitTransaction
    (fun _ => Inserting w h r none) (fun _ => Revocable w) := by
  intro s hs
  unfold commitTransaction
  obtain ⟨i,hrun | ⟨e,hrun⟩⟩ := await_cases s
  · rw [Eff.bind_of_ok hrun]
    exact ⟨rfl,hs.index,hs.record⟩
  · rw [Eff.bind_of_error hrun]
    exact (hs.framed (framed_due s i)).revocable

theorem Inserting.known {k : Bytes32} {x : BlockRecord} (hw : Cached w floor) (hr : r.headerHash=h)
    (hv : Inserting w h r o v) (hx : v.record? k=some x) : Known w h r x := by
  rw [hv.record] at hx
  unfold Known
  split_ifs at hx with hk
  · obtain rfl := Option.some.inj hx
    rw [if_pos hr]
  · have hkey := hw.keyed k x hx
    rw [hkey,if_neg hk,hx]

theorem blocksToAdd_inserting (E : Env) (hw : Cached w floor) (hr : r.headerHash=h) (forkHeight : ℤ) (n : ℕ) (curr : Bytes32) :
    Eff.Triple (Inserting w h r (some w.db)) (blocksToAdd forkHeight n curr)
      (fun l v => Inserting w h r (some w.db) v ∧ ∀ p∈l,Known w h r p.2) (fun _ => Revocable w) := by
  have hpure {l : List (FullBlock × BlockRecord)} (hl : ∀ p∈l,Known w h r p.2) :
      Eff.Triple (Inserting w h r (some w.db)) (pure l : NodeM _)
        (fun l v => Inserting w h r (some w.db) v ∧ ∀ p∈l,Known w h r p.2) (fun _ => Revocable w) :=
    .pure _ fun s hs => ⟨hs,hl⟩
  induction n generalizing curr with
  | zero => exact .fail _ fun s hs => hs.revocable
  | succ n ih =>
    unfold blocksToAdd
    refine .read fun s _ => (keepsInserting (keepsIndex_lift _)).bind fun stop => ?_
    split_ifs
    · exact hpure fun p hp => by cases hp
    · refine (keepsInserting (BlockStore.getFullBlock_observes (E := E) curr).keepsIndex).bind fun block? => ?_
      refine Eff.Triple.bind (Q := fun record? v => Inserting w h r (some w.db) v ∧
        ∀ x,record?=some x → Known w h r x) ?_ fun record? => ?_
      · intro s hs
        have hframe := keepsInserting (BlockStore.getBlockRecord_observes (E := E) curr).keepsIndex s hs
        rcases hrun : BlockStore.getBlockRecord curr s with ⟨e | record?,s'⟩ <;> rw [hrun] at hframe
        · exact hframe
        · refine ⟨hframe,fun x hx => hs.known hw hr (k := curr) ?_⟩
          rw [← BlockStore.getBlockRecord_answer hrun,hx]
      · rintro s ⟨hs,hknown⟩
        have hrest : Eff.Triple (Inserting w h r (some w.db)) (do
            let fullBlock ← Eff.lift (assertSome block?)
            let blockRecord ← Eff.lift (assertSome record?)
            if fullBlock.height=0 then return [(fullBlock,blockRecord)]
            return (fullBlock,blockRecord)::(← blocksToAdd forkHeight n blockRecord.prevHash))
            (fun l v => Inserting w h r (some w.db) v ∧ ∀ p∈l,Known w h r p.2) (fun _ => Revocable w) := by
          refine (keepsInserting (keepsIndex_lift _)).bind fun fullBlock => ?_
          cases record? with
          | none => exact fun s hs => hs.revocable
          | some x =>
            have hx := hknown x rfl
            refine .bind (Q := fun blockRecord v => Inserting w h r (some w.db) v ∧ blockRecord=x)
              (fun s hs => ⟨hs,rfl⟩) fun blockRecord => ?_
            rintro s ⟨hs,rfl⟩
            have hnext : Eff.Triple (Inserting w h r (some w.db)) (if fullBlock.height=0 then
                return [(fullBlock,blockRecord)]
                else return (fullBlock,blockRecord)::(← blocksToAdd forkHeight n blockRecord.prevHash) : NodeM _)
                (fun l v => Inserting w h r (some w.db) v ∧ ∀ p∈l,Known w h r p.2) (fun _ => Revocable w) := by
              split_ifs
              · exact hpure fun p hp => by rw [List.mem_singleton.mp hp]; exact hx
              · refine (ih blockRecord.prevHash).bind fun l => ?_
                rintro s ⟨hs,hl⟩
                refine ⟨hs,fun p hp => ?_⟩
                obtain rfl | hp := List.mem_cons.mp hp
                · exact hx
                · exact hl p hp
            exact hnext s hs
        exact hrest s hs

def KnownChange (w : World) (h : Bytes32) (r : BlockRecord) (o : Option Tables) (change : PeakChange) (v : World) :
    Prop := Inserting w h r o v ∧ ∀ x∈change.2.2,Known w h r x

theorem reconsiderPeak_inserting (hw : Cached w floor) (hr : r.headerHash=h) (genesis : Bool)
    (forkPointWithPeak : Option ℕ) (npcResult : Option NPCResult) :
    Eff.Triple (Inserting w h r (some w.db)) (reconsiderPeak E r genesis forkPointWithPeak npcResult)
      (KnownChange w h r (some w.db)) (fun _ => Revocable w) := by
  have hnone : Eff.Triple (Inserting w h r (some w.db)) (pure (none,none,[]) : NodeM PeakChange)
      (KnownChange w h r (some w.db)) (fun _ => Revocable w) :=
    .pure _ fun s hs => ⟨hs,fun x hx => by cases hx⟩
  unfold reconsiderPeak
  refine .read fun s _ => (keepsInserting (keepsIndex_lift _)).bind fun peak => ?_
  split_ifs
  · unfold genesisPeak
    refine (keepsInserting (BlockStore.getFullBlock_observes (E := E) _).keepsIndex).bind fun block? => ?_
    refine (keepsInserting (keepsIndex_lift _)).bind fun block => ?_
    refine (keepsInserting (keepsIndex_lift _)).bind fun p => ?_
    obtain ⟨removals,additions⟩ := p
    refine (keepsInserting (CoinStore.newBlock_keepsIndex _ _ _)).bind fun _ => (setPeak_inserting _).bind fun _ => ?_
    refine .pure _ fun s hs => ⟨hs,fun x hx => ?_⟩
    rw [List.mem_singleton.mp hx]
    unfold Known
    rw [if_pos hr]
  · exact hnone
  · refine (keepsInserting (keepsIndex_lift _)).bind fun peak => ?_
    split_ifs
    · unfold heavierPeak
      refine .read fun s _ => (keepsInserting (keepsIndex_lift _)).bind fun forkHeight => ?_
      refine (keepsInserting (rollbackForReorg_keepsIndex _ _ _)).bind fun _ => ?_
      refine .bind (Q := fun _ => Inserting w h r (some w.db)) (Eff.Triple.modify fun s hs => ?_) fun _ => ?_
      · exact ⟨hs.saved,hs.index.trans ⟨rfl,rfl,rfl⟩,hs.record⟩
      · refine (blocksToAdd_inserting E hw hr _ _ _).bind fun l => ?_
        rintro s ⟨hs,hl⟩
        have hrest : Eff.Triple (Inserting w h r (some w.db)) (do
            l.reverse.forM (applyBlock E r.headerHash npcResult)
            BlockStore.setPeak r.headerHash
            return (some (max forkHeight 0).toNat,some r.height,l.reverse.map Prod.snd))
            (KnownChange w h r (some w.db)) (fun _ => Revocable w) := by
          refine (keepsInserting (keepsIndex_forM (fun _ => applyBlock_keepsIndex _ _ _) _)).bind fun _ => ?_
          refine (setPeak_inserting _).bind fun _ => .pure _ fun s hs => ⟨hs,fun x hx => ?_⟩
          obtain ⟨p,hp,rfl⟩ := List.mem_map.mp hx
          exact hl p (List.mem_reverse.mp hp)
        exact hrest s hs
    · exact hnone

theorem indexRecords_heightsInCache (records : List BlockRecord) (c : Chain) :
    (indexRecords records c).heightsInCache=c.heightsInCache := by
  induction records generalizing c with
  | nil => rfl
  | cons x records ih => exact ih (indexRecord c x)

theorem indexRecords_get? (records : List BlockRecord) (c : Chain) (height : ℕ) (k : Bytes32)
    (hk : (indexRecords records c).heightToHash.get? height=some k) :
    (∃ x∈records,x.height=height ∧ x.headerHash=k) ∨ c.heightToHash.get? height=some k := by
  induction records generalizing c with
  | nil => exact Or.inr hk
  | cons x records ih =>
    obtain ⟨y,hy,hyk⟩ | hold := ih (indexRecord c x) hk
    · exact Or.inl ⟨y,List.mem_cons_of_mem _ hy,hyk⟩
    · change (c.heightToHash.set x.height x.headerHash).get? height=some k at hold
      rw [Dict.get?_set] at hold
      split_ifs at hold with hx
      · exact Or.inl ⟨x,List.mem_cons_self,hx,Option.some.inj hold⟩
      · exact Or.inr hold

theorem Cached.inserted (hw : Cached w floor) (hnew : w.chain.blockRecords.get? h=none) (hr : r.headerHash=h)
    (hsame : ∀ r',w.record? h=some r' → r'.height=r.height) {records : List BlockRecord}
    (hknown : ∀ x∈records,Known w h r x) (hv : Inserting w h r none v) (peakHeight : Option ℕ) :
    Cached { v with chain :=
      let c := indexRecords records (addBlockRecord r v.chain)
      { c with peakHeight := peakHeight.or c.peakHeight } } floor := by
  have hcache (k : Bytes32) : (indexRecords records (addBlockRecord r v.chain)).blockRecords.get? k =
      if h=k then some r else w.chain.blockRecords.get? k := by
    rw [indexRecords_blockRecords,addBlockRecord_get?,hr,hv.index.blockRecords]
  have hadded : CacheExact (addBlockRecord r v.chain) := by
    refine (hw.exact.congr hv.index.blockRecords hv.index.heightsInCache).added fun r' hr' => ?_
    rw [hr,hv.index.blockRecords,hnew] at hr'
    cases hr'
  have hrecord (k : Bytes32) : World.record? { v with chain :=
      let c := indexRecords records (addBlockRecord r v.chain)
      { c with peakHeight := peakHeight.or c.peakHeight } } k=if k=h then some r else w.record? k := hv.record k
  refine ⟨hv.saved,hadded.congr (indexRecords_blockRecords _ _) (indexRecords_heightsInCache _ _),?_,?_,?_,?_⟩
  · intro k x hx
    rw [hrecord] at hx
    split_ifs at hx with hk
    · rw [← Option.some.inj hx,hr,hk]
    · exact hw.keyed k x hx
  · intro k x x' hx hx'
    change (indexRecords records (addBlockRecord r v.chain)).blockRecords.get? k=some x' at hx'
    rw [hcache] at hx'
    rw [hrecord] at hx
    by_cases hk : k=h
    · rw [if_pos hk] at hx
      rw [if_pos hk.symm] at hx'
      rw [← Option.some.inj hx,← Option.some.inj hx']
    · rw [if_neg hk] at hx
      rw [if_neg (Ne.symm hk)] at hx'
      exact hw.agree k x x' hx hx'
  · intro k x hx hfloor
    change ((indexRecords records (addBlockRecord r v.chain)).blockRecords.get? k).isSome
    rw [hcache]
    rw [hrecord] at hx
    by_cases hk : k=h
    · rw [if_pos hk.symm]
      rfl
    · rw [if_neg hk] at hx
      rw [if_neg (Ne.symm hk)]
      exact hw.cached k x hx hfloor
  · intro height k hk
    change (indexRecords records (addBlockRecord r v.chain)).heightToHash.get? height=some k at hk
    rw [hrecord]
    obtain ⟨x,hx,rfl,rfl⟩ | hold := indexRecords_get? _ _ _ _ hk
    · exact ⟨x,hknown x hx,rfl⟩
    · change v.chain.heightToHash.get? height=some k at hold
      rw [hv.index.heightToHash] at hold
      obtain ⟨r',hr',hheight⟩ := hw.main height k hold
      split_ifs with hkh
      · exact ⟨r,rfl,(hsame r' (hkh ▸ hr')).symm.trans hheight⟩
      · exact ⟨r',hr',hheight⟩

theorem addBlock_cached (hw : Cached w floor) (hnew : w.chain.blockRecords.get? (b.headerHash E)=none)
    (hr : RecordOf E b r) (forkPointWithPeak : Option ℕ) (npcResult : Option NPCResult)
    (hid : ∀ o,(addBlock E b r forkPointWithPeak npcResult w).1 = .ok o → Identified E w b) :
    Cached (addBlock E b r forkPointWithPeak npcResult w).2 floor := by
  have hstore : Eff.Triple (Opened w none) (storeBlock E b r forkPointWithPeak npcResult)
      (fun _ v => Identified E w b → Cached v floor) (fun _ => Revocable w) := by
    refine begin_opened.bind fun _ => (addFullBlock_inserting (h := b.headerHash E) rfl).bind fun _ => ?_
    refine (reconsiderPeak_inserting hw hr.headerHash _ _ _).bind fun change => ?_
    obtain ⟨forkHeight,peakHeight,records⟩ := change
    rintro s ⟨hs,hknown⟩
    refine (Eff.Triple.bind commit_inserting fun _ => ?_) s hs
    refine .bind (Q := fun _ v => Identified E w b → Cached v floor) (Eff.Triple.modify fun s hs hid => ?_) fun _ =>
      .pure _ fun s hs => hs
    have hsame (r' : BlockRecord) (hr' : w.record? (b.headerHash E)=some r') : r'.height=r.height :=
      (hid r' hr').trans hr.height.symm
    exact hw.inserted hnew hr.headerHash hsame hknown hs peakHeight
  have hrun := hstore w ⟨rfl,hw.closed,SameCache.refl _⟩
  unfold addBlock onException at hid ⊢
  rcases hres : storeBlock E b r forkPointWithPeak npcResult w with ⟨e | o,s⟩ <;> rw [hres] at hrun hid
  · exact hw.congr (record?_of_db hrun.tables) rfl hrun.index
  · exact hrun (hid o rfl)

theorem validateBlock_recordOf {pre : Option PreValidationResult} {forkPointWithPeak : Option ℕ}
    {npcResult : Option NPCResult} (h : validateBlock E b pre forkPointWithPeak w=(.ok (r,npcResult),s)) :
    RecordOf E b r := by
  have hrest (p : ℕ × Option NPCResult) (v : World) (h : (do
      let w ← Eff.get
      let peak ← Eff.lift (getPeak w.chain)
      let _ ← validateBlockBody E w.chain.view peak b.body b.height p.2 forkPointWithPeak blockGenerator
      let blockRecord ← Eff.lift (blockToBlockRecord E w.chain.view p.1 b)
      return (blockRecord,p.2) : NodeM (BlockRecord × Option NPCResult)) v=(.ok (r,npcResult),s)) :
      RecordOf E b r := by
    obtain ⟨u,s₂,-,h⟩ := Eff.bind_ok h
    obtain ⟨peak,s₃,-,h⟩ := Eff.bind_ok h
    obtain ⟨out,s₄,-,h⟩ := Eff.bind_ok h
    obtain ⟨record,s₅,hrecord,h⟩ := Eff.bind_ok h
    cases h
    exact recordOf_of_ok (congrArg Prod.fst hrecord)
  unfold validateBlock at h
  cases pre with
  | none =>
    obtain ⟨p,s₁,-,h⟩ := Eff.bind_ok h
    exact hrest p s₁ h
  | some result =>
    obtain ⟨p,s₁,-,h⟩ := Eff.bind_ok h
    exact hrest p s₁ h

/-- Whatever its answer, and also when it raises, `receive_block` leaves the records in order. -/
theorem receiveBlock_cached (hw : Cached w floor) (pre : Option PreValidationResult) (forkPointWithPeak : Option ℕ)
    (hid : ∀ x∈nowAccepted b (receiveBlock E b pre forkPointWithPeak w).1,Identified E w x) :
    Cached (receiveBlock E b pre forkPointWithPeak w).2 floor := by
  unfold receiveBlock at hid ⊢
  rw [Eff.bind_get] at hid ⊢
  by_cases hknown : w.chain.view.containsBlock (b.headerHash E)
  · rw [if_pos hknown]
    exact hw
  rw [if_neg hknown] at hid ⊢
  split_ifs at hid ⊢
  · exact hw
  cases hwrong : hasWrongHeight w.chain.view b with
  | error e => exact hw
  | ok wrong =>
    rw [hwrong,Eff.lift_ok_bind] at hid
    rw [Eff.lift_ok_bind]
    split_ifs at hid ⊢
    · exact hw
    have hquiet := (validateBlock_observes (E := E) b pre forkPointWithPeak).quiet w
    unfold validateAndAdd at hid ⊢
    rcases hrun : validateBlock E b pre forkPointWithPeak w with ⟨⟨e | e⟩ | ⟨record,npcResult⟩,s⟩ <;>
      rw [hrun] at hquiet
    · have hcode : codeOf (validateBlock E b pre forkPointWithPeak) w=(.ok (.error e),s) := by
        unfold codeOf
        rw [hrun]
      rw [Eff.bind_of_ok hcode]
      exact hw.quiet hquiet
    · have hcode : codeOf (validateBlock E b pre forkPointWithPeak) w=(.error (.raised e),s) := by
        unfold codeOf
        rw [hrun]
      rw [Eff.bind_of_error hcode]
      exact hw.quiet hquiet
    · have hcode : codeOf (validateBlock E b pre forkPointWithPeak) w=(.ok (.ok (record,npcResult)),s) := by
        unfold codeOf
        rw [hrun]
      rw [Eff.bind_of_ok hcode] at hid ⊢
      dsimp only at hid ⊢
      have hnew : s.chain.blockRecords.get? (b.headerHash E)=none := by
        rw [hquiet.chain]
        exact containsBlock_eq_false.mp (Bool.not_eq_true _ ▸ hknown)
      have hids : ∀ o,(addBlock E b record forkPointWithPeak npcResult s).1 = .ok o → Identified E s b := by
        intro o hok
        obtain ⟨s',hres⟩ : ∃ s',addBlock E b record forkPointWithPeak npcResult s=(.ok o,s') := ⟨_,Prod.ext hok rfl⟩
        rw [Eff.bind_of_ok hres] at hid
        have hb : Identified E w b := by cases o <;> exact hid b List.mem_cons_self
        unfold Identified
        rw [record?_of_db hquiet.db]
        exact hb
      have hadd := addBlock_cached (hw.quiet hquiet) hnew (validateBlock_recordOf hrun) forkPointWithPeak npcResult hids
      rcases hres : addBlock E b record forkPointWithPeak npcResult s with ⟨e | o,s'⟩ <;> rw [hres] at hadd
      · rw [Eff.bind_of_error hres]
        exact hadd
      · rw [Eff.bind_of_ok hres]
        cases o <;> exact hadd

end RoseChain
