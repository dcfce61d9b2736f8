import RoseChain.Consensus.CacheSteps

namespace RoseChain
open Lib Blockchain PreValidate
variable {E : Env} {w v : World} {floor : ℤ} {h : Bytes32} {b : FullBlock} {r : BlockRecord}
  {wpSummaries : Option (List SubEpochSummary)}

variable (E) in
/-- A chain in a pre-validation: nothing that was there has gone, and what is new is of the blocks.
-/
structure Beside (w : World) (blocks : List FullBlock) (c : Chain) : Prop where
  exact : CacheExact c
  old : ∀ h r,w.chain.blockRecords.get? h=some r → c.blockRecords.get? h=some r
  new : ∀ h r,w.chain.blockRecords.get? h=none → c.blockRecords.get? h=some r →
    ∃ b∈blocks,RecordOf E b r ∧ b.headerHash E=h

variable (E) in
/-- The record of a block came into memory, and stays there. -/
def LeftInMemory (w v : World) (b : FullBlock) : Prop :=
  w.chain.blockRecords.get? (b.headerHash E)=none ∧ (v.chain.blockRecords.get? (b.headerHash E)).isSome

variable {blocks : List FullBlock}

theorem Cached.beside (hw : Cached w floor) : Beside E w blocks w.chain := by
  refine ⟨hw.exact,fun _ _ hr => hr,fun h r hnone hr => ?_⟩
  rw [hnone] at hr
  cases hr

theorem Cached.aside (hw : Cached w floor) (ha : Aside w v) (hv : Beside E w blocks v.chain)
    (hid : ∀ b∈blocks,LeftInMemory E w v b → Identified E w b) : Cached v floor := by
  have hdb := record?_of_db ha.db
  refine ⟨ha.saved.trans hw.closed,hv.exact,?_,?_,fun h r hr hfloor => ?_,?_⟩
  · rw [hdb]
    exact hw.keyed
  · rw [hdb]
    intro h r r' hr hr'
    cases hknown : w.chain.blockRecords.get? h with
    | some r₀ =>
      rw [hv.old h r₀ hknown] at hr'
      exact hw.agree h r r' hr (hknown.trans hr')
    | none =>
      obtain ⟨b,hb,hrecord,rfl⟩ := hv.new h r' hknown hr'
      have hleft : LeftInMemory E w v b := ⟨hknown,by rw [hr']; rfl⟩
      rw [hrecord.height,hid b hb hleft r hr]
  · rw [hdb] at hr
    obtain ⟨r',hr'⟩ := Option.isSome_iff_exists.mp (hw.cached h r hr hfloor)
    rw [hv.old h r' hr']
    rfl
  · rw [hdb,ha.heightToHash]
    exact hw.main

theorem modifyChain_run (f : Chain → Chain) (w : World) :
    modifyChain f w=(.ok (),{ w with chain := f w.chain }) := rfl

theorem removeBlockRecord_beside (hnew : w.chain.blockRecords.get? h=none) (hv : Beside E w blocks v.chain) :
    Beside E w blocks (removeBlockRecord h v).2.chain := by
  cases hget : v.chain.blockRecords.get? h with
  | none =>
    have hrun := removeBlockRecord_unknown hget v
    rw [show v.withChain v.chain=v from rfl] at hrun
    rw [hrun]
    exact hv
  | some r =>
    obtain ⟨hashes,hheight,hmem,hexact⟩ := hv.exact.removed hget
    have hrun : removeBlockRecord h v=(.ok (),{ v with chain := { v.chain with
        blockRecords := v.chain.blockRecords.erase h
        heightsInCache := v.chain.heightsInCache.set r.height (hashes.erase h) } }) := by
      have hlook : v.chain.view.blockRecord h = .ok r := lookup_eq_ok.mpr hget
      unfold removeBlockRecord
      rw [Eff.bind_get,hlook,Eff.lift_ok_bind,Eff.bind_of_ok (modifyChain_run _ _),hheight,
        lookup,Eff.lift_ok_bind,if_pos (List.contains_iff_mem.mpr hmem),Eff.lift_ok_bind]
      rfl
    rw [hrun]
    refine ⟨hexact,fun k x hx => ?_,fun k x hx hx' => ?_⟩
    · have hne : h≠k := by
        rintro rfl
        rw [hnew] at hx
        cases hx
      dsimp only
      rw [Dict.get?_erase,if_neg hne]
      exact hv.old k x hx
    · dsimp only at hx'
      rw [Dict.get?_erase] at hx'
      split_ifs at hx'
      exact hv.new k x hx hx'

/-- The blocks that are marked as new were not there before. -/
def MarkedNew (E : Env) (w : World) (all : List (FullBlock × Bool)) : Prop :=
  ∀ p∈all,p.2=false → w.chain.blockRecords.get? (p.1.headerHash E)=none

theorem undo_beside (all : List (FullBlock × Bool)) (hall : MarkedNew E w all) (hv : Beside E w blocks v.chain) :
    Beside E w blocks (undo E all v).2.chain := by
  induction all generalizing v with
  | nil => exact hv
  | cons p all ih =>
    obtain ⟨b,present⟩ := p
    have hmore : MarkedNew E w all := fun p hp => hall p (List.mem_cons_of_mem _ hp)
    unfold undo
    rw [Eff.bind_get]
    split_ifs with hremove
    · have hone := removeBlockRecord_beside (hall (b,present) List.mem_cons_self hremove.1) hv
      rcases hrun : removeBlockRecord (b.headerHash E) v with ⟨e | u,s⟩ <;> rw [hrun] at hone
      · rw [Eff.bind_of_error hrun]
        exact hone
      · rw [Eff.bind_of_ok hrun]
        exact ih hmore hone
    · exact ih hmore hv

theorem removeTemporary_beside (all : List (FullBlock × Bool)) (hall : MarkedNew E w all) (hv : Beside E w blocks v.chain) :
    Beside E w blocks (removeTemporary E all v).2.chain := by
  induction all generalizing v with
  | nil => exact hv
  | cons p all ih =>
    obtain ⟨b,present⟩ := p
    have hmore : MarkedNew E w all := fun p hp => hall p (List.mem_cons_of_mem _ hp)
    unfold removeTemporary
    by_cases hremove : present=false
    · rw [if_pos hremove]
      have hone := removeBlockRecord_beside (hall (b,present) List.mem_cons_self hremove) hv
      rcases hrun : removeBlockRecord (b.headerHash E) v with ⟨e | u,s⟩ <;> rw [hrun] at hone
      · rw [Eff.bind_of_error hrun]
        exact hone
      · rw [Eff.bind_of_ok hrun]
        exact ih hmore hone
    · rw [if_neg hremove]
      exact ih hmore hv

variable {c : Chain}

theorem Beside.added (hv : Beside E w blocks c) (hr : RecordOf E b r) (hb : b∈blocks)
    (hnew : c.blockRecords.get? r.headerHash=none) : Beside E w blocks (addBlockRecord r c) := by
  refine ⟨hv.exact.added fun r' hr' => ?_,fun k x hx => ?_,fun k x hx hx' => ?_⟩
  · rw [hnew] at hr'
    cases hr'
  · have hold := hv.old k x hx
    have hne : r.headerHash≠k := by
      rintro rfl
      rw [hnew] at hold
      cases hold
    rw [addBlockRecord_get?,if_neg hne,hold]
  · rw [addBlockRecord_get?] at hx'
    split_ifs at hx' with hk
    · obtain rfl := Option.some.inj hx'
      exact ⟨b,hb,hr,hr.headerHash.symm.trans hk⟩
    · exact hv.new k x hx hx'

variable (wpSummaries) in
theorem loop_beside (all : List (FullBlock × Bool)) (hall : MarkedNew E w all) (more : List FullBlock)
    (hin : ∀ b∈more,b∈blocks) (p : PreValidation) (hv : Beside E w blocks v.chain) :
    Beside E w blocks (loop E all wpSummaries more p v).2.chain := by
  induction more generalizing p v with
  | nil => exact hv
  | cons b more ih =>
    have hmore : ∀ x∈more,x∈blocks := fun x hx => hin x (List.mem_cons_of_mem _ hx)
    unfold loop
    rw [Eff.bind_get]
    cases hcheck : checkBlock E v.chain.view wpSummaries p b with
    | error e => exact hv
    | ok verdict =>
      rw [Eff.lift_ok_bind]
      cases verdict with
      | badProof =>
        have hundo := undo_beside all hall hv
        dsimp only
        rcases hrun : undo E all v with ⟨e | u,s⟩ <;> rw [hrun] at hundo
        · rw [Eff.bind_of_error hrun]
          exact hundo
        · rw [Eff.bind_of_ok hrun]
          exact hundo
      | otherSummary => exact hv
      | valid r difficulty subSlotIters =>
        dsimp only
        cases hseen : v.chain.view.tryBlockRecord r.headerHash with
        | some seen => exact ih hmore _ hv
        | none =>
          dsimp only
          rw [Eff.bind_of_ok (modifyChain_run _ _)]
          exact ih hmore _ (hv.added (checkBlock_recordOf hcheck) (hin b List.mem_cons_self) hseen)

section
variable (hw : Cached w floor)
include hw

/-- Whatever its outcome, a pre-validation leaves the records in order. -/
theorem preValidate_cached (blocks : List FullBlock) (batchSize : ℕ)
    (pool : List PoolBatch → Check (List PreValidationResult)) (hid : ∀ b∈blocks,LeftInMemory E w
      (preValidateBlocksMultiprocessing E blocks batchSize wpSummaries pool w).2 b → Identified E w b) :
    Cached (preValidateBlocksMultiprocessing E blocks batchSize wpSummaries pool w).2 floor := by
  refine hw.aside (preValidate_aside w blocks batchSize pool) ?_ hid
  by_cases hex : ∃ recent,recentBlocks E w.chain.view blocks = .ok (some recent)
  · obtain ⟨recent,hrecent⟩ := hex
    rw [preValidate_of_recent w batchSize pool hrecent]
    have hall : MarkedNew E w (marked E w.chain blocks) := by
      intro p hp hnew
      obtain ⟨x,-,rfl⟩ := List.mem_map.mp hp
      exact containsBlock_eq_false.mp hnew
    have hloop := loop_beside wpSummaries (marked E w.chain blocks) hall blocks (fun _ hb => hb) ⟨none,recent,[]⟩ hw.beside
    rw [show w.withChain w.chain=w from rfl]
    rcases hrun : loop E (marked E w.chain blocks) wpSummaries blocks ⟨none,recent,[]⟩ w with ⟨e | p,s⟩ <;>
      rw [hrun] at hloop
    · rw [Eff.bind_of_error hrun]
      exact hloop
    · rw [Eff.bind_of_ok hrun]
      cases p with
      | none => exact hloop
      | some p =>
        have hremove := removeTemporary_beside (marked E w.chain blocks) hall hloop
        change Beside E w blocks ((removeTemporary E (marked E w.chain blocks) >>= fun _ => toPool E blocks batchSize pool p) s).2.chain
        rcases hrun' : removeTemporary E (marked E w.chain blocks) s with ⟨e | u,s'⟩ <;> rw [hrun'] at hremove
        · rw [Eff.bind_of_error hrun']
          exact hremove
        · rw [Eff.bind_of_ok hrun',keepsChain_toPool]
          exact hremove
  · rw [preValidate_of_unknown w batchSize pool fun recent hrecent => hex ⟨recent,hrecent⟩]
    exact hw.beside

theorem Cached.loaded (hr : w.record? h=some r) :
    Cached { w with chain := addBlockRecord r w.chain } floor := by
  have hkey := hw.keyed h r hr
  refine ⟨hw.closed,hw.exact.added fun r' hr' => ?_,hw.keyed,fun k x x' hx hx' => ?_,fun k x hx hfloor => ?_,hw.main⟩
  · exact hw.agree h r r' hr (hkey ▸ hr')
  · dsimp only at hx'
    change w.record? k=some x at hx
    rw [addBlockRecord_get?] at hx'
    split_ifs at hx' with hk
    · rw [← hk,hkey,hr] at hx
      rw [← Option.some.inj hx,← Option.some.inj hx']
    · exact hw.agree k x x' hx hx'
  · dsimp only
    rw [addBlockRecord_get?]
    split_ifs
    · rfl
    · exact hw.cached k x hx hfloor

theorem Cached.loadedAll (records : List (Bytes32 × BlockRecord)) (hr : ∀ p∈records,w.record? p.1=some p.2) :
    Cached { w with chain := records.foldl (fun c p => addBlockRecord p.2 c) w.chain } floor := by
  induction records generalizing w with
  | nil => exact hw
  | cons p records ih =>
    exact ih (w := { w with chain := addBlockRecord p.2 w.chain }) (hw.loaded (hr p List.mem_cons_self)) fun q hq =>
      hr q (List.mem_cons_of_mem _ hq)

theorem warmup_cached (forkPoint : ℕ) : Cached (warmup E forkPoint w).2 floor := by
  unfold warmup
  rw [Eff.bind_get]
  cases w.chain.peakHeight with
  | none => exact hw
  | some height =>
    dsimp only
    obtain ⟨i,hrun | ⟨e,hrun⟩⟩ := fetch_cases (fun t => BlockStore.getBlockRecordsInRange t
      (max ((forkPoint : ℤ)-E.blocksCacheSize) 0) forkPoint) w
    · rw [Eff.bind_of_ok hrun,modifyChain_run]
      refine (hw.quiet (quiet_due (E := E) w i)).loadedAll _ fun p hp => ?_
      unfold BlockStore.getBlockRecordsInRange at hp
      obtain ⟨e,he,rfl⟩ := List.mem_map.mp hp
      have hget := (w.db.blockRecords.mem_entries _ _).mp (List.mem_of_mem_filter he)
      change (w.db.blockRecords.get? e.1).map (·.block)=some e.2.block
      rw [hget]
      rfl
    · rw [Eff.bind_of_error hrun]
      exact hw.quiet (quiet_due (E := E) w i)

theorem Cached.cleaned {height : ℤ} (hc : CleanedTo w.chain c height) :
    Cached { w with chain := c } (max floor height) := by
  refine ⟨hw.closed,hc.exact,hw.keyed,fun k x x' hx hx' => ?_,fun k x hx hfloor => ?_,?_⟩
  · exact hw.agree k x x' hx (hc.only k x' hx')
  · obtain ⟨hlow,hhigh⟩ := max_lt_iff.mp hfloor
    obtain ⟨x',hx'⟩ := Option.isSome_iff_exists.mp (hw.cached k x hx hlow)
    have hheight := hw.agree k x x' hx hx'
    dsimp only
    rw [hc.kept k x' hx' (hheight ▸ hhigh)]
    rfl
  · dsimp only
    rw [hc.heightToHash]
    exact hw.main

end

def onIndex {α : Type} (f : Eff Chain Fail α) : NodeM α := fun w =>
  let (a,chain) := f w.chain
  (a,{ w with chain })

variable (E) in
/-- The worlds after calls of the operations on the block records, which may raise or be interrupted at any
time, with the greatest height that has been cleaned, or -1. -/
inductive CacheRun : World → ℤ → Prop
  | start (m n : ℕ) : CacheRun (World.empty m n) (-1)
  | due {w : World} {floor : ℤ} (hw : CacheRun w floor) (i : Option (ℕ × PyErr)) : CacheRun (w.due i) floor
  | receiveBlock {w : World} {floor : ℤ} (hw : CacheRun w floor) {b : FullBlock} (pre : Option PreValidationResult)
      (forkPointWithPeak : Option ℕ)
      (hid : ∀ x∈nowAccepted b (Blockchain.receiveBlock E b pre forkPointWithPeak w).1,Identified E w x) :
      CacheRun (Blockchain.receiveBlock E b pre forkPointWithPeak w).2 floor
  | preValidate {w : World} {floor : ℤ} (hw : CacheRun w floor) {blocks : List FullBlock} (batchSize : ℕ)
      (wpSummaries : Option (List SubEpochSummary)) (pool : List PoolBatch → Check (List PreValidationResult))
      (hid : ∀ b∈blocks,LeftInMemory E w
        (preValidateBlocksMultiprocessing E blocks batchSize wpSummaries pool w).2 b → Identified E w b) :
      CacheRun (preValidateBlocksMultiprocessing E blocks batchSize wpSummaries pool w).2 floor
  | warmup {w : World} {floor : ℤ} (hw : CacheRun w floor) (forkPoint : ℕ) :
      CacheRun (Blockchain.warmup E forkPoint w).2 floor
  | addBlockRecord {w : World} {floor : ℤ} (hw : CacheRun w floor) {h : Bytes32} {r : BlockRecord}
      (hr : w.record? h=some r) : CacheRun { w with chain := Blockchain.addBlockRecord r w.chain } floor
  | cleanBlockRecord {w : World} {floor : ℤ} (hw : CacheRun w floor) (height : ℤ) :
      CacheRun (onIndex (Blockchain.cleanBlockRecord height) w).2 (max floor height)
  | cleanBlockRecords {w : World} {floor : ℤ} (hw : CacheRun w floor) {peak : BlockRecord}
      (hpeak : getPeak w.chain = .ok (some peak)) :
      CacheRun (onIndex (Blockchain.cleanBlockRecords E) w).2 (max floor (peak.height-E.blocksCacheSize))

theorem empty_cached (m n : ℕ) : Cached (World.empty m n) (-1) := by
  refine ⟨rfl,⟨fun k x => iff_of_false ?_ ?_,fun k hashes hget => (by cases hget)⟩,fun k x hx => (by cases hx),
    fun k x x' hx => (by cases hx),fun k x hx => (by cases hx),fun k x hx => (by cases hx)⟩
  · rintro ⟨hashes,hget,-⟩
    cases hget
  · rintro ⟨x',hget,-⟩
    cases hget

theorem CacheRun.cached (hw : CacheRun E w floor) : Cached w floor := by
  induction hw with
  | start m n => exact empty_cached m n
  | due _ i ih => exact ih.quiet (E := E) (quiet_due _ i)
  | receiveBlock _ pre forkPointWithPeak hid ih => exact receiveBlock_cached ih pre forkPointWithPeak hid
  | preValidate _ batchSize wpSummaries pool hid ih => exact preValidate_cached ih _ batchSize pool hid
  | warmup _ forkPoint ih => exact warmup_cached ih forkPoint
  | addBlockRecord _ hr ih => exact ih.loaded hr
  | cleanBlockRecord _ height ih => exact ih.cleaned (cleanBlockRecord_cleanedTo ih.exact height)
  | cleanBlockRecords _ hpeak ih => exact ih.cleaned (cleanBlockRecords_cleanedTo ih.exact hpeak)

/-- Above the greatest height that has been cleaned, the whole main chain is in memory. -/
theorem cacheRun_window (hw : CacheRun E w floor) : CacheExact w.chain ∧
    (∀ height : ℤ,height<2^32 → (cleanBlockRecord height w.chain).1 = .ok ()) ∧
    ∀ height h,w.chain.heightToHash.get? height=some h → floor<height →
      ∃ r,w.chain.view.blockRecord h = .ok r ∧ r.height=height ∧
        w.chain.view.heightToBlockRecord height = .ok r := by
  obtain ⟨-,hexact,-,hagree,hcached,hmain⟩ := hw.cached
  refine ⟨hexact,fun height hfits => (cleanBlockRecord_run hexact hfits).1,fun height h hheight hfloor => ?_⟩
  obtain ⟨x,hx,rfl⟩ := hmain height h hheight
  obtain ⟨r,hr⟩ := Option.isSome_iff_exists.mp (hcached h x hx hfloor)
  have hrecord : w.chain.view.blockRecord h = .ok r := lookup_eq_ok.mpr hr
  refine ⟨r,hrecord,hagree h x r hx hr,?_⟩
  have hhash : w.chain.view.heightToHash x.height = .ok h := lookup_eq_ok.mpr hheight
  rw [BlockView.heightToBlockRecord,bind_of_ok hhash]
  exact hrecord

/-- The network of `tinyEnv` with four heights in the cache. -/
def smallCache : Env := { tinyEnv with blocksCacheSize := 4 }

def rewardBlock : FullBlock :=
  { tinyBlock 11 10 1 8 with
    foliage := { (tinyBlock 11 10 1 8).foliage with foliageTransactionBlockHash := some 0 }
    foliageTransactionBlock := some ⟨10,2,0,0,0,0⟩
    transactionsInfo := some ⟨0,ones32,[],0,0,[createPoolCoin smallCache.constants 0 0
      (calculatePoolReward 0),createFarmerCoin smallCache.constants 0 0 (calculateBaseFarmerReward 0)]⟩ }

def smallState (blocks : List FullBlock) (w : World) : World :=
  blocks.foldl (fun w b => (receiveBlock smallCache b tinyPre none (w.due none)).2) w

theorem smallState_cons (b : FullBlock) (blocks : List FullBlock) (w : World) :
    smallState (b::blocks) w=smallState blocks (smallState [b] w) := rfl

def fullCache : World := smallState
  [tinyGenesis,rewardBlock,tinyBlock 12 11 2 9,tinyBlock 13 12 3 10,tinyBlock 14 13 4 11] (World.empty 5 5)

def lowerPeak : World :=
  smallState [tinyBlock 23 12 3 30] (onIndex (Blockchain.cleanBlockRecords smallCache) fullCache).2

def checkedState (b : FullBlock) (w : World) : World :=
  (preValidateBlocksMultiprocessing smallCache [b] 4 none (fun _ => .ok []) w).2

/-- The second block is cleaned, too, and a peer sends a first block under its header hash. -/
def forgedFirst : World :=
  checkedState (proofBlock 11 0 0 40 0) (onIndex (Blockchain.cleanBlockRecord 1) lowerPeak).2

theorem mem_nowAccepted {x b : FullBlock} {answer : Check (ReceiveBlockResult × Option Err × Option ℕ)}
    (hx : x∈nowAccepted b answer) : x=b := by
  unfold nowAccepted at hx
  split at hx
  · exact List.mem_singleton.mp hx
  · exact List.mem_singleton.mp hx
  · cases hx

theorem CacheRun.receives (hw : CacheRun smallCache w floor) (b : FullBlock)
    (hnew : (w.record? (b.headerHash smallCache)).isNone) : CacheRun smallCache (smallState [b] w) floor := by
  refine (hw.due none).receiveBlock tinyPre none fun x hx r hr => ?_
  obtain rfl := mem_nowAccepted hx
  change w.record? _=some r at hr
  rw [hr] at hnew
  cases hnew

theorem CacheRun.checks (hw : CacheRun smallCache w floor) (b : FullBlock)
    (hgone : ((checkedState b w).chain.blockRecords.get? (b.headerHash smallCache)).isSome=false) :
    CacheRun smallCache (checkedState b w) floor := by
  refine hw.preValidate 4 none (fun _ => .ok []) fun x hx hleft => ?_
  obtain rfl := List.mem_singleton.mp hx
  exact absurd hleft.2 (Bool.eq_false_iff.mp hgone)

theorem fullCache_run : CacheRun smallCache fullCache (-1) := by
  have h1 := (CacheRun.start (E := smallCache) 5 5).receives tinyGenesis (by decide +kernel)
  have h2 := h1.receives rewardBlock (by decide +kernel)
  have h3 := h2.receives (tinyBlock 12 11 2 9) (by decide +kernel)
  have h4 := h3.receives (tinyBlock 13 12 3 10) (by decide +kernel)
  have h5 := h4.receives (tinyBlock 14 13 4 11) (by decide +kernel)
  rw [fullCache,smallState_cons,smallState_cons,smallState_cons,smallState_cons]
  exact h5

theorem getPeak_of_height {n : ℕ} (h : (getPeak c).toOption.map (·.map (·.height))=some (some n)) :
    ∃ peak,getPeak c = .ok (some peak) ∧ peak.height=n := by
  cases hpeak : getPeak c with
  | error e =>
    rw [hpeak] at h
    cases h
  | ok peak =>
    rw [hpeak] at h
    cases peak with
    | none => cases h
    | some peak => exact ⟨peak,rfl,Option.some.inj (Option.some.inj h)⟩

theorem blockRecord_gone {h : Bytes32} (hgone : (c.blockRecords.get? h).isNone) :
    c.view.blockRecord h = .error (.raised .key) := by
  change lookup (c.blockRecords.get? h)=_
  rw [Option.isNone_iff_eq_none.mp hgone]
  rfl

theorem lowerPeak_run : CacheRun smallCache lowerPeak 0 := by
  obtain ⟨peak,hpeak,hheight⟩ := getPeak_of_height (c := fullCache.chain) (n := 4) (by decide +kernel)
  have hclean := fullCache_run.cleanBlockRecords hpeak
  rw [hheight] at hclean
  exact hclean.receives (tinyBlock 23 12 3 30) (by decide +kernel)

theorem cacheRun_window_lowerPeak : ∃ r,forgedFirst.chain.view.blockRecord 12 = .ok r ∧ r.height=2 ∧
    forgedFirst.chain.view.heightToBlockRecord 2 = .ok r :=
  (cacheRun_window ((lowerPeak_run.cleanBlockRecord 1).checks (proofBlock 11 0 0 40 0) (by decide +kernel))).2.2 2 12
    (by decide +kernel) (by decide)

/-- After the change to a lower peak, the first block is above the window's end, and not in memory. -/
theorem cacheRun_leaves_window : ∃ w floor peak,CacheRun smallCache w floor ∧ getPeak w.chain = .ok (some peak) ∧
    ∃ height h,w.chain.heightToHash.get? height=some h ∧
      (peak.height : ℤ)-smallCache.blocksCacheSize<height ∧ height≤peak.height ∧
      w.chain.view.blockRecord h = .error (.raised .key) := by
  obtain ⟨peak,hpeak,hheight⟩ := getPeak_of_height (c := lowerPeak.chain) (n := 3) (by decide +kernel)
  refine ⟨lowerPeak,0,peak,lowerPeak_run,hpeak,0,10,by decide +kernel,?_,Nat.zero_le _,?_⟩
  · rw [hheight]
    decide
  · exact blockRecord_gone (by decide +kernel)

end RoseChain
