import RoseChain.Consensus.PreValidationFrame
import RoseChain.Lib.Index

namespace RoseChain
open Lib

namespace BlockStore

/-- The records of the heights from `start` to `stop`, by header hash. -/
def getBlockRecordsInRange (t : Tables) (start stop : ℤ) : List (Bytes32 × BlockRecord) :=
  (t.blockRecords.entries.filter fun e => decide (start≤e.2.height ∧ (e.2.height : ℤ) ≤ stop)).map
    fun e => (e.1,e.2.block)

end BlockStore

namespace Blockchain
variable (E : Env)

/-- Loads the records from `BLOCKS_CACHE_SIZE` below the fork up to the fork. -/
def warmup (forkPoint : ℕ) : NodeM Unit := do
  let w ← Eff.get
  match w.chain.peakHeight with
  | none => return ()
  | some _ =>
    let blockRecords ← fetch fun t =>
      BlockStore.getBlockRecordsInRange t (max ((forkPoint : ℤ)-E.blocksCacheSize) 0) forkPoint
    modifyChain fun c => blockRecords.foldl (fun c b => addBlockRecord b.2 c) c

/-- `del self.__block_records[header_hash]`. -/
def delRecord (headerHash : Bytes32) : Eff Chain Fail Unit := do
  let c ← Eff.get
  let _ ← Eff.lift (lookup (c.blockRecords.get? headerHash))
  Eff.modify fun c => { c with blockRecords := c.blockRecords.erase headerHash }

/-- From a height down, as long as there is a set at the height. -/
def cleanDown (height : ℕ) : Eff Chain Fail Unit := do
  let c ← Eff.get
  match c.heightsInCache.get? height with
  | none => return ()
  | some blocksToRemove =>
    blocksToRemove.forM delRecord
    Eff.modify fun c => { c with heightsInCache := c.heightsInCache.erase height }
    match height with
    | 0 => return ()
    | h+1 => cleanDown h

def cleanBlockRecord (height : ℤ) : Eff Chain Fail Unit := do
  if height<0 then return () else cleanDown (← Eff.lift (uint32 height))

def cleanBlockRecords : Eff Chain Fail Unit := do
  let c ← Eff.get
  if c.blockRecords.size<E.blocksCacheSize then return ()
  let peak ← Eff.lift (getPeak c)
  let peak ← Eff.lift (assertSome peak)
  if (peak.height : ℤ)-E.blocksCacheSize<0 then return ()
  cleanBlockRecord (peak.height-E.blocksCacheSize)

end Blockchain

open Blockchain PreValidate
variable {E : Env} {c c' : Chain} {h : Bytes32} {height : ℕ}

def Listed (c : Chain) (height : ℕ) (h : Bytes32) : Prop :=
  ∃ hashes,c.heightsInCache.get? height=some hashes ∧ h∈hashes

/-- The sets of the heights hold just the records in memory, each one once. -/
structure CacheExact (c : Chain) : Prop where
  listed : ∀ height h,Listed c height h ↔ ∃ r,c.blockRecords.get? h=some r ∧ r.height=height
  nodup : ∀ height hashes,c.heightsInCache.get? height=some hashes → hashes.Nodup

theorem CacheExact.congr (hc : CacheExact c) (hr : c'.blockRecords=c.blockRecords)
    (hh : c'.heightsInCache=c.heightsInCache) : CacheExact c' := by
  obtain ⟨hl,hn⟩ := hc
  unfold Listed at hl
  refine ⟨?_,?_⟩
  · unfold Listed
    rw [hr,hh]
    exact hl
  · rw [hh]
    exact hn

variable {r : BlockRecord}

theorem CacheExact.added (hc : CacheExact c)
    (hsame : ∀ r',c.blockRecords.get? r.headerHash=some r' → r'.height=r.height) :
    CacheExact (addBlockRecord r c) := by
  have hlisted (k : ℕ) (h : Bytes32) : Listed (addBlockRecord r c) k h ↔
      (r.height=k ∧ r.headerHash=h) ∨ Listed c k h := by
    unfold Listed addBlockRecord
    dsimp only
    rw [Dict.get?_set]
    split_ifs with hk
    · subst hk
      rw [and_iff_right rfl]
      cases hget : c.heightsInCache.get? r.height with
      | none => simp [eq_comm]
      | some hashes =>
        constructor
        · rintro ⟨l,hl,hmem⟩
          rw [← Option.some.inj hl,Option.getD_some,List.mem_insert_iff] at hmem
          exact hmem.imp Eq.symm fun hin => ⟨hashes,rfl,hin⟩
        · rintro (rfl | ⟨l,hl,hmem⟩)
          · exact ⟨_,rfl,List.mem_insert_self⟩
          · obtain rfl := Option.some.inj hl
            exact ⟨_,rfl,List.mem_insert_of_mem hmem⟩
    · simp [hk]
  refine ⟨fun k h => ?_,fun k hashes hget => ?_⟩
  · rw [hlisted,hc.listed,addBlockRecord_get?]
    split_ifs with hh
    · constructor
      · rintro (⟨hk,-⟩ | ⟨r',hr',hk⟩)
        · exact ⟨r,rfl,hk⟩
        · exact ⟨r,rfl,(hsame r' (hh ▸ hr')).symm.trans hk⟩
      · rintro ⟨r',hr',hk⟩
        rw [← Option.some.inj hr'] at hk
        exact Or.inl ⟨hk,hh⟩
    · rw [or_iff_right fun hboth => hh hboth.2]
  · unfold addBlockRecord at hget
    dsimp only at hget
    rw [Dict.get?_set] at hget
    split_ifs at hget with hk
    · rw [← Option.some.inj hget]
      cases hold : c.heightsInCache.get? r.height with
      | none => simp
      | some old => exact (hc.nodup _ old hold).insert
    · exact hc.nodup k hashes hget

theorem CacheExact.removed (hc : CacheExact c) (hr : c.blockRecords.get? h=some r) :
    ∃ hashes,c.heightsInCache.get? r.height=some hashes ∧ h∈hashes ∧ CacheExact { c with
      blockRecords := c.blockRecords.erase h
      heightsInCache := c.heightsInCache.set r.height (hashes.erase h) } := by
  obtain ⟨hashes,hget,hmem⟩ := (hc.listed r.height h).mpr ⟨r,hr,rfl⟩
  have hnodup := hc.nodup _ hashes hget
  refine ⟨hashes,hget,hmem,fun k x => ?_,fun k l hl => ?_⟩
  · have hold := hc.listed k x
    unfold Listed at hold ⊢
    dsimp only
    rw [Dict.get?_set,Dict.get?_erase]
    by_cases hx : h=x
    · subst hx
      rw [if_pos rfl]
      refine iff_of_false ?_ (by simp)
      rintro ⟨l,hl,hin⟩
      split_ifs at hl with hk
      · rw [← Option.some.inj hl] at hin
        exact (hnodup.not_mem_erase) hin
      · obtain ⟨r',hr',hk'⟩ := hold.mp ⟨l,hl,hin⟩
        rw [hr] at hr'
        exact hk ((congrArg BlockRecord.height (Option.some.inj hr')).trans hk')
    · rw [if_neg hx,← hold]
      split_ifs with hk
      · subst hk
        constructor
        · rintro ⟨l,hl,hin⟩
          rw [← Option.some.inj hl] at hin
          exact ⟨hashes,hget,List.mem_of_mem_erase hin⟩
        · rintro ⟨l,hl,hin⟩
          rw [hget] at hl
          obtain rfl := Option.some.inj hl
          exact ⟨_,rfl,(List.mem_erase_of_ne (Ne.symm hx)).mpr hin⟩
      · exact Iff.rfl
  · dsimp only at hl
    rw [Dict.get?_set] at hl
    split_ifs at hl with hk
    · rw [← Option.some.inj hl]
      exact hnodup.erase h
    · exact hc.nodup k l hl

def Chain.without (c : Chain) (height : ℕ) (hashes : List Bytes32) : Chain :=
  { c with
    blockRecords := hashes.foldl Dict.erase c.blockRecords
    heightsInCache := c.heightsInCache.erase height }

variable {hashes : List Bytes32}

theorem delRecords_run (hn : hashes.Nodup) (hin : ∀ h∈hashes,∃ r,c.blockRecords.get? h=some r) :
    hashes.forM delRecord c=(.ok (),{ c with blockRecords := hashes.foldl Dict.erase c.blockRecords }) := by
  induction hashes generalizing c with
  | nil => rfl
  | cons h hashes ih =>
    obtain ⟨r,hr⟩ := hin h List.mem_cons_self
    rw [List.nodup_cons] at hn
    have hone : delRecord h c=(.ok (),{ c with blockRecords := c.blockRecords.erase h }) := by
      unfold delRecord
      rw [Eff.bind_get,hr]
      rfl
    rw [Eff.forM_cons_of_ok hone,ih hn.2]
    · rfl
    · intro k hk
      have hne : h≠k := fun heq => hn.1 (heq ▸ hk)
      dsimp only
      rw [Dict.get?_erase,if_neg hne]
      exact hin k (List.mem_cons_of_mem _ hk)

theorem get?_erases (hashes : List Bytes32) (d : Dict Bytes32 BlockRecord) (h : Bytes32) :
    (hashes.foldl Dict.erase d).get? h=if h∈hashes then none else d.get? h := Dict.get?_eraseAll d hashes h

theorem CacheExact.without (hc : CacheExact c) (hget : c.heightsInCache.get? height=some hashes) :
    CacheExact (c.without height hashes) ∧ ∀ h r,c.blockRecords.get? h=some r → r.height≠height →
      (c.without height hashes).blockRecords.get? h=some r := by
  have hgone (x : Bytes32) : x∈hashes ↔ ∃ r,c.blockRecords.get? x=some r ∧ r.height=height := by
    rw [← hc.listed height x]
    unfold Listed
    simp [hget]
  have hkept (x : Bytes32) (r : BlockRecord) (hr : c.blockRecords.get? x=some r) (hne : r.height≠height) :
      (c.without height hashes).blockRecords.get? x=some r := by
    have hout : x∉hashes := by
      rw [hgone]
      rintro ⟨r',hr',hk⟩
      rw [hr] at hr'
      exact hne ((congrArg BlockRecord.height (Option.some.inj hr')).trans hk)
    unfold Chain.without
    dsimp only
    rw [get?_erases,if_neg hout,hr]
  refine ⟨⟨fun k x => ?_,fun k l hl => ?_⟩,hkept⟩
  · have hold := hc.listed k x
    unfold Listed at hold ⊢
    unfold Chain.without
    dsimp only
    rw [Dict.get?_erase,get?_erases]
    by_cases hk : height=k
    · subst hk
      rw [if_pos rfl]
      refine iff_of_false (by simp) ?_
      rintro ⟨r,hr,hh⟩
      split_ifs at hr with hin
      exact hin ((hgone x).mpr ⟨r,hr,hh⟩)
    · rw [if_neg hk,hold]
      constructor
      · rintro ⟨r,hr,hh⟩
        have hr' := hkept x r hr fun heq => hk (heq.symm.trans hh)
        unfold Chain.without at hr'
        dsimp only at hr'
        rw [get?_erases] at hr'
        exact ⟨r,hr',hh⟩
      · rintro ⟨r,hr,hh⟩
        split_ifs at hr
        exact ⟨r,hr,hh⟩
  · unfold Chain.without at hl
    dsimp only at hl
    rw [Dict.get?_erase] at hl
    split_ifs at hl with hk
    exact hc.nodup k l hl

/-- What a cleaning from a height down leaves: an exact index, and all above as before. -/
structure CleanedTo (c c' : Chain) (height : ℤ) : Prop where
  exact : CacheExact c'
  kept : ∀ h r,c.blockRecords.get? h=some r → height < r.height → c'.blockRecords.get? h=some r
  only : ∀ h r,c'.blockRecords.get? h=some r → c.blockRecords.get? h=some r
  heightToHash : c'.heightToHash=c.heightToHash

section
variable (hc : CacheExact c)
include hc

theorem CleanedTo.refl (height : ℤ) : CleanedTo c c height :=
  ⟨hc,fun _ _ hr _ => hr,fun _ _ hr => hr,rfl⟩

theorem cleanDown_run (height : ℕ) :
    (cleanDown height c).1 = .ok () ∧ CleanedTo c (cleanDown height c).2 height := by
  have hdel {hashes : List Bytes32} {k : ℕ} {c : Chain} (hc : CacheExact c) (hget : c.heightsInCache.get? k=some hashes) :
      hashes.forM delRecord c=(.ok (),{ c with blockRecords := hashes.foldl Dict.erase c.blockRecords }) := by
    refine delRecords_run (hc.nodup k hashes hget) fun h hin => ?_
    obtain ⟨r,hr,-⟩ := (hc.listed k h).mp ⟨hashes,hget,hin⟩
    exact ⟨r,hr⟩
  have hfewer (c : Chain) (k : ℕ) (hashes : List Bytes32) (h : Bytes32) (r : BlockRecord)
      (hr : (c.without k hashes).blockRecords.get? h=some r) : c.blockRecords.get? h=some r := by
    unfold Chain.without at hr
    dsimp only at hr
    rw [get?_erases] at hr
    split_ifs at hr
    exact hr
  induction height generalizing c with
  | zero =>
    unfold cleanDown
    rw [Eff.bind_get]
    cases hget : c.heightsInCache.get? 0 with
    | none => exact ⟨rfl,CleanedTo.refl hc 0⟩
    | some hashes =>
      dsimp only
      rw [Eff.bind_of_ok (hdel hc hget),Eff.bind_of_ok (Eff.modify_apply _ _)]
      obtain ⟨hexact,hkept⟩ := hc.without hget
      exact ⟨rfl,hexact,fun h r hr hlt => hkept h r hr (by omega),hfewer c 0 hashes,rfl⟩
  | succ n ih =>
    unfold cleanDown
    rw [Eff.bind_get]
    cases hget : c.heightsInCache.get? (n+1) with
    | none => exact ⟨rfl,CleanedTo.refl hc (n+1 : ℕ)⟩
    | some hashes =>
      dsimp only
      rw [Eff.bind_of_ok (hdel hc hget),Eff.bind_of_ok (Eff.modify_apply _ _)]
      obtain ⟨hexact,hkept⟩ := hc.without hget
      obtain ⟨hok,hrest⟩ := ih hexact
      refine ⟨hok,hrest.exact,fun h r hr hlt => ?_,fun h r hr => hfewer c (n+1) hashes h r (hrest.only h r hr),
        hrest.heightToHash⟩
      exact hrest.kept h r (hkept h r hr (by omega)) (by omega)

theorem cleanBlockRecord_run {height : ℤ} (hfits : height<2^32) :
    (cleanBlockRecord height c).1 = .ok () ∧ CleanedTo c (cleanBlockRecord height c).2 height := by
  unfold cleanBlockRecord
  by_cases hneg : height<0
  · rw [if_pos hneg]
    exact ⟨rfl,CleanedTo.refl hc height⟩
  · rw [if_neg hneg]
    have huint : uint32 height = .ok height.toNat := by
      unfold uint32 uint
      rw [if_pos ⟨by omega,hfits⟩]
    have hrun := cleanDown_run hc height.toNat
    rw [Int.toNat_of_nonneg (not_lt.mp hneg)] at hrun
    rw [huint,Eff.lift_ok_bind]
    exact hrun

theorem cleanBlockRecord_cleanedTo (height : ℤ) : CleanedTo c (cleanBlockRecord height c).2 height := by
  by_cases hfits : height<2^32
  · exact (cleanBlockRecord_run hc hfits).2
  · unfold cleanBlockRecord
    have huint : uint32 height = .error (.raised .value) := by
      unfold uint32 uint
      rw [if_neg fun hboth => hfits hboth.2]
    rw [if_neg (by omega),huint]
    exact CleanedTo.refl hc height

theorem cleanBlockRecords_cleanedTo {peak : BlockRecord} (hpeak : getPeak c = .ok (some peak)) :
    CleanedTo c (cleanBlockRecords E c).2 (peak.height-E.blocksCacheSize) := by
  unfold cleanBlockRecords
  rw [Eff.bind_get]
  split_ifs with hsize
  · exact CleanedTo.refl hc _
  · rw [hpeak,Eff.lift_ok_bind,assertSome,Eff.lift_ok_bind]
    split_ifs with hlow
    · exact CleanedTo.refl hc _
    · exact cleanBlockRecord_cleanedTo hc _

end

end RoseChain
