import RoseChain.Wallet.DerivationManager

namespace RoseChain
open Lib

namespace DerivationPath

def slot (row : DerivationPath) : ℕ × ℕ := (row.walletId,row.derivationIndex)

def markBelow (bound : ℕ) (row : DerivationPath) : DerivationPath :=
  if row.derivationIndex<bound then { row with used := true } else row

@[simp] theorem slot_markBelow (bound : ℕ) (row : DerivationPath) : (row.markBelow bound).slot=row.slot := by
  unfold markBelow
  split_ifs <;> rfl

@[simp] theorem derivationIndex_markBelow (bound : ℕ) (row : DerivationPath) :
    (row.markBelow bound).derivationIndex=row.derivationIndex := by
  unfold markBelow
  split_ifs <;> rfl

@[simp] theorem used_markBelow (bound : ℕ) (row : DerivationPath) :
    (row.markBelow bound).used=true ↔ row.used=true ∨ row.derivationIndex<bound := by
  unfold markBelow
  split_ifs with h <;> simp [h]

/-- Every row once, and the used ones below the others. -/
structure Settled (rows : List DerivationPath) : Prop where
  once : (rows.map slot).Nodup
  below : ∀ row∈rows,row.used=true → ∀ other∈rows,¬ other.used=true →
    row.derivationIndex<other.derivationIndex

variable {rows new : List DerivationPath} {bound : ℕ}

theorem Settled.grow (h : Settled rows) (hunused : ∀ row∈new,¬ row.used=true) (honce : (new.map slot).Nodup)
    (hfresh : ∀ row∈new,row.slot∉rows.map slot)
    (habove : ∀ row∈new,bound ≤ row.derivationIndex → ∀ other∈rows,other.used=true →
      other.derivationIndex < row.derivationIndex) :
    Settled ((rows++new).map (markBelow bound)) where
  once := by
    have hslots : ((rows++new).map (markBelow bound)).map slot=rows.map slot++new.map slot := by
      simp [Function.comp_def]
    rw [hslots]
    apply h.once.append honce
    intro slot hold hnew
    obtain ⟨row,hrow,rfl⟩ := List.mem_map.mp hnew
    exact hfresh row hrow hold
  below := by
    intro row hrow hused other hother hunusedOther
    obtain ⟨row,hin,rfl⟩ := List.mem_map.mp hrow
    obtain ⟨other,hinOther,rfl⟩ := List.mem_map.mp hother
    rw [used_markBelow] at hused hunusedOther
    simp only [derivationIndex_markBelow]
    push Not at hunusedOther
    rcases hused with hused | hlt
    · rcases List.mem_append.mp hin with hold | hnew
      · rcases List.mem_append.mp hinOther with holdOther | hnewOther
        · exact h.below row hold hused other holdOther hunusedOther.1
        · exact habove other hnewOther hunusedOther.2 row hold hused
      · exact absurd hused (hunused row hnew)
    · exact hlt.trans_le hunusedOther.2

theorem Settled.mark (h : Settled rows) : Settled (rows.map (markBelow bound)) := by
  have hgrow : Settled ((rows++[]).map (markBelow bound)) := h.grow (by simp) (by simp) (by simp) (by simp)
  simpa using hgrow

end DerivationPath

def DerivationRecord.path (record : DerivationRecord) : DerivationPath :=
  ⟨record.index,record.pubkey,record.puzzleHash,record.walletType,record.walletId,false⟩

namespace WalletPuzzleStore
variable {s : WalletPuzzleStore}

theorem addDerivationPaths_paths (records : List DerivationRecord) :
    (s.addDerivationPaths records).derivationPaths=s.derivationPaths++records.map (·.path) := by
  induction records generalizing s with
  | nil => simp [addDerivationPaths]
  | cons record records ih =>
    have hrest := ih (s := s.addDerivationPath record)
    simp only [addDerivationPaths,List.foldl_cons] at hrest ⊢
    rw [hrest]
    simp [addDerivationPath,DerivationRecord.path]

theorem addDerivationPaths_append (records new : List DerivationRecord) :
    (s.addDerivationPaths records).addDerivationPaths new=s.addDerivationPaths (records++new) := by
  simp [addDerivationPaths]

theorem setUsedUpTo_paths (index : ℕ) :
    (s.setUsedUpTo index).derivationPaths=s.derivationPaths.map (DerivationPath.markBelow (index+1)) := by
  apply List.map_congr_left
  intro row _
  simp only [DerivationPath.markBelow,Nat.lt_succ_iff]

theorem getUnusedDerivationPath_some {index : ℕ} (h : s.getUnusedDerivationPath=some index) :
    ∃ row∈s.derivationPaths,¬ row.used=true ∧ row.derivationIndex=index := by
  have hmem := (List.min?_eq_some_iff.mp h).1
  simpa [and_assoc] using hmem

theorem getLastDerivationPath_some {index : ℕ} (h : s.getLastDerivationPath=some index) :
    ∀ row∈s.derivationPaths,row.derivationIndex ≤ index :=
  fun _ hrow => (List.max?_eq_some_iff.mp h).2 _ (List.mem_map_of_mem hrow)

theorem getLastDerivationPath_none (h : s.getLastDerivationPath=none) : s.derivationPaths=[] := by
  simpa [getLastDerivationPath] using h

end WalletPuzzleStore

namespace DerivationManager
variable {m : DerivationManager} {fromZero : Bool} {u : ℕ}

def Stored (m : DerivationManager) (walletId index : ℕ) : Prop :=
  ∃ row∈m.puzzleStore.derivationPaths,row.slot=(walletId,index)

def marked (m : DerivationManager) : Set (ℕ × ℕ) :=
  {slot | ∃ row∈m.puzzleStore.derivationPaths,row.used=true ∧ row.slot=slot}

def AtMostOnce (m : DerivationManager) : Prop := (m.puzzleStore.derivationPaths.map (·.slot)).Nodup

abbrev Settled (m : DerivationManager) : Prop := DerivationPath.Settled m.puzzleStore.derivationPaths

variable {walletId index : ℕ}

theorem stored_lt_startIndex (h : m.Stored walletId index) : index < m.startIndex false walletId := by
  obtain ⟨row,hrow,hslot⟩ := h
  simp only [DerivationPath.slot,Prod.mk.injEq] at hslot
  have hmem : index∈(m.puzzleStore.derivationPaths.filter fun row => decide (row.walletId=walletId)).map
      (·.derivationIndex) := by
    rw [← hslot.2]
    exact List.mem_map_of_mem (List.mem_filter.mpr ⟨hrow,by simp [hslot.1]⟩)
  cases hlast : m.puzzleStore.getLastDerivationPathForWallet walletId with
  | none =>
    rw [WalletPuzzleStore.getLastDerivationPathForWallet,List.max?_eq_none_iff] at hlast
    simp [hlast] at hmem
  | some last =>
    have hle := (List.max?_eq_some_iff.mp hlast).2 index hmem
    simp only [startIndex,hlast,Option.map_some,Option.getD_some,Bool.false_eq_true,if_false]
    omega

variable {records : List DerivationRecord}

theorem startIndex_addRecords (h : ∀ record∈records,record.walletId≠walletId) :
    (m.addRecords records).startIndex fromZero walletId=m.startIndex fromZero walletId := by
  have hnone : (records.map (·.path)).filter (fun row => decide (row.walletId=walletId))=[] := by
    rw [List.filter_eq_nil_iff]
    intro row hrow
    obtain ⟨record,hrecord,rfl⟩ := List.mem_map.mp hrow
    simp [DerivationRecord.path,h record hrecord]
  simp [startIndex,addRecords,WalletPuzzleStore.getLastDerivationPathForWallet,
    WalletPuzzleStore.addDerivationPaths_paths,hnone]

variable {w : ℕ × KeyWallet}

theorem recordsFor_addRecords (h : ∀ record∈records,record.walletId≠w.1) :
    (m.addRecords records).recordsFor fromZero u w=m.recordsFor fromZero u w := by
  have hstart : (m.addRecords records).startIndex fromZero w.1=m.startIndex fromZero w.1 := startIndex_addRecords h
  unfold recordsFor
  rw [hstart]
  rfl

theorem forM_createForWallet (ws : List (ℕ × KeyWallet)) (m : DerivationManager)
    (records : ℕ × KeyWallet → List DerivationRecord) (hnodup : (ws.map Prod.fst).Nodup)
    (hrecords : ∀ w∈ws,m.recordsFor fromZero u w = .ok (records w))
    (hown : ∀ w∈ws,∀ record∈records w,record.walletId=w.1) :
    (ws.forM (createForWallet fromZero u)) m=(.ok (),m.addRecords (ws.flatMap records)) := by
  induction ws generalizing m with
  | nil => rfl
  | cons w ws ih =>
    rw [List.map_cons,List.nodup_cons] at hnodup
    have hfirst : createForWallet fromZero u w m=(.ok (),m.addRecords (records w)) := by
      simp [createForWallet,hrecords w List.mem_cons_self]
    rw [Eff.forM_cons_of_ok hfirst,ih (m.addRecords (records w)) hnodup.2]
    · simp [addRecords,WalletPuzzleStore.addDerivationPaths_append]
    · intro w' hw'
      rw [recordsFor_addRecords]
      · exact hrecords w' (List.mem_cons_of_mem _ hw')
      · intro record hrecord heq
        rw [hown w List.mem_cons_self record hrecord] at heq
        exact hnodup.1 (heq ▸ List.mem_map_of_mem hw')
    · exact fun w' hw' => hown w' (List.mem_cons_of_mem _ hw')

/-- New rows repeat no stored one, and no index that is used where all are. -/
structure CreatesFresh (m : DerivationManager) (fromZero : Bool) : Prop where
  fits : ∀ walletId type puzzles,m.wallets.get? walletId=some (.keyed type puzzles) →
    m.startIndex fromZero walletId < m.firstUnused+m.toGenerate → m.firstUnused+m.toGenerate≤2^32
  notAgain : ∀ walletId type puzzles,m.wallets.get? walletId=some (.keyed type puzzles) → fromZero=true →
    ∀ index,m.Stored walletId index → m.firstUnused+m.toGenerate ≤ index
  level : ∀ walletId type puzzles,m.wallets.get? walletId=some (.keyed type puzzles) →
    m.puzzleStore.getUnusedDerivationPath=none → ∀ last,m.puzzleStore.getLastDerivationPath=some last →
    0 < m.toGenerate → m.Stored walletId last
  keyPuzzle : ∀ walletId pubkey puzzleHash,m.wallets.get? walletId=some (.rateLimited true pubkey puzzleHash) →
    m.startIndex fromZero walletId < m.firstUnused+m.toGenerate → puzzleHash≠none
  keyFresh : ∀ walletId pubkey puzzleHash,m.wallets.get? walletId=some (.rateLimited true pubkey puzzleHash) →
    m.startIndex fromZero walletId < m.firstUnused+m.toGenerate →
    ∀ index,m.getDerivationIndex pubkey=some index → ¬ m.Stored walletId index ∧
      (m.puzzleStore.getUnusedDerivationPath=none → m.puzzleStore.getLastDerivationPath≠some index)

/-- What is asked of the records of one wallet. -/
structure FreshFor (m : DerivationManager) (walletId : ℕ) (records : List DerivationRecord) : Prop where
  own : ∀ record∈records,record.walletId=walletId
  once : (records.map (·.index)).Nodup
  notStored : ∀ record∈records,¬ m.Stored walletId record.index
  notLast : m.puzzleStore.getUnusedDerivationPath=none → ∀ last,m.puzzleStore.getLastDerivationPath=some last →
    ∀ record∈records,record.index≠last

theorem FreshFor.nil (walletId : ℕ) : m.FreshFor walletId [] := by
  constructor <;> simp

theorem firstUnused_none {last : ℕ} (h : m.puzzleStore.getUnusedDerivationPath=none)
    (hlast : m.puzzleStore.getLastDerivationPath=some last) : m.firstUnused=last := by
  simp [firstUnused,h,hlast]

section
variable (h : m.CreatesFresh fromZero)
include h

theorem recordsFor_keyed {type : WalletType} {puzzles : G1Element → Bytes32}
    (hget : m.wallets.get? walletId=some (.keyed type puzzles)) :
    ∃ records,m.recordsFor fromZero m.firstUnused (walletId,.keyed type puzzles) = .ok records ∧
      m.FreshFor walletId records := by
  let record (index : ℕ) : DerivationRecord := ⟨index,puzzles (m.publicKey index),m.publicKey index,type,walletId⟩
  let start := m.startIndex fromZero walletId
  let indices := List.range' start (m.firstUnused+m.toGenerate-start)
  have hrange : ∀ index∈indices,start ≤ index ∧ index < m.firstUnused+m.toGenerate := by
    intro index hindex
    have hmem := List.mem_range'_1.mp hindex
    omega
  refine ⟨indices.map record,?_,?_,?_,?_,?_⟩
  · apply mapM_eq_ok_map
    intro index hindex
    have hle := h.fits walletId type puzzles hget ((hrange index hindex).1.trans_lt (hrange index hindex).2)
    have hfits : uint32 index = .ok index := uint_eq_ok.mpr ⟨rfl,(hrange index hindex).2.trans_le hle⟩
    rw [keyRecord,hfits]
    rfl
  · simp [record]
  · simpa [record,Function.comp_def] using List.nodup_range'
  · intro r hr hstored
    obtain ⟨index,hindex,rfl⟩ := List.mem_map.mp hr
    cases hzero : fromZero with
    | true =>
      have hle := h.notAgain walletId type puzzles hget hzero index hstored
      have hlt := (hrange index hindex).2
      omega
    | false =>
      have hlt := stored_lt_startIndex hstored
      change index<_ at hlt
      rw [← hzero] at hlt
      have hle := (hrange index hindex).1
      omega
  · intro hnone last hlast r hr heq
    obtain ⟨index,hindex,rfl⟩ := List.mem_map.mp hr
    have hunused := firstUnused_none hnone hlast
    have hlt := (hrange index hindex).2
    have hstored := h.level walletId type puzzles hget hnone last hlast
    change index=last at heq
    have hpos : 0 < m.toGenerate := by omega
    cases hzero : fromZero with
    | true =>
      have hle := h.notAgain walletId type puzzles hget hzero last (hstored hpos)
      omega
    | false =>
      have hbound := stored_lt_startIndex (hstored hpos)
      rw [← hzero] at hbound
      have hle := (hrange index hindex).1
      omega

theorem recordsFor_rateLimited {initialized : Bool} {pubkey : G1Element} {puzzleHash : Option Bytes32}
    (hget : m.wallets.get? walletId=some (.rateLimited initialized pubkey puzzleHash)) :
    ∃ records,m.recordsFor fromZero m.firstUnused (walletId,.rateLimited initialized pubkey puzzleHash) = .ok records ∧
      m.FreshFor walletId records := by
  by_cases hskip : List.range' (m.startIndex fromZero walletId)
      (m.firstUnused+m.toGenerate-m.startIndex fromZero walletId)=[] ∨ initialized=false
  · refine ⟨[],?_,.nil walletId⟩
    simp only [recordsFor,if_pos hskip]
    rfl
  · push Not at hskip
    obtain ⟨hrange,hinit⟩ := hskip
    have hlt : m.startIndex fromZero walletId < m.firstUnused+m.toGenerate := by
      by_contra hge
      apply hrange
      rw [List.range'_eq_nil_iff]
      omega
    obtain rfl : initialized=true := by simpa using hinit
    obtain ⟨puzzleHash,rfl⟩ := Option.ne_none_iff_exists'.mp (h.keyPuzzle walletId pubkey puzzleHash hget hlt)
    cases hkey : m.getDerivationIndex pubkey with
    | none =>
      refine ⟨[],?_,.nil walletId⟩
      simp [recordsFor,hrange,hkey,attrOf]
    | some index =>
      obtain ⟨hstored,hlast⟩ := h.keyFresh walletId pubkey (some puzzleHash) hget hlt index hkey
      refine ⟨[⟨index,puzzleHash,pubkey,.rateLimited,walletId⟩],?_,?_,?_,?_,?_⟩
      · simp [recordsFor,hrange,hkey,attrOf]
      · simp
      · simp
      · simpa using hstored
      · intro hnone last hmax
        have hne := hlast hnone
        rw [hmax] at hne
        simpa [eq_comm] using hne

theorem recordsFor_fresh (hw : w∈m.wallets.entries) :
    ∃ records,m.recordsFor fromZero m.firstUnused w = .ok records ∧ m.FreshFor w.1 records := by
  obtain ⟨walletId,wallet⟩ := w
  have hget := (m.wallets.mem_entries walletId wallet).mp hw
  cases wallet with
  | pooling => exact ⟨[],rfl,.nil walletId⟩
  | rateLimited initialized pubkey puzzleHash => exact recordsFor_rateLimited h hget
  | keyed type puzzles => exact recordsFor_keyed h hget

end

theorem createMorePuzzleHashes_of_records
    (h : (m.wallets.entries.forM (createForWallet fromZero m.firstUnused)) m=(.ok (),m.addRecords records)) :
    ∃ m',createMorePuzzleHashes fromZero m=(.ok (),m') ∧ m'.puzzleStore.derivationPaths =
      (m.puzzleStore.derivationPaths++records.map (·.path)).map (DerivationPath.markBelow m.firstUnused) := by
  rw [List.forM_eq_forM] at h
  have hpaths := WalletPuzzleStore.addDerivationPaths_paths (s := m.puzzleStore) records
  by_cases hpos : m.firstUnused > 0
  · refine ⟨(m.addRecords records).setUsedUpTo (m.firstUnused-1),?_,?_⟩
    · simp [createMorePuzzleHashes,h,hpos]
    · change ((m.puzzleStore.addDerivationPaths records).setUsedUpTo (m.firstUnused-1)).derivationPaths=_
      rw [WalletPuzzleStore.setUsedUpTo_paths,hpaths,Nat.sub_add_cancel hpos]
  · refine ⟨m.addRecords records,?_,?_⟩
    · simp [createMorePuzzleHashes,h,hpos]
    · have hzero : m.firstUnused=0 := by omega
      have hid : DerivationPath.markBelow 0=id := by
        funext row
        simp [DerivationPath.markBelow]
      change (m.puzzleStore.addDerivationPaths records).derivationPaths=_
      rw [hpaths,hzero,hid,List.map_id]

theorem flatMap_once {records : ℕ × KeyWallet → List DerivationRecord}
    (h : ∀ w∈m.wallets.entries,m.FreshFor w.1 (records w)) :
    (((m.wallets.entries.flatMap records).map (·.path)).map (·.slot)).Nodup := by
  rw [List.map_map,List.map_flatMap,List.nodup_flatMap]
  have hslot : ∀ w∈m.wallets.entries,∀ record∈records w,record.path.slot=(w.1,record.index) := by
    intro w hw record hrecord
    rw [← (h w hw).own record hrecord]
    rfl
  constructor
  · intro w hw
    have hindices := (h w hw).once
    have hslots : (records w).map ((·.slot) ∘ (·.path))=(records w).map fun record => (w.1,record.index) :=
      List.map_congr_left (hslot w hw)
    rw [hslots]
    apply List.Nodup.of_map Prod.snd
    simpa [Function.comp_def] using hindices
  · apply (List.pairwise_map.mp m.wallets.nodup).imp_of_mem
    intro w w' hw hw' hne slot hmem hmem'
    obtain ⟨record,hrecord,rfl⟩ := List.mem_map.mp hmem
    obtain ⟨record',hrecord',heq⟩ := List.mem_map.mp hmem'
    simp only [Function.comp_apply,hslot w hw record hrecord,hslot w' hw' record' hrecord',Prod.mk.injEq] at heq
    exact hne heq.1.symm

theorem used_lt (hs : m.Settled) (hle : m.firstUnused ≤ index)
    (hlast : m.puzzleStore.getUnusedDerivationPath=none →
      ∀ last,m.puzzleStore.getLastDerivationPath=some last → index≠last)
    {row : DerivationPath} (hrow : row∈m.puzzleStore.derivationPaths) (hused : row.used=true) :
    row.derivationIndex < index := by
  cases hfirst : m.puzzleStore.getUnusedDerivationPath with
  | some first =>
    obtain ⟨other,hother,hunused,heq⟩ := WalletPuzzleStore.getUnusedDerivationPath_some hfirst
    have hlt := hs.below row hrow hused other hother hunused
    have hunused : m.firstUnused=first := by simp [firstUnused,hfirst]
    omega
  | none =>
    cases hmax : m.puzzleStore.getLastDerivationPath with
    | none =>
      rw [WalletPuzzleStore.getLastDerivationPath_none hmax] at hrow
      simp at hrow
    | some last =>
      have hrowLe := WalletPuzzleStore.getLastDerivationPath_some hmax row hrow
      have hne := hlast hfirst last hmax
      rw [firstUnused_none hfirst hmax] at hle
      omega

theorem createMorePuzzleHashes_settled (h : m.CreatesFresh fromZero) (hs : m.Settled) :
    ∃ m',createMorePuzzleHashes fromZero m=(.ok (),m') ∧ m'.Settled ∧ m.marked ⊆ m'.marked := by
  have hall : ∀ w,∃ records,w∈m.wallets.entries →
      m.recordsFor fromZero m.firstUnused w = .ok records ∧ m.FreshFor w.1 records := by
    intro w
    by_cases hw : w∈m.wallets.entries
    · obtain ⟨records,hrecords⟩ := recordsFor_fresh h hw
      exact ⟨records,fun _ => hrecords⟩
    · exact ⟨[],fun hw' => absurd hw' hw⟩
  choose records hrecords using hall
  have hrun := forM_createForWallet m.wallets.entries m records m.wallets.nodup (fun w hw => (hrecords w hw).1)
    fun w hw => (hrecords w hw).2.own
  obtain ⟨m',hcreate,hrows⟩ := createMorePuzzleHashes_of_records hrun
  have hmem : ∀ row∈(m.wallets.entries.flatMap records).map (·.path),∃ w∈m.wallets.entries,
      ∃ record∈records w,row=record.path ∧ record.walletId=w.1 := by
    intro row hrow
    obtain ⟨record,hrecord,rfl⟩ := List.mem_map.mp hrow
    obtain ⟨w,hw,hin⟩ := List.mem_flatMap.mp hrecord
    exact ⟨w,hw,record,hin,rfl,(hrecords w hw).2.own record hin⟩
  refine ⟨m',hcreate,?_,?_⟩
  · rw [Settled,hrows]
    apply hs.grow
    · intro row hrow
      obtain ⟨w,-,record,-,rfl,-⟩ := hmem row hrow
      simp [DerivationRecord.path]
    · exact flatMap_once fun w hw => (hrecords w hw).2
    · intro row hrow hold
      obtain ⟨w,hw,record,hin,rfl,hid⟩ := hmem row hrow
      obtain ⟨other,hother,hslot⟩ := List.mem_map.mp hold
      apply (hrecords w hw).2.notStored record hin
      refine ⟨other,hother,hslot.trans ?_⟩
      simp [DerivationPath.slot,DerivationRecord.path,hid]
    · intro row hrow hle other hother hused
      obtain ⟨w,hw,record,hin,rfl,-⟩ := hmem row hrow
      exact used_lt hs hle (fun hnone last hlast => (hrecords w hw).2.notLast hnone last hlast record hin) hother hused
  · rintro slot ⟨row,hrow,hused,rfl⟩
    refine ⟨row.markBelow m.firstUnused,?_,?_,?_⟩
    · rw [hrows]
      exact List.mem_map_of_mem (List.mem_append_left _ hrow)
    · simp [hused]
    · simp

/-- The lowest unused index has a row of the wallet, and more is created behind it. -/
def CanTake (m : DerivationManager) (walletId : ℕ) : Prop :=
  ∃ index,m.puzzleStore.getUnusedDerivationPath=some index ∧ m.Stored walletId index ∧
    (m.setUsedUpTo index).CreatesFresh false

def CanServe (m : DerivationManager) (walletId : ℕ) : Prop :=
  m.CanTake walletId ∨ m.puzzleStore.getUnusedDerivationPath=none ∧ m.CreatesFresh false ∧
    (m.step (.createMorePuzzleHashes false)).CanTake walletId

def Allowed (m : DerivationManager) : Op → Prop
  | .getUnusedDerivationRecord walletId => m.CanServe walletId
  | .createMorePuzzleHashes fromZero => m.CreatesFresh fromZero
  | .setUsedUpTo _ => True
  | .setWallet _ _ => True
  | .setNewWallet _ => True

/-- Operations from an empty store, and all that has ever been marked as used. -/
inductive DerivationRun : DerivationManager → Set (ℕ × ℕ) → Prop
  | init (m : DerivationManager) (h : m.puzzleStore.derivationPaths=[]) : DerivationRun m ∅
  | step {m : DerivationManager} {past : Set (ℕ × ℕ)} (h : DerivationRun m past) (op : Op) (hop : m.Allowed op) :
      DerivationRun (m.step op) (past ∪ (m.step op).marked)

/-- A request that found its record. -/
structure Served (m : DerivationManager) (walletId : ℕ) (record : DerivationRecord) (m' : DerivationManager) : Prop where
  ran : getUnusedDerivationRecord walletId m=(.ok record,m')
  settled : m'.Settled
  kept : m.marked ⊆ m'.marked
  own : record.walletId=walletId
  unmarked : (walletId,record.index)∉m.marked

theorem settled_setUsedUpTo (hs : m.Settled) (index : ℕ) : (m.setUsedUpTo index).Settled := by
  change DerivationPath.Settled (m.puzzleStore.setUsedUpTo index).derivationPaths
  rw [WalletPuzzleStore.setUsedUpTo_paths]
  exact hs.mark

theorem marked_setUsedUpTo (index : ℕ) : m.marked ⊆ (m.setUsedUpTo index).marked := by
  rintro slot ⟨row,hrow,hused,rfl⟩
  refine ⟨row.markBelow (index+1),?_,?_,?_⟩
  · change _∈(m.puzzleStore.setUsedUpTo index).derivationPaths
    rw [WalletPuzzleStore.setUsedUpTo_paths]
    exact List.mem_map_of_mem hrow
  · simp [hused]
  · simp

theorem not_marked (hs : m.Settled) (hindex : m.puzzleStore.getUnusedDerivationPath=some index)
    (walletId : ℕ) : (walletId,index)∉m.marked := by
  rintro ⟨row,hrow,hused,hslot⟩
  obtain ⟨other,hother,hunused,heq⟩ := WalletPuzzleStore.getUnusedDerivationPath_some hindex
  have hlt := hs.below row hrow hused other hother hunused
  simp only [DerivationPath.slot,Prod.mk.injEq] at hslot
  omega

theorem getDerivationRecord_stored (h : m.Stored walletId index) :
    ∃ record,m.puzzleStore.getDerivationRecord index walletId=some record ∧ record.walletId=walletId ∧
      record.index=index := by
  obtain ⟨row,hrow,hslot⟩ := h
  simp only [DerivationPath.slot,Prod.mk.injEq] at hslot
  cases hfind : m.puzzleStore.derivationPaths.find?
      (fun row => decide (row.derivationIndex=index ∧ row.walletId=walletId)) with
  | none =>
    have hno := List.find?_eq_none.mp hfind row hrow
    simp [hslot] at hno
  | some found =>
    have hfound := List.find?_some hfind
    simp only [decide_eq_true_eq] at hfound
    refine ⟨found.record,?_,hfound.2,hfound.1⟩
    rw [WalletPuzzleStore.getDerivationRecord,hfind]
    rfl

theorem CanTake.served (h : m.CanTake walletId) (hs : m.Settled) : ∃ record m',m.Served walletId record m' := by
  obtain ⟨index,hindex,hstored,hfresh⟩ := h
  obtain ⟨record,hrecord,hid,hidx⟩ := getDerivationRecord_stored hstored
  rw [← hidx] at hfresh
  obtain ⟨m',hcreate,hs',hmarked⟩ := createMorePuzzleHashes_settled hfresh (settled_setUsedUpTo hs _)
  refine ⟨record,m',?_,hs',(marked_setUsedUpTo _).trans hmarked,hid,?_⟩
  · simp [getUnusedDerivationRecord,hindex,hrecord,hcreate,assertSome]
  · rw [hidx]
    exact not_marked hs hindex walletId

theorem CanServe.served (h : m.CanServe walletId) (hs : m.Settled) :
    ∃ record m',m.Served walletId record m' := by
  rcases h with htake | ⟨hnone,hfresh,htake⟩
  · exact htake.served hs
  · obtain ⟨m₁,hcreate,hs₁,hmarked⟩ := createMorePuzzleHashes_settled hfresh hs
    have hstep : m.step (.createMorePuzzleHashes false)=m₁ := by simp [step,hcreate]
    rw [hstep] at htake
    obtain ⟨record,m',hserved⟩ := htake.served hs₁
    refine ⟨record,m',?_,hserved.settled,hmarked.trans hserved.kept,hserved.own,fun hin => hserved.unmarked (hmarked hin)⟩
    have hran := hserved.ran
    obtain ⟨index,hindex,-⟩ := htake
    simpa [getUnusedDerivationRecord,hnone,hcreate,hindex] using hran

theorem step_settled {op : Op} (h : m.Allowed op) (hs : m.Settled) :
    (m.step op).Settled ∧ m.marked ⊆ (m.step op).marked := by
  cases op with
  | getUnusedDerivationRecord walletId =>
    obtain ⟨record,m',hserved⟩ := h.served hs
    have hstep : m.step (.getUnusedDerivationRecord walletId)=m' := by simp [step,hserved.ran]
    rw [hstep]
    exact ⟨hserved.settled,hserved.kept⟩
  | createMorePuzzleHashes fromZero =>
    obtain ⟨m',hcreate,hs',hmarked⟩ := createMorePuzzleHashes_settled h hs
    have hstep : m.step (.createMorePuzzleHashes fromZero)=m' := by simp [step,hcreate]
    rw [hstep]
    exact ⟨hs',hmarked⟩
  | setUsedUpTo index => exact ⟨settled_setUsedUpTo hs index,marked_setUsedUpTo index⟩
  | setWallet walletId wallet => exact ⟨hs,subset_rfl⟩
  | setNewWallet newWallet => exact ⟨hs,subset_rfl⟩

theorem DerivationRun.settled {past : Set (ℕ × ℕ)} (h : DerivationRun m past) : m.Settled ∧ past ⊆ m.marked := by
  induction h with
  | init m hempty =>
    refine ⟨⟨?_,?_⟩,Set.empty_subset _⟩ <;> simp [hempty]
  | step _ op hop ih =>
    obtain ⟨hs,hmarked⟩ := step_settled hop ih.1
    exact ⟨hs,Set.union_subset (ih.2.trans hmarked) subset_rfl⟩

/-- In such runs each index of a wallet is stored once, and each request finds a record that was never marked
before. -/
theorem derivationRun_distinct {past : Set (ℕ × ℕ)} (h : DerivationRun m past) :
    m.AtMostOnce ∧ ∀ walletId,m.CanServe walletId →
      ∃ record m',getUnusedDerivationRecord walletId m=(.ok record,m') ∧ record.walletId=walletId ∧
        (walletId,record.index)∉past := by
  obtain ⟨hs,hpast⟩ := h.settled
  refine ⟨hs.once,?_⟩
  intro walletId hserve
  obtain ⟨record,m',hserved⟩ := hserve.served hs
  exact ⟨record,m',hserved.ran,hserved.own,fun hin => hserved.unmarked (hpast hin)⟩

def standardKeys : DerivationManager where
  puzzleStore := .create []
  wallets := Dict.empty.set 1 (.keyed .standardWallet toBytes32)
  newWallet := false
  initialNumPublicKeys := 3
  initialNumPublicKeysNewWallet := 3
  publicKey index := [UInt8.ofNat index]

theorem createsFresh_standardKeys (hwallets : m.wallets=standardKeys.wallets)
    (hfits : m.firstUnused+m.toGenerate≤2^32)
    (hlevel : m.puzzleStore.getUnusedDerivationPath≠none ∨ m.puzzleStore.getLastDerivationPath=none) :
    m.CreatesFresh false := by
  have hkeyed : ∀ walletId wallet,m.wallets.get? walletId=some wallet → wallet = .keyed .standardWallet toBytes32 := by
    intro walletId wallet hget
    rw [hwallets,standardKeys,Dict.get?_set] at hget
    split_ifs at hget with hone
    · exact (Option.some.inj hget).symm
    · simp at hget
  constructor
  · exact fun _ _ _ _ _ => hfits
  · intro _ _ _ _ hzero
    cases hzero
  · intro _ _ _ _ hnone last hlast
    rcases hlevel with hsome | hempty
    · exact absurd hnone hsome
    · rw [hempty] at hlast
      cases hlast
  · intro walletId pubkey puzzleHash hget
    cases hkeyed walletId _ hget
  · intro walletId pubkey puzzleHash hget
    cases hkeyed walletId _ hget

theorem derivationRun_distinct_next :
    let m := (standardKeys.step (.createMorePuzzleHashes false)).step (.setUsedUpTo 0)
    ∃ past : Set (ℕ × ℕ),(1,0)∈past ∧ m.AtMostOnce ∧ ∃ record m',getUnusedDerivationRecord 1 m=(.ok record,m') ∧
      record.walletId=1 ∧ (1,record.index)∉past := by
  intro m
  have hfirst := DerivationRun.init standardKeys rfl
  have hsecond := hfirst.step (.createMorePuzzleHashes false)
    (createsFresh_standardKeys rfl (by decide +kernel) (Or.inr rfl))
  have hrun := hsecond.step (.setUsedUpTo 0) trivial
  have hserve : m.CanServe 1 := by
    left
    refine ⟨1,by decide +kernel,⟨⟨1,[1],toBytes32 [1],.standardWallet,1,false⟩,by decide +kernel,rfl⟩,?_⟩
    exact createsFresh_standardKeys rfl (by decide +kernel) (Or.inl (by decide +kernel))
  obtain ⟨honce,hserved⟩ := derivationRun_distinct hrun
  refine ⟨_,?_,honce,hserved 1 hserve⟩
  right
  exact ⟨⟨0,[0],toBytes32 [0],.standardWallet,1,true⟩,by decide +kernel,rfl,rfl⟩

/-- Creating from zero stores each index again. With all indices used, a wallet that is added gets the last one
anew, and with it the first wallet; before more is created, it has no record. -/
theorem derivation_again :
    let first := standardKeys.step (.createMorePuzzleHashes false)
    let used := first.step (.setUsedUpTo 2)
    let added := used.step (.setWallet 2 (.keyed .colouredCoin toBytes32))
    let created := added.step (.createMorePuzzleHashes false)
    ¬ (first.step (.createMorePuzzleHashes true)).AtMostOnce ∧
    (1,2)∈used.marked ∧
    (∃ record,(getUnusedDerivationRecord 1 created).1 = .ok record ∧ record.walletId=1 ∧ record.index=2) ∧
    (getUnusedDerivationRecord 2 (first.step (.setWallet 2 (.keyed .colouredCoin toBytes32)))).1 =
      .error (.raised .assertion) := by
  intro first used added created
  refine ⟨?_,?_,?_,?_⟩
  · unfold AtMostOnce
    decide +kernel
  · exact ⟨⟨2,[2],toBytes32 [2],.standardWallet,1,true⟩,by decide +kernel,rfl,rfl⟩
  · exact ⟨⟨2,toBytes32 [2],[2],.standardWallet,1⟩,by decide +kernel,rfl,rfl⟩
  · decide +kernel

end DerivationManager
end RoseChain
