import RoseChain.Server.AddressRuns

namespace RoseChain
open Lib AddressManager

abbrev RowText := List Char

/-- `str` and `int` of an integer, without the other spellings that `int` takes. -/
def intText (z : ℤ) : RowText := if z<0 then '-' :: Nat.toDigits 10 z.natAbs else Nat.toDigits 10 z.natAbs

def digitsValue (text : RowText) : Check ℕ :=
  if text≠[] ∧ text.all Char.isDigit then .ok (Nat.ofDigitChars 10 text 0) else .error (.raised .value)

def parseInt : RowText → Check ℤ
  | '-' :: text => do return -(← digitsValue text : ℕ)
  | text => do return (← digitsValue text : ℕ)

namespace ExtendedPeerInfo

def toText (info : ExtendedPeerInfo) : RowText :=
  List.intercalate [' '] [info.peerInfo.host.toList,intText info.peerInfo.port,intText info.timestamp,
    info.src.host.toList,intText info.src.port]

def fromText (peerStr : RowText) : Check ExtendedPeerInfo :=
  match peerStr.splitOn ' ' with
  | [host,port,timestamp,srcHost,srcPort] => do
    let port ← uint 16 (← parseInt port)
    let timestamp ← uint 64 (← parseInt timestamp)
    let srcPort ← uint 16 (← parseInt srcPort)
    return .new ⟨String.ofList host,port,timestamp⟩ (some ⟨String.ofList srcHost,srcPort⟩)
  | _ => .error (.raised .assertion)

end ExtendedPeerInfo

/-- A peer under the number of its row. -/
abbrev PeerNode := ℕ × ExtendedPeerInfo

/-- The rows of the three tables. -/
structure PeerRows where
  metadata : List (String × RowText)
  nodes : List (ℕ × RowText)
  newTable : List (ℕ × ℕ)

namespace AddressManagerStore
variable (A : Placement)

structure Numbering where
  uniqueIds : Dict ℕ ℕ
  nodes : List PeerNode
  countIds : ℕ

def numberNew (newCount : ℤ) (z : Numbering) (entry : PeerNode) : Check Numbering := do
  let z := { z with uniqueIds := z.uniqueIds.set entry.1 z.countIds }
  if entry.2.refCount > 0 then do
    assertThat ((z.countIds : ℤ)≠newCount)
    return { z with nodes := z.nodes++[(z.countIds,entry.2)],countIds := z.countIds+1 }
  else return z

def numberTried (triedCount : ℤ) (z : Numbering × ℕ) (entry : PeerNode) : Check (Numbering × ℕ) := do
  if entry.2.isTried then do
    assertThat ((z.2 : ℤ)≠triedCount)
    return ({ z.1 with nodes := z.1.nodes++[(z.1.countIds,entry.2)],countIds := z.1.countIds+1 },z.2+1)
  else return z

def newTableRow (uniqueIds : Dict ℕ ℕ) (newMatrix : ℕ × ℕ → Option ℕ) (entries : List (ℕ × ℕ)) (cell : ℕ × ℕ) :
    Check (List (ℕ × ℕ)) := do
  match newMatrix cell with
  | none => return entries
  | some id => return entries++[(← lookup (uniqueIds.get? id),cell.1)]

@[irreducible] def newCellList : List (ℕ × ℕ) := List.range NEW_BUCKET_COUNT ×ˢ List.range BUCKET_SIZE

def serialize (s : AddressManager) : Check PeerRows := do
  let z ← s.mapInfo.entries.foldlM (numberNew s.newCount) ⟨Dict.empty,[],0⟩
  let (all,triedIds) ← s.mapInfo.entries.foldlM (numberTried s.triedCount) (z,0)
  let newTable ← newCellList.foldlM (newTableRow z.uniqueIds s.newMatrix) []
  return ⟨[("key",intText s.key.toNat),("new_count",intText z.countIds),("tried_count",intText triedIds)],
    all.nodes.map fun node => (node.1,node.2.toText),newTable⟩

def restoreNew (s : AddressManager) (node : PeerNode) : AddressManager :=
  { s with
    mapAddr := s.mapAddr.set node.2.peerInfo.host node.1
    mapInfo := s.mapInfo.set node.1 { node.2 with randomPos := some s.randomPos.length }
    randomPos := s.randomPos++[node.1] }

/-- A peer of the tried table is dropped where its cell is taken. -/
def restoreTried (s : AddressManager) (node : PeerNode) : AddressManager :=
  let cell := node.2.triedCell A s.key
  if s.triedMatrix cell=none then
    { s with
      randomPos := s.randomPos++[s.idCount]
      mapInfo := s.mapInfo.set s.idCount { node.2 with randomPos := some s.randomPos.length,isTried := true }
      mapAddr := s.mapAddr.set node.2.peerInfo.host s.idCount
      triedMatrix := Function.update s.triedMatrix cell (some s.idCount)
      idCount := s.idCount+1
      triedCount := s.triedCount+1 }
  else s

def restoreCell (s : AddressManager) (row : ℕ × ℕ) : Check AddressManager := do
  if (row.1 : ℤ)<s.newCount then do
    let info ← lookup (s.mapInfo.get? row.1)
    if row.2 ≥ NEW_BUCKET_COUNT then .error (.raised .index)
    else if s.newMatrix (info.newCell A s.key row.2)=none ∧ info.refCount<NEW_BUCKETS_PER_ADDRESS then
      let s := s.update row.1 fun info => { info with refCount := info.refCount+1 }
      return { s with newMatrix := Function.update s.newMatrix (info.newCell A s.key row.2) (some row.1) }
    else return s
  else return s

def dropUnplaced (entry : PeerNode) : AddressM Unit :=
  if ¬ entry.2.isTried ∧ entry.2.refCount=0 then deleteNewEntry entry.1 else return ()

def dropUnplacedEntries (s : AddressManager) : Check AddressManager :=
  match s.mapInfo.entries.forM dropUnplaced s with
  | (.ok _,s) => .ok s
  | (.error e,_) => .error e

def loadUsedTablePositions (s : AddressManager) : AddressManager :=
  { s with
    usedNewMatrixPositions := newCells.filter fun c => (s.newMatrix c).isSome
    usedTriedMatrixPositions := triedCells.filter fun c => (s.triedMatrix c).isSome }

def getMetadata (rows : PeerRows) : Dict String RowText :=
  rows.metadata.foldl (fun d row => d.set row.1 row.2) Dict.empty

def getNodes (rows : PeerRows) : Check (List PeerNode) :=
  rows.nodes.mapM fun row => do return (row.1,← ExtendedPeerInfo.fromText row.2)

/-- `randomKey` is the key that `clear` draws. -/
def deserialize (rows : PeerRows) (randomKey : Bytes32) : Check AddressManager := do
  let metadata := getMetadata rows
  let nodes ← getNodes rows
  let key ← parseInt (← lookup (metadata.get? "key"))
  let newCount ← parseInt (← lookup (metadata.get? "new_count"))
  let s := { AddressManager.clear randomKey with key := BitVec.ofInt 256 key,newCount }
  let newTableNodes := nodes.filter fun node => (node.1 : ℤ)<newCount
  let s := { newTableNodes.foldl restoreNew s with idCount := newTableNodes.length }
  let s := (nodes.filter fun node => (node.1 : ℤ) ≥ newCount).foldl (restoreTried A) s
  let s ← rows.newTable.foldlM (restoreCell A) s
  return loadUsedTablePositions (← dropUnplacedEntries s)

end AddressManagerStore

/-- What a row can hold: addresses in words, and numbers of the sizes they are read back as. -/
structure ExtendedPeerInfo.Storable (info : ExtendedPeerInfo) : Prop where
  host : ' ' ∉ info.peerInfo.host.toList
  port : info.peerInfo.port<2^16
  timestamp : 0 ≤ info.timestamp ∧ info.timestamp<2^64
  srcHost : ' ' ∉ info.src.host.toList
  srcPort : info.src.port<2^16

instance (info : ExtendedPeerInfo) : Decidable info.Storable :=
  decidable_of_iff (' ' ∉ info.peerInfo.host.toList ∧ info.peerInfo.port<2^16 ∧
      (0 ≤ info.timestamp ∧ info.timestamp<2^64) ∧ ' ' ∉ info.src.host.toList ∧ info.src.port<2^16)
    ⟨fun ⟨host,port,timestamp,srcHost,srcPort⟩ => ⟨host,port,timestamp,srcHost,srcPort⟩,
      fun h => ⟨h.host,h.port,h.timestamp,h.srcHost,h.srcPort⟩⟩

/-- An entry that is read back: what is not in its row starts afresh. -/
def ExtendedPeerInfo.reread (info : ExtendedPeerInfo) : ExtendedPeerInfo :=
  { info with
    randomPos := none,isTried := false,refCount := 0,lastSuccess := 0,lastTry := 0,numAttempts := 0,lastCountAttempt := 0 }

def PeerNode.reread (node : PeerNode) : PeerNode := (node.1,node.2.reread)

def ExtendedPeerInfo.reloaded (info : ExtendedPeerInfo) (pos : ℕ) : ExtendedPeerInfo :=
  { info with randomPos := some pos,lastSuccess := 0,lastTry := 0,numAttempts := 0,lastCountAttempt := 0 }

/-- One manager is the other with its ids renamed, and the attempts to reach its peers forgotten. -/
structure Renames (ρ : ℕ → ℕ) (s s' : AddressManager) : Prop where
  injective : ∀ id id' info info',s.mapInfo.get? id=some info → s.mapInfo.get? id'=some info' → ρ id=ρ id' → id=id'
  key : s'.key=s.key
  entry : ∀ id info,s.mapInfo.get? id=some info → s'.mapInfo.get? (ρ id)=some (info.reloaded (ρ id))
  onto : ∀ k info,s'.mapInfo.get? k=some info → ∃ id info,s.mapInfo.get? id=some info ∧ ρ id=k
  mapAddr : ∀ host,s'.mapAddr.get? host=(s.mapAddr.get? host).map ρ
  newMatrix : ∀ c,s'.newMatrix c=(s.newMatrix c).map ρ
  triedMatrix : ∀ c,s'.triedMatrix c=(s.triedMatrix c).map ρ
  newCount : s'.newCount=s.newCount
  triedCount : s'.triedCount=s.triedCount

theorem map_eq_some_iff_of_injective {α β : Type} {f : α → β} {o : Option α} {a : α} (h : ∀ a',o=some a' → f a'=f a → a'=a) :
    o.map f=some (f a) ↔ o=some a := by
  rw [Option.map_eq_some_iff]
  exact ⟨fun ⟨a',ho,hf⟩ => h a' ho hf ▸ ho,fun ho => ⟨a,ho,rfl⟩⟩

section Text

theorem parseInt_intText (z : ℤ) : parseInt (intText z) = .ok z := by
  have hdigits (n : ℕ) : ∀ c∈Nat.toDigits 10 n,c.isDigit=true :=
    fun c hc => Nat.isDigit_of_mem_toDigits (by norm_num) (by norm_num) hc
  have hvalue (n : ℕ) : digitsValue (Nat.toDigits 10 n) = .ok n := by
    unfold digitsValue
    rw [if_pos ⟨Nat.toDigits_ne_nil,List.all_eq_true.mpr (hdigits n)⟩,Nat.ofDigitChars_ten_toDigits]
  unfold intText
  split_ifs with hz
  · have hparse : parseInt ('-' :: Nat.toDigits 10 z.natAbs)=(do return -((← digitsValue (Nat.toDigits 10 z.natAbs)) : ℤ)) := rfl
    rw [hparse,bind_of_ok (hvalue _)]
    simp only [pure,Except.pure,Except.ok.injEq]
    omega
  · have hsign : ∀ text,Nat.toDigits 10 z.natAbs ≠ '-' :: text := by
      intro text h
      have hminus := hdigits z.natAbs '-' (by rw [h]; exact List.mem_cons_self)
      exact absurd hminus (by decide)
    have hparse : parseInt (Nat.toDigits 10 z.natAbs)=(do return ((← digitsValue (Nat.toDigits 10 z.natAbs)) : ℤ)) := by
      unfold parseInt
      split
      · next text h => exact absurd h (hsign text)
      · rfl
    rw [hparse,bind_of_ok (hvalue _)]
    simp only [pure,Except.pure,Except.ok.injEq]
    omega

theorem space_notMem_intText (z : ℤ) : ' ' ∉ intText z := by
  have hdigits : ' ' ∉ Nat.toDigits 10 z.natAbs := by
    intro h
    have hspace := Nat.isDigit_of_mem_toDigits (by norm_num) (by norm_num) h
    exact absurd hspace (by decide)
  unfold intText
  split_ifs
  · simp [hdigits]
  · exact hdigits

theorem fromText_toText {info : ExtendedPeerInfo} (h : info.Storable) :
    ExtendedPeerInfo.fromText info.toText = .ok info.reread := by
  have hwords : info.toText.splitOn ' ' = [info.peerInfo.host.toList,intText info.peerInfo.port,intText info.timestamp,
      info.src.host.toList,intText info.src.port] := by
    apply List.splitOn_intercalate
    · simp [h.host,h.srcHost,space_notMem_intText]
    · simp
  have hport : uint 16 (info.peerInfo.port : ℤ) = .ok info.peerInfo.port := uint_eq_ok.mpr ⟨rfl,h.port⟩
  have hsrcPort : uint 16 (info.src.port : ℤ) = .ok info.src.port := uint_eq_ok.mpr ⟨rfl,h.srcPort⟩
  have htimestamp : uint 64 info.timestamp = .ok info.timestamp.toNat := by
    have hbounds := h.timestamp
    exact uint_eq_ok.mpr ⟨by omega,by omega⟩
  have hback : (info.timestamp.toNat : ℤ)=info.timestamp := Int.toNat_of_nonneg h.timestamp.1
  unfold ExtendedPeerInfo.fromText
  rw [hwords]
  dsimp only
  rw [bind_of_ok (parseInt_intText _),bind_of_ok hport,bind_of_ok (parseInt_intText _),bind_of_ok htimestamp,
    bind_of_ok (parseInt_intText _),bind_of_ok hsrcPort]
  simp [ExtendedPeerInfo.new,ExtendedPeerInfo.reread,hback,pure,Except.pure]

theorem length_splitOn (text : RowText) : (text.splitOn ' ').length=text.count ' ' + 1 := by
  induction text with
  | nil => simp
  | cons c text ih =>
    rw [List.splitOn_cons_eq_if_modifyHead]
    split_ifs with hc
    · rw [List.length_cons,ih,beq_iff_eq.mp hc,List.count_cons_self]
    · rw [List.length_modifyHead,ih,List.count_cons_of_ne (by simpa using hc)]

theorem storable_of_fromText {info info' : ExtendedPeerInfo} (h : ExtendedPeerInfo.fromText info.toText = .ok info') :
    info.Storable := by
  have hcount : info.toText.count ' ' = info.peerInfo.host.toList.count ' ' + info.src.host.toList.count ' ' + 4 := by
    have hnumber (z : ℤ) : (intText z).count ' ' = 0 := List.count_eq_zero.mpr (space_notMem_intText z)
    simp only [ExtendedPeerInfo.toText,List.intercalate,List.intersperse,List.flatten_cons,List.flatten_nil,
      List.count_append,List.count_cons_self,List.count_nil,hnumber]
    omega
  have hlength := length_splitOn info.toText
  unfold ExtendedPeerInfo.fromText at h
  split at h
  · next host port timestamp srcHost srcPort hwords =>
    rw [hwords] at hlength
    simp only [List.length_cons,List.length_nil] at hlength
    have hhost : ' ' ∉ info.peerInfo.host.toList := List.count_eq_zero.mp (by omega)
    have hsrcHost : ' ' ∉ info.src.host.toList := List.count_eq_zero.mp (by omega)
    have hback : info.toText.splitOn ' ' = [info.peerInfo.host.toList,intText info.peerInfo.port,intText info.timestamp,
        info.src.host.toList,intText info.src.port] := by
      apply List.splitOn_intercalate
      · simp [hhost,hsrcHost,space_notMem_intText]
      · simp
    rw [hwords] at hback
    obtain ⟨rfl,rfl,rfl,rfl,rfl,-⟩ := hback
    rw [bind_of_ok (parseInt_intText _)] at h
    obtain ⟨port,hport,h⟩ := bind_ok.mp h
    rw [bind_of_ok (parseInt_intText _)] at h
    obtain ⟨timestamp,htimestamp,h⟩ := bind_ok.mp h
    rw [bind_of_ok (parseInt_intText _)] at h
    obtain ⟨srcPort,hsrcPort,-⟩ := bind_ok.mp h
    rw [uint_eq_ok] at hport htimestamp hsrcPort
    exact ⟨hhost,by omega,by omega,hsrcHost,by omega⟩
  · cases h

end Text

namespace AddressManagerStore

theorem foldlM_done {α β : Type} {f : β → α → Check β} {l : List α} {P : List α → β → Prop}
    (hstep : ∀ done a rest b,l=done++a::rest → P done b → ∃ b',f b a = .ok b' ∧ P (done++[a]) b') {b : β} (h : P [] b) :
    ∃ b',l.foldlM f b = .ok b' ∧ P l b' := by
  have hrest (rest : List α) : ∀ done b,l=done++rest → P done b → ∃ b',rest.foldlM f b = .ok b' ∧ P l b' := by
    induction rest with
    | nil =>
      intro done b hl hP
      rw [List.append_nil] at hl
      exact ⟨b,rfl,hl ▸ hP⟩
    | cons a rest ih =>
      intro done b hl hP
      obtain ⟨b₁,hf,hP₁⟩ := hstep done a rest b hl hP
      obtain ⟨b',hrun,hP'⟩ := ih (done++[a]) b₁ (by simp [hl]) hP₁
      refine ⟨b',?_,hP'⟩
      rw [List.foldlM_cons,bind_of_ok hf]
      exact hrun
  exact hrest l [] b rfl h

section Order

def inNew (l : List PeerNode) : List PeerNode := l.filter fun e => e.2.refCount > 0

def inTried (l : List PeerNode) : List PeerNode := l.filter fun e => e.2.isTried

/-- The entries in the order of their rows: the new table's, then the tried table's. -/
def newEntries (s : AddressManager) : List PeerNode := inNew s.mapInfo.entries

def triedEntries (s : AddressManager) : List PeerNode := inTried s.mapInfo.entries

def rowEntries (s : AddressManager) : List PeerNode := newEntries s++triedEntries s

def rowOf (s : AddressManager) (id : ℕ) : ℕ := ((rowEntries s).map Prod.fst).idxOf id

def numbered (start : ℕ) (l : List PeerNode) : List PeerNode :=
  (l.zipIdx start).map fun e => (e.2,e.1.2)

theorem numbered_concat (start : ℕ) (l : List PeerNode) (e : PeerNode) :
    numbered start (l++[e])=numbered start l++[(start+l.length,e.2)] := by
  simp [numbered,List.zipIdx_append]

theorem numbered_append (start : ℕ) (l l' : List PeerNode) :
    numbered start (l++l')=numbered start l++numbered (start+l.length) l' := by
  simp [numbered,List.zipIdx_append]

variable {A : Placement} {s : AddressManager}

theorem mem_newEntries {e : PeerNode} : e∈newEntries s ↔ s.mapInfo.get? e.1=some e.2 ∧ 0<e.2.refCount := by
  unfold newEntries inNew
  rw [List.mem_filter,← Dict.mem_entries]
  simp

theorem mem_triedEntries {e : PeerNode} :
    e∈triedEntries s ↔ s.mapInfo.get? e.1=some e.2 ∧ e.2.isTried=true := by
  unfold triedEntries inTried
  rw [List.mem_filter,← Dict.mem_entries]

section
variable (h : Ordered A s)
include h

theorem new_or_tried {e : PeerNode} (he : s.mapInfo.get? e.1=some e.2) :
    (0<e.2.refCount ∧ e.2.isTried=false) ∨ (e.2.refCount=0 ∧ e.2.isTried=true) := by
  have hview := view_of_get? he
  cases ht : e.2.isTried with
  | true => exact Or.inr ⟨h.tables.triedRef e.1 e.2.bare hview ht,rfl⟩
  | false => exact Or.inl ⟨h.tables.untried e.1 e.2.bare hview not_false ht,rfl⟩

theorem untried_of_new {e : PeerNode} (he : e∈newEntries s) : e.2.isTried=false := by
  obtain ⟨hget,hpos⟩ := mem_newEntries.mp he
  obtain hnew | hold := new_or_tried h hget
  · exact hnew.2
  · omega

theorem mem_rowEntries {e : PeerNode} : e∈rowEntries s ↔ s.mapInfo.get? e.1=some e.2 := by
  unfold rowEntries
  rw [List.mem_append,mem_newEntries,mem_triedEntries]
  constructor
  · rintro (he | he)
    · exact he.1
    · exact he.1
  · intro he
    obtain hnew | htried := new_or_tried h he
    · exact Or.inl ⟨he,hnew.1⟩
    · exact Or.inr ⟨he,htried.2⟩

theorem rowEntries_nodup : ((rowEntries s).map Prod.fst).Nodup := by
  unfold rowEntries
  rw [List.map_append,List.nodup_append]
  refine ⟨s.mapInfo.nodup.sublist (List.filter_sublist.map Prod.fst),s.mapInfo.nodup.sublist (List.filter_sublist.map Prod.fst),?_⟩
  intro id hid id' hid' heq
  subst heq
  obtain ⟨e,he,rfl⟩ := List.mem_map.mp hid
  obtain ⟨e',he',hsame⟩ := List.mem_map.mp hid'
  have hget := (mem_newEntries.mp he).1
  obtain ⟨hget',htried⟩ := mem_triedEntries.mp he'
  rw [hsame,hget] at hget'
  rw [← Option.some.inj hget',untried_of_new h he] at htried
  cases htried

theorem rowEntries_rowOf {id : ℕ} {info : ExtendedPeerInfo} (hid : s.mapInfo.get? id=some info) :
    (rowEntries s)[rowOf s id]?=some (id,info) := by
  have hmem : (id,info)∈rowEntries s := (mem_rowEntries h).mpr hid
  have hin : id∈(rowEntries s).map Prod.fst := List.mem_map.mpr ⟨_,hmem,rfl⟩
  have hlt : rowOf s id<((rowEntries s).map Prod.fst).length := List.idxOf_lt_length_of_mem hin
  have hfst : ((rowEntries s).map Prod.fst)[rowOf s id]=id := List.getElem_idxOf hlt
  rw [List.length_map] at hlt
  rw [List.getElem_map] at hfst
  have hentry := (mem_rowEntries h).mp (List.getElem_mem hlt)
  rw [hfst,hid] at hentry
  rw [List.getElem?_eq_getElem hlt]
  exact congrArg some (Prod.ext hfst (Option.some.inj hentry).symm)

end

variable {k : ℕ}

section
variable (h : Ordered A s)
include h

theorem rowOf_getElem {e : PeerNode} (hk : (rowEntries s)[k]?=some e) : rowOf s e.1=k := by
  obtain ⟨hlt,rfl⟩ := List.getElem?_eq_some_iff.mp hk
  have hlt' : k<((rowEntries s).map Prod.fst).length := by rwa [List.length_map]
  have hidx := (rowEntries_nodup h).idxOf_getElem k hlt'
  rwa [List.getElem_map] at hidx

theorem exists_row_iff {P : ExtendedPeerInfo → Prop} :
    (∃ e,(rowEntries s)[k]?=some e ∧ P e.2) ↔ ∃ id,(∃ info,s.mapInfo.get? id=some info ∧ P info) ∧ rowOf s id=k := by
  constructor
  · intro ⟨e,he,hP⟩
    exact ⟨e.1,⟨e.2,(mem_rowEntries h).mp (List.mem_of_getElem? he),hP⟩,rowOf_getElem h he⟩
  · rintro ⟨id,⟨info,hid,hP⟩,rfl⟩
    exact ⟨(id,info),rowEntries_rowOf h hid,hP⟩

theorem length_newEntries : (newEntries s).length=s.newCount := by
  have hids : s.usedNewMatrixPositions.image s.newMatrix=(((newEntries s).map Prod.fst).toFinset.image some) := by
    ext o
    rw [Finset.mem_image,Finset.mem_image]
    constructor
    · intro ⟨c,hc,ho⟩
      obtain ⟨id,hid⟩ := Option.isSome_iff_exists.mp ((h.tables.usedNew c).mp hc)
      obtain ⟨-,info,hview,-⟩ := h.tables.newCell c id hid
      obtain ⟨info,hget,rfl⟩ := view_eq_some hview
      have hpos := (h.tables.cell hid hview).2.2
      refine ⟨id,List.mem_toFinset.mpr (List.mem_map.mpr ⟨(id,info),mem_newEntries.mpr ⟨hget,hpos⟩,rfl⟩),?_⟩
      rw [← ho,hid]
    · intro ⟨id,hid,ho⟩
      obtain ⟨e,he,rfl⟩ := List.mem_map.mp (List.mem_toFinset.mp hid)
      obtain ⟨hget,hpos⟩ := mem_newEntries.mp he
      have hcount := h.tables.refCount e.1 e.2.bare (view_of_get? hget)
      obtain ⟨c,-,hc⟩ := exists_of_occurrences_pos (show 0<occurrences newCells s.newMatrix e.1 by
        change e.2.refCount=_ at hcount
        omega)
      exact ⟨c,(h.tables.usedNew c).mpr (by rw [hc]; rfl),hc.trans ho⟩
  have hnodup : ((newEntries s).map Prod.fst).Nodup := s.mapInfo.nodup.sublist (List.filter_sublist.map Prod.fst)
  rw [h.tables.newCount h.positions,hids,Finset.card_image_of_injective _ (Option.some_injective ℕ),
    List.toFinset_card_of_nodup hnodup,List.length_map]

theorem rowOf_new {e : PeerNode} (he : e∈newEntries s) :
    rowOf s e.1=((newEntries s).map Prod.fst).idxOf e.1 ∧ (rowOf s e.1 : ℤ)<s.newCount := by
  have hin : e.1∈(newEntries s).map Prod.fst := List.mem_map.mpr ⟨e,he,rfl⟩
  have hrow : rowOf s e.1=((newEntries s).map Prod.fst).idxOf e.1 := by
    rw [rowOf,rowEntries,List.map_append,List.idxOf_append_of_mem hin]
  have hlt := List.idxOf_lt_length_of_mem hin
  rw [List.length_map] at hlt
  rw [← length_newEntries h,hrow]
  exact ⟨rfl,by exact_mod_cast hlt⟩

theorem length_triedEntries : (triedEntries s).length=s.triedCount := by
  have hperm : s.mapInfo.entries.Perm (rowEntries s) := by
    have hnodup : (rowEntries s).Nodup := (rowEntries_nodup h).of_map
    apply (List.perm_ext_iff_of_nodup s.mapInfo.nodup.of_map hnodup).mpr
    intro e
    rw [mem_rowEntries h]
    exact Dict.mem_entries s.mapInfo e.1 e.2
  have hall := hperm.length_eq
  have hpositions := h.positions.perm.length_eq
  have hnew := length_newEntries h
  have hcount := h.tables.count
  unfold rowEntries at hall
  rw [List.length_append] at hall
  rw [Dict.keys,List.length_map] at hpositions
  omega

theorem numberNew_ok : ∃ z,s.mapInfo.entries.foldlM (numberNew s.newCount) ⟨Dict.empty,[],0⟩ = .ok z ∧
    z.countIds=(newEntries s).length ∧ z.nodes=numbered 0 (newEntries s) ∧
    ∀ e∈newEntries s,z.uniqueIds.get? e.1=some (((newEntries s).map Prod.fst).idxOf e.1) := by
  refine foldlM_done (b := ⟨Dict.empty,[],0⟩) (P := fun done (z : Numbering) => z.countIds=(inNew done).length ∧
    z.nodes=numbered 0 (inNew done) ∧
    ∀ e∈inNew done,
      z.uniqueIds.get? e.1=some (((inNew done).map Prod.fst).idxOf e.1)) ?_ ⟨rfl,rfl,by simp [inNew]⟩
  · rintro done e rest z hl ⟨hcount,hnodes,hids⟩
    have hnodup := s.mapInfo.nodup
    rw [hl,List.map_append,List.map_cons] at hnodup
    have hfresh : e.1∉done.map Prod.fst := fun hin => (List.nodup_append.mp hnodup).2.2 e.1 hin e.1 List.mem_cons_self rfl
    have hother {e' : PeerNode} (he' : e'∈inNew done) : e.1≠e'.1 :=
      fun heq => hfresh (List.mem_map.mpr ⟨e',(List.mem_filter.mp he').1,heq.symm⟩)
    by_cases hpos : e.2.refCount > 0
    · have hless : ¬ (z.countIds : ℤ)=s.newCount := by
        have hlength := length_newEntries h
        have hsplit : inNew (done++e::rest)=inNew done++e::inNew rest := by simp [inNew,hpos]
        rw [newEntries,hl,hsplit,List.length_append,List.length_cons] at hlength
        omega
      refine ⟨⟨z.uniqueIds.set e.1 z.countIds,z.nodes++[(z.countIds,e.2)],z.countIds+1⟩,?_,?_⟩
      · unfold numberNew
        dsimp only
        rw [if_pos hpos,bind_of_ok ((assertThat_eq_ok (u := ())).mpr hless)]
        rfl
      · have hsplit : inNew (done++[e])=(inNew done)++[e] := by
          simp [inNew,hpos]
        rw [hsplit,numbered_concat]
        refine ⟨by simp [hcount],by simp [hnodes,hcount],?_⟩
        intro e' he'
        rw [List.map_append,List.map_singleton]
        obtain hold | hnew := List.mem_append.mp he'
        · rw [Dict.get?_set_of_ne _ _ (hother hold),hids e' hold,
            List.idxOf_append_of_mem (List.mem_map.mpr ⟨e',hold,rfl⟩)]
        · obtain rfl := List.mem_singleton.mp hnew
          have hnot : e'.1∉(inNew done).map Prod.fst := by
            intro hin
            obtain ⟨e'',he'',heq⟩ := List.mem_map.mp hin
            exact hother he'' heq.symm
          rw [Dict.get?_set_self,List.idxOf_append_of_notMem hnot]
          simp [hcount]
    · have hsplit : inNew (done++[e])=inNew done := by
        simp [inNew,hpos]
      refine ⟨{ z with uniqueIds := z.uniqueIds.set e.1 z.countIds },?_,?_⟩
      · unfold numberNew
        dsimp only
        rw [if_neg hpos]
        rfl
      · rw [hsplit]
        refine ⟨hcount,hnodes,fun e' he' => ?_⟩
        rw [Dict.get?_set_of_ne _ _ (hother he'),hids e' he']

theorem numberTried_ok (z : Numbering) (hcount : z.countIds=(newEntries s).length) :
    ∃ z' triedIds,s.mapInfo.entries.foldlM (numberTried s.triedCount) (z,0) = .ok (z',triedIds) ∧
      z'.nodes=z.nodes++numbered (newEntries s).length (triedEntries s) := by
  have hrun := foldlM_done (f := numberTried s.triedCount) (l := s.mapInfo.entries) (b := (z,0))
    (P := fun done z' => z'.2=(inTried done).length ∧
      z'.1.countIds=(newEntries s).length+(inTried done).length ∧
      z'.1.nodes=z.nodes++numbered (newEntries s).length (inTried done)) ?_ ⟨rfl,hcount,by simp [inTried,numbered]⟩
  · obtain ⟨⟨z',triedIds⟩,hfold,-,-,hnodes⟩ := hrun
    exact ⟨z',triedIds,hfold,hnodes⟩
  · intro done e rest z' hl ⟨hids,hcount',hnodes⟩
    by_cases ht : e.2.isTried=true
    · have hsplit : inTried (done++[e])=(inTried done)++[e] := by
        simp [inTried,ht]
      have hless : ¬ (z'.2 : ℤ)=s.triedCount := by
        have hlength := length_triedEntries h
        have hsplit : inTried (done++e::rest)=inTried done++e::inTried rest := by simp [inTried,ht]
        rw [triedEntries,hl,hsplit,List.length_append,List.length_cons] at hlength
        omega
      refine ⟨({ z'.1 with nodes := z'.1.nodes++[(z'.1.countIds,e.2)],countIds := z'.1.countIds+1 },z'.2+1),?_,?_⟩
      · unfold numberTried
        rw [if_pos ht,bind_of_ok ((assertThat_eq_ok (u := ())).mpr hless)]
        rfl
      · rw [hsplit,numbered_concat]
        refine ⟨by simp [hids],by simp [hcount']; omega,by simp [hnodes,hcount']⟩
    · have hsplit : inTried (done++[e])=inTried done := by
        simp [inTried,ht]
      refine ⟨z',?_,?_⟩
      · unfold numberTried
        rw [if_neg ht]
        rfl
      · rw [hsplit]
        exact ⟨hids,hcount',hnodes⟩

end

def rowsOf (s : AddressManager) (triedIds : ℕ) : PeerRows :=
  ⟨[("key",intText s.key.toNat),("new_count",intText (newEntries s).length),("tried_count",intText triedIds)],
    (numbered 0 (rowEntries s)).map fun node => (node.1,node.2.toText),
    newCellList.filterMap fun c => (s.newMatrix c).map fun id => (rowOf s id,c.1)⟩

theorem serialize_ok (h : Ordered A s) : ∃ triedIds,serialize s = .ok (rowsOf s triedIds) := by
  obtain ⟨z,hnew,hcount,hnodes,hids⟩ := numberNew_ok h
  obtain ⟨z',triedIds,htried,hnodes'⟩ := numberTried_ok h z hcount
  have htable := foldlM_done (f := newTableRow z.uniqueIds s.newMatrix) (l := newCellList) (b := [])
    (P := fun done entries => entries=done.filterMap fun c => (s.newMatrix c).map fun id => (rowOf s id,c.1)) ?_ rfl
  · obtain ⟨entries,htable,rfl⟩ := htable
    refine ⟨triedIds,?_⟩
    unfold serialize rowsOf rowEntries
    rw [bind_of_ok hnew,bind_of_ok htried]
    dsimp only
    rw [bind_of_ok htable,hcount,hnodes',hnodes,numbered_append,Nat.zero_add]
    rfl
  · rintro done c rest _ - rfl
    rw [List.filterMap_append]
    cases hc : s.newMatrix c with
    | none =>
      refine ⟨_,?_,rfl⟩
      unfold newTableRow
      simp [hc,pure,Except.pure]
    | some id =>
      obtain ⟨-,info,hview,-⟩ := h.tables.newCell c id hc
      have hpos := (h.tables.cell hc hview).2.2
      obtain ⟨info,hget,rfl⟩ := view_eq_some hview
      have hmem : (id,info)∈newEntries s := mem_newEntries.mpr ⟨hget,hpos⟩
      have hrow : z.uniqueIds.get? id=some (rowOf s id) := by
        rw [(rowOf_new h hmem).1]
        exact hids _ hmem
      refine ⟨_,?_,rfl⟩
      unfold newTableRow
      simp [hc,hrow,pure,Except.pure,bind,Except.bind,lookup]

end Order

section Restore
variable {A : Placement} {s b : AddressManager} {done rest : List PeerNode} {e : PeerNode}

def restoredInfo (info : ExtendedPeerInfo) (k : ℕ) : ExtendedPeerInfo :=
  { info.reread with randomPos := some k,isTried := info.isTried }

/-- The manager after some of the rows. -/
structure Restored (A : Placement) (s : AddressManager) (done : List PeerNode) (b : AddressManager) : Prop where
  key : b.key=s.key
  randomPos : b.randomPos=List.range done.length
  mapInfo : ∀ k,b.mapInfo.get? k=done[k]?.map fun e => restoredInfo e.2 k
  mapAddr : ∀ host k,b.mapAddr.get? host=some k ↔ ∃ e,done[k]?=some e ∧ e.2.peerInfo.host=host
  triedMatrix : ∀ c k,b.triedMatrix c=some k ↔ ∃ e,done[k]?=some e ∧ e.2.isTried=true ∧ c=e.2.triedCell A s.key
  newMatrix : b.newMatrix=fun _ => none
  newCount : b.newCount=s.newCount
  triedCount : b.triedCount=(inTried done).length

theorem getElem?_concat {α : Type} (l : List α) (a x : α) (k : ℕ) :
    (l++[a])[k]?=some x ↔ l[k]?=some x ∨ (k=l.length ∧ a=x) := by
  rw [List.getElem?_append]
  split_ifs with hk
  · simp [hk.ne]
  · have hnone : l[k]?=none := List.getElem?_eq_none (by omega)
    rw [hnone,List.getElem?_singleton]
    split_ifs with hzero
    · simp [show k=l.length by omega]
    · simp [show k≠l.length by omega]

def pushed (b : AddressManager) (info : ExtendedPeerInfo) (k : ℕ) : AddressManager :=
  { b with
    randomPos := b.randomPos++[k]
    mapInfo := b.mapInfo.set k (restoredInfo info k)
    mapAddr := b.mapAddr.set info.peerInfo.host k }

theorem Restored.push (h : Restored A s done b) (hhost : ∀ e'∈done,e'.2.peerInfo.host≠e.2.peerInfo.host)
    (triedMatrix : ℕ × ℕ → Option ℕ) (idCount : ℕ) (triedCount : ℤ) (htried : ∀ c k,triedMatrix c=some k ↔
      b.triedMatrix c=some k ∨ (k=done.length ∧ e.2.isTried=true ∧ c=e.2.triedCell A s.key))
    (hcount : triedCount=b.triedCount+(inTried [e]).length) :
    Restored A s (done++[e]) { pushed b e.2 done.length with triedMatrix,idCount,triedCount } := by
  unfold pushed
  constructor
  · exact h.key
  · simp [h.randomPos,List.range_succ]
  · intro k
    dsimp only
    rw [Dict.get?_set]
    split_ifs with hk
    · subst hk
      simp
    · rw [h.mapInfo k,List.getElem?_append]
      split_ifs with hlt
      · rfl
      · rw [List.getElem?_eq_none (by omega),List.getElem?_eq_none (by simp; omega)]
  · intro host k
    dsimp only
    simp only [Dict.get?_set,getElem?_concat]
    split_ifs with hsame
    · constructor
      · intro hk
        exact ⟨e,Or.inr ⟨(Option.some.inj hk).symm,rfl⟩,hsame⟩
      · rintro ⟨e',he',hhost'⟩
        obtain hold | hnew := he'
        · exact absurd (hhost'.trans hsame.symm) (hhost e' (List.mem_of_getElem? hold))
        · rw [hnew.1]
    · rw [h.mapAddr]
      constructor
      · rintro ⟨e',he',hhost'⟩
        exact ⟨e',Or.inl he',hhost'⟩
      · rintro ⟨e',he',hhost'⟩
        obtain hold | hnew := he'
        · exact ⟨e',hold,hhost'⟩
        · exact absurd (hnew.2 ▸ hhost') hsame
  · intro c k
    dsimp only
    simp only [htried,h.triedMatrix,getElem?_concat]
    grind
  · exact h.newMatrix
  · exact h.newCount
  · dsimp only
    rw [hcount,h.triedCount,inTried,inTried,inTried,List.filter_append,List.length_append]
    push_cast
    rfl

variable (hs : Ordered A s)
include hs

theorem host_fresh (hsplit : rowEntries s=done++e::rest) : ∀ e'∈done,e'.2.peerInfo.host≠e.2.peerInfo.host := by
  intro e' he' heq
  have hnodup := rowEntries_nodup hs
  rw [hsplit,List.map_append,List.map_cons] at hnodup
  have hget' := (mem_rowEntries hs).mp (hsplit ▸ List.mem_append_left _ he')
  have hget := (mem_rowEntries hs (e := e)).mp (by simp [hsplit])
  have hfound' := (hs.tables.address _ e'.1).mpr ⟨e'.2.bare,view_of_get? hget',rfl⟩
  have hfound := (hs.tables.address _ e.1).mpr ⟨e.2.bare,view_of_get? hget,rfl⟩
  have hid : e'.1=e.1 := Option.some.inj (hfound'.symm.trans (heq ▸ hfound))
  exact (List.nodup_append.mp hnodup).2.2 e'.1 (List.mem_map_of_mem he') e.1 List.mem_cons_self hid

theorem restoreNews (hsplit : rowEntries s=done++rest++triedEntries s) (hrest : ∀ e∈rest,e.2.isTried=false)
    (h : Restored A s done b) : Restored A s (done++rest)
      (((numbered done.length rest).map PeerNode.reread).foldl restoreNew b) := by
  induction rest generalizing done b with
  | nil => simpa [numbered] using h
  | cons e rest ih =>
    have hun := hrest e List.mem_cons_self
    have hsplit' : rowEntries s=done++e::(rest++triedEntries s) := by simp [hsplit]
    have hstep : Restored A s (done++[e]) (pushed b e.2 done.length) :=
      h.push (host_fresh hs hsplit') b.triedMatrix b.idCount b.triedCount (by simp [hun]) (by simp [inTried,hun])
    have hrow : restoreNew b (PeerNode.reread (done.length,e.2))=pushed b e.2 done.length := by
      simp [restoreNew,pushed,restoredInfo,PeerNode.reread,ExtendedPeerInfo.reread,hun,h.randomPos]
    rw [← hrow] at hstep
    have hrun := ih (by simp [hsplit]) (fun e' he' => hrest e' (List.mem_cons_of_mem e he')) hstep
    simpa [numbered] using hrun

theorem restoreTrieds (hsplit : rowEntries s=done++rest) (hrest : ∀ e∈rest,e.2.isTried=true)
    (h : Restored A s done b) (hid : b.idCount=done.length) (start : ℕ) :
    Restored A s (done++rest) (((numbered start rest).map PeerNode.reread).foldl (restoreTried A) b) ∧
      (((numbered start rest).map PeerNode.reread).foldl (restoreTried A) b).idCount=(done++rest).length := by
  induction rest generalizing done b start with
  | nil => simpa [numbered] using ⟨h,hid⟩
  | cons e rest ih =>
    have ht := hrest e List.mem_cons_self
    have hcell : e.2.reread.triedCell A b.key=e.2.triedCell A s.key := by
      rw [h.key]
      rfl
    have hfree : b.triedMatrix (e.2.triedCell A s.key)=none := by
      rw [Option.eq_none_iff_forall_not_mem]
      intro k hk
      obtain ⟨e',he',ht',hsame⟩ := (h.triedMatrix _ k).mp hk
      have hmem' := List.mem_of_getElem? he'
      have hget' := (mem_rowEntries hs (e := e')).mp (by simp [hsplit,hmem'])
      have hget := (mem_rowEntries hs (e := e)).mp (by simp [hsplit])
      have hfound := (hs.tables.tried _ e.1).mpr ⟨e.2.bare,view_of_get? hget,ht,rfl⟩
      have hfound' := (hs.tables.tried (e.2.triedCell A s.key) e'.1).mpr ⟨e'.2.bare,view_of_get? hget',ht',hsame⟩
      have hids : e.1=e'.1 := Option.some.inj (hfound.symm.trans hfound')
      rw [hids,hget'] at hget
      exact host_fresh hs hsplit e' hmem' (by rw [Option.some.inj hget])
    have hstep := h.push (host_fresh hs hsplit) (Function.update b.triedMatrix (e.2.triedCell A s.key) (some done.length))
      (done.length+1) (b.triedCount+1) (by
        intro c k
        rw [Function.update_apply]
        split_ifs with hc
        · simp [hc,hfree,ht,eq_comm]
        · simp [hc]) (by simp [inTried,ht])
    have hrow : restoreTried A b (PeerNode.reread (start,e.2)) = { pushed b e.2 done.length with
        triedMatrix := Function.update b.triedMatrix (e.2.triedCell A s.key) (some done.length)
        idCount := done.length+1,triedCount := b.triedCount+1 } := by
      unfold restoreTried PeerNode.reread
      dsimp only
      rw [hcell,if_pos hfree]
      simp [pushed,hid,h.randomPos,restoredInfo,ExtendedPeerInfo.reread,ht]
    rw [← hrow] at hstep
    have hrun := ih (by simp [hsplit]) (fun e' he' => hrest e' (List.mem_cons_of_mem e he')) hstep (by simp [hrow]) (start+1)
    simpa [numbered] using hrun

omit hs in
theorem newCellList_nodup : newCellList.Nodup := by
  unfold newCellList
  exact List.nodup_range.product List.nodup_range

omit hs in
theorem newCells_eq : newCells=newCellList.toFinset := by
  unfold newCells newCellList
  ext ⟨bucket,i⟩
  simp [List.mem_product]

omit hs in
theorem countP_newCellList (m : ℕ × ℕ → Option ℕ) (k : ℕ) :
    newCellList.countP (fun c => m c=some k)=occurrences newCells m k := by
  unfold occurrences
  rw [newCells_eq,List.countP_eq_length_filter,← List.toFinset_card_of_nodup (newCellList_nodup.filter _),List.toFinset_filter]
  simp only [decide_eq_true_eq]

variable {id : ℕ} {info : ExtendedPeerInfo}

theorem rowOf_injective {id' : ℕ} {info' : ExtendedPeerInfo} (hid : s.mapInfo.get? id=some info)
    (hid' : s.mapInfo.get? id'=some info') (h : rowOf s id=rowOf s id') : id=id' := by
  have hrow := rowEntries_rowOf hs hid
  rw [h,rowEntries_rowOf hs hid'] at hrow
  exact (Prod.mk.inj (Option.some.inj hrow)).1.symm

variable {c : ℕ × ℕ}

theorem map_rowOf_iff (hid : s.mapInfo.get? id=some info) :
    (s.newMatrix c).map (rowOf s)=some (rowOf s id) ↔ s.newMatrix c=some id := by
  apply map_eq_some_iff_of_injective
  intro id' hc h
  obtain ⟨-,i,hi,-⟩ := hs.tables.newCell c id' hc
  obtain ⟨info',hid',-⟩ := view_eq_some hi
  exact rowOf_injective hs hid' hid h

theorem countP_rowOf (hid : s.mapInfo.get? id=some info) :
    newCellList.countP (fun c => (s.newMatrix c).map (rowOf s)=some (rowOf s id))=info.refCount := by
  have hrefCount : info.refCount=occurrences newCells s.newMatrix id := hs.tables.refCount id info.bare (view_of_get? hid)
  rw [countP_newCellList fun c => (s.newMatrix c).map (rowOf s),hrefCount]
  simp only [occurrences,map_rowOf_iff hs hid]

/-- The manager after some cells of the new table. -/
structure Filled (s b : AddressManager) (done : List (ℕ × ℕ)) (b' : AddressManager) : Prop where
  frame : b' = { b with newMatrix := b'.newMatrix,mapInfo := b'.mapInfo }
  newMatrix : b'.newMatrix=fun c => if c∈done then (s.newMatrix c).map (rowOf s) else none
  mapInfo : ∀ k,b'.mapInfo.get? k=(rowEntries s)[k]?.map fun e =>
    { restoredInfo e.2 k with refCount := (done.countP fun c => (s.newMatrix c).map (rowOf s)=some k : ℕ) }

omit hs in
theorem Restored.filled (h : Restored A s (rowEntries s) b) : Filled s b [] b := by
  refine ⟨rfl,by simp [h.newMatrix],fun k => ?_⟩
  rw [h.mapInfo k]
  rfl

omit hs in
theorem restoreCell_free (k bucket : ℕ) (hnew : (k : ℤ)<b.newCount)
    (hinfo : b.mapInfo.get? k=some info) (hbucket : bucket<NEW_BUCKET_COUNT)
    (hfree : b.newMatrix (info.newCell A b.key bucket)=none) (hless : info.refCount<NEW_BUCKETS_PER_ADDRESS) :
    restoreCell A b (k,bucket) = .ok { (b.update k fun info => { info with refCount := info.refCount+1 }) with
      newMatrix := Function.update b.newMatrix (info.newCell A b.key bucket) (some k) } := by
  unfold restoreCell
  rw [if_pos hnew,bind_of_ok (lookup_eq_ok.mpr hinfo),if_neg (by omega),if_pos ⟨hfree,hless⟩]
  rfl

theorem restoreCell_filled (h : Restored A s (rowEntries s) b) {before after : List (ℕ × ℕ)} {b' : AddressManager}
    (hl : newCellList=before++c::after) (hb : Filled s b before b') (hc : s.newMatrix c=some id) :
    ∃ b'',restoreCell A b' (rowOf s id,c.1) = .ok b'' ∧ Filled s b (before++[c]) b'' := by
  obtain ⟨hlt,i,hview,hcell⟩ := hs.tables.newCell c id hc
  obtain ⟨info,hget,rfl⟩ := view_eq_some hview
  have hrow := rowEntries_rowOf hs hget
  have hpos := (hs.tables.cell hc hview).2.2
  have hkey : b'.key=s.key := by rw [hb.frame]; exact h.key
  have hnew : ((rowOf s id : ℕ) : ℤ)<b'.newCount := by
    rw [hb.frame]
    show _<b.newCount
    rw [h.newCount]
    exact (rowOf_new hs (mem_newEntries.mpr ⟨hget,hpos⟩ : (id,info)∈newEntries s)).2
  have hfound := hb.mapInfo (rowOf s id)
  rw [hrow,Option.map_some] at hfound
  have hfree : b'.newMatrix c=none := by
    have hnodup := newCellList_nodup
    rw [hl] at hnodup
    have hnot : c∉before := fun hin => (List.nodup_append.mp hnodup).2.2 c hin c List.mem_cons_self rfl
    simp [hb.newMatrix,hnot]
  have hless : ((before.countP fun c => (s.newMatrix c).map (rowOf s)=some (rowOf s id) : ℕ) : ℤ)<NEW_BUCKETS_PER_ADDRESS := by
    have hcount := countP_rowOf hs hget
    have hlimit : info.refCount≤NEW_BUCKETS_PER_ADDRESS := hs.tables.limit id info.bare hview
    rw [hl,List.countP_append,List.countP_cons_of_pos (by simp [hc])] at hcount
    omega
  generalize hinfo : ({ restoredInfo info (rowOf s id) with refCount := _ } : ExtendedPeerInfo)=info' at hfound
  have hplace : info'.newCell A b'.key c.1=c := by
    rw [hkey,← hinfo]
    exact hcell.symm
  rw [← hplace] at hfree
  have hrun := restoreCell_free (rowOf s id) c.1 hnew hfound hlt hfree (hinfo ▸ hless)
  rw [hplace] at hrun
  refine ⟨_,hrun,?_,?_,?_⟩
  · conv_lhs => rw [hb.frame]
    rfl
  · funext c'
    by_cases hsame : c'=c
    · rw [hsame]
      simp [hc]
    · simp [hb.newMatrix,hsame]
  · intro k
    change (b'.update _ _).mapInfo.get? k=_
    rw [update_get?,hb.mapInfo k]
    cases (rowEntries s)[k]? with
    | none => rfl
    | some e =>
      by_cases hk : k=rowOf s id
      · subst hk
        simp [List.countP_append,hc]
      · simp [List.countP_append,hc,hk,Ne.symm hk]

theorem restoreCells (h : Restored A s (rowEntries s) b) (triedIds : ℕ) :
    ∃ b',(rowsOf s triedIds).newTable.foldlM (restoreCell A) b = .ok b' ∧ Filled s b newCellList b' := by
  rw [rowsOf,List.foldlM_filterMap]
  refine foldlM_done (P := Filled s b) (fun before c after b' hl hb => ?_) h.filled
  cases hc : s.newMatrix c with
  | none =>
    refine ⟨b',by simp [pure,Except.pure],hb.frame,?_,fun k => ?_⟩
    · rw [hb.newMatrix]
      funext c'
      by_cases hsame : c'=c
      · simp [hsame,hc]
      · simp [hsame]
    · rw [hb.mapInfo]
      simp [List.countP_append,hc]
  | some id => exact restoreCell_filled hs h hl hb hc

end Restore
end AddressManagerStore

section Renaming
variable {A : Placement} {s s' : AddressManager} {ρ : ℕ → ℕ}

variable {i : ExtendedPeerInfo}

theorem Renames.view (r : Renames ρ s s') {k : ℕ} : s'.view k=some i ↔ ∃ id,s.view id=some i ∧ ρ id=k := by
  constructor
  · intro h
    obtain ⟨j,hj,rfl⟩ := view_eq_some h
    obtain ⟨id,info,hid,rfl⟩ := r.onto k j hj
    rw [r.entry id info hid] at hj
    exact ⟨id,by rw [view_of_get? hid,← Option.some.inj hj]; rfl,rfl⟩
  · rintro ⟨id,h,rfl⟩
    obtain ⟨info,hid,rfl⟩ := view_eq_some h
    have hview := view_of_get? (r.entry id info hid)
    exact hview

theorem Renames.map_iff (r : Renames ρ s s') {o : Option ℕ} (ho : ∀ id',o=some id' → ∃ i,s.view id'=some i) {id : ℕ}
    (hid : s.view id=some i) : o.map ρ=some (ρ id) ↔ o=some id := by
  apply map_eq_some_iff_of_injective
  intro id' hid' h
  obtain ⟨i',hi'⟩ := ho id' hid'
  obtain ⟨info,hget,-⟩ := view_eq_some hid
  obtain ⟨info',hget',-⟩ := view_eq_some hi'
  exact r.injective id' id info' info hget' hget h

theorem Renames.ordered (r : Renames ρ s s') (h : Ordered A s) (hpositions : Positions s')
    (hfresh : ∀ k info,s'.mapInfo.get? k=some info → k ≤ s'.idCount) (hlength : s'.randomPos.length=s.randomPos.length)
    (hused : ∀ c,c∈s'.usedNewMatrixPositions ↔ (s'.newMatrix c).isSome)
    (husedTried : ∀ c,c∈s'.usedTriedMatrixPositions ↔ (s'.triedMatrix c).isSome) : Ordered A s' := by
  have ht := h.tables
  have hnew (c : ℕ × ℕ) (id : ℕ) (hc : s.newMatrix c=some id) : ∃ i,s.view id=some i := by
    obtain ⟨-,i,hi,-⟩ := ht.newCell c id hc
    exact ⟨i,hi⟩
  have htried (c : ℕ × ℕ) (id : ℕ) (hc : s.triedMatrix c=some id) : ∃ i,s.view id=some i := by
    obtain ⟨i,hi,-⟩ := (ht.tried c id).mp hc
    exact ⟨i,hi⟩
  refine ⟨hpositions,?_⟩
  constructor
  · intro host k
    rw [r.mapAddr,Option.map_eq_some_iff]
    constructor
    · rintro ⟨id,hid,rfl⟩
      obtain ⟨i,hi,hhost⟩ := (ht.address host id).mp hid
      exact ⟨i,r.view.mpr ⟨id,hi,rfl⟩,hhost⟩
    · intro ⟨i,hk,hhost⟩
      obtain ⟨id,hi,rfl⟩ := r.view.mp hk
      exact ⟨id,(ht.address host id).mpr ⟨i,hi,hhost⟩,rfl⟩
  · intro k i hk
    obtain ⟨info,hget,-⟩ := view_eq_some hk
    exact hfresh k info hget
  · intro c k hc
    rw [r.newMatrix,Option.map_eq_some_iff] at hc
    obtain ⟨id,hid,rfl⟩ := hc
    obtain ⟨hlt,i,hi,hcell⟩ := ht.newCell c id hid
    exact ⟨hlt,i,r.view.mpr ⟨id,hi,rfl⟩,by rw [r.key]; exact hcell⟩
  · intro k i hk
    obtain ⟨id,hi,rfl⟩ := r.view.mp hk
    have hsame (c : ℕ × ℕ) : s'.newMatrix c=some (ρ id) ↔ s.newMatrix c=some id := by
      rw [r.newMatrix]
      exact r.map_iff (hnew c) hi
    rw [ht.refCount id i hi]
    simp only [occurrences,hsame]
  · intro k i hk
    obtain ⟨id,hi,rfl⟩ := r.view.mp hk
    exact ht.limit id i hi
  · intro k i hk _ hun
    obtain ⟨id,hi,rfl⟩ := r.view.mp hk
    exact ht.untried id i hi not_false hun
  · intro k i hk htrue
    obtain ⟨id,hi,rfl⟩ := r.view.mp hk
    exact ht.triedRef id i hi htrue
  · intro c k
    rw [r.triedMatrix,r.key]
    constructor
    · intro hc
      obtain ⟨id,hid,rfl⟩ := Option.map_eq_some_iff.mp hc
      obtain ⟨i,hi,hrest⟩ := (ht.tried c id).mp hid
      exact ⟨i,r.view.mpr ⟨id,hi,rfl⟩,hrest⟩
    · intro ⟨i,hk,hrest⟩
      obtain ⟨id,hi,rfl⟩ := r.view.mp hk
      exact (r.map_iff (htried c) hi).mpr ((ht.tried c id).mpr ⟨i,hi,hrest⟩)
  · exact hused
  · exact husedTried
  · have hsame : s'.usedTriedMatrixPositions=s.usedTriedMatrixPositions := by
      ext c
      rw [husedTried,ht.usedTried,r.triedMatrix,Option.isSome_map]
    rw [r.triedCount,hsame,ht.triedCount]
  · rw [r.newCount,r.triedCount,hlength]
    exact ht.count

end Renaming

namespace AddressManagerStore
variable {A : Placement} {s b b' : AddressManager}

theorem mem_numbered {start : ℕ} {l : List PeerNode} {node : PeerNode} (h : node∈numbered start l) :
    (start≤node.1 ∧ node.1<start+l.length) ∧ ∃ e∈l,e.2=node.2 := by
  obtain ⟨⟨e,k⟩,he,rfl⟩ := List.mem_map.mp h
  exact ⟨⟨List.le_snd_of_mem_zipIdx he,List.snd_lt_add_of_mem_zipIdx he⟩,e,List.fst_mem_of_mem_zipIdx he,rfl⟩

theorem getNodes_rowsOf (hs : Ordered A s) (hstore : ∀ id info,s.mapInfo.get? id=some info → info.Storable) (triedIds : ℕ) :
    getNodes (rowsOf s triedIds) = .ok ((numbered 0 (rowEntries s)).map PeerNode.reread) := by
  unfold getNodes rowsOf
  rw [List.mapM_map]
  apply mapM_eq_ok_map
  intro node hnode
  obtain ⟨-,e,he,hinfo⟩ := mem_numbered hnode
  have hstorable := hstore e.1 e.2 ((mem_rowEntries hs).mp he)
  rw [hinfo] at hstorable
  show (ExtendedPeerInfo.fromText node.2.toText >>= _)=_
  rw [bind_of_ok (fromText_toText hstorable)]
  rfl

theorem mem_used_iff {cells : Finset (ℕ × ℕ)} {m m' : ℕ × ℕ → Option ℕ} {ρ : ℕ → ℕ} (hm : ∀ c,m' c=(m c).map ρ)
    (hin : ∀ c id,m c=some id → c∈cells) (c : ℕ × ℕ) : c∈cells.filter (fun c => (m' c).isSome) ↔ (m' c).isSome := by
  rw [Finset.mem_filter,and_iff_right_iff_imp,hm,Option.isSome_map]
  intro hc
  obtain ⟨id,hid⟩ := Option.isSome_iff_exists.mp hc
  exact hin c id hid

theorem length_numbered (start : ℕ) (l : List PeerNode) : (numbered start l).length=l.length := by
  simp [numbered]

theorem filter_rows (s : AddressManager) {rows : List PeerNode}
    (hrows : rows=(numbered 0 (rowEntries s)).map PeerNode.reread) :
    (rows.filter fun node => (node.1 : ℤ)<(newEntries s).length)=(numbered 0 (newEntries s)).map PeerNode.reread ∧
      (rows.filter fun node => (node.1 : ℤ) ≥ (newEntries s).length) =
        (numbered (newEntries s).length (triedEntries s)).map PeerNode.reread := by
  have hnumbers (start : ℕ) (l : List PeerNode) :
      ∀ node∈(numbered start l).map PeerNode.reread,start≤node.1 ∧ node.1<start+l.length := by
    intro node hnode
    obtain ⟨node',hnode',rfl⟩ := List.mem_map.mp hnode
    exact (mem_numbered hnode').1
  rw [hrows,rowEntries,numbered_append,List.map_append,List.filter_append,List.filter_append,Nat.zero_add]
  have hnew := hnumbers 0 (newEntries s)
  have htried := hnumbers (newEntries s).length (triedEntries s)
  constructor
  · rw [List.filter_eq_self.mpr,List.filter_eq_nil_iff.mpr,List.append_nil]
    · grind
    · grind
  · rw [List.filter_eq_nil_iff.mpr,List.filter_eq_self.mpr,List.nil_append]
    · grind
    · grind

theorem Filled.entry (hs : Ordered A s) (hb : Filled s b newCellList b') {id : ℕ} {info : ExtendedPeerInfo}
    (hid : s.mapInfo.get? id=some info) : b'.mapInfo.get? (rowOf s id)=some (info.reloaded (rowOf s id)) := by
  rw [hb.mapInfo,rowEntries_rowOf hs hid,Option.map_some,countP_rowOf hs hid]
  rfl

theorem Filled.onto (hs : Ordered A s) (hb : Filled s b newCellList b') {k : ℕ} {info : ExtendedPeerInfo}
    (hk : b'.mapInfo.get? k=some info) : ∃ id info',s.mapInfo.get? id=some info' ∧ rowOf s id=k ∧ info=info'.reloaded k := by
  have hk' := hk
  rw [hb.mapInfo,Option.map_eq_some_iff] at hk
  obtain ⟨e,he,-⟩ := hk
  have hget := (mem_rowEntries hs).mp (List.mem_of_getElem? he)
  have hrow := rowOf_getElem hs he
  refine ⟨e.1,e.2,hget,hrow,?_⟩
  rw [← hrow,hb.entry hs hget] at hk'
  rw [← Option.some.inj hk',hrow]

theorem Filled.renames (hs : Ordered A s) (h : Restored A s (rowEntries s) b) (hb : Filled s b newCellList b') :
    Renames (rowOf s) s (loadUsedTablePositions b') where
  injective id id' info info' hid hid' := rowOf_injective hs hid hid'
  key := (congrArg AddressManager.key hb.frame).trans h.key
  entry id info hid := hb.entry hs hid
  onto k info hk := by
    obtain ⟨id,info',hid,hrow,-⟩ := hb.onto hs hk
    exact ⟨id,info',hid,hrow⟩
  mapAddr host := by
    have hsame : b'.mapAddr=b.mapAddr := by rw [hb.frame]
    show b'.mapAddr.get? host=_
    rw [hsame]
    ext k
    rw [h.mapAddr,Option.map_eq_some_iff,exists_row_iff hs (P := fun info => info.peerInfo.host=host)]
    simp only [hs.tables.address,AddressManager.view,Option.map_eq_some_iff,exists_exists_and_eq_and]
    rfl
  newMatrix c := by
    show b'.newMatrix c=_
    rw [hb.newMatrix]
    dsimp only
    split_ifs with hc
    · rfl
    · cases hid : s.newMatrix c with
      | none => rfl
      | some id =>
        obtain ⟨-,i,hi,-⟩ := hs.tables.newCell c id hid
        have hin := (hs.tables.cell hid hi).1
        rw [newCells_eq,List.mem_toFinset] at hin
        exact absurd hin hc
  triedMatrix c := by
    have hsame : b'.triedMatrix=b.triedMatrix := by rw [hb.frame]
    show b'.triedMatrix c=_
    rw [hsame]
    ext k
    rw [h.triedMatrix,Option.map_eq_some_iff,exists_row_iff hs (P := fun info => info.isTried=true ∧ c=info.triedCell A s.key)]
    simp only [hs.tables.tried,AddressManager.view,Option.map_eq_some_iff,exists_exists_and_eq_and]
    rfl
  newCount := (congrArg AddressManager.newCount hb.frame).trans h.newCount
  triedCount := by
    have hnone : inTried (newEntries s)=[] := by
      unfold inTried
      rw [List.filter_eq_nil_iff]
      intro e he
      simp [untried_of_new hs he]
    have hall : inTried (rowEntries s)=triedEntries s := by
      rw [rowEntries,inTried,List.filter_append]
      simpa [inTried,triedEntries] using hnone
    rw [← length_triedEntries hs,← hall]
    exact (congrArg AddressManager.triedCount hb.frame).trans h.triedCount

theorem Filled.randomPos (h : Restored A s (rowEntries s) b) (hb : Filled s b newCellList b') :
    b'.randomPos=List.range (rowEntries s).length :=
  (congrArg AddressManager.randomPos hb.frame).trans h.randomPos

theorem Filled.positions (hs : Ordered A s) (h : Restored A s (rowEntries s) b) (hb : Filled s b newCellList b') :
    Positions (loadUsedTablePositions b') := by
  constructor
  · intro i k
    show b'.randomPos[i]?=some k ↔ ∃ info,b'.mapInfo.get? k=some info ∧ _
    rw [hb.randomPos h,hb.mapInfo,List.getElem?_eq_some_iff]
    constructor
    · rintro ⟨hi,rfl⟩
      rw [List.length_range] at hi
      rw [List.getElem_range,List.getElem?_eq_getElem hi]
      exact ⟨_,rfl,rfl⟩
    · intro ⟨info,hk,hpos⟩
      obtain ⟨e,he,rfl⟩ := Option.map_eq_some_iff.mp hk
      obtain rfl : k=i := Option.some.inj hpos
      obtain ⟨hlt,-⟩ := List.getElem?_eq_some_iff.mp he
      exact ⟨by simpa using hlt,by simp⟩
  · intro k info hk
    obtain ⟨-,info',-,-,rfl⟩ := hb.onto hs hk
    exact ⟨k,rfl⟩

theorem dropUnplaced_none (hs : Ordered A s) (hb : Filled s b newCellList b') : dropUnplacedEntries b' = .ok b' := by
  have hnone : ∀ e∈b'.mapInfo.entries,dropUnplaced e b'=(.ok (),b') := by
    intro e he
    obtain ⟨id,info,hid,-,hinfo⟩ := hb.onto hs ((Dict.mem_entries b'.mapInfo e.1 e.2).mp he)
    have hplaced : ¬ (¬ e.2.isTried ∧ e.2.refCount=0) := by
      have hcase := new_or_tried hs (e := (id,info)) hid
      rw [hinfo]
      simp only [ExtendedPeerInfo.reloaded]
      grind
    unfold dropUnplaced
    rw [if_neg hplaced]
    rfl
  have hrun (l : List PeerNode) (hl : ∀ e∈l,dropUnplaced e b'=(.ok (),b')) : l.forM dropUnplaced b'=(.ok (),b') := by
    induction l with
    | nil => rfl
    | cons e l ih => rw [Eff.forM_cons_of_ok (hl e List.mem_cons_self),ih fun e' he' => hl e' (List.mem_cons_of_mem e he')]
  unfold dropUnplacedEntries
  rw [hrun _ hnone]

theorem reads_back (h : AddressRun A s) (hstore : ∀ id info,s.mapInfo.get? id=some info → info.Storable)
    (randomKey : Bytes32) : ∃ rows s',serialize s = .ok rows ∧ deserialize A rows randomKey = .ok s' ∧
      Renames (rowOf s) s s' ∧ Ordered A s' := by
  have hs := h.ordered
  obtain ⟨triedIds,hserialize⟩ := serialize_ok hs
  have hstart : Restored A s [] { AddressManager.clear randomKey with key := BitVec.ofInt 256 s.key.toNat,newCount := (newEntries s).length } := by
    constructor <;> simp [AddressManager.clear,length_newEntries hs,inTried]
  have hnews := restoreNews hs rfl (fun e he => untried_of_new hs he) hstart
  generalize hb₁ : List.foldl restoreNew _ _=b₁ at hnews
  obtain ⟨htrieds,hids⟩ := restoreTrieds hs (b := { b₁ with idCount := (newEntries s).length }) rfl (fun e he => (mem_triedEntries.mp he).2)
    ⟨hnews.key,hnews.randomPos,hnews.mapInfo,hnews.mapAddr,hnews.triedMatrix,hnews.newMatrix,hnews.newCount,hnews.triedCount⟩
    rfl (newEntries s).length
  obtain ⟨b',hcells,hfilled⟩ := restoreCells hs htrieds triedIds
  generalize hb₂ : List.foldl (restoreTried A) _ _=b₂ at htrieds hids hcells hfilled
  have hrenames := hfilled.renames hs htrieds
  refine ⟨rowsOf s triedIds,loadUsedTablePositions b',hserialize,?_,hrenames,?_⟩
  · unfold deserialize
    rw [bind_of_ok (getNodes_rowsOf hs hstore triedIds)]
    have hkey : (getMetadata (rowsOf s triedIds)).get? "key" = some (intText s.key.toNat) := by
      simp [getMetadata,rowsOf,Dict.get?_set]
    have hcount : (getMetadata (rowsOf s triedIds)).get? "new_count" = some (intText (newEntries s).length) := by
      simp [getMetadata,rowsOf,Dict.get?_set]
    rw [hkey,hcount]
    dsimp only
    rw [bind_of_ok (lookup_eq_ok.mpr rfl),bind_of_ok (parseInt_intText _),bind_of_ok (lookup_eq_ok.mpr rfl),
      bind_of_ok (parseInt_intText _)]
    rw [(filter_rows s rfl).1,(filter_rows s rfl).2,List.length_map,length_numbered]
    subst hb₁ hb₂
    exact (bind_of_ok hcells).trans (bind_of_ok (dropUnplaced_none hs hfilled))
  · apply hrenames.ordered hs (hfilled.positions hs htrieds)
    · intro k info hk
      have hcount : b'.idCount=(rowEntries s).length := by
        rw [hfilled.frame]
        exact hids
      change b'.mapInfo.get? k=some info at hk
      show k≤b'.idCount
      rw [hfilled.mapInfo,Option.map_eq_some_iff] at hk
      obtain ⟨e,he,-⟩ := hk
      obtain ⟨hlt,-⟩ := List.getElem?_eq_some_iff.mp he
      omega
    · have hcount := hs.tables.count
      have hnewLength := length_newEntries hs
      have htriedLength := length_triedEntries hs
      change b'.randomPos.length=_
      rw [hfilled.randomPos htrieds,List.length_range,rowEntries,List.length_append]
      omega
    · exact mem_used_iff hrenames.newMatrix fun c id hid => (hs.consistent.newMatrix c id hid).1
    · exact mem_used_iff hrenames.triedMatrix fun c id hid => (hs.consistent.triedMatrix c id hid).1

/-- A manager after any operations is written to rows and read back as itself, under other ids. -/
theorem deserialize_serialize (h : AddressRun A s) (hstore : ∀ id info,s.mapInfo.get? id=some info → info.Storable)
    (randomKey : Bytes32) : ∃ rows s' ρ,serialize s = .ok rows ∧ deserialize A rows randomKey = .ok s' ∧ Renames ρ s s' ∧ Ordered A s' := by
  obtain ⟨rows,s',hserialize,hdeserialize,hrenames,hordered⟩ := reads_back h hstore randomKey
  exact ⟨rows,s',rowOf s,hserialize,hdeserialize,hrenames,hordered⟩

section Stored

def summedPlacement : Placement :=
  ⟨fun b => (b.map UInt8.toNat).sum,fun p => [UInt8.ofNat p.port],fun p => [UInt8.ofNat p.port],fun _ _ => true⟩

def storedOps : List AddressOp :=
  [.addToNewTable ⟨"10.0.0.1",1,5⟩ none 10 0 0 0,.addToNewTable ⟨"10.0.0.1",1,6⟩ (some ⟨"10.0.0.9",9⟩) 0 6 0 0,
    .addToNewTable ⟨"10.0.0.2",2,5⟩ (some ⟨"10.0.0.9",9⟩) 0 0 0 0,.markGood ⟨"10.0.0.2",2⟩ false 7 0]

def managerAfter (ops : List AddressOp) : AddressManager :=
  ops.foldl (fun s op => (op.run summedPlacement s).2) { AddressManager.clear 7 with allowPrivateSubnets := true }

theorem managerAfter_run (ops : List AddressOp) : AddressRun summedPlacement (managerAfter ops) := by
  have hrest (s : AddressManager) (h : AddressRun summedPlacement s) :
      AddressRun summedPlacement (ops.foldl (fun s op => (op.run summedPlacement s).2) s) := by
    induction ops generalizing s with
    | nil => exact h
    | cons op ops ih => exact ih _ (h.step op)
  exact hrest _ (.start 7 true)

example : (managerAfter storedOps).mapInfo.entries.map (fun e => (e.2.refCount,e.2.isTried))=[(2,false),(0,true)] := by
  decide +kernel

theorem storedOps_storable (id : ℕ) (info : ExtendedPeerInfo) (hget : (managerAfter storedOps).mapInfo.get? id=some info) :
    info.Storable := by
  have hall : ∀ e∈(managerAfter storedOps).mapInfo.entries,e.2.Storable := by decide +kernel
  exact hall (id,info) ((Dict.mem_entries _ id info).mpr hget)

theorem deserialize_serialize_stored : ∃ rows s' ρ,serialize (managerAfter storedOps) = .ok rows ∧
    deserialize summedPlacement rows 9 = .ok s' ∧ Renames ρ (managerAfter storedOps) s' ∧ Ordered summedPlacement s' :=
  deserialize_serialize (managerAfter_run storedOps) storedOps_storable 9

end Stored

/-- What is known of the peer under an id, its attempts apart. -/
def knownPeer (s : AddressManager) (id : ℕ) : Option (PeerInfo × PeerInfo × ℤ × Bool × ℤ) :=
  (s.mapInfo.get? id).map fun info => (info.peerInfo,info.src,info.timestamp,info.isTried,info.refCount)

/-- Two managers that know the same of the same peers, and have them in the same cells. -/
structure SamePeers (s s' : AddressManager) : Prop where
  key : s'.key=s.key
  peer : ∀ host,(s'.mapAddr.get? host).bind (knownPeer s')=(s.mapAddr.get? host).bind (knownPeer s)
  newCell : ∀ c,(s'.newMatrix c).bind (knownPeer s')=(s.newMatrix c).bind (knownPeer s)
  triedCell : ∀ c,(s'.triedMatrix c).bind (knownPeer s')=(s.triedMatrix c).bind (knownPeer s)
  occupied : ∀ c,(s'.newMatrix c).isSome=(s.newMatrix c).isSome
  newCount : s'.newCount=s.newCount
  triedCount : s'.triedCount=s.triedCount

theorem known_renamed {ρ : ℕ → ℕ} {s' : AddressManager} (r : Renames ρ s s') {o : Option ℕ}
    (ho : ∀ id,o=some id → ∃ info,s.mapInfo.get? id=some info) : (o.map ρ).bind (knownPeer s')=o.bind (knownPeer s) := by
  cases o with
  | none => rfl
  | some id =>
    obtain ⟨info,hid⟩ := ho id rfl
    simp [knownPeer,hid,r.entry id info hid,ExtendedPeerInfo.reloaded]

theorem samePeers_of_renames {ρ : ℕ → ℕ} {s' : AddressManager} (r : Renames ρ s s') (h : ConsistentPeers s) : SamePeers s s' where
  key := r.key
  peer host := by
    rw [r.mapAddr]
    apply known_renamed r
    intro id hid
    obtain ⟨info,hinfo,-⟩ := (h.mapAddr host id).mp hid
    exact ⟨info,hinfo⟩
  newCell c := by
    rw [r.newMatrix]
    apply known_renamed r
    intro id hid
    obtain ⟨-,info,hinfo,-⟩ := h.newMatrix c id hid
    exact ⟨info,hinfo⟩
  triedCell c := by
    rw [r.triedMatrix]
    apply known_renamed r
    intro id hid
    obtain ⟨-,info,hinfo,-⟩ := h.triedMatrix c id hid
    exact ⟨info,hinfo⟩
  occupied c := by rw [r.newMatrix,Option.isSome_map]
  newCount := r.newCount
  triedCount := r.triedCount

theorem storable_of_reads (h : AddressRun A s) {rows : PeerRows} {s' : AddressManager} {randomKey : Bytes32}
    (hserialize : serialize s = .ok rows) (hdeserialize : deserialize A rows randomKey = .ok s') (id : ℕ)
    (info : ExtendedPeerInfo) (hget : s.mapInfo.get? id=some info) : info.Storable := by
  have hs := h.ordered
  obtain ⟨triedIds,hrows⟩ := serialize_ok hs
  obtain rfl : rowsOf s triedIds=rows := Except.ok.inj (hrows.symm.trans hserialize)
  unfold deserialize at hdeserialize
  obtain ⟨nodes,hnodes,-⟩ := bind_ok.mp hdeserialize
  have hin := (mem_rowEntries hs (e := (id,info))).mpr hget
  obtain ⟨k,hk⟩ := List.getElem?_of_mem hin
  have hrow : (k,info.toText)∈(rowsOf s triedIds).nodes := by
    apply List.mem_map.mpr
    refine ⟨(k,info),List.mem_map.mpr ⟨((id,info),k),?_,rfl⟩,rfl⟩
    exact List.mk_mem_zipIdx_iff_getElem?.mpr hk
  obtain ⟨i,hi,hat⟩ := List.mem_iff_getElem.mp hrow
  have heach := List.forall₂_iff_get.mp (mapM_eq_ok.mp hnodes)
  have hnode := heach.2 i hi (heach.1 ▸ hi)
  rw [List.get_eq_getElem,hat] at hnode
  obtain ⟨info',hinfo',-⟩ := bind_ok.mp hnode
  exact storable_of_fromText hinfo'

/-- A manager knows the same after it has been stored and read, its tables in order, exactly when its peers fit
into rows. -/
theorem stored_samePeers_iff (h : AddressRun A s) (randomKey : Bytes32) :
    (∃ rows s',serialize s = .ok rows ∧ deserialize A rows randomKey = .ok s' ∧ SamePeers s s' ∧ ConsistentPeers s') ↔
      ∀ id info,s.mapInfo.get? id=some info → info.Storable := by
  constructor
  · rintro ⟨rows,s',hserialize,hdeserialize,-,-⟩
    exact storable_of_reads h hserialize hdeserialize
  · intro hstore
    obtain ⟨rows,s',hserialize,hdeserialize,hrenames,hordered⟩ := reads_back h hstore randomKey
    exact ⟨rows,s',hserialize,hdeserialize,samePeers_of_renames hrenames h.ordered.consistent,hordered.consistent⟩

theorem stored_samePeers_iff_two : ∃ rows s',serialize (managerAfter storedOps) = .ok rows ∧
    deserialize summedPlacement rows 9 = .ok s' ∧ SamePeers (managerAfter storedOps) s' ∧ ConsistentPeers s' :=
  (stored_samePeers_iff (managerAfter_run storedOps) 9).mpr storedOps_storable

def blankOps : List AddressOp := [.addToNewTable ⟨"2606:4700::1%a b",1,5⟩ none 0 0 0 0]

/-- The row of such a peer has words too many, and is not read back. -/
theorem stored_blank : AddressRun summedPlacement (managerAfter blankOps) ∧
    ¬ ∃ rows s',serialize (managerAfter blankOps) = .ok rows ∧ deserialize summedPlacement rows 9 = .ok s' := by
  have hrun := managerAfter_run blankOps
  refine ⟨hrun,?_⟩
  intro ⟨rows,s',hserialize,hdeserialize⟩
  have hall := storable_of_reads hrun hserialize hdeserialize
  have hin : ∃ e∈(managerAfter blankOps).mapInfo.entries,¬ e.2.Storable := by decide +kernel
  obtain ⟨⟨id,info⟩,hentry,hnot⟩ := hin
  exact hnot (hall id info ((Dict.mem_entries _ id info).mp hentry))

end AddressManagerStore
end RoseChain
