import Mathlib.Algebra.BigOperators.Group.Finset.Basic
import Mathlib.Algebra.Order.Floor.Ring
import Mathlib.Data.Rat.Floor
import RoseChain.Types.Basic
import RoseChain.Lib.Dict
import RoseChain.Lib.Effect

namespace RoseChain
open Lib

def TRIED_BUCKETS_PER_GROUP : ℕ := 8
def NEW_BUCKETS_PER_SOURCE_GROUP : ℕ := 64
def TRIED_BUCKET_COUNT : ℕ := 256
def NEW_BUCKET_COUNT : ℕ := 1024
def BUCKET_SIZE : ℕ := 64
def TRIED_COLLISION_SIZE : ℕ := 10
def NEW_BUCKETS_PER_ADDRESS : ℕ := 8
def HORIZON_DAYS : ℤ := 30
def MAX_RETRIES : ℤ := 3
def MIN_FAIL_DAYS : ℤ := 7
def MAX_FAILURES : ℤ := 10

structure PeerInfo where
  host : String
  port : ℕ
  deriving DecidableEq

structure TimestampedPeerInfo where
  host : String
  port : ℕ
  timestamp : ℕ
  deriving DecidableEq

/-- How peers are hashed into buckets: the first eight bytes of `std_hash`, and what is known of a peer's
address. -/
structure Placement where
  hash : Bytes → ℕ
  getKey : PeerInfo → Bytes
  getGroup : PeerInfo → Bytes
  isValid : PeerInfo → Bool → Bool

structure ExtendedPeerInfo where
  peerInfo : PeerInfo
  timestamp : ℤ
  src : PeerInfo
  randomPos : Option ℕ
  isTried : Bool
  refCount : ℤ
  lastSuccess : ℤ
  lastTry : ℤ
  numAttempts : ℤ
  lastCountAttempt : ℤ
  deriving DecidableEq

namespace ExtendedPeerInfo
variable (A : Placement)

def new (addr : TimestampedPeerInfo) (srcPeer : Option PeerInfo) : ExtendedPeerInfo :=
  let peerInfo := ⟨addr.host,addr.port⟩
  ⟨peerInfo,addr.timestamp,srcPeer.getD peerInfo,none,false,0,0,0,0,0⟩

def getTriedBucket (info : ExtendedPeerInfo) (key : Bytes32) : ℕ :=
  let hash1 := A.hash (bytes32 key++A.getKey info.peerInfo) % TRIED_BUCKETS_PER_GROUP
  A.hash (bytes32 key++A.getGroup info.peerInfo++[UInt8.ofNat hash1]) % TRIED_BUCKET_COUNT

def getNewBucket (info : ExtendedPeerInfo) (key : Bytes32) (srcPeer : Option PeerInfo) : ℕ :=
  let srcPeer := srcPeer.getD info.src
  let hash1 := A.hash (bytes32 key++A.getGroup info.peerInfo++A.getGroup srcPeer) %
    NEW_BUCKETS_PER_SOURCE_GROUP
  A.hash (bytes32 key++A.getGroup srcPeer++[UInt8.ofNat hash1]) % NEW_BUCKET_COUNT

def getBucketPosition (info : ExtendedPeerInfo) (key : Bytes32) (isNew : Bool) (nBucket : ℕ) : ℕ :=
  let ch : UInt8 := if isNew then 78 else 75
  A.hash (bytes32 key++[ch]++(uint32Bytes nBucket).drop 1++A.getKey info.peerInfo) % BUCKET_SIZE

/-- Where a bucket of the new table, or the tried table, may hold the entry. -/
def newCell (info : ExtendedPeerInfo) (key : Bytes32) (bucket : ℕ) : ℕ × ℕ :=
  (bucket,info.getBucketPosition A key true bucket)

def triedCell (info : ExtendedPeerInfo) (key : Bytes32) : ℕ × ℕ :=
  let bucket := info.getTriedBucket A key
  (bucket,info.getBucketPosition A key false bucket)

def isTerrible (info : ExtendedPeerInfo) (now : ℤ) : Bool :=
  if info.lastTry > 0 ∧ info.lastTry ≥ now-60 then false
  else if info.timestamp > now+10*60 then true
  else if info.timestamp=0 ∨ now-info.timestamp > HORIZON_DAYS*24*60*60 then true
  else if info.lastSuccess=0 ∧ info.numAttempts ≥ MAX_RETRIES then true
  else decide (now-info.lastSuccess > MIN_FAIL_DAYS*24*60*60 ∧ info.numAttempts ≥ MAX_FAILURES)

end ExtendedPeerInfo

/-- The tables; in a matrix `none` stands for the `-1` of an empty cell. -/
structure AddressManager where
  idCount : ℕ
  key : Bytes32
  randomPos : List ℕ
  triedMatrix : ℕ × ℕ → Option ℕ
  newMatrix : ℕ × ℕ → Option ℕ
  triedCount : ℤ
  newCount : ℤ
  mapAddr : Dict String ℕ
  mapInfo : Dict ℕ ExtendedPeerInfo
  lastGood : ℤ
  triedCollisions : List ℕ
  usedNewMatrixPositions : Finset (ℕ × ℕ)
  usedTriedMatrixPositions : Finset (ℕ × ℕ)
  allowPrivateSubnets : Bool

abbrev AddressM := Eff AddressManager Fail

namespace AddressManager
variable (A : Placement)

def clear (key : Bytes32) : AddressManager where
  idCount := 0
  key := key
  randomPos := []
  triedMatrix := fun _ => none
  newMatrix := fun _ => none
  triedCount := 0
  newCount := 0
  mapAddr := Dict.empty
  mapInfo := Dict.empty
  lastGood := 1
  triedCollisions := []
  usedNewMatrixPositions := ∅
  usedTriedMatrixPositions := ∅
  allowPrivateSubnets := false

/-- An assignment to fields of an entry, seen through `map_info`. -/
def update (id : ℕ) (f : ExtendedPeerInfo → ExtendedPeerInfo) (s : AddressManager) : AddressManager :=
  { s with mapInfo := s.mapInfo.mapVals fun k info => if k=id then f info else info }

def setNewMatrix (cell : ℕ × ℕ) (value : Option ℕ) (s : AddressManager) : AddressManager :=
  { s with
    newMatrix := Function.update s.newMatrix cell value
    usedNewMatrixPositions := if value.isSome then insert cell s.usedNewMatrixPositions
      else s.usedNewMatrixPositions.erase cell }

def setTriedMatrix (cell : ℕ × ℕ) (value : Option ℕ) (s : AddressManager) : AddressManager :=
  { s with
    triedMatrix := Function.update s.triedMatrix cell value
    usedTriedMatrixPositions := if value.isSome then insert cell s.usedTriedMatrixPositions
      else s.usedTriedMatrixPositions.erase cell }

def create (addr : TimestampedPeerInfo) (addrSrc : Option PeerInfo) (s : AddressManager) : AddressManager :=
  let nodeId := s.idCount+1
  { s with
    idCount := nodeId
    mapInfo := s.mapInfo.set nodeId { ExtendedPeerInfo.new addr addrSrc with randomPos := some s.randomPos.length }
    mapAddr := s.mapAddr.set addr.host nodeId
    randomPos := s.randomPos++[nodeId] }

def find (addr : PeerInfo) (s : AddressManager) : Option (ExtendedPeerInfo × ℕ) := do
  let nodeId ← s.mapAddr.get? addr.host
  let info ← s.mapInfo.get? nodeId
  return (info,nodeId)

def swapRandom (randPos1 randPos2 : ℕ) : AddressM Unit := do
  if randPos1=randPos2 then return ()
  else do
    let s ← Eff.get
    Eff.lift (assertThat (randPos1<s.randomPos.length ∧ randPos2<s.randomPos.length))
    let nodeId1 ← Eff.lift (index s.randomPos[randPos1]?)
    let nodeId2 ← Eff.lift (index s.randomPos[randPos2]?)
    let _ ← Eff.lift (lookup (s.mapInfo.get? nodeId1))
    Eff.modify (update nodeId1 fun info => { info with randomPos := some randPos2 })
    let _ ← Eff.lift (lookup (s.mapInfo.get? nodeId2))
    Eff.modify (update nodeId2 fun info => { info with randomPos := some randPos1 })
    Eff.modify fun s => { s with randomPos := (s.randomPos.set randPos1 nodeId2).set randPos2 nodeId1 }

/-- The last step of the removal of an entry, which is by now the last in `random_pos`. -/
def dropEntry (nodeId : ℕ) (host : String) (s : AddressManager) : AddressManager :=
  { s with
    randomPos := s.randomPos.dropLast
    mapAddr := s.mapAddr.erase host
    mapInfo := s.mapInfo.erase nodeId
    newCount := s.newCount-1 }

def deleteNewEntry (nodeId : ℕ) : AddressM Unit := do
  let s ← Eff.get
  let info ← Eff.lift (lookup (s.mapInfo.get? nodeId))
  match info.randomPos,s.randomPos.length with
  | none,_ => return ()
  | some _,0 => Eff.fail (.raised .assertion)
  | some pos,n+1 => do
    swapRandom pos n
    let _ ← Eff.lift (lookup (s.mapAddr.get? info.peerInfo.host))
    Eff.modify (dropEntry nodeId info.peerInfo.host)

def clearNew (cell : ℕ × ℕ) : AddressM Unit := do
  let s ← Eff.get
  match s.newMatrix cell with
  | none => return ()
  | some deleteId =>
    let deleteInfo ← Eff.lift (lookup (s.mapInfo.get? deleteId))
    Eff.lift (assertThat (deleteInfo.refCount > 0))
    Eff.modify (update deleteId fun info => { info with refCount := info.refCount-1 })
    Eff.modify (setNewMatrix cell none)
    if deleteInfo.refCount-1=0 then deleteNewEntry deleteId else return ()

/-- Takes an entry out of the cell a bucket of the new table may hold it in. -/
def leaveBucket (nodeId : ℕ) (info : ExtendedPeerInfo) (bucket : ℕ) (s : AddressManager) : AddressManager :=
  if s.newMatrix (info.newCell A s.key bucket)=some nodeId then
    (s.setNewMatrix (info.newCell A s.key bucket) none).update nodeId
      fun info => { info with refCount := info.refCount-1 }
  else s

@[irreducible] def leaveNewTable (nodeId : ℕ) (info : ExtendedPeerInfo) (s : AddressManager) : AddressManager :=
  (List.range NEW_BUCKET_COUNT).foldl (fun s bucket => leaveBucket A nodeId info bucket s) s

/-- Sends an entry of the tried table back to the new table. -/
def evict (cell : ℕ × ℕ) (nodeIdEvict : ℕ) : AddressM Unit := do
  let s ← Eff.get
  let oldInfo ← Eff.lift (assertSome (s.mapInfo.get? nodeIdEvict))
  Eff.modify fun s => { (s.update nodeIdEvict fun info => { info with isTried := false }).setTriedMatrix cell none with
    triedCount := s.triedCount-1 }
  let newCell := oldInfo.newCell A s.key (oldInfo.getNewBucket A s.key none)
  clearNew newCell
  Eff.modify fun s => { (s.update nodeIdEvict fun info => { info with refCount := 1 }).setNewMatrix newCell
    (some nodeIdEvict) with newCount := s.newCount+1 }

def enterTried (cell : ℕ × ℕ) (nodeId : ℕ) (s : AddressManager) : AddressManager :=
  { (s.setTriedMatrix cell (some nodeId)).update nodeId fun info => { info with isTried := true } with
    triedCount := s.triedCount+1 }

def makeTried (info : ExtendedPeerInfo) (nodeId : ℕ) : AddressM Unit := do
  Eff.modify (leaveNewTable A nodeId info)
  let s ← Eff.get
  let left ← Eff.lift (lookup (s.mapInfo.get? nodeId))
  Eff.lift (assertThat (left.refCount=0))
  Eff.modify fun s => { s with newCount := s.newCount-1 }
  let cell := info.triedCell A s.key
  match s.triedMatrix cell with
  | none => Eff.modify (enterTried cell nodeId)
  | some nodeIdEvict => do
    evict A cell nodeIdEvict
    Eff.modify (enterTried cell nodeId)

/-- `bucketRand` is the random bucket that the search of the new table starts at. -/
def markGood (addr : PeerInfo) (testBeforeEvict : Bool) (timestamp : ℤ) (bucketRand : ℕ) : AddressM Unit := do
  Eff.modify fun s => { s with lastGood := timestamp }
  let s ← Eff.get
  match s.find addr with
  | none => return ()
  | some (info,nodeId) =>
    if ¬ A.isValid addr s.allowPrivateSubnets ∨ info.peerInfo≠addr then return ()
    else do
      Eff.modify (update nodeId fun info =>
        { info with lastSuccess := timestamp,lastTry := timestamp,numAttempts := 0 })
      if info.isTried then return ()
      else
        match (List.range NEW_BUCKET_COUNT).find? fun n => decide
          (s.newMatrix (info.newCell A s.key ((n+bucketRand) % NEW_BUCKET_COUNT))=some nodeId) with
        | none => return ()
        | some _ =>
          if testBeforeEvict ∧ (s.triedMatrix (info.triedCell A s.key)).isSome then
            if s.triedCollisions.length<TRIED_COLLISION_SIZE ∧ ¬ s.triedCollisions.contains nodeId then
              Eff.modify fun s => { s with triedCollisions := s.triedCollisions++[nodeId] }
            else return ()
          else makeTried A info nodeId

/-- Whether a cell of the new table is free, or its entry is worth less. -/
def mayTake (info : ExtendedPeerInfo) (cell : ℕ × ℕ) (now : ℚ) : AddressM Bool := do
  let s ← Eff.get
  match s.newMatrix cell with
  | none => return true
  | some existing => do
    let infoExisting ← Eff.lift (lookup (s.mapInfo.get? existing))
    return infoExisting.isTerrible ⌊now⌋ || decide (infoExisting.refCount > 1 ∧ info.refCount=0)

/-- Puts an entry into a cell of the new table, or deletes it where it is in none and may not take the cell. -/
def place (nodeId : ℕ) (info : ExtendedPeerInfo) (cell : ℕ × ℕ) (now : ℚ) : AddressM Unit := do
  let s ← Eff.get
  if s.newMatrix cell=some nodeId then return ()
  else do
    let addToNew ← mayTake info cell now
    if addToNew then do
      clearNew cell
      Eff.modify fun s => (s.update nodeId fun info => { info with refCount := info.refCount+1 }).setNewMatrix cell
        (some nodeId)
    else if info.refCount=0 then deleteNewEntry nodeId
    else return ()

def refreshed (addr : TimestampedPeerInfo) (penalty : ℤ) (now : ℚ) (info : ExtendedPeerInfo) : ExtendedPeerInfo :=
  let updateInterval : ℤ := if now-addr.timestamp<24*60*60 then 60*60 else 24*60*60
  if addr.timestamp > 0 ∧ (info.timestamp > 0 ∨ info.timestamp<addr.timestamp-updateInterval-penalty) then
    { info with timestamp := max 0 (addr.timestamp-penalty) }
  else info

/-- `roll` is the stochastic test; the clock is read twice. -/
def addToNewTable (addr : TimestampedPeerInfo) (source : Option PeerInfo) (penalty : ℤ) (now now' : ℚ) (roll : ℕ) :
    AddressM Bool := do
  let s ← Eff.get
  let peerInfo : PeerInfo := ⟨addr.host,addr.port⟩
  if ¬ A.isValid peerInfo s.allowPrivateSubnets then return false
  else
    match s.find peerInfo with
    | some (info,nodeId) => do
      let penalty := if info.peerInfo=peerInfo then 0 else penalty
      Eff.modify (update nodeId (refreshed addr penalty now))
      let info := refreshed addr penalty now info
      if addr.timestamp=0 ∨ (info.timestamp > 0 ∧ addr.timestamp ≤ info.timestamp) then return false
      else if info.isTried then return false
      else if info.refCount=NEW_BUCKETS_PER_ADDRESS then return false
      else if roll % 2^info.refCount.toNat≠0 then return false
      else do
        place nodeId info (info.newCell A s.key (info.getNewBucket A s.key source)) now'
        return false
    | none => do
      Eff.modify (create addr source)
      Eff.modify fun s => { (s.update s.idCount fun info =>
        { info with timestamp := max 0 (info.timestamp-penalty) }) with newCount := s.newCount+1 }
      let s ← Eff.get
      let info ← Eff.lift (lookup (s.mapInfo.get? s.idCount))
      place s.idCount info (info.newCell A s.key (info.getNewBucket A s.key source)) now'
      return true

def attempt (addr : PeerInfo) (countFailures : Bool) (timestamp : ℤ) (s : AddressManager) : AddressManager :=
  match s.find addr with
  | none => s
  | some (info,nodeId) =>
    if info.peerInfo≠addr then s
    else s.update nodeId fun info =>
      let info := { info with lastTry := timestamp }
      if countFailures ∧ info.lastCountAttempt<s.lastGood then
        { info with lastCountAttempt := timestamp,numAttempts := info.numAttempts+1 }
      else info

def connect (addr : PeerInfo) (timestamp : ℤ) (s : AddressManager) : AddressManager :=
  match s.find addr with
  | none => s
  | some (info,nodeId) =>
    if info.peerInfo≠addr then s
    else if timestamp-info.timestamp > 20*60 then s.update nodeId fun info => { info with timestamp }
    else s

/-- What a round of `resolve_tried_collisions_` reads of the clock, in order, and of the generator. -/
structure CollisionRound where
  sinceSuccess : ℚ
  sinceTry : ℚ
  sinceMinute : ℚ
  sinceRecent : ℚ
  now : ℚ
  bucketRand : ℕ

def resolveCollision (nodeId : ℕ) (t : CollisionRound) : AddressM Bool := do
  let s ← Eff.get
  match s.mapInfo.get? nodeId with
  | none => return true
  | some info =>
    match s.triedMatrix (info.triedCell A s.key) with
    | none => do
      markGood A info.peerInfo false ⌊t.now⌋ t.bucketRand
      return true
    | some oldId => do
      let oldInfo ← Eff.lift (lookup (s.mapInfo.get? oldId))
      if t.sinceSuccess-oldInfo.lastSuccess<4*60*60 then return true
      else if t.sinceTry-oldInfo.lastTry<4*60*60 then
        if t.sinceMinute-oldInfo.lastTry > 60 then do
          markGood A info.peerInfo false ⌊t.now⌋ t.bucketRand
          return true
        else return false
      else if t.sinceRecent-info.lastSuccess > 40*60 then do
        markGood A info.peerInfo false ⌊t.now⌋ t.bucketRand
        return true
      else return false

/-- `list.remove` of the collisions. -/
def removeCollision (nodeId : ℕ) : AddressM Unit := do
  let s ← Eff.get
  if s.triedCollisions.contains nodeId then
    Eff.modify fun s => { s with triedCollisions := s.triedCollisions.erase nodeId }
  else Eff.fail (.raised .value)

def resolveTriedCollisions (rounds : ℕ → CollisionRound) : AddressM Unit := do
  let s ← Eff.get
  s.triedCollisions.zipIdx.forM fun p => do
    let resolved ← resolveCollision A p.1 (rounds p.2)
    if resolved then removeCollision p.1 else return ()

/-- A round for each position that is left, from the `n`-th on. -/
def getPeersFrom (clock : ℕ → ℚ) (rand : ℕ → ℕ) (numNodes : ℕ) :
    ℕ → ℕ → List TimestampedPeerInfo → AddressM (List TimestampedPeerInfo)
  | 0,_,addr => return addr
  | k+1,n,addr => do
    if addr.length ≥ numNodes then return addr
    else do
      let s ← Eff.get
      swapRandom n (rand n % (s.randomPos.length-n)+n)
      let s ← Eff.get
      let nodeId ← Eff.lift (index s.randomPos[n]?)
      let info ← Eff.lift (lookup (s.mapInfo.get? nodeId))
      if ¬ A.isValid info.peerInfo s.allowPrivateSubnets ∨ info.isTerrible ⌊clock n⌋ then
        getPeersFrom clock rand numNodes k (n+1) addr
      else do
        let timestamp ← Eff.lift (uint 64 info.timestamp)
        getPeersFrom clock rand numNodes k (n+1)
          (addr++[⟨info.peerInfo.host,info.peerInfo.port,timestamp⟩])

def getPeers (clock : ℕ → ℚ) (rand : ℕ → ℕ) : AddressM (List TimestampedPeerInfo) := do
  let s ← Eff.get
  let numNodes := min 1000 ((23*s.randomPos.length+99) / 100)
  getPeersFrom A clock rand numNodes s.randomPos.length 0 []

def cleanupCell (now maxTimestampDifference maxConsecutiveFailures : ℤ) (cell : ℕ × ℕ) : AddressM Unit := do
  let s ← Eff.get
  match s.newMatrix cell with
  | none => return ()
  | some nodeId => do
    let curInfo ← Eff.lift (lookup (s.mapInfo.get? nodeId))
    if curInfo.timestamp<now-maxTimestampDifference ∧ curInfo.numAttempts ≥ maxConsecutiveFailures then
      clearNew cell
    else return ()

@[irreducible] def cleanup (now : ℚ) (maxTimestampDifference maxConsecutiveFailures : ℤ) : AddressM Unit :=
  (List.range NEW_BUCKET_COUNT ×ˢ List.range BUCKET_SIZE).forM
    (cleanupCell ⌊now⌋ maxTimestampDifference maxConsecutiveFailures)

end AddressManager
end RoseChain
