import RoseChain.Wallet.WalletRuns

namespace RoseChain
open Lib WalletBlockchain

/-- What is awaited in the database transaction of `receive_block`, and in its error handler. -/
inductive TxStep
  | beginTransaction
  | addBlockRecord
  | getHeaderBlockRecord (headerHash : Bytes32)
  | getBlockRecord (headerHash : Bytes32)
  | getAdditionalCoinSpends (headerHash : Bytes32)
  | reorgRollback
  | newTransactionBlockCallback (headerHash : Bytes32)
  | setPeak
  | commitTransaction
  | rollbackTransaction
  | rebuildWalletCache
  | rebuildTxCache
  | rebuildCache
  deriving DecidableEq

/-- Which steps raise, and whether the connection is open when an error is handled. -/
structure Faults where
  raises : TxStep → Option PyErr
  connected : Bool

/-- A height is put back to a header hash, or by a slip to a tuple of what it had. -/
inductive Replaced
  | hash (h : Bytes32)
  | tuple (inner : Replaced)
  deriving DecidableEq

/-- The wallet's chain with the cache of its block store; `tuples` has the heights that map to a tuple. -/
structure WalletWorld where
  wallet : WalletState
  blockCache : LRUCache Bytes32 (Option HeaderBlockRecord)
  heightsChanged : List (ℕ × Option Replaced)
  tuples : Dict ℕ Replaced

abbrev TxM := Eff WalletWorld Fail

namespace WalletWorld

def onWallet {α : Type} (f : WalletM α) : TxM α := fun w =>
  let (r,wallet) := f w.wallet
  (r,{ w with wallet })

def step (F : Faults) (x : TxStep) : TxM Unit :=
  match F.raises x with
  | some e => Eff.fail (.raised e)
  | none => return ()

def modifyCache
    (f : LRUCache Bytes32 (Option HeaderBlockRecord) → LRUCache Bytes32 (Option HeaderBlockRecord)) :
    TxM Unit := Eff.modify fun w => { w with blockCache := f w.blockCache }

/-- What `__height_to_hash` has at a height. -/
def heightEntry (w : WalletWorld) (height : ℕ) : Option Replaced :=
  match w.wallet.chain.heightToHash.get? height with
  | some h => some (.hash h)
  | none => (w.tuples.get? height).map .tuple

def putEntry (height : ℕ) (entry : Option Replaced) (w : WalletWorld) : WalletWorld :=
  let heights := w.wallet.chain.heightToHash
  { w with
    wallet := { w.wallet with chain := { w.wallet.chain with
      heightToHash := match entry with
        | some (.hash h) => heights.set height h
        | _ => heights.erase height } }
    tuples := match entry with
      | some (.tuple inner) => w.tuples.set height inner
      | _ => w.tuples.erase height }

variable (E : Env) (F : Faults)

/-- A cached row is forgotten before the row is written. -/
def addBlockRecord (block : HeaderBlockRecord) (record : BlockRecord) (spends : List CoinSpend) : TxM Unit := do
  let hash := block.header.headerHash E
  let w ← Eff.get
  let (cached,cache) := w.blockCache.get hash
  modifyCache fun _ => if (cached.bind id).isSome then cache.put hash none else cache
  step F .addBlockRecord
  onWallet (Eff.modify fun s => { s with db := WalletBlockStore.addBlockRecord E block record spends s.db })

def readHeaderBlockRecord (hash : Bytes32) : TxM (Option HeaderBlockRecord) := do
  step F (.getHeaderBlockRecord hash)
  let w ← Eff.get
  match w.wallet.db.headerBlocks.get? hash with
  | none => return none
  | some block =>
    modifyCache fun c => c.put (block.header.headerHash E) (some block)
    return some block

def getHeaderBlockRecord (hash : Bytes32) : TxM (Option HeaderBlockRecord) := do
  let w ← Eff.get
  let (cached,cache) := w.blockCache.get hash
  modifyCache fun _ => cache
  match cached.bind id with
  | some block => return some block
  | none => readHeaderBlockRecord E F hash

def readSpends (newHash hash : Bytes32) (spends : List CoinSpend) : TxM (List CoinSpend) :=
  if hash=newHash then return spends
  else do
    step F (.getAdditionalCoinSpends hash)
    let w ← Eff.get
    return (w.wallet.db.additionalCoinSpends.get? hash).getD []

/-- One round of the loop that collects the blocks to add. -/
def readRow (newHash : Bytes32) (spends : List CoinSpend) (curr : Bytes32) :
    TxM (HeaderBlockRecord × BlockRecord × List CoinSpend) := do
  let fetchedHeader ← getHeaderBlockRecord E F curr
  step F (.getBlockRecord curr)
  let w ← Eff.get
  let fetchedRecord := w.wallet.db.blockRecords.get? curr
  let spends' ← readSpends F newHash curr spends
  let block ← Eff.lift (assertSome fetchedHeader)
  let record ← Eff.lift (assertSome fetchedRecord)
  return (block,record,spends')

/-- From the new block back to the fork, the newest first. -/
def blocksToAdd (forkH : ℤ) (newHash : Bytes32) (spends : List CoinSpend) :
    ℕ → Bytes32 → TxM (List (HeaderBlockRecord × BlockRecord × List CoinSpend))
  | 0,_ => Eff.fail (.raised .diverged)
  | n+1,curr => do
    let w ← Eff.get
    if (← Eff.lift (Blockchain.atFork w.wallet.chain.view forkH curr)) then return []
    else do
      let row ← readRow E F newHash spends curr
      if row.1.header.height=0 then return [row]
      else return row::(← blocksToAdd forkH newHash spends n row.2.1.prevHash)

/-- A height is moved to another hash, and what it had is noted. -/
def moveHeight (height : ℕ) (headerHash : Bytes32) (replaced : Replaced → Replaced) : TxM Unit :=
  Eff.modify fun w =>
    { w.putEntry height (some (.hash headerHash)) with
      heightsChanged := w.heightsChanged++[(height,(w.heightEntry height).map replaced)] }

def applyBlock (b : HeaderBlockRecord × BlockRecord × List CoinSpend) : TxM Unit := do
  let record := b.2.1
  moveHeight record.height record.headerHash id
  if record.isTransactionBlock then do
    step F (.newTransactionBlockCallback record.headerHash)
    onWallet (emit (.newTransactionBlock b.1.removals b.1.additions record b.2.2))
  else return ()

/-- The first block of the chain; what its height had is noted in a tuple. -/
def genesisPeak (record : BlockRecord) : TxM (Option ℕ × List BlockRecord) := do
  let block ← getHeaderBlockRecord E F record.headerHash
  let block ← Eff.lift (assertSome block)
  moveHeight 0 (block.header.headerHash E) .tuple
  Eff.lift (assertThat (block.additions.length=0 ∧ block.removals.length=0))
  step F (.newTransactionBlockCallback record.headerHash)
  onWallet (emit (.newTransactionBlock block.removals block.additions record []))
  onWallet (onChain (Eff.modify fun c => { c with peakHeight := some 0 }))
  return (some 0,[record])

def rollbackToFork (record peak : BlockRecord) (forkH : ℤ) : TxM Unit :=
  if record.prevHash≠peak.headerHash then do
    step F .reorgRollback
    onWallet (emit (.reorgRollback forkH))
  else return ()

def rollbackSummaries (forkH : ℤ) (d : Dict ℕ SubEpochSummary) : Dict ℕ SubEpochSummary :=
  d.filter fun height _ => decide ((height : ℤ)≤forkH)

def heavierPeak (record peak : BlockRecord) (forkH : ℤ) (spends : List CoinSpend) :
    TxM (Option ℕ × List BlockRecord) := do
  rollbackToFork F record peak forkH
  onWallet (onChain (Eff.modify fun c => { c with subEpochSummaries := rollbackSummaries forkH c.subEpochSummaries }))
  let blocks ← blocksToAdd E F forkH record.headerHash spends (record.height+2) record.headerHash
  blocks.reverse.forM (applyBlock F)
  step F .setPeak
  onWallet (Eff.modify fun s => { s with db := { s.db with peak := some record.headerHash } })
  onWallet (onChain (Eff.modify fun c => { c with peakHeight := some record.height }))
  return (if forkH<0 then none else some forkH.toNat,blocks.reverse.map (·.2.1))

def reconsiderPeak (record : BlockRecord) (genesis : Bool) (forkPointWithPeak : Option ℕ)
    (spends : List CoinSpend) : TxM (Option ℕ × List BlockRecord) := do
  let w ← Eff.get
  let peak ← Eff.lift (Blockchain.getPeak w.wallet.chain)
  if genesis then
    match peak with
    | none => genesisPeak E F record
    | some _ => return (none,[])
  else do
    let peak ← Eff.lift (assertSome peak)
    if record.weight > peak.weight then do
      let forkH ← Eff.lift (WalletBlockchain.forkHeight w.wallet.chain.view record peak forkPointWithPeak)
      heavierPeak E F record peak forkH spends
    else return (none,[])

def addSummaries (records : List BlockRecord) (d : Dict ℕ SubEpochSummary) : Dict ℕ SubEpochSummary :=
  records.foldl (fun d r => match r.subEpochSummaryIncluded with
    | some ses => d.set r.height ses
    | none => d) d

/-- The block is stored and put into memory. -/
def storeRecord (block : HeaderBlockRecord) (record : BlockRecord) (spends : List CoinSpend) : TxM Unit := do
  step F .beginTransaction
  addBlockRecord E F block record spends
  onWallet (onChain (Eff.modify (Blockchain.addBlockRecord record)))
  onWallet (onChain (cleanBlockRecord (record.height-E.blocksCacheSize)))

/-- The `try` block. -/
def transaction (block : HeaderBlockRecord) (record : BlockRecord) (forkPointWithPeak : Option ℕ)
    (spends : List CoinSpend) : TxM (Option ℕ) := do
  storeRecord E F block record spends
  let (forkHeight,recordsToAdd) ←
    reconsiderPeak E F record (decide (block.header.height=0)) forkPointWithPeak spends
  onWallet (onChain (Eff.modify fun c =>
    { c with subEpochSummaries := addSummaries recordsToAdd c.subEpochSummaries }))
  step F .commitTransaction
  return forkHeight

def restoreHeight (change : ℕ × Option Replaced) : TxM Unit := do
  let w ← Eff.get
  if change.2.isNone ∧ (w.heightEntry change.1).isNone then Eff.fail (.raised .key)
  else Eff.modify (putEntry change.1 change.2)

/-- The handler, where the connection is open; `db` is what the transaction began with. -/
def recover (db : WalletTables) (hash : Bytes32) : TxM Unit := do
  step F .rollbackTransaction
  onWallet (Eff.modify fun s => { s with db })
  onWallet (onChain (removeBlockRecord hash))
  let w ← Eff.get
  let cache ← Eff.lift (w.blockCache.remove hash)
  modifyCache fun _ => cache
  step F .rebuildWalletCache
  step F .rebuildTxCache
  step F .rebuildCache
  let w ← Eff.get
  w.heightsChanged.forM restoreHeight

/-- The exceptions of a call: before the transaction, in it and raised again, or in its handler. -/
inductive Raised
  | before (e : Fail)
  | again (e : Fail)
  | handler (e : Fail)
  deriving DecidableEq

/-- `try` and `except BaseException` around the transaction. -/
def guarded (block : HeaderBlockRecord) (record : BlockRecord) (forkPointWithPeak : Option ℕ)
    (spends : List CoinSpend) (w : WalletWorld) : Except Raised (Option ℕ) × WalletWorld :=
  match transaction E F block record forkPointWithPeak spends { w with heightsChanged := [] } with
  | (.ok a,w') => (.ok a,w')
  | (.error e,w') =>
    if F.connected then
      match recover F w.wallet.db record.headerHash w' with
      | (.ok _,w'') => (.error (.again e),w'')
      | (.error e',w'') => (.error (.handler e'),w'')
    else (.error (.again e),w')

/-- What comes before the transaction: the record to store, or the answer without one. -/
def opening (V : BlockView) (block : HeaderBlock) (pre : Option PreValidationResult) (trusted : Bool) :
    Check (WalletAnswer ⊕ BlockRecord) :=
  if V.containsBlock (block.headerHash E) then .ok (.inl (.alreadyHaveBlock,none,none))
  else if ¬ V.containsBlock block.prevHeaderHash ∧ block.height≠0 then
    .ok (.inl (.disconnectedBlock,some .invalidPrevBlockHash,none))
  else
    match validateHeader E V block pre trusted with
    | .error (.invalid e) => .ok (.inl (.invalidBlock,some e,none))
    | .error (.raised e) => .error (.raised e)
    | .ok requiredIters => do return .inr (← blockToBlockRecord E V requiredIters block.block)

def receiveBlock (block : HeaderBlockRecord) (pre : Option PreValidationResult) (trusted : Bool)
    (forkPointWithPeak : Option ℕ) (spends : List CoinSpend) (w : WalletWorld) :
    Except Raised WalletAnswer × WalletWorld :=
  match opening E w.wallet.chain.view block.header pre trusted with
  | .error e => (.error (.before e),w)
  | .ok (.inl answer) => (.ok answer,w)
  | .ok (.inr record) =>
    match guarded E F block record forkPointWithPeak spends w with
    | (.ok (some forkHeight),w') => (.ok (.newPeak,none,some forkHeight),w')
    | (.ok none,w') => (.ok (.addedAsOrphan,none,none),w')
    | (.error e,w') => (.error e,w')

/-- A call with its arguments, where some of its steps raise. -/
def call (c : ReceiveCall) : WalletWorld → Except Raised WalletAnswer × WalletWorld :=
  receiveBlock E F c.block c.pre c.trusted c.forkPointWithPeak c.additionalCoinSpends

/-- The chain in memory and the cache of the block store are as before. -/
structure Restored (w w' : WalletWorld) : Prop where
  blockRecords : ∀ k,w'.wallet.chain.blockRecords.get? k=w.wallet.chain.blockRecords.get? k
  heightToHash : ∀ h,w'.heightEntry h=w.heightEntry h
  subEpochSummaries : ∀ h,w'.wallet.chain.subEpochSummaries.get? h =
    w.wallet.chain.subEpochSummaries.get? h
  peakHeight : w'.wallet.chain.peakHeight=w.wallet.chain.peakHeight
  blockCache : ∀ k,w'.blockCache.cache.get? k=w.blockCache.cache.get? k

/-- What the transaction raises is raised again, and everything is as before the call. -/
def Atomic (w : WalletWorld) (c : ReceiveCall) : Prop :=
  ∀ r w',call E F c w=(.error r,w') → (∃ e,r = .before e) ∨ ((∃ e,r = .again e) ∧ Restored w w')

def cached (w : WalletWorld) (hash : Bytes32) : Bool := ((w.blockCache.cache.get? hash).bind id).isSome

/-- What is awaited for a block further down the chain does not raise. -/
def RowQuiet (w : WalletWorld) (hash : Bytes32) : Prop :=
  (w.cached hash ∨ F.raises (.getHeaderBlockRecord hash)=none) ∧
    F.raises (.getBlockRecord hash)=none ∧ F.raises (.getAdditionalCoinSpends hash)=none

/-- Up to the first row that raises, no header is read that is not cached. -/
def ReadsCached (w : WalletWorld) : List BlockRecord → Prop
  | [] => True
  | r::l => (w.cached r.headerHash ∨ (F.raises (.getHeaderBlockRecord r.headerHash)).isSome) ∧
      (RowQuiet F w r.headerHash → ReadsCached w l)

def CallbackQuiet (r : BlockRecord) : Prop :=
  r.isTransactionBlock → F.raises (.newTransactionBlockCallback r.headerHash)=none

/-- The stored blocks from a hash down to above the fork. -/
def branch (w : WalletWorld) (forkH : ℤ) : ℕ → Bytes32 → List BlockRecord
  | 0,_ => []
  | n+1,hash =>
    if 0≤forkH ∧ w.wallet.chain.heightToHash.get? forkH.toNat=some hash then []
    else match w.wallet.db.blockRecords.get? hash with
      | none => []
      | some r => if r.height=0 then [r] else r::branch w forkH n r.prevHash

/-- The heights that cleaning comes to from a height down have no record in memory. -/
def NothingToClean (c : Chain) (height : ℕ) : Prop :=
  ∀ g≤height,(∀ k,g<k → k≤height → (c.heightsInCache.get? k).isSome) →
    (c.heightsInCache.get? g).getD []=[]

/-- After its row is read back, something is awaited that raises before the peak is moved. -/
def FaultBeforePeak (w : WalletWorld) (record : BlockRecord) (added : List BlockRecord) : Prop :=
  (F.raises (.getBlockRecord record.headerHash)).isSome ∨ (∃ r∈added,¬ RowQuiet F w r.headerHash) ∨
    (∃ r∈record::added,¬ CallbackQuiet F r) ∨ (F.raises .setPeak).isSome

/-- A first block is refused, or its callback raises, before there is a peak. -/
structure GenesisRestored (w : WalletWorld) (block : HeaderBlockRecord) (record : BlockRecord) : Prop where
  noPeak : w.wallet.chain.peakHeight=none
  noEntry : w.heightEntry 0=none
  fault : ¬ (block.additions.length=0 ∧ block.removals.length=0) ∨
    (F.raises (.newTransactionBlockCallback record.headerHash)).isSome

/-- A heavier block, with the blocks below it down to the fork: nothing changes that is not put back. -/
structure HeavierRestored (w : WalletWorld) (record : BlockRecord) (forkPointWithPeak : Option ℕ)
    (peak : BlockRecord) (forkH : ℤ) (added : List BlockRecord) : Prop where
  getPeak : Blockchain.getPeak (Blockchain.addBlockRecord record w.wallet.chain) = .ok (some peak)
  heavier : record.weight > peak.weight
  fork : WalletBlockchain.forkHeight (Blockchain.addBlockRecord record w.wallet.chain).view record peak forkPointWithPeak = .ok forkH
  rollback : record.prevHash≠peak.headerHash → F.raises .reorgRollback=none
  offFork : Blockchain.atFork w.wallet.chain.view forkH record.headerHash = .ok false
  isBranch : added=w.branch forkH record.height record.prevHash
  reads : F.raises (.getBlockRecord record.headerHash)=none → ReadsCached F w added
  before : FaultBeforePeak F w record added → ∀ h∈w.wallet.chain.subEpochSummaries.keys,(h : ℤ)≤forkH
  after : ¬ FaultBeforePeak F w record added → w.wallet.chain.peakHeight=some record.height ∧
    ∀ h,(addSummaries (record::added).reverse (rollbackSummaries forkH w.wallet.chain.subEpochSummaries)).get? h =
      w.wallet.chain.subEpochSummaries.get? h

/-- The row of a new block is read back, and takes the place of none. -/
structure RowRestored (w : WalletWorld) (hash : Bytes32) : Prop where
  uncached : w.blockCache.cache.get? hash=none
  room : w.blockCache.cache.size<w.blockCache.capacity
  read : F.raises (.getHeaderBlockRecord hash)=none

/-- The block is stored, nothing goes that the handler has no note of, and the handler raises nothing. -/
structure StoredRestored (w : WalletWorld) (c : ReceiveCall) (record : BlockRecord) : Prop where
  begun : F.raises .beginTransaction=none
  stored : F.raises .addBlockRecord=none
  connected : F.connected=true
  handler : ∀ x∈[TxStep.rollbackTransaction,.rebuildWalletCache,.rebuildTxCache,.rebuildCache],F.raises x=none
  clean : (E.blocksCacheSize : ℤ) ≤ record.height → NothingToClean (Blockchain.addBlockRecord record w.wallet.chain)
    (record.height-E.blocksCacheSize : ℤ).toNat
  row : RowRestored F w record.headerHash
  newPeak : (c.block.header.height=0 ∧ GenesisRestored F w c.block record) ∨
    c.block.header.height≠0 ∧ ∃ peak forkH added,
      HeavierRestored F w record c.forkPointWithPeak peak forkH added

/-- What raises does so before anything changes, with the connection closed, or where everything is put back. -/
def Recoverable (w : WalletWorld) (c : ReceiveCall) : Prop :=
  ∀ record,opening E w.wallet.chain.view c.block.header c.pre c.trusted = .ok (.inr record) →
    (F.connected=false ∧ ((F.raises .beginTransaction).isSome ∨
      (F.raises .addBlockRecord).isSome ∧ w.cached record.headerHash=false)) ∨
    StoredRestored E F w c record

def startWorld : WalletWorld := ⟨WalletBlockchain.start,.new 1000,[],Dict.empty⟩

/-- The states after reads of headers, and calls that return or raise what they can recover from. -/
inductive WorldRun : WalletWorld → Prop
  | start : WorldRun startWorld
  | read {w : WalletWorld} (h : WorldRun w) (F : Faults) (hash : Bytes32) :
    WorldRun (getHeaderBlockRecord E F hash w).2
  | call {w : WalletWorld} (h : WorldRun w) (F : Faults) {c : ReceiveCall} (hc : WalletCall E w.wallet c)
    (hrecover : ∀ r w',call E F c w=(.error r,w') → Recoverable E F w c) : WorldRun (call E F c w).2

variable {E F}

variable {x : TxStep}

theorem step_quiet (h : F.raises x=none) (w : WalletWorld) : step F x w=(.ok (),w) := by
  unfold step
  rw [h]
  rfl

theorem step_loud {e : PyErr} (h : F.raises x=some e) (w : WalletWorld) :
    step F x w=(.error (.raised e),w) := by
  unfold step
  rw [h]
  rfl

section Heights
variable {w₀ w : WalletWorld}

theorem heightEntry_putEntry (w : WalletWorld) (height : ℕ) (entry : Option Replaced) (h : ℕ) :
    (w.putEntry height entry).heightEntry h=if height=h then entry else w.heightEntry h := by
  unfold heightEntry putEntry
  rcases entry with _ | ⟨_ | _⟩
  · simp only [Dict.get?_erase]
    split_ifs <;> rfl
  · simp only [Dict.get?_set,Dict.get?_erase]
    split_ifs <;> rfl
  · simp only [Dict.get?_set,Dict.get?_erase]
    split_ifs <;> rfl

/-- All but the index of the heights, its notes and the events is the same. -/
structure Moved (w w' : WalletWorld) : Prop where
  db : w'.wallet.db=w.wallet.db
  chain : w'.wallet.chain = { w.wallet.chain with heightToHash := w'.wallet.chain.heightToHash }
  blockCache : w'.blockCache=w.blockCache

theorem Moved.refl (w : WalletWorld) : Moved w w := ⟨rfl,rfl,rfl⟩

theorem Moved.trans {a b c : WalletWorld} (h : Moved a b) (h' : Moved b c) : Moved a c := by
  refine ⟨h'.db.trans h.db,?_,h'.blockCache.trans h.blockCache⟩
  rw [h'.chain,h.chain]

/-- The notes of the heights are what they had, each once. -/
structure Noted (w₀ w : WalletWorld) (changed : List (ℕ × Option Replaced)) : Prop where
  nodup : (changed.map Prod.fst).Nodup
  old : ∀ c∈changed,c.2=w₀.heightEntry c.1 ∧ (w.heightEntry c.1).isSome
  rest : ∀ h,h∉changed.map Prod.fst → w.heightEntry h=w₀.heightEntry h

variable {changed : List (ℕ × Option Replaced)}

theorem Noted.congr (hn : Noted w₀ w changed) {w' : WalletWorld}
    (h : w'.heightEntry=w.heightEntry) : Noted w₀ w' changed := by
  refine ⟨hn.nodup,?_,?_⟩
  · rw [h]
    exact hn.old
  · rw [h]
    exact hn.rest

theorem Noted.move (hn : Noted w₀ w w.heightsChanged) {height : ℕ}
    (hnew : height∉w.heightsChanged.map Prod.fst) (hash : Bytes32) (replaced : Replaced → Replaced)
    (hsame : (w.heightEntry height).map replaced=w.heightEntry height) :
    ∃ w',moveHeight height hash replaced w=(.ok (),w') ∧ Moved w w' ∧ Noted w₀ w' w'.heightsChanged ∧
      w'.heightsChanged.map Prod.fst=w.heightsChanged.map Prod.fst++[height] := by
  refine ⟨_,rfl,⟨rfl,rfl,rfl⟩,?_,List.map_append ..⟩
  have hentry (h : ℕ) : (w.putEntry height (some (.hash hash))).heightEntry h =
      if height=h then some (.hash hash) else w.heightEntry h := heightEntry_putEntry ..
  refine ⟨?_,fun c hc => ?_,fun h hh => ?_⟩
  · show ((w.heightsChanged++[_]).map Prod.fst).Nodup
    rw [List.map_append]
    refine List.nodup_append.mpr ⟨hn.nodup,List.nodup_singleton _,fun a ha b hb heq => ?_⟩
    rw [heq,List.mem_singleton.mp hb] at ha
    exact hnew ha
  · show _ ∧ ((w.putEntry height (some (.hash hash))).heightEntry c.1).isSome
    rw [hentry]
    rcases List.mem_append.mp hc with hold | hlast
    · refine ⟨(hn.old c hold).1,?_⟩
      split_ifs
      · rfl
      · exact (hn.old c hold).2
    · rw [List.mem_singleton.mp hlast]
      exact ⟨hsame.trans (hn.rest height hnew),by rw [if_pos rfl]; rfl⟩
  · show (w.putEntry height (some (.hash hash))).heightEntry h=_
    have hh' : h∉w.heightsChanged.map Prod.fst++[height] := by
      rwa [← List.map_singleton (f := Prod.fst) (a := (height,_)),← List.map_append]
    rw [List.mem_append,not_or,List.mem_singleton] at hh'
    rw [hentry,if_neg (Ne.symm hh'.2)]
    exact hn.rest h hh'.1

/-- The handler puts every height back. -/
theorem Noted.restore (hn : Noted w₀ w changed) :
    ∃ w',changed.forM restoreHeight w=(.ok (),w') ∧ Moved w w' ∧ ∀ h,w'.heightEntry h=w₀.heightEntry h := by
  induction changed generalizing w with
  | nil => exact ⟨w,rfl,.refl w,fun h => hn.rest h List.not_mem_nil⟩
  | cons c l ih =>
    obtain ⟨hc,hsome⟩ := hn.old c List.mem_cons_self
    have hnodup := hn.nodup
    rw [List.map_cons,List.nodup_cons] at hnodup
    have hstep : restoreHeight c w=(.ok (),w.putEntry c.1 c.2) := by
      unfold restoreHeight
      rw [Eff.bind_get,if_neg]
      · rfl
      · rintro ⟨-,hnone⟩
        rw [Option.isNone_iff_eq_none.mp hnone] at hsome
        cases hsome
    have hput : Moved w (w.putEntry c.1 c.2) := ⟨rfl,rfl,rfl⟩
    have hrest : Noted w₀ (w.putEntry c.1 c.2) l := by
      refine ⟨hnodup.2,fun c' hc' => ?_,fun h hh => ?_⟩
      · have hne : c.1≠c'.1 := fun heq => hnodup.1 (heq ▸ List.mem_map_of_mem hc')
        rw [heightEntry_putEntry,if_neg hne]
        exact hn.old c' (List.mem_cons_of_mem _ hc')
      · rw [heightEntry_putEntry]
        split_ifs with heq
        · rw [← heq]
          exact hc
        · refine hn.rest h ?_
          rw [List.map_cons,List.mem_cons,not_or]
          exact ⟨Ne.symm heq,hh⟩
    obtain ⟨w',hrun,hmoved,hback⟩ := ih hrest
    refine ⟨w',?_,hput.trans hmoved,hback⟩
    rw [Eff.forM_cons_of_ok hstep]
    exact hrun

theorem applyBlock_run (hn : Noted w₀ w w.heightsChanged) (b : HeaderBlockRecord × BlockRecord × List CoinSpend)
    (hnew : b.2.1.height∉w.heightsChanged.map Prod.fst) : ∃ w',Moved w w' ∧ Noted w₀ w' w'.heightsChanged ∧
      w'.heightsChanged.map Prod.fst=w.heightsChanged.map Prod.fst++[b.2.1.height] ∧
      (applyBlock F b w=(.ok (),w') ∧ CallbackQuiet F b.2.1 ∨
        ∃ e,applyBlock F b w=(.error e,w') ∧ ¬ CallbackQuiet F b.2.1) := by
  obtain ⟨w₁,hrun,hmoved,hnoted,hheights⟩ := hn.move hnew b.2.1.headerHash id (congrFun Option.map_id _)
  unfold applyBlock
  rw [Eff.bind_of_ok hrun]
  by_cases htx : b.2.1.isTransactionBlock
  · rw [if_pos htx]
    cases hraise : F.raises (.newTransactionBlockCallback b.2.1.headerHash) with
    | none =>
      rw [Eff.bind_of_ok (step_quiet hraise w₁)]
      exact ⟨{ w₁ with wallet := (emit (.newTransactionBlock b.1.removals b.1.additions b.2.1 b.2.2) w₁.wallet).2 },
        hmoved.trans ⟨rfl,rfl,rfl⟩,hnoted.congr rfl,hheights,Or.inl ⟨rfl,fun _ => hraise⟩⟩
    | some e =>
      refine ⟨w₁,hmoved,hnoted,hheights,Or.inr ⟨_,Eff.bind_of_error (step_loud hraise w₁) _,fun hquiet => ?_⟩⟩
      rw [hquiet htx] at hraise
      cases hraise
  · rw [if_neg htx]
    exact ⟨w₁,hmoved,hnoted,hheights,Or.inl ⟨rfl,fun h => absurd h htx⟩⟩

theorem applyBlocks_run (hn : Noted w₀ w w.heightsChanged) (l : List (HeaderBlockRecord × BlockRecord × List CoinSpend))
    (hd : (w.heightsChanged.map Prod.fst++l.map (·.2.1.height)).Nodup) :
    ∃ w',Moved w w' ∧ Noted w₀ w' w'.heightsChanged ∧
      (l.forM (applyBlock F) w=(.ok (),w') ∧ (∀ b∈l,CallbackQuiet F b.2.1) ∨
        ∃ e,l.forM (applyBlock F) w=(.error e,w') ∧ ∃ b∈l,¬ CallbackQuiet F b.2.1) := by
  induction l generalizing w with
  | nil => exact ⟨w,.refl w,hn,Or.inl ⟨rfl,fun b hb => absurd hb List.not_mem_nil⟩⟩
  | cons b l ih =>
    have hnew : b.2.1.height∉w.heightsChanged.map Prod.fst := by
      intro hin
      exact (List.nodup_append.mp hd).2.2 _ hin _ (List.mem_cons_self ..) rfl
    obtain ⟨w₁,hmoved,hnoted,hheights,⟨hrun,hquiet⟩ | ⟨e,hrun,hloud⟩⟩ := applyBlock_run (F := F) hn b hnew
    · rw [Eff.forM_cons_of_ok hrun]
      have hd' : (w₁.heightsChanged.map Prod.fst++l.map (·.2.1.height)).Nodup := by
        rw [hheights,List.append_assoc]
        exact hd
      obtain ⟨w',hmoved',hnoted',⟨hrun',hquiet'⟩ | ⟨e,hrun',b',hb',hloud⟩⟩ := ih hnoted hd'
      · exact ⟨w',hmoved.trans hmoved',hnoted',Or.inl ⟨hrun',List.forall_mem_cons.mpr ⟨hquiet,hquiet'⟩⟩⟩
      · exact ⟨w',hmoved.trans hmoved',hnoted',Or.inr ⟨e,hrun',b',List.mem_cons_of_mem _ hb',hloud⟩⟩
    · rw [Eff.forM_cons_of_error hrun]
      exact ⟨w₁,hmoved,hnoted,Or.inr ⟨e,rfl,b,List.mem_cons_self,hloud⟩⟩

end Heights

section Handler
variable {w₀ w : WalletWorld} {record : BlockRecord}

/-- But for the peak and the summaries, what has changed is what the handler takes back. -/
structure Undoable (w₀ : WalletWorld) (record : BlockRecord) (w : WalletWorld) : Prop where
  blockRecords : w.wallet.chain.blockRecords=w₀.wallet.chain.blockRecords.set record.headerHash record
  inMemory : ∃ l,w.wallet.chain.heightsInCache.get? record.height=some l ∧ l.contains record.headerHash=true
  row : (w.blockCache.cache.get? record.headerHash).isSome
  rows : ∀ k,record.headerHash≠k → w.blockCache.cache.get? k=w₀.blockCache.cache.get? k
  noted : Noted w₀ w w.heightsChanged

theorem Undoable.moved (h : Undoable w₀ record w) {w' : WalletWorld} (hm : Moved w w')
    (hn : Noted w₀ w' w'.heightsChanged) : Undoable w₀ record w' := by
  refine ⟨?_,?_,?_,?_,hn⟩
  · rw [hm.chain]
    exact h.blockRecords
  · rw [hm.chain]
    exact h.inMemory
  · rw [hm.blockCache]
    exact h.row
  · rw [hm.blockCache]
    exact h.rows

/-- The chain and the rows are as before, and so is the database. -/
structure PutBack (w w' : WalletWorld) : Prop where
  restored : Restored w w'
  db : w'.wallet.db=w.wallet.db

theorem Undoable.recover (h : Undoable w₀ record w) (hnew : w₀.wallet.chain.blockRecords.get? record.headerHash=none)
    (huncached : w₀.blockCache.cache.get? record.headerHash=none)
    (hpeak : w.wallet.chain.peakHeight=w₀.wallet.chain.peakHeight)
    (hses : ∀ h,w.wallet.chain.subEpochSummaries.get? h=w₀.wallet.chain.subEpochSummaries.get? h)
    (hquiet : ∀ x∈[TxStep.rollbackTransaction,.rebuildWalletCache,.rebuildTxCache,.rebuildCache],
      F.raises x=none) :
    ∃ w',WalletWorld.recover F w₀.wallet.db record.headerHash w=(.ok (),w') ∧ PutBack w₀ w' := by
  obtain ⟨l,hl,hcontains⟩ := h.inMemory
  set w₁ : WalletWorld := { w with wallet := { w.wallet with db := w₀.wallet.db } }
  set c : Chain := { w.wallet.chain with
    blockRecords := w.wallet.chain.blockRecords.erase record.headerHash
    heightsInCache := w.wallet.chain.heightsInCache.set record.height (l.erase record.headerHash) }
  set w₂ : WalletWorld := { w₁ with wallet := { w₁.wallet with chain := c } }
  set w₃ : WalletWorld := { w₂ with blockCache := w.blockCache.erase record.headerHash }
  have hdb : onWallet (Eff.modify fun s => { s with db := w₀.wallet.db }) w=(.ok (),w₁) := rfl
  have hremove : removeBlockRecord record.headerHash w.wallet.chain=(.ok (),c) := by
    unfold removeBlockRecord
    rw [Eff.bind_get,h.blockRecords,Dict.get?_set_self]
    simp only [lookup,Eff.bind_apply,Eff.lift_apply,Eff.modify_apply,hl,assertThat,hcontains,if_true]
    rfl
  have hchain : onWallet (onChain (removeBlockRecord record.headerHash)) w₁=(.ok (),w₂) := by
    unfold onWallet onChain
    dsimp only
    rw [hremove]
  obtain ⟨v,hv⟩ := Option.isSome_iff_exists.mp h.row
  have hcache : modifyCache (fun _ => w.blockCache.erase record.headerHash) w₂=(.ok (),w₃) := rfl
  have hnoted : Noted w₀ w₃ w₃.heightsChanged := h.noted.congr rfl
  obtain ⟨w',hrun,hmoved,hheights⟩ := hnoted.restore
  refine ⟨w',?_,⟨fun k => ?_,hheights,fun height => ?_,?_,fun k => ?_⟩,hmoved.db⟩
  · unfold WalletWorld.recover
    rw [Eff.bind_of_ok (step_quiet (hquiet _ (by simp)) w),Eff.bind_of_ok hdb,Eff.bind_of_ok hchain,Eff.bind_get,
      Eff.bind_lift (LRUCache.remove_of_mem w.blockCache hv),Eff.bind_of_ok hcache,
      Eff.bind_of_ok (step_quiet (hquiet _ (by simp)) w₃),Eff.bind_of_ok (step_quiet (hquiet _ (by simp)) w₃),
      Eff.bind_of_ok (step_quiet (hquiet _ (by simp)) w₃),Eff.bind_get]
    exact hrun
  · rw [hmoved.chain]
    show (w.wallet.chain.blockRecords.erase record.headerHash).get? k=_
    rw [h.blockRecords,Dict.get?_erase,Dict.get?_set]
    split_ifs with hk
    · rw [← hk,hnew]
    · rfl
  · rw [hmoved.chain]
    exact hses height
  · rw [hmoved.chain]
    exact hpeak
  · rw [hmoved.blockCache]
    show (w.blockCache.erase record.headerHash).cache.get? k=_
    rw [LRUCache.get?_erase]
    split_ifs with hk
    · rw [← hk,huncached]
    · exact h.rows k hk

end Handler

section Reading
variable {w₀ w : WalletWorld} {record : BlockRecord} {block : HeaderBlockRecord} {hash : Bytes32}

/-- The stored blocks are a chain under their own hashes, and the cached rows are stored ones. -/
structure WorldKept (E : Env) (w : WalletWorld) : Prop where
  wallet : WalletKept w.wallet
  keyed : ∀ k b,w.wallet.db.headerBlocks.get? k=some b → b.header.headerHash E=k
  cached : ∀ k b,w.blockCache.cache.get? k=some (some b) → w.wallet.db.headerBlocks.get? k=some b

/-- A look into the cache only moves what it finds. -/
def looked (w : WalletWorld) (hash : Bytes32) : WalletWorld := { w with blockCache := (w.blockCache.get hash).2 }

theorem getHeaderBlockRecord_cached (h : w.blockCache.cache.get? hash=some (some block)) :
    getHeaderBlockRecord E F hash w=(.ok (some block),w.looked hash) := by
  have hfst : (w.blockCache.get hash).1=some (some block) := by
    rw [LRUCache.get_fst,h]
  unfold getHeaderBlockRecord
  rw [Eff.bind_get]
  simp only [hfst,Option.bind_some,id_eq]
  rfl

theorem getHeaderBlockRecord_missed (h : (w.blockCache.cache.get? hash).bind id=none) :
    getHeaderBlockRecord E F hash w=readHeaderBlockRecord E F hash (w.looked hash) := by
  have hfst : ((w.blockCache.get hash).1).bind id=none := by
    rw [LRUCache.get_fst,h]
  unfold getHeaderBlockRecord
  rw [Eff.bind_get]
  simp only [hfst]
  rfl

theorem readHeaderBlockRecord_stored (hread : F.raises (.getHeaderBlockRecord hash)=none)
    (hb : w.wallet.db.headerBlocks.get? hash=some block) : readHeaderBlockRecord E F hash w =
      (.ok (some block),{ w with blockCache := w.blockCache.put (block.header.headerHash E) (some block) }) := by
  unfold readHeaderBlockRecord
  rw [Eff.bind_of_ok (step_quiet hread w),Eff.bind_get]
  simp only [hb]
  rfl

variable {r : BlockRecord}

/-- Once a header is there, its record and its spends are read, unless that raises. -/
theorem readRow_run {w' : WalletWorld} (hheader : getHeaderBlockRecord E F hash w=(.ok (some block),w'))
    (hr : w'.wallet.db.blockRecords.get? hash=some r) (newHash : Bytes32) (spends : List CoinSpend) :
    (∃ spends',readRow E F newHash spends hash w=(.ok (block,r,spends'),w') ∧
      F.raises (.getBlockRecord hash)=none ∧ (hash≠newHash → F.raises (.getAdditionalCoinSpends hash)=none)) ∨
    ∃ e,readRow E F newHash spends hash w=(.error e,w') ∧ ((F.raises (.getBlockRecord hash)).isSome ∨
      hash≠newHash ∧ (F.raises (.getAdditionalCoinSpends hash)).isSome) := by
  unfold readRow
  rw [Eff.bind_of_ok hheader]
  cases hrecord : F.raises (.getBlockRecord hash) with
  | some e => exact Or.inr ⟨_,Eff.bind_of_error (step_loud hrecord w') _,Or.inl rfl⟩
  | none =>
    rw [Eff.bind_of_ok (step_quiet hrecord w'),Eff.bind_get,hr]
    unfold readSpends
    by_cases hown : hash=newHash
    · rw [if_pos hown]
      exact Or.inl ⟨spends,rfl,rfl,fun h => absurd hown h⟩
    rw [if_neg hown]
    cases hspends : F.raises (.getAdditionalCoinSpends hash) with
    | some e =>
      exact Or.inr ⟨_,Eff.bind_of_error (Eff.bind_of_error (step_loud hspends w') _) _,Or.inr ⟨hown,rfl⟩⟩
    | none =>
      have hread := Eff.bind_of_ok (step_quiet hspends w') fun _ => do
        let w ← Eff.get
        return (w.wallet.db.additionalCoinSpends.get? hash).getD []
      exact Or.inl ⟨_,Eff.bind_of_ok hread _,rfl,fun _ => rfl⟩

theorem branch_succ {forkH : ℤ} (hr : w.wallet.db.blockRecords.get? hash=some r) (n : ℕ) :
    w.branch forkH (n+1) hash = if 0≤forkH ∧ w.wallet.chain.heightToHash.get? forkH.toNat=some hash then []
      else if r.height=0 then [r] else r::w.branch forkH n r.prevHash := by
  rw [branch,hr]

variable {n : ℕ}

theorem mem_branch_height (hs : WalletKept w.wallet) {q : BlockRecord} {forkH : ℤ}
    (hr : w.wallet.db.blockRecords.get? hash=some r) (hq : q∈w.branch forkH n hash) : q.height ≤ r.height := by
  induction n generalizing hash r with
  | zero => exact absurd hq List.not_mem_nil
  | succ n ih =>
    rw [branch_succ hr] at hq
    split_ifs at hq with hat hz
    · exact absurd hq List.not_mem_nil
    · rw [List.mem_singleton.mp hq]
    · rcases List.mem_cons.mp hq with rfl | hq
      · exact Nat.le_refl _
      · obtain ⟨p,hp,hheight⟩ := hs.parent hr hz
        have hle := ih hp hq
        omega

theorem branch_heights_nodup (hs : WalletKept w.wallet) {forkH : ℤ}
    (hr : w.wallet.db.blockRecords.get? hash=some r) : ((w.branch forkH n hash).map (·.height)).Nodup := by
  induction n generalizing hash r with
  | zero => exact List.nodup_nil
  | succ n ih =>
    rw [branch_succ hr]
    split_ifs with hat hz
    · exact List.nodup_nil
    · exact List.nodup_singleton _
    · obtain ⟨p,hp,hheight⟩ := hs.parent hr hz
      rw [List.map_cons,List.nodup_cons]
      refine ⟨fun hin => ?_,ih hp⟩
      obtain ⟨q,hq,heq⟩ := List.mem_map.mp hin
      have hle := mem_branch_height hs hp hq
      omega

/-- What the walk finds of the chain before the call. -/
structure Reads (w₀ : WalletWorld) (record : BlockRecord) (w : WalletWorld) : Prop where
  records : ∀ k r,w₀.wallet.db.blockRecords.get? k=some r → w.wallet.db.blockRecords.get? k=some r
  heightToHash : w.wallet.chain.heightToHash=w₀.wallet.chain.heightToHash
  rows : ∀ k,record.headerHash≠k → w.blockCache.cache.get? k=w₀.blockCache.cache.get? k

theorem lowerRow_run (hk : WorldKept E w₀) (hw : Reads w₀ record w)
    (hr : w₀.wallet.db.blockRecords.get? hash=some r) (hother : record.headerHash≠hash)
    (hread : w₀.cached r.headerHash ∨ (F.raises (.getHeaderBlockRecord r.headerHash)).isSome) (spends : List CoinSpend) :
    (∃ b spends',readRow E F record.headerHash spends hash w=(.ok (b,r,spends'),w.looked hash) ∧
      b.header.height=r.height ∧ RowQuiet F w₀ r.headerHash) ∨
    ∃ e,readRow E F record.headerHash spends hash w=(.error e,w.looked hash) ∧ ¬ RowQuiet F w₀ r.headerHash := by
  have hrow := hw.rows hash hother
  rw [hk.wallet.key hash r hr] at hread ⊢
  by_cases hcached : w₀.cached hash
  · obtain ⟨b,hb⟩ := Option.isSome_iff_exists.mp hcached
    obtain ⟨_,hsome,rfl⟩ := Option.bind_eq_some_iff.mp hb
    obtain ⟨b',hb',hheight⟩ := hk.wallet.header hash r hr
    rw [hk.cached hash b hsome] at hb'
    obtain rfl := Option.some.inj hb'
    rcases readRow_run (getHeaderBlockRecord_cached (E := E) (F := F) (hrow.trans hsome)) (hw.records hash r hr)
      record.headerHash spends with ⟨spends',hrun,hquiet,hquiet'⟩ | ⟨e,hrun,hloud⟩
    · exact Or.inl ⟨b,spends',hrun,hheight,Or.inl hcached,hquiet,hquiet' (Ne.symm hother)⟩
    · refine Or.inr ⟨e,hrun,?_⟩
      rintro ⟨-,hquiet,hquiet'⟩
      rw [hquiet,hquiet'] at hloud
      rcases hloud with hloud | ⟨-,hloud⟩ <;> cases hloud
  · obtain ⟨e,he⟩ := Option.isSome_iff_exists.mp (hread.resolve_left hcached)
    refine Or.inr ⟨.raised e,Eff.bind_of_error ?_ _,?_⟩
    · rw [getHeaderBlockRecord_missed (by rw [hrow]; exact Option.not_isSome_iff_eq_none.mp hcached)]
      exact Eff.bind_of_error (step_loud he _) _
    · rintro ⟨hread | hread,-⟩
      · exact hcached hread
      · rw [he] at hread
        cases hread

/-- The rows below the new block are read as they are stored, and the cache keeps what it has. -/
theorem blocksToAdd_run (hk : WorldKept E w₀)
    (hsame : ∀ r,w₀.wallet.db.blockRecords.get? record.headerHash=some r → r=record) {forkH : ℤ}
    (hat : ∀ k,Blockchain.atFork w₀.wallet.chain.view forkH k =
      .ok (decide (0≤forkH ∧ w₀.wallet.chain.heightToHash.get? forkH.toNat=some k)))
    (spends : List CoinSpend) (hr : w₀.wallet.db.blockRecords.get? hash=some r)
    (hn : r.height<n) (hlow : r.height < record.height) (hreads : ReadsCached F w₀ (w₀.branch forkH n hash))
    (hw : Reads w₀ record w) : ∃ cache,(∀ k,cache.cache.get? k=w.blockCache.cache.get? k) ∧
      ((∃ l,blocksToAdd E F forkH record.headerHash spends (n+1) hash w=(.ok l,{ w with blockCache := cache }) ∧
        l.map (·.2.1)=w₀.branch forkH n hash ∧ ∀ q∈w₀.branch forkH n hash,RowQuiet F w₀ q.headerHash) ∨
      ∃ e,blocksToAdd E F forkH record.headerHash spends (n+1) hash w=(.error e,{ w with blockCache := cache }) ∧
        ∃ q∈w₀.branch forkH n hash,¬ RowQuiet F w₀ q.headerHash) := by
  induction n generalizing hash r w with
  | zero => exact absurd hn (Nat.not_lt_zero _)
  | succ n ih =>
    have hother : record.headerHash≠hash := by
      intro heq
      rw [← heq] at hr
      rw [hsame r hr] at hlow
      exact Nat.lt_irrefl _ hlow
    have hfork : Blockchain.atFork w.wallet.chain.view forkH hash =
        .ok (decide (0≤forkH ∧ w₀.wallet.chain.heightToHash.get? forkH.toNat=some hash)) := by
      rw [← hat hash]
      unfold Blockchain.atFork BlockView.heightToHash Chain.view
      rw [hw.heightToHash]
    have hkeeps (k : Bytes32) : (w.looked hash).blockCache.cache.get? k=w.blockCache.cache.get? k :=
      LRUCache.get_snd_cache ..
    rw [branch_succ hr] at hreads ⊢
    rw [blocksToAdd,Eff.bind_get,Eff.bind_lift hfork]
    by_cases hstop : 0≤forkH ∧ w₀.wallet.chain.heightToHash.get? forkH.toNat=some hash
    · rw [if_pos hstop,decide_eq_true hstop]
      exact ⟨w.blockCache,fun _ => rfl,Or.inl ⟨[],rfl,rfl,fun q hq => absurd hq List.not_mem_nil⟩⟩
    rw [if_neg hstop] at hreads ⊢
    rw [decide_eq_false hstop,if_neg Bool.false_ne_true]
    by_cases hz : r.height=0
    · -- the walk ends at the first block
      rw [if_pos hz] at hreads ⊢
      rcases lowerRow_run hk hw hr hother hreads.1 spends with ⟨b,spends',hrun,hheight,hquiet⟩ | ⟨e,hrun,hloud⟩
      · refine ⟨_,hkeeps,Or.inl ⟨[(b,r,spends')],?_,rfl,List.forall_mem_singleton.mpr hquiet⟩⟩
        rw [Eff.bind_of_ok hrun,if_pos (hheight.trans hz)]
        rfl
      · exact ⟨_,hkeeps,Or.inr ⟨e,Eff.bind_of_error hrun _,r,List.mem_cons_self,hloud⟩⟩
    · rw [if_neg hz] at hreads ⊢
      rcases lowerRow_run hk hw hr hother hreads.1 spends with ⟨b,spends',hrun,hheight,hquiet⟩ | ⟨e,hrun,hloud⟩
      · obtain ⟨p,hp,hparent⟩ := hk.wallet.parent hr hz
        have hw' : Reads w₀ record (w.looked hash) :=
          ⟨hw.records,hw.heightToHash,fun k hne => (hkeeps k).trans (hw.rows k hne)⟩
        rw [Eff.bind_of_ok hrun,if_neg (hheight ▸ hz)]
        obtain ⟨cache,hcache,⟨l,hrest,hl,hall⟩ | ⟨e,hrest,q,hq,hloud⟩⟩ :=
          ih hp (by omega) (by omega) (hreads.2 hquiet) hw'
        · refine ⟨cache,fun k => (hcache k).trans (hkeeps k),Or.inl ⟨_,Eff.bind_of_ok hrest _,?_,
            List.forall_mem_cons.mpr ⟨hquiet,hall⟩⟩⟩
          rw [List.map_cons,hl]
        · exact ⟨cache,fun k => (hcache k).trans (hkeeps k),Or.inr ⟨e,Eff.bind_of_error hrest _,q,
            List.mem_cons_of_mem _ hq,hloud⟩⟩
      · exact ⟨_,hkeeps,Or.inr ⟨e,Eff.bind_of_error hrun _,r,List.mem_cons_self,hloud⟩⟩

theorem atFork_of_ok {V : BlockView} {forkH : ℤ} {k : Bytes32} {b : Bool} (h : Blockchain.atFork V forkH k = .ok b)
    (k' : Bytes32) :
    Blockchain.atFork V forkH k' = .ok (decide (0≤forkH ∧ V.heights.get? forkH.toNat=some k')) := by
  unfold Blockchain.atFork at h
  by_cases hneg : forkH<0
  · rw [Blockchain.atFork,if_pos hneg,decide_eq_false (by omega)]
  · rw [if_neg hneg] at h
    obtain ⟨x,hx,-⟩ := bind_ok.mp h
    have hget : V.heights.get? forkH.toNat=some x := lookup_eq_ok.mp hx
    rw [Blockchain.atFork_eq k' fun _ => hget]
    simp only [hget,Option.some.injEq,eq_comm]

end Reading

section Peak
variable {w₀ w : WalletWorld} {record : BlockRecord} {block : HeaderBlockRecord} {Q : List BlockRecord}

/-- The block is stored and in memory, and nothing is read yet. -/
structure Begun (w₀ : WalletWorld) (block : HeaderBlockRecord) (record : BlockRecord) (w : WalletWorld) : Prop where
  blockRecords : w.wallet.chain.blockRecords=w₀.wallet.chain.blockRecords.set record.headerHash record
  inMemory : ∃ l,w.wallet.chain.heightsInCache.get? record.height=some l ∧ l.contains record.headerHash=true
  header : w.wallet.db.headerBlocks.get? record.headerHash=some block
  records : ∀ k,w.wallet.db.blockRecords.get? k =
    if record.headerHash=k then some record else w₀.wallet.db.blockRecords.get? k
  heightToHash : w.wallet.chain.heightToHash=w₀.wallet.chain.heightToHash
  tuples : w.tuples=w₀.tuples
  blockCache : w.blockCache=w₀.blockCache
  heightsChanged : w.heightsChanged=[]

theorem Begun.undoable (h : Begun w₀ block record w) {cache : LRUCache Bytes32 (Option HeaderBlockRecord)}
    (hrow : (cache.cache.get? record.headerHash).isSome)
    (hrows : ∀ k,record.headerHash≠k → cache.cache.get? k=w₀.blockCache.cache.get? k) :
    Undoable w₀ record { w with blockCache := cache } := by
  refine ⟨h.blockRecords,h.inMemory,hrow,hrows,?_⟩
  show Noted w₀ _ w.heightsChanged
  rw [h.heightsChanged]
  refine ⟨List.nodup_nil,fun c hc => absurd hc List.not_mem_nil,fun height _ => ?_⟩
  unfold heightEntry
  rw [h.heightToHash,h.tuples]

/-- The row of the new block is read back into room of its own. -/
theorem Begun.readBack (h : Begun w₀ block record w) (hkey : block.header.headerHash E=record.headerHash)
    (hrow : RowRestored F w₀ record.headerHash) :
    ∃ cache,getHeaderBlockRecord E F record.headerHash w=(.ok (some block),{ w with blockCache := cache }) ∧
      (cache.cache.get? record.headerHash).isSome ∧
      ∀ k,record.headerHash≠k → cache.cache.get? k=w₀.blockCache.cache.get? k := by
  have hlooked : w.looked record.headerHash = { w with blockCache := w₀.blockCache } := by
    unfold looked LRUCache.get
    rw [h.blockCache,hrow.uncached]
  have hput := LRUCache.get?_put_of_room w₀.blockCache (some block) hrow.uncached hrow.room
  refine ⟨w₀.blockCache.put record.headerHash (some block),?_,by rw [hput,if_pos rfl]; rfl,fun k hne => ?_⟩
  · have hstored := readHeaderBlockRecord_stored (E := E) (w := { w with blockCache := w₀.blockCache }) hrow.read h.header
    rw [hkey] at hstored
    rw [getHeaderBlockRecord_missed (by rw [h.blockCache,hrow.uncached]; rfl),hlooked]
    exact hstored
  · rw [hput,if_neg hne]

theorem genesisPeak_run (hkey : block.header.headerHash E=record.headerHash) (hrow : RowRestored F w₀ record.headerHash)
    (hc : GenesisRestored F w₀ block record) (h : Begun w₀ block record w) :
    ∃ e w',genesisPeak E F record w=(.error e,w') ∧ Undoable w₀ record w' ∧
      w'.wallet.chain.peakHeight=w.wallet.chain.peakHeight ∧
      w'.wallet.chain.subEpochSummaries=w.wallet.chain.subEpochSummaries := by
  obtain ⟨cache,hheader,hin,hrows⟩ := h.readBack (E := E) hkey hrow
  have hundo := h.undoable hin hrows
  set w₁ : WalletWorld := { w with blockCache := cache } with hw₁
  have hentry : w₁.heightEntry 0=none := by
    rw [← hc.noEntry]
    show heightEntry w 0=_
    unfold heightEntry
    rw [h.heightToHash,h.tuples]
  have hnew : 0∉w₁.heightsChanged.map Prod.fst := by
    show 0∉w.heightsChanged.map Prod.fst
    rw [h.heightsChanged]
    exact List.not_mem_nil
  obtain ⟨w₂,hmove,hmoved,hnoted,-⟩ := hundo.noted.move hnew (block.header.headerHash E) .tuple (by rw [hentry]; rfl)
  have hundo₂ := hundo.moved hmoved hnoted
  have hpeak : w₂.wallet.chain.peakHeight=w.wallet.chain.peakHeight := by rw [hmoved.chain]
  have hses : w₂.wallet.chain.subEpochSummaries=w.wallet.chain.subEpochSummaries := by rw [hmoved.chain]
  unfold genesisPeak
  rw [Eff.bind_of_ok hheader,Eff.bind_lift (show assertSome (some block) = .ok block from rfl),Eff.bind_of_ok hmove]
  by_cases hempty : block.additions.length=0 ∧ block.removals.length=0
  · obtain ⟨e,he⟩ := Option.isSome_iff_exists.mp (hc.fault.resolve_left (not_not.mpr hempty))
    have hassert : assertThat (block.additions.length=0 ∧ block.removals.length=0) = .ok () := if_pos hempty
    rw [Eff.bind_lift hassert]
    exact ⟨_,w₂,Eff.bind_of_error (step_loud he w₂) _,hundo₂,hpeak,hses⟩
  · refine ⟨.raised .assertion,w₂,Eff.bind_of_error ?_ _,hundo₂,hpeak,hses⟩
    unfold assertThat
    rw [if_neg hempty]
    rfl

section Heavier
variable (hk : WorldKept E w₀) (hb : Checked E w₀.wallet block record Q) (hz : record.height≠0)
include hk hb hz

theorem added_heights_nodup (forkH : ℤ) :
    ((record::w₀.branch forkH record.height record.prevHash).map (·.height)).Nodup := by
  obtain ⟨p,hfind,-,hheight⟩ := (hb.onTop.path hz).last
  have hp : w₀.wallet.db.blockRecords.get? record.prevHash=some p := hfind
  have hparent : p.height+1=record.height := hheight.trans hb.onTop.1.symm
  rw [List.map_cons,List.nodup_cons]
  refine ⟨fun hin => ?_,branch_heights_nodup hk.wallet hp⟩
  obtain ⟨q,hq,heq⟩ := List.mem_map.mp hin
  have hle := mem_branch_height hk.wallet hp hq
  omega

variable (hrow : RowRestored F w₀ record.headerHash) {forkPoint : Option ℕ} {peak : BlockRecord} {forkH : ℤ}
  {added : List BlockRecord} (hc : HeavierRestored F w₀ record forkPoint peak forkH added)
  (h : Begun w₀ block record w) (spends : List CoinSpend)
include hrow hc h

theorem newBlocksToAdd_run : ∃ cache,Undoable w₀ record { w with blockCache := cache } ∧
      ((∃ l,blocksToAdd E F forkH record.headerHash spends (record.height+2) record.headerHash w =
        (.ok l,{ w with blockCache := cache }) ∧ l.map (·.2.1)=record::added ∧
        F.raises (.getBlockRecord record.headerHash)=none ∧ ∀ q∈added,RowQuiet F w₀ q.headerHash) ∨
      ∃ e,blocksToAdd E F forkH record.headerHash spends (record.height+2) record.headerHash w =
        (.error e,{ w with blockCache := cache }) ∧ FaultBeforePeak F w₀ record added) := by
  have hfork : Blockchain.atFork w.wallet.chain.view forkH record.headerHash = .ok false := by
    rw [← hc.offFork]
    unfold Blockchain.atFork BlockView.heightToHash Chain.view
    rw [h.heightToHash]
  obtain ⟨cache,hheader,hin,hrows⟩ := h.readBack (E := E) hb.hash.symm hrow
  obtain ⟨p,hfind,-,hheight⟩ := (hb.onTop.path hz).last
  have hp : w₀.wallet.db.blockRecords.get? record.prevHash=some p := hfind
  have hparent : p.height+1=record.height := hheight.trans hb.onTop.1.symm
  have hstored : w.wallet.db.blockRecords.get? record.headerHash=some record := by
    rw [h.records,if_pos rfl]
  rw [blocksToAdd,Eff.bind_get,Eff.bind_lift hfork,if_neg Bool.false_ne_true]
  rcases readRow_run hheader hstored record.headerHash spends with ⟨spends',hrun,hquiet,-⟩ | ⟨e,hrun,hloud⟩
  · have hw : Reads w₀ record { w with blockCache := cache } := by
      refine ⟨fun k r hr => ?_,h.heightToHash,hrows⟩
      show w.wallet.db.blockRecords.get? k=_
      rw [h.records]
      split_ifs with hown
      · rw [← hown] at hr
        rw [hb.same r hr]
      · exact hr
    have hreads := hc.reads hquiet
    rw [hc.isBranch] at hreads
    obtain ⟨cache',hcache,hrest⟩ := blocksToAdd_run hk hb.same (atFork_of_ok hc.offFork) spends hp
      (n := record.height) (by omega) (by omega) hreads hw
    have hundo : Undoable w₀ record { w with blockCache := cache' } :=
      h.undoable (by rw [hcache]; exact hin) fun k hne => (hcache k).trans (hrows k hne)
    rw [← hc.isBranch] at hrest
    rw [Eff.bind_of_ok hrun,if_neg (hb.height ▸ hz)]
    refine ⟨cache',hundo,?_⟩
    rcases hrest with ⟨l,hrest,hl,hall⟩ | ⟨e,hrest,q,hq,hloud⟩
    · refine Or.inl ⟨_,Eff.bind_of_ok hrest _,?_,hquiet,hall⟩
      rw [List.map_cons,hl]
    · exact Or.inr ⟨e,Eff.bind_of_error hrest _,Or.inr (Or.inl ⟨q,hq,hloud⟩)⟩
  · refine ⟨cache,h.undoable hin hrows,Or.inr ⟨e,Eff.bind_of_error hrun _,Or.inl ?_⟩⟩
    exact hloud.resolve_right fun hother => hother.1 rfl

theorem heavierPeak_run (hses : w.wallet.chain.subEpochSummaries=w₀.wallet.chain.subEpochSummaries)
    (hpeak : w.wallet.chain.peakHeight=w₀.wallet.chain.peakHeight) : ∃ w',Undoable w₀ record w' ∧
      w'.wallet.chain.subEpochSummaries=rollbackSummaries forkH w₀.wallet.chain.subEpochSummaries ∧
      ((∃ f,heavierPeak E F record peak forkH spends w=(.ok (f,(record::added).reverse),w') ∧
        w'.wallet.chain.peakHeight=some record.height ∧ ¬ FaultBeforePeak F w₀ record added) ∨
      ∃ e,heavierPeak E F record peak forkH spends w=(.error e,w') ∧
        w'.wallet.chain.peakHeight=w₀.wallet.chain.peakHeight ∧ FaultBeforePeak F w₀ record added) := by
  obtain ⟨events,hroll⟩ : ∃ events,rollbackToFork F record peak forkH w =
      (.ok (),{ w with wallet := { w.wallet with events } }) := by
    unfold rollbackToFork
    split_ifs with hprev
    · rw [Eff.bind_of_ok (step_quiet (hc.rollback hprev) w)]
      exact ⟨_,rfl⟩
    · exact ⟨_,rfl⟩
  set w₁ : WalletWorld := { w with wallet := { w.wallet with
    events
    chain := { w.wallet.chain with
      subEpochSummaries := rollbackSummaries forkH w.wallet.chain.subEpochSummaries } } } with hw₁
  have hfilter : onWallet (onChain (Eff.modify fun c =>
      { c with subEpochSummaries := rollbackSummaries forkH c.subEpochSummaries }))
      { w with wallet := { w.wallet with events } } = (.ok (),w₁) := rfl
  have h₁ : Begun w₀ block record w₁ := ⟨h.blockRecords,h.inMemory,h.header,h.records,h.heightToHash,h.tuples,
    h.blockCache,h.heightsChanged⟩
  unfold heavierPeak
  rw [Eff.bind_of_ok hroll,Eff.bind_of_ok hfilter]
  obtain ⟨cache,hundo,⟨l,hrun,hl,hown,hrows⟩ | ⟨e,hrun,hfault⟩⟩ := newBlocksToAdd_run hk hb hz hrow hc h₁ spends
  · have hnodup : (w₁.heightsChanged.map Prod.fst++l.reverse.map (·.2.1.height)).Nodup := by
      rw [h₁.heightsChanged,List.map_nil,List.nil_append,List.map_reverse,List.nodup_reverse]
      have hheights := added_heights_nodup hk hb hz forkH
      rw [← hc.isBranch,← hl,List.map_map] at hheights
      exact hheights
    rw [Eff.bind_of_ok hrun]
    obtain ⟨w₂,hmoved,hnoted,happlied⟩ := applyBlocks_run (F := F) hundo.noted l.reverse hnodup
    have hundo₂ := hundo.moved hmoved hnoted
    have hses₂ : w₂.wallet.chain.subEpochSummaries=rollbackSummaries forkH w₀.wallet.chain.subEpochSummaries := by
      rw [hmoved.chain,← hses]
    have hpeak₂ : w₂.wallet.chain.peakHeight=w₀.wallet.chain.peakHeight := by
      rw [hmoved.chain]
      exact hpeak
    rcases happlied with ⟨happly,hquiet⟩ | ⟨e,happly,b,hb,hloud⟩
    · rw [Eff.bind_of_ok happly]
      cases hset : F.raises .setPeak with
      | some e =>
        refine ⟨w₂,hundo₂,hses₂,Or.inr ⟨_,Eff.bind_of_error (step_loud hset w₂) _,hpeak₂,?_⟩⟩
        exact Or.inr (Or.inr (Or.inr (by rw [hset]; rfl)))
      | none =>
        rw [Eff.bind_of_ok (step_quiet hset w₂),← hl,← List.map_reverse]
        refine ⟨{ w₂ with wallet := { w₂.wallet with
          db := { w₂.wallet.db with peak := some record.headerHash }
          chain := { w₂.wallet.chain with peakHeight := some record.height } } },⟨hundo₂.blockRecords,hundo₂.inMemory,
          hundo₂.row,hundo₂.rows,hundo₂.noted.congr rfl⟩,hses₂,Or.inl ⟨_,rfl,rfl,?_⟩⟩
        rintro (hloud | ⟨q,hq,hloud⟩ | ⟨q,hq,hloud⟩ | hloud)
        · rw [hown] at hloud
          cases hloud
        · exact hloud (hrows q hq)
        · rw [← hl] at hq
          obtain ⟨b,hb,rfl⟩ := List.mem_map.mp hq
          exact hloud (hquiet b (List.mem_reverse.mpr hb))
        · rw [hset] at hloud
          cases hloud
    · refine ⟨w₂,hundo₂,hses₂,Or.inr ⟨e,Eff.bind_of_error happly _,hpeak₂,Or.inr (Or.inr (Or.inl ⟨_,?_,hloud⟩))⟩⟩
      rw [← hl]
      exact List.mem_map_of_mem (List.mem_reverse.mp hb)
  · exact ⟨_,hundo,by rw [← hses],Or.inr ⟨e,Eff.bind_of_error hrun _,hpeak,hfault⟩⟩

end Heavier
end Peak

section Transaction
variable {w₀ w : WalletWorld} {record : BlockRecord} {c : ReceiveCall} {Q : List BlockRecord}

theorem cleanFrom_nothing {c : Chain} {height : ℕ} (h : NothingToClean c height) :
    ∃ c',cleanFrom height c=(.ok (),c') ∧ c' = { c with heightsInCache := c'.heightsInCache } ∧
      ∀ g l,l≠[] → c.heightsInCache.get? g=some l → c'.heightsInCache.get? g=some l := by
  have herase {c : Chain} {height g : ℕ} {l : List Bytes32} (hnil : c.heightsInCache.get? height=some [])
      (hl : l≠[]) (hg : c.heightsInCache.get? g=some l) : (c.heightsInCache.erase height).get? g=some l := by
    rw [Dict.get?_erase,if_neg]
    · exact hg
    · rintro rfl
      rw [hnil] at hg
      exact hl (Option.some.inj hg).symm
  induction height generalizing c with
  | zero =>
    have htop := h 0 (Nat.le_refl _) fun k hk hk' => absurd hk (Nat.not_lt.mpr hk')
    unfold cleanFrom
    rw [Eff.bind_get]
    cases hget : c.heightsInCache.get? 0 with
    | none => exact ⟨c,rfl,rfl,fun _ _ _ h => h⟩
    | some l =>
      rw [hget] at htop
      obtain rfl : l=[] := htop
      exact ⟨_,rfl,rfl,fun g l hl hg => herase hget hl hg⟩
  | succ n ih =>
    have htop := h (n+1) (Nat.le_refl _) fun k hk hk' => absurd hk (Nat.not_lt.mpr hk')
    unfold cleanFrom
    rw [Eff.bind_get]
    cases hget : c.heightsInCache.get? (n+1) with
    | none => exact ⟨c,rfl,rfl,fun _ _ _ h => h⟩
    | some l =>
      rw [hget] at htop
      obtain rfl : l=[] := htop
      have hbelow (k : ℕ) (hk : k≤n) :
          (c.heightsInCache.erase (n+1)).get? k=c.heightsInCache.get? k := by
        rw [Dict.get?_erase,if_neg (by omega)]
      have hrest : NothingToClean { c with heightsInCache := c.heightsInCache.erase (n+1) } n := by
        intro g hg hsome
        show ((c.heightsInCache.erase (n+1)).get? g).getD []=[]
        rw [hbelow g hg]
        refine h g (by omega) fun k hk hk' => ?_
        rcases Nat.lt_or_eq_of_le hk' with hlt | rfl
        · rw [← hbelow k (by omega)]
          exact hsome k hk (by omega)
        · rw [hget]
          rfl
      obtain ⟨c',hrun,hc',hkeep⟩ := ih hrest
      exact ⟨c',hrun,by rw [hc'],fun g l hl hg => hkeep g l hl (herase hget hl hg)⟩

theorem storeRecord_run (hb : Checked E w₀.wallet c.block record Q) (hc : StoredRestored E F w₀ c record)
    (spends : List CoinSpend) :
    ∃ w,storeRecord E F c.block record spends { w₀ with heightsChanged := [] } = (.ok (),w) ∧
      Begun w₀ c.block record w ∧ w.wallet.chain.subEpochSummaries=w₀.wallet.chain.subEpochSummaries ∧
      w.wallet.chain.peakHeight=w₀.wallet.chain.peakHeight := by
  have hkey := hb.hash
  set w₁ : WalletWorld := { w₀ with
    heightsChanged := []
    wallet := { w₀.wallet with db := WalletBlockStore.addBlockRecord E c.block record spends w₀.wallet.db } } with hw₁
  have hrun₁ : addBlockRecord E F c.block record spends { w₀ with heightsChanged := [] } = (.ok (),w₁) := by
    have hget : w₀.blockCache.get (c.block.header.headerHash E)=(none,w₀.blockCache) := by
      unfold LRUCache.get
      rw [← hkey,hc.row.uncached]
    have hcache : modifyCache (fun _ => if ((none : Option (Option HeaderBlockRecord)).bind id).isSome then
        w₀.blockCache.put (c.block.header.headerHash E) none else w₀.blockCache) { w₀ with heightsChanged := [] } =
          (.ok (),{ w₀ with heightsChanged := [] }) := rfl
    unfold addBlockRecord
    rw [Eff.bind_get]
    simp only [hget]
    rw [Eff.bind_of_ok hcache,Eff.bind_of_ok (step_quiet hc.stored _)]
    rfl
  set c₁ := Blockchain.addBlockRecord record w₀.wallet.chain with hc₁
  set hashes := (((w₀.wallet.chain.heightsInCache.get? record.height).getD []).insert record.headerHash)
  have hin : c₁.heightsInCache.get? record.height=some hashes := Dict.get?_set_self ..
  have hmem : record.headerHash∈hashes := List.mem_insert_self ..
  obtain ⟨c₂,hclean,hc₂,hkeep⟩ : ∃ c₂,cleanBlockRecord (record.height-E.blocksCacheSize) c₁=(.ok (),c₂) ∧
      c₂ = { c₁ with heightsInCache := c₂.heightsInCache } ∧
      c₂.heightsInCache.get? record.height=some hashes := by
    unfold cleanBlockRecord
    split_ifs with hneg
    · exact ⟨c₁,rfl,rfl,hin⟩
    · obtain ⟨c₂,hrun,hc₂,hkeep⟩ := cleanFrom_nothing (hc.clean (by omega))
      exact ⟨c₂,hrun,hc₂,hkeep _ _ (List.ne_nil_of_mem hmem) hin⟩
  have hchain : onWallet (onChain (Eff.modify (Blockchain.addBlockRecord record))) w₁ =
      (.ok (),{ w₁ with wallet := { w₁.wallet with chain := c₁ } }) := rfl
  have hbesides : c₂.blockRecords=c₁.blockRecords ∧ c₂.heightToHash=c₁.heightToHash ∧
      c₂.subEpochSummaries=c₁.subEpochSummaries ∧ c₂.peakHeight=c₁.peakHeight := by
    rw [hc₂]
    exact ⟨rfl,rfl,rfl,rfl⟩
  refine ⟨{ w₁ with wallet := { w₁.wallet with chain := c₂ } },?_,
    ⟨hbesides.1,⟨hashes,hkeep,List.contains_iff_mem.mpr hmem⟩,?_,fun k => ?_,hbesides.2.1,rfl,rfl,rfl⟩,hbesides.2.2⟩
  · unfold storeRecord
    rw [Eff.bind_of_ok (step_quiet hc.begun _),Eff.bind_of_ok hrun₁,Eff.bind_of_ok hchain]
    unfold onWallet onChain
    dsimp only
    rw [hclean]
  · show (w₀.wallet.db.headerBlocks.set (c.block.header.headerHash E) c.block).get? _=_
    rw [hkey]
    exact Dict.get?_set_self ..
  · show (w₀.wallet.db.blockRecords.set (c.block.header.headerHash E) record).get? k=_
    rw [← hkey]
    exact Dict.get?_set ..

theorem summaries_kept {forkH : ℤ} {d : Dict ℕ SubEpochSummary} (h : ∀ k∈d.keys,(k : ℤ)≤forkH) (k : ℕ) :
    (rollbackSummaries forkH d).get? k=d.get? k := by
  unfold rollbackSummaries
  rw [Dict.get?_filter]
  cases hget : d.get? k with
  | none => rfl
  | some ses =>
    have hle := h k ((d.mem_keys k).mpr ⟨ses,hget⟩)
    rw [Option.filter_some,if_pos (decide_eq_true hle)]

/-- Where the transaction raises, the handler can put everything back. -/
theorem transaction_undoable (hk : WorldKept E w₀) (hb : Checked E w₀.wallet c.block record Q)
    (hc : StoredRestored E F w₀ c record) {e : Fail} {w' : WalletWorld}
    (hrun : transaction E F c.block record c.forkPointWithPeak c.additionalCoinSpends { w₀ with heightsChanged := [] } =
      (.error e,w')) : Undoable w₀ record w' ∧ w'.wallet.chain.peakHeight=w₀.wallet.chain.peakHeight ∧
      ∀ h,w'.wallet.chain.subEpochSummaries.get? h=w₀.wallet.chain.subEpochSummaries.get? h := by
  obtain ⟨w,hstore,hw,hses,hpeak⟩ := storeRecord_run hb hc c.additionalCoinSpends
  unfold transaction at hrun
  rw [Eff.bind_of_ok hstore] at hrun
  rcases hc.newPeak with ⟨hz,hgenesis⟩ | ⟨hz,peak,forkH,added,hheavier⟩
  · have hpeakNone : Blockchain.getPeak w.wallet.chain = .ok none := by
      unfold Blockchain.getPeak
      rw [hpeak,hgenesis.noPeak]
    obtain ⟨e',w₁,hpeakRun,hundo,hpeak₁,hses₁⟩ := genesisPeak_run hb.hash.symm hc.row hgenesis hw
    have hreconsider : reconsiderPeak E F record (decide (c.block.header.height=0)) c.forkPointWithPeak
        c.additionalCoinSpends w=(.error e',w₁) := by
      unfold reconsiderPeak
      rw [Eff.bind_get,Eff.bind_lift hpeakNone,if_pos (decide_eq_true hz)]
      exact hpeakRun
    rw [Eff.bind_of_error hreconsider] at hrun
    obtain ⟨-,rfl⟩ := Prod.mk.inj hrun
    exact ⟨hundo,hpeak₁.trans hpeak,fun h => by rw [hses₁,hses]⟩
  · have hview : w.wallet.chain.view=(Blockchain.addBlockRecord record w₀.wallet.chain).view := by
      unfold Chain.view
      rw [hw.blockRecords,hw.heightToHash]
      rfl
    have hpeakSome : Blockchain.getPeak w.wallet.chain = .ok (some peak) := by
      rw [← hheavier.getPeak]
      unfold Blockchain.getPeak
      rw [hpeak,hview]
      rfl
    have hreconsider : reconsiderPeak E F record (decide (c.block.header.height=0)) c.forkPointWithPeak
        c.additionalCoinSpends w=heavierPeak E F record peak forkH c.additionalCoinSpends w := by
      unfold reconsiderPeak
      rw [Eff.bind_get,Eff.bind_lift hpeakSome,decide_eq_false hz,if_neg Bool.false_ne_true,
        Eff.bind_lift (show assertSome (some peak) = .ok peak from rfl),if_pos hheavier.heavier,hview,
        Eff.bind_lift hheavier.fork]
    obtain ⟨w₁,hundo,hses₁,⟨f,hpeakRun,hpeak₁,hquiet⟩ | ⟨e',hpeakRun,hpeak₁,hfault⟩⟩ := heavierPeak_run hk hb
      (hb.height ▸ hz) hc.row hheavier hw c.additionalCoinSpends hses hpeak
    · rw [← hreconsider] at hpeakRun
      rw [Eff.bind_of_ok hpeakRun] at hrun
      set w₂ : WalletWorld := { w₁ with wallet := { w₁.wallet with chain := { w₁.wallet.chain with
        subEpochSummaries := addSummaries (record::added).reverse w₁.wallet.chain.subEpochSummaries } } }
      have hadded : onWallet (onChain (Eff.modify fun c =>
          { c with subEpochSummaries := addSummaries (record::added).reverse c.subEpochSummaries })) w₁ =
            (.ok (),w₂) := rfl
      dsimp only at hrun
      rw [Eff.bind_of_ok hadded] at hrun
      obtain ⟨hsame,hsummaries⟩ := hheavier.after hquiet
      cases hcommit : F.raises .commitTransaction with
      | none =>
        rw [Eff.bind_of_ok (step_quiet hcommit w₂)] at hrun
        cases hrun
      | some e' =>
        rw [Eff.bind_of_error (step_loud hcommit w₂)] at hrun
        obtain ⟨-,rfl⟩ := Prod.mk.inj hrun
        refine ⟨⟨hundo.blockRecords,hundo.inMemory,hundo.row,hundo.rows,hundo.noted.congr rfl⟩,
          hpeak₁.trans hsame.symm,fun h => ?_⟩
        rw [← hsummaries h,← hses₁]
    · rw [← hreconsider] at hpeakRun
      rw [Eff.bind_of_error hpeakRun] at hrun
      obtain ⟨-,rfl⟩ := Prod.mk.inj hrun
      refine ⟨hundo,hpeak₁,fun h => ?_⟩
      rw [hses₁]
      exact summaries_kept (hheavier.before hfault) h

theorem opening_checked (hk : WalletKept w.wallet) (hc : WalletCall E w.wallet c)
    (h : opening E w.wallet.chain.view c.block.header c.pre c.trusted = .ok (.inr record)) :
    w.wallet.chain.blockRecords.get? record.headerHash=none ∧ ∃ Q,Checked E w.wallet c.block record Q := by
  unfold opening at h
  by_cases hhave : w.wallet.chain.view.containsBlock (c.block.header.headerHash E)=true
  · rw [if_pos hhave] at h
    cases h
  rw [if_neg hhave] at h
  by_cases hprev : ¬ w.wallet.chain.view.containsBlock c.block.header.prevHeaderHash ∧ c.block.header.height≠0
  · rw [if_pos hprev] at h
    cases h
  rw [if_neg hprev] at h
  cases hvalid : validateHeader E w.wallet.chain.view c.block.header c.pre c.trusted with
  | error e =>
    rw [hvalid] at h
    cases e <;> cases h
  | ok requiredIters =>
    rw [hvalid] at h
    obtain ⟨made,hmade,heq⟩ := bind_ok.mp h
    obtain rfl := Sum.inr.inj (Except.ok.inj heq)
    obtain ⟨Q,hQ⟩ := checked_of_valid hk hc hprev hvalid hmade
    refine ⟨?_,Q,hQ⟩
    rw [hQ.hash]
    exact Option.not_isSome_iff_eq_none.mp hhave

/-- With the connection closed, nothing is put back, and nothing has changed. -/
theorem closed_unchanged (hb : Checked E w.wallet c.block record Q)
    (hfault : (F.raises .beginTransaction).isSome ∨ (F.raises .addBlockRecord).isSome ∧ w.cached record.headerHash=false) :
    ∃ e v,storeRecord E F c.block record c.additionalCoinSpends { w with heightsChanged := [] } = (.error e,v) ∧
      PutBack w v := by
  unfold storeRecord
  cases hbegin : F.raises .beginTransaction with
  | some e =>
    refine ⟨_,_,Eff.bind_of_error (step_loud hbegin _) _,?_,rfl⟩
    exact ⟨fun _ => rfl,fun _ => rfl,fun _ => rfl,rfl,fun _ => rfl⟩
  | none =>
    rw [hbegin] at hfault
    obtain ⟨hadd,hmissed⟩ := hfault.resolve_left nofun
    obtain ⟨e,he⟩ := Option.isSome_iff_exists.mp hadd
    have hmiss : ((w.blockCache.get (c.block.header.headerHash E)).1.bind id).isSome=false := by
      rw [LRUCache.get_fst,← hb.hash]
      exact hmissed
    have hfail : addBlockRecord E F c.block record c.additionalCoinSpends { w with heightsChanged := [] } =
        (.error (.raised e),{ w.looked (c.block.header.headerHash E) with heightsChanged := [] }) := by
      unfold addBlockRecord step
      rw [Eff.bind_get,he]
      simp only [hmiss]
      rfl
    rw [Eff.bind_of_ok (step_quiet hbegin _)]
    refine ⟨_,_,Eff.bind_of_error hfail _,?_,rfl⟩
    exact ⟨fun _ => rfl,fun _ => rfl,fun _ => rfl,rfl,fun k => LRUCache.get_snd_cache ..⟩

theorem call_putBack (hk : WorldKept E w) (hc : WalletCall E w.wallet c) (hcond : Recoverable E F w c) {r : Raised}
    {w' : WalletWorld} (hrun : call E F c w=(.error r,w')) :
    ((∃ e,r = .before e) ∧ w'=w) ∨ ((∃ e,r = .again e) ∧ PutBack w w') := by
  unfold call receiveBlock at hrun
  cases hopening : opening E w.wallet.chain.view c.block.header c.pre c.trusted with
  | error e =>
    rw [hopening] at hrun
    obtain ⟨hr,rfl⟩ := Prod.mk.inj hrun
    exact Or.inl ⟨⟨e,(Except.error.inj hr).symm⟩,rfl⟩
  | ok answer =>
    rw [hopening] at hrun
    cases answer with
    | inl answer => cases (Prod.mk.inj hrun).1
    | inr record =>
      obtain ⟨hnew,Q,hb⟩ := opening_checked hk.wallet hc hopening
      right
      dsimp only at hrun
      unfold guarded at hrun
      rcases hcond record hopening with ⟨hclosed,hfault⟩ | hstored
      · obtain ⟨e,v,hstore,hback⟩ := closed_unchanged hb hfault
        unfold transaction at hrun
        rw [Eff.bind_of_error hstore,hclosed] at hrun
        obtain ⟨hr,rfl⟩ := Prod.mk.inj hrun
        exact ⟨⟨e,(Except.error.inj hr).symm⟩,hback⟩
      · rcases htransaction : transaction E F c.block record c.forkPointWithPeak c.additionalCoinSpends
          { w with heightsChanged := [] } with ⟨e | _ | f,v⟩
        · obtain ⟨hundo,hpeak,hses⟩ := transaction_undoable hk hb hstored htransaction
          obtain ⟨w'',hrecover,hback⟩ := hundo.recover hnew hstored.row.uncached hpeak hses hstored.handler
          rw [htransaction,hstored.connected] at hrun
          simp only [if_true,hrecover] at hrun
          obtain ⟨hr,rfl⟩ := Prod.mk.inj hrun
          exact ⟨⟨e,(Except.error.inj hr).symm⟩,hback⟩
        · rw [htransaction] at hrun
          cases (Prod.mk.inj hrun).1
        · rw [htransaction] at hrun
          cases (Prod.mk.inj hrun).1

end Transaction

section Runs
variable {w w' : WalletWorld} {record : BlockRecord} {c : ReceiveCall}

theorem WorldKept.congr (h : WorldKept E w) (hdb : w'.wallet.db.headerBlocks=w.wallet.db.headerBlocks)
    (hrec : w'.wallet.db.blockRecords=w.wallet.db.blockRecords)
    (hmem : ∀ k r,w'.wallet.chain.blockRecords.get? k=some r → w.wallet.chain.blockRecords.get? k=some r)
    (hcache : ∀ k b,w'.blockCache.cache.get? k=some (some b) → w.blockCache.cache.get? k=some (some b)) :
    WorldKept E w' := by
  refine ⟨h.wallet.congr hrec hdb hmem,?_,?_⟩
  · rw [hdb]
    exact h.keyed
  · intro k b hb
    rw [hdb]
    exact h.cached k b (hcache k b hb)

theorem PutBack.kept (h : PutBack w w') (hk : WorldKept E w) : WorldKept E w' := by
  refine hk.congr (by rw [h.db]) (by rw [h.db]) (fun k r hr => ?_) fun k b hb => ?_
  · rwa [h.restored.blockRecords] at hr
  · rwa [h.restored.blockCache] at hb

theorem keeps_modify {f : WalletWorld → WalletWorld}
    (hf : ∀ w,(f w).wallet.db.headerBlocks=w.wallet.db.headerBlocks ∧
      (f w).wallet.db.blockRecords=w.wallet.db.blockRecords ∧
      (f w).wallet.chain.blockRecords=w.wallet.chain.blockRecords ∧ (f w).blockCache=w.blockCache) :
    Eff.Keeps (WorldKept E) (Eff.modify f : TxM Unit) := by
  intro w hk
  obtain ⟨hhead,hrec,hmem,hcache⟩ := hf w
  exact hk.congr hhead hrec (fun k r hr => by rwa [hmem] at hr) fun k b hb => by rwa [hcache] at hb

theorem keeps_step (x : TxStep) : Eff.Keeps (WorldKept E) (step F x) := by
  unfold step
  cases F.raises x with
  | none => exact fun w hk => hk
  | some e => exact fun w hk => hk

theorem looked_kept (hk : WorldKept E w) (hash : Bytes32) : WorldKept E (w.looked hash) := by
  refine hk.congr rfl rfl (fun _ _ h => h) fun k b hb => ?_
  exact (LRUCache.get_snd_cache w.blockCache hash k).symm.trans hb

theorem getHeaderBlockRecord_keeps (hash : Bytes32) : Eff.Keeps (WorldKept E) (getHeaderBlockRecord E F hash) := by
  intro w hk
  have hlooked := looked_kept hk hash
  cases hcached : (w.blockCache.cache.get? hash).bind id with
  | some b =>
    obtain ⟨_,hsome,rfl⟩ := Option.bind_eq_some_iff.mp hcached
    rw [getHeaderBlockRecord_cached hsome]
    exact hlooked
  | none =>
    rw [getHeaderBlockRecord_missed hcached]
    cases hread : F.raises (.getHeaderBlockRecord hash) with
    | some e =>
      unfold readHeaderBlockRecord
      rw [Eff.bind_of_error (step_loud hread _)]
      exact hlooked
    | none =>
      cases hb : (w.looked hash).wallet.db.headerBlocks.get? hash with
      | none =>
        unfold readHeaderBlockRecord
        rw [Eff.bind_of_ok (step_quiet hread _),Eff.bind_get]
        simp only [hb]
        exact hlooked
      | some b =>
        rw [readHeaderBlockRecord_stored hread hb]
        refine ⟨hlooked.wallet,hlooked.keyed,fun k b' hb' => ?_⟩
        rcases LRUCache.get?_put _ hb' with ⟨rfl,heq⟩ | ⟨-,hold⟩
        · obtain rfl := Option.some.inj heq
          rw [hlooked.keyed hash b hb]
          exact hb
        · exact hlooked.cached k b' hold

variable {α : Type}

theorem keeps_lift (x : Check α) : Eff.Keeps (WorldKept E) (Eff.lift x : TxM α) :=
  Eff.Triple.lift (fun _ _ _ hk => hk) fun _ _ _ hk => hk

theorem keeps_read {f : WalletWorld → TxM α} (hf : ∀ w,Eff.Keeps (WorldKept E) (f w)) :
    Eff.Keeps (WorldKept E) (Eff.get >>= f) := Eff.Triple.read fun w _ => hf w

theorem keeps_pure (a : α) : Eff.Keeps (WorldKept E) (pure a : TxM α) := fun _ hk => hk

theorem keeps_emit (e : WalletEvent) : Eff.Keeps (WorldKept E) (onWallet (emit e)) :=
  keeps_modify (f := fun w => { w with wallet := (emit e w.wallet).2 }) fun _ => ⟨rfl,rfl,rfl,rfl⟩

theorem keeps_chain {f : Chain → Chain} (hf : ∀ c,(f c).blockRecords=c.blockRecords) :
    Eff.Keeps (WorldKept E) (onWallet (onChain (Eff.modify f))) :=
  keeps_modify (f := fun w => { w with wallet := { w.wallet with chain := f w.wallet.chain } })
    fun w => ⟨rfl,rfl,hf w.wallet.chain,rfl⟩

theorem readRow_keeps (newHash : Bytes32) (spends : List CoinSpend) (hash : Bytes32) :
    Eff.Keeps (WorldKept E) (readRow E F newHash spends hash) := by
  have hspends : Eff.Keeps (WorldKept E) (readSpends F newHash hash spends) := by
    unfold readSpends
    split_ifs
    · exact keeps_pure _
    · exact (keeps_step _).bind fun _ => keeps_read fun _ => keeps_pure _
  unfold readRow
  refine (getHeaderBlockRecord_keeps hash).bind fun _ => (keeps_step _).bind fun _ => keeps_read fun _ => ?_
  exact hspends.bind fun _ => (keeps_lift _).bind fun _ => (keeps_lift _).bind fun _ => keeps_pure _

theorem blocksToAdd_keeps (forkH : ℤ) (newHash : Bytes32) (spends : List CoinSpend) (n : ℕ) (hash : Bytes32) :
    Eff.Keeps (WorldKept E) (blocksToAdd E F forkH newHash spends n hash) := by
  induction n generalizing hash with
  | zero => exact fun _ hk => hk
  | succ n ih =>
    unfold blocksToAdd
    refine keeps_read fun _ => (keeps_lift _).bind fun _ => ?_
    split_ifs
    · exact keeps_pure _
    refine (readRow_keeps newHash spends hash).bind fun row => ?_
    split_ifs
    · exact keeps_pure _
    · exact (ih _).bind fun _ => keeps_pure _

theorem moveHeight_keeps (height : ℕ) (hash : Bytes32) (replaced : Replaced → Replaced) :
    Eff.Keeps (WorldKept E) (moveHeight height hash replaced) := keeps_modify fun _ => ⟨rfl,rfl,rfl,rfl⟩

theorem applyBlock_keeps (b : HeaderBlockRecord × BlockRecord × List CoinSpend) :
    Eff.Keeps (WorldKept E) (applyBlock F b) := by
  refine (moveHeight_keeps _ _ _).bind fun _ => ?_
  split_ifs
  · exact (keeps_step _).bind fun _ => keeps_emit _
  · exact keeps_pure _

theorem reconsiderPeak_keeps (genesis : Bool) (forkPoint : Option ℕ) (spends : List CoinSpend) :
    Eff.Keeps (WorldKept E) (reconsiderPeak E F record genesis forkPoint spends) := by
  unfold reconsiderPeak
  refine keeps_read fun _ => (keeps_lift _).bind fun peak => ?_
  split_ifs
  · cases peak with
    | some _ => exact keeps_pure _
    | none =>
      refine (getHeaderBlockRecord_keeps _).bind fun _ => (keeps_lift _).bind fun _ => ?_
      refine (moveHeight_keeps _ _ _).bind fun _ => (keeps_lift _).bind fun _ => (keeps_step _).bind fun _ => ?_
      refine (keeps_emit _).bind fun _ => (keeps_chain fun _ => ?_).bind fun _ => keeps_pure _
      rfl
  refine (keeps_lift _).bind fun peak => ?_
  split_ifs
  · refine (keeps_lift _).bind fun forkH => ?_
    unfold heavierPeak rollbackToFork
    refine Eff.Keeps.bind ?_ fun _ => (keeps_chain fun _ => ?_).bind fun _ => (blocksToAdd_keeps _ _ _ _ _).bind fun l => ?_
    · split_ifs
      · exact (keeps_step _).bind fun _ => keeps_emit _
      · exact keeps_pure _
    · rfl
    · have happly : Eff.Keeps (WorldKept E) (l.reverse.forM (applyBlock F)) :=
        Eff.Triple.forM (I := fun _ => WorldKept E) (fun b _ => applyBlock_keeps b) _
      refine happly.bind fun _ => (keeps_step _).bind fun _ => ?_
      refine Eff.Keeps.bind ?_ fun _ => (keeps_chain fun _ => ?_).bind fun _ => keeps_pure _
      · exact keeps_modify fun _ => ⟨rfl,rfl,rfl,rfl⟩
      · rfl
  · exact keeps_pure _

theorem addBlockRecord_ok {block : HeaderBlockRecord} {spends : List CoinSpend}
    (h : addBlockRecord E F block record spends w=(.ok (),w')) :
    w'.wallet = { w.wallet with db := WalletBlockStore.addBlockRecord E block record spends w.wallet.db } ∧
      ∀ k b,w'.blockCache.cache.get? k=some (some b) →
        block.header.headerHash E≠k ∧ w.blockCache.cache.get? k=some (some b) := by
  unfold addBlockRecord at h
  rw [Eff.bind_get] at h
  obtain ⟨_,w₁,hcache,h⟩ := Eff.bind_ok h
  obtain ⟨-,rfl⟩ := Prod.mk.inj hcache
  cases hadd : F.raises .addBlockRecord with
  | some e =>
    rw [Eff.bind_of_error (step_loud hadd _)] at h
    cases (Prod.mk.inj h).1
  | none =>
    rw [Eff.bind_of_ok (step_quiet hadd _)] at h
    obtain ⟨-,rfl⟩ := Prod.mk.inj h
    refine ⟨rfl,fun k b hb => ?_⟩
    have hlook (k : Bytes32) := LRUCache.get_snd_cache w.blockCache (block.header.headerHash E) k
    change (if (((w.blockCache.get (block.header.headerHash E)).1).bind id).isSome then
      (w.blockCache.get (block.header.headerHash E)).2.put (block.header.headerHash E) none else
      (w.blockCache.get (block.header.headerHash E)).2).cache.get? k=_ at hb
    split_ifs at hb with hcached
    · rcases LRUCache.get?_put _ hb with ⟨-,hnone⟩ | ⟨hne,hold⟩
      · cases hnone
      · exact ⟨hne,(hlook k).symm.trans hold⟩
    · rw [hlook] at hb
      refine ⟨?_,hb⟩
      rintro rfl
      rw [LRUCache.get_fst,hb] at hcached
      exact hcached rfl

theorem storeRecord_kept {Q : List BlockRecord} (hk : WorldKept E w) (hb : Checked E w.wallet c.block record Q)
    {spends : List CoinSpend} (h : storeRecord E F c.block record spends w=(.ok (),w')) : WorldKept E w' := by
  unfold storeRecord at h
  cases hbegin : F.raises .beginTransaction with
  | some e =>
    rw [Eff.bind_of_error (step_loud hbegin w)] at h
    cases (Prod.mk.inj h).1
  | none =>
    rw [Eff.bind_of_ok (step_quiet hbegin w)] at h
    obtain ⟨_,w₁,hadd,h⟩ := Eff.bind_ok h
    obtain ⟨_,w₂,hmem,hclean⟩ := Eff.bind_ok h
    obtain ⟨hwallet,hcache⟩ := addBlockRecord_ok hadd
    obtain ⟨-,rfl⟩ := Prod.mk.inj hmem
    obtain ⟨-,rfl⟩ := Prod.mk.inj hclean
    have hstored : HeaderStored E w.wallet c.block record spends
        { w₁.wallet with chain := (cleanBlockRecord (record.height-E.blocksCacheSize)
          (Blockchain.addBlockRecord record w₁.wallet.chain)).2 } := by
      rw [hwallet]
      exact ⟨rfl,cleanBlockRecord_cleaned _ _,rfl⟩
    have hhead (k : Bytes32) : w₁.wallet.db.headerBlocks.get? k =
        if c.block.header.headerHash E=k then some c.block else w.wallet.db.headerBlocks.get? k := by
      rw [hwallet]
      exact Dict.get?_set ..
    refine ⟨hstored.kept hb.hash hb.same hk.wallet hb.height hb.onTop,fun k b hk' => ?_,fun k b hcached => ?_⟩
    · have hget : w₁.wallet.db.headerBlocks.get? k=some b := hk'
      rw [hhead] at hget
      split_ifs at hget with hown
      · rw [← Option.some.inj hget]
        exact hown
      · exact hk.keyed k b hget
    · obtain ⟨hne,hold⟩ := hcache k b hcached
      show w₁.wallet.db.headerBlocks.get? k=some b
      rw [hhead,if_neg hne]
      exact hk.cached k b hold

variable {f : Option ℕ}

theorem transaction_kept {Q : List BlockRecord} (hk : WorldKept E w) (hb : Checked E w.wallet c.block record Q)
    {forkPoint : Option ℕ} {spends : List CoinSpend}
    (h : transaction E F c.block record forkPoint spends { w with heightsChanged := [] } = (.ok f,w')) :
    WorldKept E w' := by
  unfold transaction at h
  obtain ⟨_,w₁,hstore,h⟩ := Eff.bind_ok h
  have hk₁ := storeRecord_kept (w := { w with heightsChanged := [] }) ⟨hk.wallet,hk.keyed,hk.cached⟩ hb hstore
  obtain ⟨x,w₂,hreconsider,h⟩ := Eff.bind_ok h
  have hk₂ := (reconsiderPeak_keeps _ _ _).run hreconsider hk₁
  obtain ⟨_,w₃,hses,h⟩ := Eff.bind_ok h
  obtain ⟨-,rfl⟩ := Prod.mk.inj hses
  obtain ⟨_,w₄,hcommit,h⟩ := Eff.bind_ok h
  obtain ⟨-,rfl⟩ := Prod.mk.inj h
  exact (keeps_step .commitTransaction).run hcommit (hk₂.congr rfl rfl (fun _ _ h => h) fun _ _ h => h)

theorem guarded_ok {forkPoint : Option ℕ} {spends : List CoinSpend}
    (h : guarded E F c.block record forkPoint spends w=(.ok f,w')) :
    transaction E F c.block record forkPoint spends { w with heightsChanged := [] } = (.ok f,w') := by
  unfold guarded at h
  rcases htransaction : transaction E F c.block record forkPoint spends { w with heightsChanged := [] } with ⟨e | a,v⟩
  · rw [htransaction] at h
    dsimp only at h
    split_ifs at h
    · rcases hrecover : recover F w.wallet.db record.headerHash v with ⟨_ | _,_⟩ <;> rw [hrecover] at h <;>
        cases (Prod.mk.inj h).1
    · cases (Prod.mk.inj h).1
  · rw [htransaction] at h
    obtain ⟨hok,rfl⟩ := Prod.mk.inj h
    rw [Except.ok.inj hok]

/-- What a call does that returns, or that raises what it can recover from. -/
theorem call_kept (hk : WorldKept E w) (hc : WalletCall E w.wallet c)
    (hrecover : ∀ r w',call E F c w=(.error r,w') → Recoverable E F w c) : WorldKept E (call E F c w).2 := by
  rcases hrun : call E F c w with ⟨r | answer,w'⟩
  · rcases call_putBack hk hc (hrecover r w' hrun) hrun with ⟨-,rfl⟩ | ⟨-,hback⟩
    · exact hk
    · exact hback.kept hk
  · unfold call receiveBlock at hrun
    cases hopening : opening E w.wallet.chain.view c.block.header c.pre c.trusted with
    | error e =>
      rw [hopening] at hrun
      cases (Prod.mk.inj hrun).1
    | ok answer =>
      rw [hopening] at hrun
      cases answer with
      | inl answer =>
        obtain ⟨-,rfl⟩ := Prod.mk.inj hrun
        exact hk
      | inr record =>
        obtain ⟨-,Q,hb⟩ := opening_checked hk.wallet hc hopening
        dsimp only at hrun
        rcases hguarded : guarded E F c.block record c.forkPointWithPeak c.additionalCoinSpends w with ⟨e | f,v⟩
        · rw [hguarded] at hrun
          cases (Prod.mk.inj hrun).1
        · rw [hguarded] at hrun
          obtain rfl : v=w' := by cases f <;> exact (Prod.mk.inj hrun).2
          exact transaction_kept hk hb (guarded_ok hguarded)

theorem WorldRun.kept (h : WorldRun E w) : WorldKept E w := by
  induction h with
  | start => exact ⟨start_fed.kept,fun _ _ h => (by cases h),fun _ _ h => (by cases h)⟩
  | read _ F hash ih => exact (getHeaderBlockRecord_keeps hash).state ih
  | call _ F hc hrecover ih => exact call_kept ih hc hrecover

/-- Where what raises can be recovered from, it is raised again, and the chain and the rows are as before. -/
theorem call_atomic (h : WorldRun E w) (F : Faults) (hc : WalletCall E w.wallet c) (hcond : Recoverable E F w c) :
    Atomic E F w c := by
  intro r w' hrun
  rcases call_putBack h.kept hc hcond hrun with ⟨hbefore,-⟩ | ⟨hagain,hback⟩
  · exact Or.inl hbefore
  · exact Or.inr ⟨hagain,hback.restored⟩

end Runs

section Tiny
variable {w : WalletWorld}

def quiet : Faults := ⟨fun _ => none,true⟩

def failing (x : TxStep) : Faults := ⟨fun y => if y=x then some .cancelled else none,true⟩

def tinyWorld (calls : List ReceiveCall) : WalletWorld :=
  calls.foldl (fun w c => (call tinyEnv quiet c w).2) startWorld

def firstBlock : ReceiveCall := tinyReceive 10 1 0 7 none

/-- Two blocks follow the first one at height 1, the second of them the heavier one. -/
def forked : List ReceiveCall := [firstBlock,tinyReceive 11 10 1 8 none,tinyReceive 20 10 1 9 none]

/-- The branch of the first of them gets the heavier one again. -/
def back : ReceiveCall := tinyReceive 12 11 2 10 none

theorem tinyWorld_run (calls : List ReceiveCall) (hash prev : Bytes32) (height weight : ℕ)
    (h : WorldRun tinyEnv (tinyWorld calls))
    (hnext : (tinyWorld calls).wallet.chain.blockRecords.get? tinyEnv.genesisChallenge=none ∧
      (tinyWorld calls).wallet.db.blockRecords.get? hash=none ∧
      (height≠0 → ((tinyWorld calls).wallet.chain.blockRecords.get? prev).map (·.height+1)=some height) ∧
      ((call tinyEnv quiet (tinyReceive hash prev height weight none) (tinyWorld calls)).1.map fun _ => ()) = .ok ()) :
    WorldRun tinyEnv (tinyWorld (calls++[tinyReceive hash prev height weight none])) := by
  obtain ⟨hchallenge,hnew,hprev,hok⟩ := hnext
  have hworld : tinyWorld (calls++[tinyReceive hash prev height weight none]) =
      (call tinyEnv quiet (tinyReceive hash prev height weight none) (tinyWorld calls)).2 := by
    unfold tinyWorld
    rw [List.foldl_append]
    rfl
  rw [hworld]
  refine h.call quiet (tinyReceive_new weight hchallenge hnew hprev) fun r w' hrun => ?_
  rw [hrun] at hok
  cases hok

theorem forked_run : WorldRun tinyEnv (tinyWorld forked) := by
  have hfirst : WorldRun tinyEnv (tinyWorld [firstBlock]) := tinyWorld_run [] 10 1 0 7 .start (by decide +kernel)
  have hnext := tinyWorld_run [firstBlock] 11 10 1 8 hfirst (by decide +kernel)
  exact tinyWorld_run [firstBlock,_] 20 10 1 9 hnext (by decide +kernel)

def openedRecord (w : WalletWorld) (c : ReceiveCall) : Option BlockRecord :=
  match opening tinyEnv w.wallet.chain.view c.block.header c.pre c.trusted with
  | .ok (.inr record) => some record
  | _ => none

def peakOr (record : BlockRecord) (c : Chain) : BlockRecord :=
  match Blockchain.getPeak c with
  | .ok (some peak) => peak
  | _ => record

theorem readsCached_of_all {l : List BlockRecord} (h : ∀ r∈l,w.cached r.headerHash) : ReadsCached F w l := by
  induction l with
  | nil => trivial
  | cons r l ih => exact ⟨Or.inl (h r List.mem_cons_self),fun _ => ih fun q hq => h q (List.mem_cons_of_mem _ hq)⟩

theorem back_recoverable : Recoverable tinyEnv (failing (.newTransactionBlockCallback 12)) (tinyWorld forked) back := by
  intro record hopening
  have hfacts : ∀ record∈(openedRecord (tinyWorld forked) back).toList,
      let w := tinyWorld forked
      let F := failing (.newTransactionBlockCallback 12)
      let c := Blockchain.addBlockRecord record w.wallet.chain
      let peak := peakOr record c
      ((record.height : ℤ)<tinyEnv.blocksCacheSize ∧ w.blockCache.cache.get? record.headerHash=none ∧
        w.blockCache.cache.size<w.blockCache.capacity ∧ F.raises (.getHeaderBlockRecord record.headerHash)=none) ∧
      Blockchain.getPeak c = .ok (some peak) ∧ record.weight > peak.weight ∧
      WalletBlockchain.forkHeight c.view record peak none = .ok 0 ∧
      Blockchain.atFork w.wallet.chain.view 0 record.headerHash = .ok false ∧
      (∀ r∈w.branch 0 record.height record.prevHash,w.cached r.headerHash) ∧
      (record.isTransactionBlock ∧ F.raises (.newTransactionBlockCallback record.headerHash)≠none) ∧
      w.wallet.chain.subEpochSummaries.keys=[] := by
    decide +kernel
  have hopened : openedRecord (tinyWorld forked) back=some record := by
    unfold openedRecord
    rw [hopening]
  obtain ⟨⟨hheight,huncached,hroom,hread⟩,hpeak,hweight,hfork,hoff,hcached,⟨htx,hraise⟩,hses⟩ :=
    hfacts record (by rw [hopened]; exact List.mem_singleton_self _)
  have hfault : FaultBeforePeak (failing (.newTransactionBlockCallback 12)) (tinyWorld forked) record
      ((tinyWorld forked).branch 0 record.height record.prevHash) :=
    Or.inr (Or.inr (Or.inl ⟨record,List.mem_cons_self,fun hquiet => hraise (hquiet htx)⟩))
  refine Or.inr ⟨rfl,rfl,rfl,by decide,fun hle => absurd hle (by omega),⟨huncached,hroom,hread⟩,
    Or.inr ⟨by decide,_,0,_,hpeak,hweight,hfork,fun _ => rfl,hoff,rfl,fun _ => readsCached_of_all hcached,
      fun _ h hh => ?_,fun h => absurd hfault h⟩⟩
  rw [hses] at hh
  cases hh

/-- The callback of a block that switches the branch raises, and the old peak is back. -/
theorem call_atomic_forked : Atomic tinyEnv (failing (.newTransactionBlockCallback 12)) (tinyWorld forked) back ∧
    (call tinyEnv (failing (.newTransactionBlockCallback 12)) back (tinyWorld forked)).1 =
      .error (.again (.raised .cancelled)) := by
  refine ⟨call_atomic forked_run _ (tinyReceive_new 10 ?_ ?_ ?_) back_recoverable,?_⟩
  · decide +kernel
  · decide +kernel
  · decide +kernel
  · decide +kernel

/-- An error at the end of a first block's transaction leaves the peak at a missing block; one at
its start is a `KeyError`. -/
theorem firstBlock_not_atomic :
    (¬ ∀ w F c,WorldRun tinyEnv w → WalletCall tinyEnv w.wallet c → Atomic tinyEnv F w c) ∧
    (call tinyEnv (failing .beginTransaction) firstBlock startWorld).1 = .error (.handler (.raised .key)) ∧
    (call tinyEnv (failing .commitTransaction) firstBlock startWorld).1 = .error (.again (.raised .cancelled)) ∧
    (call tinyEnv (failing .commitTransaction) firstBlock startWorld).2.wallet.chain.blockRecords.get? 10=none ∧
    (call tinyEnv (failing .commitTransaction) firstBlock startWorld).2.wallet.chain.peakHeight=some 0 := by
  have hbegin : (call tinyEnv (failing .beginTransaction) firstBlock startWorld).1 = .error (.handler (.raised .key)) := by
    decide +kernel
  refine ⟨fun hatomic => ?_,hbegin,by decide +kernel,by decide +kernel,by decide +kernel⟩
  have hcall : WalletCall tinyEnv startWorld.wallet firstBlock :=
    tinyReceive_new 7 (by decide +kernel) (by decide +kernel) fun h => absurd rfl h
  have hfirst := hatomic startWorld (failing .beginTransaction) firstBlock .start hcall
  rcases hrun : call tinyEnv (failing .beginTransaction) firstBlock startWorld with ⟨answer,w'⟩
  rw [hrun] at hbegin
  obtain rfl : answer = .error (.handler (.raised .key)) := hbegin
  rcases hfirst _ w' hrun with ⟨e,he⟩ | ⟨⟨e,he⟩,-⟩
  · cases he
  · cases he

end Tiny

end WalletWorld
end RoseChain
