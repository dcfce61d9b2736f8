import RoseChain.FullNode.SignagePoints

namespace RoseChain
open Lib FullNodeStore

structure NewInfusionPointVDF where
  unfinishedRewardHash : Bytes32
  challengeChainIpVdf : VDFInfo
  challengeChainIpProof : VDFProof
  rewardChainIpVdf : VDFInfo
  rewardChainIpProof : VDFProof
  infusedChallengeChainIpVdf : Option VDFInfo
  infusedChallengeChainIpProof : Option VDFProof
  deriving DecidableEq

/-- The node's sub-slots and signage points, with the bundles and infusion points that wait for a block. -/
structure NodeStore extends SignagePointStore where
  futureEosCache : Dict Bytes32 (List EndOfSubSlotBundle)
  futureIpCache : Dict Bytes32 (List NewInfusionPointVDF)

namespace NodeStore
variable (E : Env)

/-- `[None] * NUM_SPS_SUB_SLOT`. -/
def noSps : List (Option SignagePoint) := List.replicate E.numSpsSubSlot none

def clearSlots (s : NodeStore) : NodeStore := { s with finishedSubSlots := [] }

def initializeGenesisSubSlot (s : NodeStore) : NodeStore := { s with finishedSubSlots := [⟨none,noSps E,0⟩] }

def new : NodeStore :=
  initializeGenesisSubSlot E ⟨⟨[],Dict.empty,Dict.empty,.new 500⟩,Dict.empty,Dict.empty⟩

/-- What waits is grouped by the reward chain challenge that it waits for. -/
def addToFutureIp (s : NodeStore) (infusionPoint : NewInfusionPointVDF) : NodeStore :=
  let ch := infusionPoint.rewardChainIpVdf.challenge
  { s with futureIpCache := s.futureIpCache.set ch ((s.futureIpCache.get? ch).getD []++[infusionPoint]) }

def cacheEos (s : NodeStore) (eos : EndOfSubSlotBundle) (now : ℕ) : NodeStore :=
  let challenge := eos.rewardChain.endOfSlotVdf.challenge
  { s with
    futureEosCache := s.futureEosCache.set challenge ((s.futureEosCache.get? challenge).getD []++[eos])
    futureCacheKeyTimes := s.futureCacheKeyTimes.set challenge now }

def Expired (s : NodeStore) (now : ℕ) (rcHash : Bytes32) : Prop :=
  ∃ timeAdded∈s.futureCacheKeyTimes.get? rcHash,now > timeAdded+3600

instance (s : NodeStore) (now : ℕ) (rcHash : Bytes32) : Decidable (s.Expired now rcHash) :=
  inferInstanceAs (Decidable (∃ timeAdded∈s.futureCacheKeyTimes.get? rcHash,now > timeAdded+3600))

def clearOldCacheEntries (s : NodeStore) (now : ℕ) : NodeStore where
  finishedSubSlots := s.finishedSubSlots
  recentSignagePoints := s.recentSignagePoints
  futureCacheKeyTimes := s.futureCacheKeyTimes.filter fun k _ => decide (¬ s.Expired now k)
  futureIpCache := s.futureIpCache.filter fun k _ => decide (¬ s.Expired now k)
  futureEosCache := s.futureEosCache.filter fun k _ => decide (¬ s.Expired now k)
  futureSpCache := s.futureSpCache.filter fun k _ => decide (¬ s.Expired now k)

variable (V : BlockView)

/-- A bundle is added where its VDFs are valid; the infusion points that waited for it are returned. -/
def finishSlot (s : NodeStore) (eos : EndOfSubSlotBundle) (ccChallenge : Bytes32) (subSlotIters totalIters : ℕ)
    (slot : SlotEnd) : Check (Option (List NewInfusionPointVDF) × NodeStore) := do
  if challengeVdfsValid E eos ccChallenge subSlotIters slot then
    if ← infusedVdfValid E eos slot then
      return (some ((s.futureIpCache.get? (E.hashRewardChainSubSlot eos.rewardChain)).getD []),
        { s with finishedSubSlots := s.finishedSubSlots++[⟨some eos,noSps E,totalIters⟩] })
    else return (none,s)
  else return (none,s)

def newFinishedSubSlot (s : NodeStore) (eos : EndOfSubSlotBundle) (peak : Option (BlockRecord × FullBlock)) (now : ℕ) :
    Check (Option (List NewInfusionPointVDF) × NodeStore) := do
  let last ← assertSome s.finishedSubSlots.getLast?
  if s.finishedSubSlots.any fun slot => decide (slot.subSlot=some eos) then return (some [],s)
  else if eos.challengeChain.challengeChainEndOfSlotVdf.challenge≠ccAfter E last.subSlot then return (none,s)
  else
    let totalIters ← uint128 (last.startTotalIters+slotIters E peak)
    match peakIn peak last.startTotalIters with
    | some (peak,block) =>
      let iters ← uint64 (totalIters-peak.totalIters)
      if peak.rewardInfusionNewChallenge≠eos.rewardChain.endOfSlotVdf.challenge then
        return (none,s.cacheEos eos now)
      else
        let icc ← iccOfPeak E V peak totalIters
        if ← sesAgrees E V peak block eos then
          finishSlot E s eos (ccAfter E last.subSlot) peak.subSlotIters totalIters
            ⟨peak.rewardInfusionNewChallenge,peak.challengeVdfOutput,iccStartOfPeak E peak,icc,iters⟩
        else return (none,s)
    | none =>
      finishSlot E s eos (ccAfter E last.subSlot) (slotIters E peak) totalIters
        ⟨rcAfter E last.subSlot,ClassgroupElement.getDefaultElement,some ClassgroupElement.getDefaultElement,
          (iccAfter E last.subSlot).map (·,slotIters E peak),slotIters E peak⟩

def newSignagePoint (s : NodeStore) (index : ℕ) (peak : Option BlockRecord) (nextSubSlotIters : ℕ)
    (signagePoint : SignagePoint) (skipVdfValidation : Bool) (now : ℕ) : Check (Bool × NodeStore) := do
  let (added,sps) ← s.toSignagePointStore.newSignagePoint E V index peak nextSubSlotIters signagePoint
    skipVdfValidation now
  return (added,{ s with toSignagePointStore := sps })

/-- The signage points of a stored sub-slot that are before the fork. -/
def replacedSps (slot : StoredSlot) (intervalIters forkTotalIters : ℕ) : List (Option SignagePoint) :=
  slot.signagePoints.mapIdx fun i sp => if slot.startTotalIters+i*intervalIters<forkTotalIters then sp else none

/-- What stays of the signage points of a sub-slot, from where it was stored last. -/
def keptSps (s : NodeStore) (intervalIters forkTotalIters : ℕ) (subSlot : Option EndOfSubSlotBundle) :
    List (Option SignagePoint) :=
  match (s.finishedSubSlots.filter fun slot => decide (slot.subSlot≠none ∧ slot.subSlot=subSlot)).getLast? with
  | some slot => replacedSps slot intervalIters forkTotalIters
  | none => noSps E

/-- Runs a computation that leaves the state alone when it raises. -/
def run {α : Type} (f : NodeStore → Check (α × NodeStore)) : Eff NodeStore Fail α := fun s =>
  match f s with
  | .ok (a,s') => (.ok a,s')
  | .error e => (.error e,s)

/-- The signage points of a new peak's two sub-slots; after a change of the iterations none stays.
-/
def spsOfPeak (s : NodeStore) (peak : BlockRecord) (spSubSlot ipSubSlot : Option EndOfSubSlotBundle)
    (forkBlock : Option BlockRecord) : Check (List (Option SignagePoint) × List (Option SignagePoint)) := do
  if ∃ fork∈forkBlock,fork.subSlotIters≠peak.subSlotIters then return (noSps E,noSps E)
  let intervalIters ← calculateSpIntervalIters E.constants peak.subSlotIters
  let forkTotalIters := (forkBlock.getD peak).totalIters
  return (keptSps E s intervalIters forkTotalIters spSubSlot,keptSps E s intervalIters forkTotalIters ipSubSlot)

/-- The sub-slots of the new peak take the place of the stored ones. -/
def replaceSlots (peak : BlockRecord) (spSubSlot ipSubSlot : Option EndOfSubSlotBundle)
    (forkBlock : Option BlockRecord) : Eff NodeStore Fail Unit := do
  if ipSubSlot=none then Eff.modify (initializeGenesisSubSlot E)
  else
    let s ← Eff.get
    let sps ← Eff.lift (spsOfPeak E s peak spSubSlot ipSubSlot forkBlock)
    Eff.modify clearSlots
    let prevTotalIters ← Eff.lift (peak.spSubSlotTotalIters E.constants)
    if spSubSlot≠none ∨ prevTotalIters=0 then
      Eff.lift (assertThat (peak.overflow ∨ prevTotalIters≠0))
      Eff.modify fun s => { s with finishedSubSlots := s.finishedSubSlots++[⟨spSubSlot,sps.1,prevTotalIters⟩] }
    let totalIters ← Eff.lift (peak.ipSubSlotTotalIters E.constants)
    Eff.modify fun s => { s with finishedSubSlots := s.finishedSubSlots++[⟨ipSubSlot,sps.2,totalIters⟩] }

/-- The first bundle that waited for the peak and can be added. -/
def addWaitingEos (peak : BlockRecord) (block : FullBlock) (now : ℕ) :
    List EndOfSubSlotBundle → Eff NodeStore Fail (Option EndOfSubSlotBundle)
  | [] => return none
  | eos::more => do
    let added ← run fun s => s.newFinishedSubSlot E V eos (some (peak,block)) now
    if added.isSome then return some eos else addWaitingEos peak block now more

/-- The signage points that waited for the peak and can be added. -/
def addWaitingSps (peak : BlockRecord) (now : ℕ) :
    List (ℕ × SignagePoint) → Eff NodeStore Fail (List (ℕ × SignagePoint))
  | [] => return []
  | (index,sp)::more => do
    let _ ← Eff.lift (assertSome sp.ccVdf)
    let added ← run fun s => s.newSignagePoint E V index (some peak) peak.subSlotIters sp false now
    let newSps ← addWaitingSps peak now more
    return if added then (index,sp)::newSps else newSps

def newPeak (peak : BlockRecord) (block : FullBlock) (spSubSlot ipSubSlot : Option EndOfSubSlotBundle)
    (forkBlock : Option BlockRecord) (now : ℕ) : Eff NodeStore Fail
      (Option EndOfSubSlotBundle × List (ℕ × SignagePoint) × List NewInfusionPointVDF) := do
  let ch := peak.rewardInfusionNewChallenge
  Eff.lift (assertThat ((← Eff.get).finishedSubSlots.length ≥ 1))
  replaceSlots E peak spSubSlot ipSubSlot forkBlock
  let newEos ← addWaitingEos E V peak block now (((← Eff.get).futureEosCache.get? ch).getD [])
  let newSps ← addWaitingSps E V peak now (((← Eff.get).futureSpCache.get? ch).getD [])
  let newIps := ((← Eff.get).futureIpCache.get? ch).getD []
  Eff.modify fun s => { s with
    futureEosCache := s.futureEosCache.erase ch
    futureSpCache := s.futureSpCache.erase ch
    futureIpCache := s.futureIpCache.erase ch }
  return (newEos,newSps,newIps)

/-- The last challenge of the challenge chain up to a block. -/
def lastChallengeOf (prevB : BlockRecord) : Check Bytes32 := do
  let curr ← V.walkBack (·.firstInSubSlot) prevB
  let hashes ← assertSome curr.finishedChallengeSlotHashes
  index hashes.getLast?

def challengeInChain (s : NodeStore) (prevB : Option BlockRecord) : Check Bytes32 :=
  match prevB with
  | none => do
    -- the first sub-slot has no bundle before it
    let first ← index s.finishedSubSlots[0]?
    assertThat (first.subSlot=none)
    return E.genesisChallenge
  | some prevB => lastChallengeOf V prevB

/-- The loop over the stored sub-slots; `found` tells whether the connecting challenge was seen. -/
def collectSubSlots (challengeInChain lastChallenge : Bytes32) :
    Bool → List EndOfSubSlotBundle → List StoredSlot → Check (Option (List EndOfSubSlotBundle))
  | _,_,[] => return none
  | found,collected,slot::more => do
    let eos ← assertSome slot.subSlot
    let found := found || decide (eos.challengeChain.challengeChainEndOfSlotVdf.challenge=challengeInChain)
    let collected := if found then collected++[eos] else collected
    if found ∧ E.hashChallengeChainSubSlot eos.challengeChain=lastChallenge then return some collected
    else collectSubSlots challengeInChain lastChallenge found collected more

def getFinishedSubSlots (s : NodeStore) (prevB : Option BlockRecord) (lastChallengeToAdd : Bytes32) :
    Check (Option (List EndOfSubSlotBundle)) := do
  let challenge ← challengeInChain E V s prevB
  if lastChallengeToAdd=challenge then return some []
  else collectSubSlots E challenge lastChallengeToAdd false [] s.finishedSubSlots.tail

/-- The methods that change the sub-slots or what waits for blocks, with the block records at the time. -/
inductive Op
  | addToFutureIp (infusionPoint : NewInfusionPointVDF)
  | addToFutureSp (signagePoint : SignagePoint) (index : ℕ)
  | newFinishedSubSlot (V : BlockView) (eos : EndOfSubSlotBundle) (peak : Option (BlockRecord × FullBlock))
  | newSignagePoint (V : BlockView) (index : ℕ) (peak : Option BlockRecord) (nextSubSlotIters : ℕ)
      (signagePoint : SignagePoint) (skipVdfValidation : Bool)
  | newPeak (V : BlockView) (peak : BlockRecord) (block : FullBlock) (spSubSlot ipSubSlot : Option EndOfSubSlotBundle)
      (forkBlock : Option BlockRecord)
  | clearOldCacheEntries
  | clearSlots
  | initializeGenesisSubSlot

/-- The store after a method at a time, also where it raises. -/
def step (s : NodeStore) (now : ℕ) : Op → NodeStore
  | .addToFutureIp infusionPoint => s.addToFutureIp infusionPoint
  | .addToFutureSp signagePoint index =>
    { s with toSignagePointStore := s.toSignagePointStore.addToFutureSp signagePoint index now }
  | .newFinishedSubSlot V eos peak => (run (fun s => s.newFinishedSubSlot E V eos peak now) s).2
  | .newSignagePoint V index peak next signagePoint skip =>
    (run (fun s => s.newSignagePoint E V index peak next signagePoint skip now) s).2
  | .newPeak V peak block spSubSlot ipSubSlot forkBlock =>
    (newPeak E V peak block spSubSlot ipSubSlot forkBlock now s).2
  | .clearOldCacheEntries => s.clearOldCacheEntries now
  | .clearSlots => s.clearSlots
  | .initializeGenesisSubSlot => s.initializeGenesisSubSlot E

def slots (s : NodeStore) : FullNodeStore NewInfusionPointVDF where
  finishedSubSlots := s.finishedSubSlots.map fun slot => (slot.subSlot,slot.startTotalIters)
  futureEosCache := s.futureEosCache
  futureIpCache := s.futureIpCache

variable {E V} {s : NodeStore} {eos : EndOfSubSlotBundle}

theorem finishSlot_slots (challenge : Bytes32) (iters total : ℕ) (slot : SlotEnd) :
    (finishSlot E s eos challenge iters total slot).map (fun r => (r.1,r.2.slots)) =
      FullNodeStore.finishSlot E s.slots eos challenge iters total slot := by
  unfold finishSlot FullNodeStore.finishSlot
  split_ifs
  · cases infusedVdfValid E eos slot with
    | error e => rfl
    | ok valid => cases valid <;> simp [bind,Except.bind,pure,Except.pure,Except.map,slots]
  · rfl

theorem map_bind {α β γ : Type} (x : Check α) (f : α → Check β) (g : β → γ) :
    (x >>= f).map g=x >>= fun a => (f a).map g := by
  cases x <;> rfl

theorem newFinishedSubSlot_slots (peak : Option (BlockRecord × FullBlock)) (now : ℕ) :
    (s.newFinishedSubSlot E V eos peak now).map (fun r => (r.1,r.2.slots)) =
      FullNodeStore.newFinishedSubSlot E V s.slots eos peak := by
  unfold newFinishedSubSlot FullNodeStore.newFinishedSubSlot
  have hlast : s.slots.finishedSubSlots.getLast? =
      s.finishedSubSlots.getLast?.map fun slot => (slot.subSlot,slot.startTotalIters) := List.getLast?_map
  have hany : (s.slots.finishedSubSlots.any fun slot => decide (slot.1=some eos)) =
      s.finishedSubSlots.any fun slot => decide (slot.subSlot=some eos) := List.any_map
  rw [hlast,hany]
  cases s.finishedSubSlots.getLast? with
  | none => rfl
  | some last =>
    have hsome : assertSome (some last) = .ok last := rfl
    have hsome' : assertSome ((some last).map fun slot => (slot.subSlot,slot.startTotalIters)) =
        .ok (last.subSlot,last.startTotalIters) := rfl
    rw [bind_of_ok hsome,bind_of_ok hsome']
    dsimp only
    split_ifs
    · rfl
    · rfl
    · rw [map_bind]
      apply bind_congr
      intro total
      cases peakIn peak last.startTotalIters with
      | none => exact finishSlot_slots _ _ _ _
      | some p =>
        dsimp only
        rw [map_bind]
        apply bind_congr
        intro iters
        split_ifs
        · rfl
        · rw [map_bind]
          apply bind_congr
          intro icc
          rw [map_bind]
          apply bind_congr
          intro agrees
          cases agrees
          · rfl
          · exact finishSlot_slots _ _ _ _

end NodeStore
end RoseChain
