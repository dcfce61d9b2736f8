import RoseChain.Consensus.ProofOfSpace

namespace RoseChain
open ClassgroupElement
variable (E : Env) (V : BlockView)

/-- Whether an earlier overflow block of the same sub-slot already carries the missing sub-slot. -/
def finalEosIsAlreadyIncluded (finishedSubSlots : List EndOfSubSlotBundle) (prevHeaderHash : Bytes32)
    (totalIters subSlotIters : ℕ) : Check Bool := do
  if finishedSubSlots.length > 0 then return false
  let curr ← V.blockRecord prevHeaderHash
  let near (b : BlockRecord) : Bool :=
    b.overflow && decide ((totalIters : ℤ)-b.totalIters<(subSlotIters / 2 : ℕ))
  back near (curr.height+1) curr (near curr)
where
  back (near : BlockRecord → Bool) : ℕ → BlockRecord → Bool → Check Bool
    | 0,_,_ => .error (.raised .diverged)
    | n+1,curr,seen =>
      if curr.firstInSubSlot then .ok seen
      else if curr.height=0 then .ok false
      else do back near n (← V.blockRecord curr.prevHash) (seen || near curr)

/-- Challenge hashes found going back, until there are enough of them. -/
def reversedChallengeHashes (wanted : ℕ) : ℕ → List Bytes32 → BlockRecord → Check (List Bytes32)
  | 0,_,_ => .error (.raised .diverged)
  | n+1,found,curr =>
    if found.length ≥ wanted then .ok found
    else do
      let found ←
        if curr.firstInSubSlot then do
          let hashes ← assertSome curr.finishedChallengeSlotHashes
          pure (found++hashes.reverse)
        else pure found
      if curr.height=0 then
        let hashes ← assertSome curr.finishedChallengeSlotHashes
        assertThat (hashes.length > 0)
        return found
      reversedChallengeHashes wanted n found (← V.blockRecord curr.prevHash)

def getBlockChallenge (finishedSubSlots : List EndOfSubSlotBundle) (prevHeaderHash : Bytes32)
    (genesisBlock overflow skipOverflowLastSsValidation : Bool) : Check Bytes32 := do
  match finishedSubSlots.getLast? with
  | some last =>
    if overflow ∧ ¬ skipOverflowLastSsValidation then
      return last.challengeChain.challengeChainEndOfSlotVdf.challenge
    else return E.hashChallengeChainSubSlot last.challengeChain
  | none =>
    if genesisBlock then return E.genesisChallenge
    else
      let challengesToLookFor := if overflow ∧ ¬ skipOverflowLastSsValidation then 2 else 1
      let curr ← V.blockRecord prevHeaderHash
      -- one more round than blocks: the last one only sees that there are enough
      let found ← reversedChallengeHashes V challengesToLookFor (curr.height+2) [] curr
      index found[challengesToLookFor-1]?

/-- Challenges, input and iterations of the VDF up to a signage point. -/
structure SignagePointVdfInfo where
  ccVdfChallenge : Bytes32
  rcVdfChallenge : Bytes32
  ccVdfInput : ClassgroupElement
  spVdfIters : ℕ

/-- Start of the VDF when it lies in the sub-slot of `prevB`: at a block, or at the slot's start. -/
def signagePointVdfSameSlot (prevB : BlockRecord) (spTotalIters spIters : ℕ) :
    Check SignagePointVdfInfo := do
  let curr ← V.walkBack (fun b => b.firstInSubSlot || decide (b.totalIters ≤ spTotalIters)) prevB
  let (rc,input,iters) ←
    if curr.totalIters<spTotalIters then
      pure (curr.rewardInfusionNewChallenge,curr.challengeVdfOutput,spTotalIters-curr.totalIters)
    else do
      let hashes ← assertSome curr.finishedRewardSlotHashes
      pure (← index hashes.getLast?,getDefaultElement,spIters)
  let first ← V.walkBack (·.firstInSubSlot) curr
  let hashes ← assertSome first.finishedChallengeSlotHashes
  return ⟨← index hashes.getLast?,rc,input,← uint64 iters⟩

def foundSubSlots (b : BlockRecord) : Check (List (Bytes32 × Bytes32)) := do
  if b.firstInSubSlot then
    let cc ← assertSome b.finishedChallengeSlotHashes
    let rc ← assertSome b.finishedRewardSlotHashes
    return (cc.zip rc).reverse
  else return []

/-- Goes back over two finished slots, noting the first block before the signage point. -/
def lastTwoSubSlots (spTotalIters : ℕ) :
    ℕ → BlockRecord → List (Bytes32 × Bytes32) → Option BlockRecord →
      Check (List (Bytes32 × Bytes32) × Option BlockRecord)
  | 0,_,_,_ => .error (.raised .diverged)
  | n+1,curr,found,spPreSb =>
    let spPreSb :=
      if spPreSb.isNone ∧ curr.totalIters<spTotalIters then some curr else spPreSb
    if found.length<2 ∧ curr.height > 0 then do
      let curr ← V.blockRecord curr.prevHash
      lastTwoSubSlots spTotalIters n curr (found++(← foundSubSlots curr)) spPreSb
    else .ok (found,spPreSb)

def getSignagePointVdfInfo (finishedSubSlots : List EndOfSubSlotBundle) (overflow : Bool)
    (prevB : Option BlockRecord) (spTotalIters spIters : ℕ) : Check SignagePointVdfInfo := do
  let newSubSlot := finishedSubSlots.length > 0
  let fromSlot (s : EndOfSubSlotBundle) : SignagePointVdfInfo :=
    ⟨E.hashChallengeChainSubSlot s.challengeChain,E.hashRewardChainSubSlot s.rewardChain,
      getDefaultElement,spIters⟩
  if newSubSlot ∧ ¬ overflow then
    -- case 1: from the start of this slot
    return fromSlot (← index finishedSubSlots.getLast?)
  else if newSubSlot ∧ overflow ∧ finishedSubSlots.length > 1 then
    -- case 2: from the start of the previous slot, which is empty
    return fromSlot (← index finishedSubSlots[finishedSubSlots.length-2]?)
  else
    match prevB with
    | none => return ⟨E.genesisChallenge,E.genesisChallenge,getDefaultElement,spIters⟩
    | some prev =>
      if newSubSlot ∧ overflow then
        -- case 4: the previous block is in the signage point's sub-slot
        signagePointVdfSameSlot V prev spTotalIters spIters
      else if overflow then
        -- case 5: the previous block is a slot later than the signage point
        let (found,spPreSb) ← lastTwoSubSlots V spTotalIters (prev.height+1) prev
          (← foundSubSlots prev) none
        let second ← index found[1]?
        match spPreSb with
        | some b =>
          return ⟨second.1,b.rewardInfusionNewChallenge,b.challengeVdfOutput,
            ← uint64 (spTotalIters-b.totalIters)⟩
        | none => return ⟨second.1,second.2,getDefaultElement,spIters⟩
      else signagePointVdfSameSlot V prev spTotalIters spIters

end RoseChain
