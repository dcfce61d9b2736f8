import RoseChain.Util.ConditionTools

namespace RoseChain
open Lib

namespace SExp

def first : SExp → Check SExp
  | .pair a _ => .ok a
  | .atom _ => .error (.raised .value)

def rest : SExp → Check SExp
  | .pair _ b => .ok b
  | .atom _ => .error (.raised .value)

/-- The `atom` attribute, where a pair makes the caller raise. -/
def atomOf : SExp → Check Bytes
  | .atom b => .ok b
  | .pair _ _ => .error (.raised .value)

def asAtomList : SExp → List Bytes
  | .pair (.atom b) r => b::asAtomList r
  | _ => []

end SExp

/-- Integer argument; strict mode refuses two leading zero bytes. -/
def sanitizeInt (n : SExp) (safeMode : Bool) : Check ℤ := do
  let buf ← n.atomOf
  reject (safeMode ∧ buf.length > 2 ∧ buf[0]?=some 0 ∧ buf[1]?=some 0) .invalidCondition
  return intFromBytes buf

def parseAggsig (args : SExp) : Check (List Bytes) := do
  let pubkey ← args.first
  let args ← args.rest
  let message ← args.first
  -- the length of a pair raises
  let pubkey ← pubkey.atomOf
  reject (pubkey.length≠48) .invalidCondition
  let message ← message.atomOf
  reject (message.length > 1024) .invalidCondition
  return [pubkey,message]

def parseCreateCoin (args : SExp) (safeMode : Bool) : Check (List Bytes) := do
  let puzzleHash ← (← args.first).atomOf
  let args ← args.rest
  reject (puzzleHash.length≠32) .invalidCondition
  let amountInt ← sanitizeInt (← args.first) safeMode
  reject (amountInt ≥ 2^64) .coinAmountExceedsMaximum
  reject (amountInt<0) .coinAmountNegative
  return [puzzleHash,intToBytes amountInt]

def parseSeconds (args : SExp) (safeMode : Bool) (errorCode : Err) : Check (Option (List Bytes)) := do
  let secondsInt ← sanitizeInt (← args.first) safeMode
  if secondsInt≤0 then return none
  reject (secondsInt ≥ 2^64) errorCode
  return some [intToBytes secondsInt]

def parseHeight (args : SExp) (safeMode : Bool) (errorCode : Err) : Check (Option (List Bytes)) := do
  let heightInt ← sanitizeInt (← args.first) safeMode
  if heightInt<0 then return none
  reject (heightInt ≥ 2^32) errorCode
  return some [intToBytes heightInt]

def parseFee (args : SExp) (safeMode : Bool) : Check (List Bytes) := do
  let feeInt ← sanitizeInt (← args.first) safeMode
  reject (feeInt ≥ 2^64 ∨ feeInt<0) .reserveFeeConditionFailed
  return [intToBytes feeInt]

def parseHash (args : SExp) (errorCode : Err) : Check (List Bytes) := do
  let h ← (← args.first).atomOf
  reject (h.length≠32) errorCode
  return [h]

def parseAmount (args : SExp) (safeMode : Bool) : Check (List Bytes) := do
  let amountInt ← sanitizeInt (← args.first) safeMode
  reject (amountInt<0) .assertMyAmountFailed
  reject (amountInt ≥ 2^64) .assertMyAmountFailed
  return [intToBytes amountInt]

def parseAnnouncement (args : SExp) : Check (List Bytes) := do
  let msg ← (← args.first).atomOf
  reject (msg.length > 1024) .invalidCondition
  return [msg]

/-- `none` when the condition is inherently true. -/
def parseConditionArgs (args : SExp) (condition : ConditionOpcode) (safeMode : Bool) :
    Check (ℕ × Option (List Bytes)) := do
  let vars ← match condition with
    | .aggSigUnsafe | .aggSigMe => some <$> parseAggsig args
    | .createCoin => some <$> parseCreateCoin args safeMode
    | .assertSecondsAbsolute => parseSeconds args safeMode .assertSecondsAbsoluteFailed
    | .assertSecondsRelative => parseSeconds args safeMode .assertSecondsRelativeFailed
    | .assertHeightAbsolute => parseHeight args safeMode .assertHeightAbsoluteFailed
    | .assertHeightRelative => parseHeight args safeMode .assertHeightRelativeFailed
    | .assertMyCoinId => some <$> parseHash args .assertMyCoinIdFailed
    | .reserveFee => some <$> parseFee args safeMode
    | .createCoinAnnouncement => some <$> parseAnnouncement args
    | .assertCoinAnnouncement => some <$> parseHash args .assertAnnounceConsumedFailed
    | .createPuzzleAnnouncement => some <$> parseAnnouncement args
    | .assertPuzzleAnnouncement => some <$> parseHash args .assertAnnounceConsumedFailed
    | .assertMyParentId => some <$> parseHash args .assertMyParentIdFailed
    | .assertMyPuzzlehash => some <$> parseHash args .assertMyPuzzlehashFailed
    | .assertMyAmount => some <$> parseAmount args safeMode
    | .unknown => .error (.invalid .invalidCondition)
  return (condition.cost,vars)

def parseCondition (cond : SExp) (safeMode : Bool) : Check (ℕ × Option ConditionWithArgs) := do
  match (← cond.first) with
  | .atom blob =>
    match ConditionOpcode.ofBytes blob with
    | some opcode =>
      let (cost,args) ← parseConditionArgs (← cond.rest) opcode safeMode
      return (cost,args.map fun vars => ⟨opcode,vars⟩)
    | none => unknownCondition
  -- a pair is no opcode either
  | .pair _ _ => unknownCondition
where
  unknownCondition : Check (ℕ × Option ConditionWithArgs) := do
    reject (safeMode=true) .invalidCondition
    return (0,some ⟨.unknown,(← cond.rest).asAtomList⟩)

/-- The conditions of one spend, and what is left of the cost limit. -/
def parseConditions (safeMode : Bool) : SExp → ℤ → Check (List ConditionWithArgs × ℤ)
  | .atom b,maxCost => do
    -- the iteration ends at the empty atom and raises at any other
    if b=[] then return ([],maxCost) else .error (.raised .value)
  | .pair cond tail,maxCost => do
    let (cost,cvl) ← parseCondition cond safeMode
    reject (maxCost-cost<0) .invalidBlockCost
    let (more,left) ← parseConditions safeMode tail (maxCost-cost)
    return (cvl.toList++more,left)

variable (E : Env)

/-- One entry of the generator's result: parent, puzzle hash, amount and conditions of a spend. -/
def parseSpend (safeMode : Bool) (res : SExp) (maxCost : ℤ) : Check (NPC × ℤ) := do
  let parent ← (← res.first).atomOf
  reject (parent.length≠32) .invalidCondition
  let res ← res.rest
  let puzzleHash ← (← res.first).atomOf
  reject (puzzleHash.length≠32) .invalidCondition
  let res ← res.rest
  let amount ← uint64 (← sanitizeInt (← res.first) safeMode)
  let res ← res.rest
  let (conditions,left) ← parseConditions safeMode (← res.first) maxCost
  let spentCoin : Coin := ⟨toBytes32 parent,toBytes32 puzzleHash,amount⟩
  return (⟨E.coinName spentCoin,toBytes32 puzzleHash,(conditionsByOpcode conditions).entries⟩,left)

def parseSpends (safeMode : Bool) : SExp → ℤ → Check (List NPC)
  | .atom b,_ => do if b=[] then return [] else .error (.raised .value)
  | .pair res tail,maxCost => do
    let (npc,left) ← parseSpend E safeMode res maxCost
    return npc::(← parseSpends safeMode tail left)

/-- Runs the generator within the cost limit and reads the spends off its result. -/
def runGeneratorConditions (generator : BlockGenerator) (maxCost : ℤ) (safeMode : Bool) :
    Check (List NPC × ℕ) := do
  let maxCost := maxCost-generator.program.length*E.costPerByte
  reject (maxCost<0) .invalidBlockCost
  match E.runGenerator safeMode maxCost generator.program generator.generatorRefs with
  | none => .error (.raised .value)
  | some (clvmCost,result) =>
    let maxCost := maxCost-clvmCost
    reject (maxCost<0) .invalidBlockCost
    let npcList ← parseSpends E safeMode (← result.first) maxCost
    return (npcList,← uint64 clvmCost)

def getNamePuzzleConditions (generator : BlockGenerator) (maxCost : ℤ) (safeMode : Bool) : NPCResult :=
  match runGeneratorConditions E generator maxCost safeMode with
  | .ok (npcList,clvmCost) => ⟨none,npcList,clvmCost⟩
  | .error (.invalid e) => ⟨some e,[],0⟩
  | .error (.raised _) => ⟨some .generatorRuntimeError,[],0⟩

/-- The announcement asserted must be among the ones made. -/
def mempoolAssertAnnouncement (condition : ConditionWithArgs) (announcements : List Bytes32) :
    Check Unit := do
  let h ← index condition.vars[0]?
  raiseIf (h.length≠32)
  reject (¬ announcements.any fun a => bytes32 a=h) .assertAnnounceConsumedFailed

def mempoolAssertMyCoinId (condition : ConditionWithArgs) (unspent : CoinRecord) : Check Unit := do
  let h ← index condition.vars[0]?
  reject (bytes32 (E.coinName unspent.coin)≠h) .assertMyCoinIdFailed

def mempoolAssertAbsoluteBlockHeightExceeds (condition : ConditionWithArgs)
    (prevTransactionBlockHeight : ℕ) : Check Unit := do
  let blockIndexExceedsThis := intFromBytes (← index condition.vars[0]?)
  reject ((prevTransactionBlockHeight : ℤ)<blockIndexExceedsThis) .assertHeightAbsoluteFailed

def mempoolAssertRelativeBlockHeightExceeds (condition : ConditionWithArgs) (unspent : CoinRecord)
    (prevTransactionBlockHeight : ℕ) : Check Unit := do
  let expectedBlockAge := intFromBytes (← index condition.vars[0]?)
  reject ((prevTransactionBlockHeight : ℤ)<expectedBlockAge+unspent.confirmedBlockIndex)
    .assertHeightRelativeFailed

def mempoolAssertAbsoluteTimeExceeds (condition : ConditionWithArgs) (timestamp : ℕ) :
    Check Unit := do
  let expectedSeconds := intFromBytes (← index condition.vars[0]?)
  reject ((timestamp : ℤ)<expectedSeconds) .assertSecondsAbsoluteFailed

def mempoolAssertRelativeTimeExceeds (condition : ConditionWithArgs) (unspent : CoinRecord)
    (timestamp : ℕ) : Check Unit := do
  let expectedSeconds := intFromBytes (← index condition.vars[0]?)
  reject ((timestamp : ℤ)<expectedSeconds+unspent.timestamp) .assertSecondsRelativeFailed

def mempoolAssertMyParentId (condition : ConditionWithArgs) (unspent : CoinRecord) : Check Unit := do
  let h ← index condition.vars[0]?
  reject (bytes32 unspent.coin.parentCoinInfo≠h) .assertMyParentIdFailed

def mempoolAssertMyPuzzlehash (condition : ConditionWithArgs) (unspent : CoinRecord) :
    Check Unit := do
  let h ← index condition.vars[0]?
  reject (bytes32 unspent.coin.puzzleHash≠h) .assertMyPuzzlehashFailed

def mempoolAssertMyAmount (condition : ConditionWithArgs) (unspent : CoinRecord) : Check Unit := do
  let amount := intFromBytes (← index condition.vars[0]?)
  reject ((unspent.coin.amount : ℤ)≠amount) .assertMyAmountFailed

/-- One condition against the coin it is about and the chain it is spent on. -/
def mempoolCheckCondition (unspent : CoinRecord) (coinAnnouncementNames : List Bytes32)
    (puzzleAnnouncementNames : List Bytes32) (prevTransactionBlockHeight timestamp : ℕ)
    (cvp : ConditionWithArgs) : Check Unit :=
  match cvp.opcode with
  | .assertMyCoinId => mempoolAssertMyCoinId E cvp unspent
  | .assertCoinAnnouncement => mempoolAssertAnnouncement cvp coinAnnouncementNames
  | .assertPuzzleAnnouncement => mempoolAssertAnnouncement cvp puzzleAnnouncementNames
  | .assertHeightAbsolute => mempoolAssertAbsoluteBlockHeightExceeds cvp prevTransactionBlockHeight
  | .assertHeightRelative =>
    mempoolAssertRelativeBlockHeightExceeds cvp unspent prevTransactionBlockHeight
  | .assertSecondsAbsolute => mempoolAssertAbsoluteTimeExceeds cvp timestamp
  | .assertSecondsRelative => mempoolAssertRelativeTimeExceeds cvp unspent timestamp
  | .assertMyParentId => mempoolAssertMyParentId cvp unspent
  | .assertMyPuzzlehash => mempoolAssertMyPuzzlehash cvp unspent
  | .assertMyAmount => mempoolAssertMyAmount cvp unspent
  | _ => return ()

def mempoolCheckConditionsDict (unspent : CoinRecord) (coinAnnouncementNames : List Bytes32)
    (puzzleAnnouncementNames : List Bytes32)
    (conditionsDict : Dict ConditionOpcode (List ConditionWithArgs))
    (prevTransactionBlockHeight timestamp : ℕ) : Check Unit :=
  conditionsDict.values.forM fun conList =>
    conList.forM (mempoolCheckCondition E unspent coinAnnouncementNames puzzleAnnouncementNames
      prevTransactionBlockHeight timestamp)

end RoseChain
