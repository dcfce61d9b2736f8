import RoseChain.Consensus.Constants

namespace RoseChain
open Lib

/-- Groups conditions by opcode, in the order of first appearance. -/
def conditionsByOpcode (conditions : List ConditionWithArgs) :
    Dict ConditionOpcode (List ConditionWithArgs) :=
  conditions.foldl (fun d cvp => d.set cvp.opcode ((d.get? cvp.opcode).getD []++[cvp])) Dict.empty

/-- `condition_dict.get(opcode, [])`. -/
def NPC.conditionsFor (npc : NPC) (op : ConditionOpcode) : List ConditionWithArgs :=
  (npc.conditionDict.get? op).getD []

def createdOutputsForConditionsDict (npc : NPC) : Check (List Coin) :=
  (npc.conditionsFor .createCoin).mapM fun cvp => do
    let puzzleHash ← index cvp.vars[0]?
    let amountBin ← index cvp.vars[1]?
    let amount ← uint64 (intFromBytes amountBin)
    return ⟨npc.coinName,toBytes32 puzzleHash,amount⟩

def additionsForNpc (npcList : List NPC) : Check (List Coin) := do
  let additions ← npcList.mapM createdOutputsForConditionsDict
  return additions.flatten

/-- Farmer and pool rewards are not among the additions. -/
def txRemovalsAndAdditions (npcList : List NPC) : Check (List Bytes32 × List Coin) := do
  let additions ← additionsForNpc npcList
  return (npcList.map (·.coinName),additions)

variable (E : Env)

/-- Names of the announcements made under one opcode; `origin` says who announces. -/
def announcementNames (op : ConditionOpcode) (origin : NPC → Bytes32) (npcList : List NPC) :
    Check (List Bytes32) := do
  let names ← npcList.mapM fun npc =>
    ((npc.conditions.filter fun c => c.1=op).flatMap (·.2)).mapM fun cvp => do
      let message ← index cvp.vars[0]?
      assertThat (message.length≤1024)
      return E.stdHash (bytes32 (origin npc)++message)
  return names.flatten

def coinAnnouncementsNamesForNpc : List NPC → Check (List Bytes32) :=
  announcementNames E .createCoinAnnouncement (·.coinName)

def puzzleAnnouncementsNamesForNpc : List NPC → Check (List Bytes32) :=
  announcementNames E .createPuzzleAnnouncement (·.puzzleHash)

/-- Key and message of one signature condition; `suffix` is what gets appended to the message. -/
def pkmPair (suffix : Bytes) (cwa : ConditionWithArgs) : Check (G1Element × Bytes) := do
  assertThat (cwa.vars.length=2)
  let pk ← index cwa.vars[0]?
  let message ← index cwa.vars[1]?
  assertThat (pk.length=48 ∧ message.length≤1024)
  match E.g1FromBytes pk with
  | some key => return (key,message++suffix)
  | none => .error (.raised .value)

def pkmPairsForConditionsDict (npc : NPC) (additionalData : Bytes) :
    Check (List (G1Element × Bytes)) := do
  let unsafes ← (npc.conditionsFor .aggSigUnsafe).mapM (pkmPair E [])
  let mes ← (npc.conditionsFor .aggSigMe).mapM (pkmPair E (bytes32 npc.coinName++additionalData))
  return unsafes++mes

/-- Cost of the CLVM run, of the conditions and of the size of the program. -/
def calculateCostOfProgram (program : SerializedProgram) (r : NPCResult) : Check ℕ :=
  let conditions := r.npcList.map fun npc =>
    (npc.conditionDict.entries.map fun c => c.2.length*c.1.cost).sum
  uint64 ((r.clvmCost+conditions.sum+program.length*E.costPerByte : ℕ) : ℤ)

end RoseChain
