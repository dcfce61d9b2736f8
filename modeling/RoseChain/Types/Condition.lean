import RoseChain.Types.Block
import RoseChain.Lib.Dict

namespace RoseChain
open Lib

/-- A CLVM value. -/
inductive SExp
  | atom (b : Bytes)
  | pair (first rest : SExp)
  deriving DecidableEq

inductive ConditionOpcode
  | unknown | aggSigUnsafe | aggSigMe | createCoin | reserveFee | createCoinAnnouncement
  | assertCoinAnnouncement | createPuzzleAnnouncement | assertPuzzleAnnouncement | assertMyCoinId
  | assertMyParentId | assertMyPuzzlehash | assertMyAmount | assertSecondsRelative
  | assertSecondsAbsolute | assertHeightRelative | assertHeightAbsolute
  deriving DecidableEq

namespace ConditionOpcode

def value : ConditionOpcode → UInt8
  | unknown => 48 | aggSigUnsafe => 49 | aggSigMe => 50 | createCoin => 51 | reserveFee => 52
  | createCoinAnnouncement => 60 | assertCoinAnnouncement => 61 | createPuzzleAnnouncement => 62
  | assertPuzzleAnnouncement => 63 | assertMyCoinId => 70 | assertMyParentId => 71
  | assertMyPuzzlehash => 72 | assertMyAmount => 73 | assertSecondsRelative => 80
  | assertSecondsAbsolute => 81 | assertHeightRelative => 82 | assertHeightAbsolute => 83

def all : List ConditionOpcode :=
  [unknown,aggSigUnsafe,aggSigMe,createCoin,reserveFee,createCoinAnnouncement,
    assertCoinAnnouncement,createPuzzleAnnouncement,assertPuzzleAnnouncement,assertMyCoinId,
    assertMyParentId,assertMyPuzzlehash,assertMyAmount,assertSecondsRelative,
    assertSecondsAbsolute,assertHeightRelative,assertHeightAbsolute]

/-- `ConditionOpcode(blob)`, when the bytes are those of an opcode. -/
def ofBytes (blob : Bytes) : Option ConditionOpcode := all.find? fun op => decide ([op.value]=blob)

/-- `ConditionCost`; unknown conditions cost nothing. -/
def cost : ConditionOpcode → ℕ
  | aggSigUnsafe | aggSigMe => 1200
  | createCoin => 1800
  | _ => 0

end ConditionOpcode

structure ConditionWithArgs where
  opcode : ConditionOpcode
  vars : List Bytes
  deriving DecidableEq

/-- Name, puzzle hash and conditions of one spent coin. -/
structure NPC where
  coinName : Bytes32
  puzzleHash : Bytes32
  conditions : List (ConditionOpcode × List ConditionWithArgs)
  deriving DecidableEq

def NPC.conditionDict (n : NPC) : Dict ConditionOpcode (List ConditionWithArgs) :=
  n.conditions.foldl (fun d c => d.set c.1 c.2) Dict.empty

structure NPCResult where
  error : Option Err
  npcList : List NPC
  clvmCost : ℕ
  deriving DecidableEq

/-- `int.from_bytes(blob, "big", signed=True)`. -/
def intFromBytes (b : Bytes) : ℤ :=
  match b with
  | [] => 0
  | x::_ => if x<128 then (natOfBytes b : ℤ) else (natOfBytes b : ℤ)-256^b.length

def bytesOfNat (n : ℕ) : Bytes := (Nat.digits 256 n).reverse.map UInt8.ofNat

/-- Shortest signed big-endian bytes of an integer, none for zero. -/
def intToBytes (z : ℤ) : Bytes :=
  match z with
  | .ofNat n =>
    match bytesOfNat n with
    | [] => []
    | x::t => if x<128 then x::t else 0::x::t
  | .negSucc n =>
    -- the complement of `n`, which is `-z - 1`
    match bytesOfNat n with
    | [] => [255]
    | x::t => if x<128 then (x::t).map (255 - ·) else 255::(x::t).map (255 - ·)

end RoseChain
