import RoseChain.Util.Streamable
import RoseChain.Types.Condition

namespace RoseChain
open Lib

/-- A dictionary has the fields of a class in their order, under their names. -/
inductive Json
  | null
  | bool (b : Bool)
  | int (n : ℤ)
  | str (text : List CodePoint)
  | list (items : List Json)
  | dict (fields : List Json)

/-- `ValueError`, `TypeError` and `IndexError`. -/
inductive JsonErr
  | value | type | index
  deriving DecidableEq

/-- `unhashable_types`. -/
inductive UnhashableType
  | privateKey | g1Element | g2Element | program | serializedProgram
  deriving DecidableEq

/-- What comes from elsewhere: the unhashable types, `int(text)`, and `str(d)` of what is no string. -/
structure JsonExternal where
  Object : UnhashableType → Type
  fromBytes : (k : UnhashableType) → Bytes → Except JsonErr (Object k)
  toBytes : (k : UnhashableType) → Object k → Bytes
  intOfText : List CodePoint → Except JsonErr ℤ
  textOf : Json → List CodePoint

/-- Types of the fields of a streamable class. In Python an `Optional` of an `Optional` is just the inner one. -/
inductive JsonType
  | int (format : IntFormat)
  | bool
  | str
  | bytes
  | sizedBytes (size : ℕ)
  | conditionOpcode
  | unhashable (kind : UnhashableType)
  | optional (inner : JsonType)
  | list (inner : JsonType)
  | tuple (inner : List JsonType)
  | streamable (fields : List JsonType)

variable (X : JsonExternal)

mutual

def JsonType.Value : JsonType → Type
  | .int F => F.Value
  | .bool => Bool
  | .str => List CodePoint
  | .bytes => Bytes
  | .sizedBytes size => {b : Bytes // b.length=size}
  | .conditionOpcode => ConditionOpcode
  | .unhashable kind => X.Object kind
  | .optional t => Option (JsonType.Value t)
  | .list t => List (JsonType.Value t)
  | .tuple ts => JsonType.Values ts
  | .streamable ts => JsonType.Values ts

def JsonType.Values : List JsonType → Type
  | [] => Unit
  | t::ts => JsonType.Value t × JsonType.Values ts

end

def ascii (n : ℕ) : CodePoint := ⟨n % 0x110000,Nat.mod_lt n (by decide)⟩

def hexDigit (n : ℕ) : CodePoint := ascii (if n<10 then 48+n else 87+n)

def hexValue (c : CodePoint) : Option ℕ :=
  if 48 ≤ c.val ∧ c.val≤57 then some (c.val-48)
  else if 97 ≤ c.val ∧ c.val≤102 then some (c.val-87)
  else if 65 ≤ c.val ∧ c.val≤70 then some (c.val-55)
  else none

/-- `b.hex()`. -/
def hex (b : Bytes) : List CodePoint := b.flatMap fun x => [hexDigit (x.toNat / 16),hexDigit (x.toNat % 16)]

/-- `f"0x{b.hex()}"`. -/
def hexText (b : Bytes) : List CodePoint := ascii 48::ascii 120::hex b

def isSpace (c : CodePoint) : Bool := decide (c.val=32 ∨ 9 ≤ c.val ∧ c.val≤13)

/-- `bytes.fromhex`: two digits a byte, white space between bytes left out. -/
def fromhex : List CodePoint → Except JsonErr Bytes
  | [] => .ok []
  | [c] => if isSpace c then .ok [] else .error .value
  | c::d::rest =>
    if isSpace c then fromhex (d::rest)
    else
      match hexValue c,hexValue d with
      | some high,some low => do return UInt8.ofNat (16*high+low)::(← fromhex rest)
      | _,_ => .error .value

def hexstrToBytes (inputStr : List CodePoint) : Except JsonErr Bytes :=
  let start := inputStr.take 2
  if start=[ascii 48,ascii 120] ∨ start=[ascii 48,ascii 88] then fromhex (inputStr.drop 2) else fromhex inputStr

def ConditionOpcode.name : ConditionOpcode → String
  | unknown => "UNKNOWN"
  | aggSigUnsafe => "AGG_SIG_UNSAFE"
  | aggSigMe => "AGG_SIG_ME"
  | createCoin => "CREATE_COIN"
  | reserveFee => "RESERVE_FEE"
  | createCoinAnnouncement => "CREATE_COIN_ANNOUNCEMENT"
  | assertCoinAnnouncement => "ASSERT_COIN_ANNOUNCEMENT"
  | createPuzzleAnnouncement => "CREATE_PUZZLE_ANNOUNCEMENT"
  | assertPuzzleAnnouncement => "ASSERT_PUZZLE_ANNOUNCEMENT"
  | assertMyCoinId => "ASSERT_MY_COIN_ID"
  | assertMyParentId => "ASSERT_MY_PARENT_ID"
  | assertMyPuzzlehash => "ASSERT_MY_PUZZLEHASH"
  | assertMyAmount => "ASSERT_MY_AMOUNT"
  | assertSecondsRelative => "ASSERT_SECONDS_RELATIVE"
  | assertSecondsAbsolute => "ASSERT_SECONDS_ABSOLUTE"
  | assertHeightRelative => "ASSERT_HEIGHT_RELATIVE"
  | assertHeightAbsolute => "ASSERT_HEIGHT_ABSOLUTE"

namespace StreamableJson

/-- What holds an item: `recurse_jsonify` goes through lists and through dictionaries. -/
inductive Holder
  | list | dict
  deriving DecidableEq

/-- In a dictionary the name of an enumeration is put over the digits. -/
def jsonifyOpcode : Holder → ConditionOpcode → Json
  | .list,op => .str (hexText [op.value])
  | .dict,op => .str (op.name.toList.map Streamable.codePointOfChar)

def jsonifyOptional {α : Type} (jsonifyInner : α → Json) : Option α → Json
  | none => .null
  | some x => jsonifyInner x

mutual

/-- `recurse_jsonify` of `dataclasses.asdict`, at an item of a list or a dictionary. -/
def recurseJsonify (holder : Holder) : (t : JsonType) → t.Value X → Json
  | .int _,n => .int n.val
  | .bool,b => .bool b
  | .str,text => .str text
  | .bytes,b => .str (hexText b)
  | .sizedBytes _,b => .str (hexText b.val)
  | .conditionOpcode,op => jsonifyOpcode holder op
  | .unhashable kind,x => .str (hexText (X.toBytes kind x))
  | .optional t,o => jsonifyOptional (recurseJsonify holder t) o
  | .list t,l => .list (List.map (recurseJsonify .list t) l)
  | .tuple ts,xs => .list (recurseJsonifyItems .list ts xs)
  | .streamable ts,xs => .dict (recurseJsonifyItems .dict ts xs)

def recurseJsonifyItems (holder : Holder) : (ts : List JsonType) → JsonType.Values X ts → List Json
  | [],_ => []
  | t::ts,(x,xs) => recurseJsonify holder t x::recurseJsonifyItems holder ts xs

end

end StreamableJson

/-- `not d`. -/
def Json.falsy : Json → Bool
  | .null => true
  | .bool b => !b
  | .int n => n == 0
  | .str text => text.isEmpty
  | .list items => items.isEmpty
  | .dict fields => fields.isEmpty

/-- `for item in d`, where `d` has to be a list. -/
def Json.getItems : Json → Except JsonErr (List Json)
  | .list items => .ok items
  | _ => .error .type

def Json.getFields : Json → Except JsonErr (List Json)
  | .dict fields => .ok fields
  | _ => .error .type

/-- `hexstr_to_bytes(d)`. -/
def Json.hexBytes : Json → Except JsonErr Bytes
  | .str text => hexstrToBytes text
  | _ => .error .type

namespace StreamableJson

/-- `int(d)`. -/
def intOf : Json → Except JsonErr ℤ
  | .int n => .ok n
  | .bool b => .ok (if b then 1 else 0)
  | .str text => X.intOfText text
  | _ => .error .type

/-- `klass(d)` for a sized integer. -/
def newInt (F : IntFormat) (n : ℤ) : Except JsonErr F.Value :=
  if h : F.lo≤n ∧ n≤F.hi then .ok ⟨n,h⟩ else .error .value

/-- `str(d)`. -/
def strOf : Json → List CodePoint
  | .str text => text
  | d => X.textOf d

def newSizedBytes (size : ℕ) (b : Bytes) : Except JsonErr {b : Bytes // b.length=size} :=
  if h : b.length=size then .ok ⟨b,h⟩ else .error .value

/-- `ConditionOpcode(b)`. -/
def newOpcode (b : Bytes) : Except JsonErr ConditionOpcode :=
  match ConditionOpcode.ofBytes b with
  | some op => .ok op
  | none => .error .value

def optionalFromDict {α : Type} (fromInner : Json → Except JsonErr α) (d : Json) : Except JsonErr (Option α) :=
  if d.falsy then .ok none else do return some (← fromInner d)

def listFromDict {α : Type} (fromInner : Json → Except JsonErr α) (d : Json) : Except JsonErr (List α) := do
  (← d.getItems).mapM fromInner

mutual

def dataclassFromDict : (t : JsonType) → Json → Except JsonErr (t.Value X)
  | .optional t,d => optionalFromDict (dataclassFromDict t) d
  | .tuple ts,d => do dataclassFromItems ts (← d.getItems)
  | .streamable ts,d => do dataclassFromItems ts (← d.getFields)
  | .list t,d => listFromDict (dataclassFromDict t) d
  | .bytes,d => d.hexBytes
  | .sizedBytes size,d => do newSizedBytes size (← d.hexBytes)
  | .conditionOpcode,d => do newOpcode (← d.hexBytes)
  | .unhashable kind,d => do X.fromBytes kind (← d.hexBytes)
  | .int F,d => do newInt F (← intOf X d)
  | .bool,d => .ok !d.falsy
  | .str,d => .ok (strOf X d)

/-- The items of a tuple or the fields of a class, which checks that it gets all of them. -/
def dataclassFromItems : (ts : List JsonType) → List Json → Except JsonErr (JsonType.Values X ts)
  | [],[] => .ok ()
  | [],_::_ => .error .index
  | _::_,[] => .error .value
  | t::ts,d::ds => do
    let x ← dataclassFromDict t d
    let xs ← dataclassFromItems ts ds
    return (x,xs)

end

/-- `to_json_dict` of a class with these fields. -/
def toJsonDict (fields : List JsonType) (x : JsonType.Values X fields) : Json := recurseJsonify X .dict (.streamable fields) x

/-- `from_json_dict`. -/
def fromJsonDict (fields : List JsonType) (jsonDict : Json) : Except JsonErr (JsonType.Values X fields) :=
  dataclassFromDict X (.streamable fields) jsonDict

end StreamableJson
end RoseChain
