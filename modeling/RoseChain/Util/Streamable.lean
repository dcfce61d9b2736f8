import RoseChain.Lib.Codec
import RoseChain.Types.Basic

namespace RoseChain
open Lib

/-- `n.to_bytes(width, "big")`. -/
def bigEndian (width n : ℕ) : Bytes := (List.range width).map fun i => UInt8.ofNat (n / 256^(width-1-i))

/-- A sized integer type: its encoding, and a range that the encoding can hold. -/
structure IntFormat where
  width : ℕ
  signed : Bool
  lo : ℤ
  hi : ℤ
  lo_fits : if signed then -256^width≤2*lo else 0≤lo
  hi_fits : if signed then 2*hi<256^width else hi<256^width

namespace IntFormat

def int8 : IntFormat := ⟨1,true,-2^7,2^7-1,by decide,by decide⟩
def uint8 : IntFormat := ⟨1,false,0,2^8-1,by decide,by decide⟩
def int16 : IntFormat := ⟨2,true,-2^15,2^15-1,by decide,by decide⟩
def uint16 : IntFormat := ⟨2,false,0,2^16-1,by decide,by decide⟩
def int32 : IntFormat := ⟨4,true,-2^31,2^31-1,by decide,by decide⟩
def uint32 : IntFormat := ⟨4,false,0,2^32-1,by decide,by decide⟩
def int64 : IntFormat := ⟨8,true,-2^63,2^63-1,by decide,by decide⟩
def uint64 : IntFormat := ⟨8,false,0,2^64-1,by decide,by decide⟩
def uint128 : IntFormat := ⟨16,false,0,2^128-1,by decide,by decide⟩

/-- One byte more than the range needs, and no minimum of two's complement. -/
def int512 : IntFormat := ⟨65,true,-2^512+1,2^512-1,by decide +kernel,by decide +kernel⟩

variable (F : IntFormat)

def Value : Type := {n : ℤ // F.lo≤n ∧ n≤F.hi}

/-- `__new__`, which checks the range; `parse` asserts it before, where it does. -/
def new (n : ℤ) : Check F.Value :=
  if h : F.lo≤n ∧ n≤F.hi then .ok ⟨n,h⟩ else .error (.raised .value)

/-- `struct.pack`, or `to_bytes(width, "big", signed=signed)`. -/
def pack (n : ℤ) : Bytes := bigEndian F.width (n % 256^F.width).toNat

/-- `struct.unpack`, or `from_bytes(b, "big", signed=signed)`. -/
def unpack (b : Bytes) : ℤ :=
  if F.signed ∧ 256^b.length≤2*natOfBytes b then natOfBytes b-256^b.length else natOfBytes b

end IntFormat

/-- The types with a `from_bytes` of their own and a fixed size. -/
inductive SizeHint
  | privateKey | g1Element | g2Element
  deriving DecidableEq

def SizeHint.size : SizeHint → ℕ
  | .privateKey => 32
  | .g1Element => 48
  | .g2Element => 96

/-- What comes from other packages: the BLS elements and the scanner of serialized programs. -/
structure External where
  Element : SizeHint → Type
  fromBytes : (k : SizeHint) → Bytes → Check (Element k)
  toBytes : (k : SizeHint) → Element k → Bytes
  serializedLength : Bytes → Check ℕ

/-- Types of the fields of a streamable class. -/
inductive FieldType
  | int (format : IntFormat)
  | bool
  | bytes
  | sizedBytes (size : ℕ)
  | str
  | sizeHint (kind : SizeHint)
  | serializedProgram
  | optional (inner : FieldType)
  | list (inner : FieldType)
  | tuple (inner : List FieldType)
  | streamable (fields : List FieldType)

/-- A character of a Python string, which may be a surrogate. -/
abbrev CodePoint := Fin 0x110000

variable (X : External)

mutual

def FieldType.Value : FieldType → Type
  | .int F => F.Value
  | .bool => Bool
  | .bytes => Bytes
  | .sizedBytes size => {b : Bytes // b.length=size}
  | .str => List CodePoint
  | .sizeHint kind => X.Element kind
  | .serializedProgram => Bytes
  | .optional t => Option (FieldType.Value t)
  | .list t => List (FieldType.Value t)
  | .tuple ts => FieldType.Values ts
  | .streamable ts => FieldType.Values ts

def FieldType.Values : List FieldType → Type
  | [] => Unit
  | t::ts => FieldType.Value t × FieldType.Values ts

end

namespace Streamable

/-- `f.read(n)`: fewer bytes at the end of the stream. -/
def read (n : ℕ) : Reader UInt8 Fail Bytes := fun s => .ok (s.take n,s.drop n)

def readExactly (n : ℕ) : Reader UInt8 Fail Bytes := do
  let b ← read n
  assertThat (b.length=n)
  return b

def parseInt (F : IntFormat) : Reader UInt8 Fail F.Value := do
  let readBytes ← readExactly F.width
  F.new (F.unpack readBytes)

def flag (b : Bytes) : Check Bool :=
  if b=[0] then .ok false else if b=[1] then .ok true else .error (.raised .value)

def parseBool : Reader UInt8 Fail Bool := do
  let boolByte ← readExactly 1
  flag boolByte

def parseOptional {α : Type} (parseInnerType : Reader UInt8 Fail α) : Reader UInt8 Fail (Option α) := do
  let isPresentBytes ← readExactly 1
  let isPresent ← flag isPresentBytes
  if isPresent then
    let item ← parseInnerType
    return some item
  else return none

/-- The four bytes before a string of bytes, a list or a text. -/
def parseSize : Reader UInt8 Fail ℕ := do return natOfBytes (← readExactly 4)

def parseBytes : Reader UInt8 Fail Bytes := do
  let listSize ← parseSize
  readExactly listSize

def parseList {α : Type} (parseInnerType : Reader UInt8 Fail α) : Reader UInt8 Fail (List α) := do
  let listSize ← parseSize
  Reader.many parseInnerType listSize

/-- `__new__` of the fixed-size bytes. -/
def sizedBytes (size : ℕ) (b : Bytes) : Check {b : Bytes // b.length=size} :=
  if h : b.length=size then .ok ⟨b,h⟩ else .error (.raised .value)

def parseSizedBytes (size : ℕ) : Reader UInt8 Fail {b : Bytes // b.length=size} := do
  let b ← readExactly size
  sizedBytes size b

def parseSizeHints (kind : SizeHint) : Reader UInt8 Fail (X.Element kind) := do
  let bytesRead ← readExactly kind.size
  X.fromBytes kind bytesRead

def codePointOfChar (c : Char) : CodePoint := Fin.ofNat 0x110000 c.toNat

/-- `bytes.decode(b, "utf-8")`. -/
def decodeUtf8 (b : Bytes) : Check (List CodePoint) :=
  match b.toByteArray.utf8Decode? with
  | some text => .ok (text.toList.map codePointOfChar)
  | none => .error (.raised .value)

def parseStr : Reader UInt8 Fail (List CodePoint) := do
  let strSize ← parseSize
  let strReadBytes ← readExactly strSize
  decodeUtf8 strReadBytes

def parseSerializedProgram : Reader UInt8 Fail Bytes := do
  let s ← get
  let length ← X.serializedLength s
  read length

mutual

/-- The parser that `function_to_parse_one_item` gives for a type. -/
def parseOneItem : (t : FieldType) → Reader UInt8 Fail (t.Value X)
  | .int F => parseInt F
  | .bool => parseBool
  | .bytes => parseBytes
  | .sizedBytes size => parseSizedBytes size
  | .str => parseStr
  | .sizeHint kind => parseSizeHints X kind
  | .serializedProgram => parseSerializedProgram X
  | .optional t => parseOptional (parseOneItem t)
  | .list t => parseList (parseOneItem t)
  | .tuple ts => parseItems ts
  | .streamable ts => parseItems ts

def parseItems : (ts : List FieldType) → Reader UInt8 Fail (FieldType.Values X ts)
  | [] => pure ()
  | t::ts => do
    let x ← parseOneItem t
    let xs ← parseItems ts
    return (x,xs)

end

/-- `uint32(n).to_bytes(4, "big")`. -/
def streamSize (n : ℕ) : Check Bytes := do return bigEndian 4 (← uint32 n)

def charOfCodePoint (c : CodePoint) : Option Char :=
  if Nat.isValidChar c then some (Char.ofNat c) else none

/-- `item.encode("utf-8")`. -/
def encodeUtf8 (item : List CodePoint) : Check Bytes :=
  match item.mapM charOfCodePoint with
  | some text => .ok (text.flatMap String.utf8EncodeChar)
  | none => .error (.raised .value)

def streamBytes (item : Bytes) : Check Bytes := do return (← streamSize item.length)++item

def streamBool (item : Bool) : Bytes := [if item then 1 else 0]

def streamOptional {α : Type} (streamInnerType : α → Check Bytes) : Option α → Check Bytes
  | none => .ok [0]
  | some item => do return [1]++(← streamInnerType item)

def streamList {α : Type} (streamInnerType : α → Check Bytes) (item : List α) : Check Bytes := do
  let size ← streamSize item.length
  let elements ← writeAll streamInnerType item
  return size++elements

def streamStr (item : List CodePoint) : Check Bytes := do
  let strBytes ← encodeUtf8 item
  return (← streamSize strBytes.length)++strBytes

mutual

def streamOneItem : (t : FieldType) → t.Value X → Check Bytes
  | .int F,item => .ok (F.pack item.val)
  | .bool,item => .ok (streamBool item)
  | .bytes,item => streamBytes item
  | .sizedBytes _,item => .ok item.val
  | .str,item => streamStr item
  | .sizeHint kind,item => .ok (X.toBytes kind item)
  | .serializedProgram,item => .ok item
  | .optional t,item => streamOptional (streamOneItem t) item
  | .list t,item => streamList (streamOneItem t) item
  | .tuple ts,item => streamItems ts item
  | .streamable ts,item => streamItems ts item

def streamItems : (ts : List FieldType) → FieldType.Values X ts → Check Bytes
  | [],_ => .ok []
  | t::ts,(x,xs) => do
    let b ← streamOneItem t x
    let c ← streamItems ts xs
    return b++c

end

/-- `cls.from_bytes(blob)`, for a class by the types of its fields. -/
def fromBytes (fields : List FieldType) (blob : Bytes) : Check (FieldType.Values X fields) := do
  let (parsed,rest) ← parseItems X fields blob
  assertThat (rest=[])
  return parsed

/-- `bytes(obj)`. -/
def toBytes (fields : List FieldType) (obj : FieldType.Values X fields) : Check Bytes := streamItems X fields obj

end Streamable
end RoseChain
