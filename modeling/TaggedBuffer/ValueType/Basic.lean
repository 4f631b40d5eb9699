import TaggedBuffer.Instances

namespace TaggedBuffer

inductive IntType where
  | int8 | uint8 | int16 | uint16 | int32 | uint32 | int64 | uint64
  deriving DecidableEq, Repr

namespace IntType

def all : List IntType := [int8, uint8, int16, uint16, int32, uint32, int64, uint64]

def isSigned : IntType → Bool
  | int8 | int16 | int32 | int64 => true
  | uint8 | uint16 | uint32 | uint64 => false

def size : IntType → Nat
  | int8 | uint8 => 1
  | int16 | uint16 => 2
  | int32 | uint32 => 4
  | int64 | uint64 => 8

abbrev bits (t : IntType) : Nat := 8 * t.size

def lowest (t : IntType) : Int := if t.isSigned then -2 ^ (t.bits - 1) else 0

def highest (t : IntType) : Int := if t.isSigned then 2 ^ (t.bits - 1) - 1 else 2 ^ t.bits - 1

def toInt (t : IntType) (b : BitVec t.bits) : Int := if t.isSigned then b.toInt else b.toNat

def ofInt? (t : IntType) (v : Int) : Option (BitVec t.bits) :=
  if t.lowest ≤ v ∧ v ≤ t.highest then some (BitVec.ofInt t.bits v) else none

end IntType

/-- How the content of a text value is encoded; `ascii` is single byte text of any bytes. -/
inductive Encoding where
  | ascii | utf8 | unicode
  deriving DecidableEq, Repr

inductive ValueType where
  | unknown
  | bool
  | integer (t : IntType)
  | float
  | double
  | pointer
  | guid
  | text (e : Encoding)
  | binary
  deriving DecidableEq, Repr

namespace ValueType

def all : List ValueType :=
  [unknown, bool] ++ IntType.all.map integer ++
    [float, double, pointer, guid, text .ascii, text .utf8, text .unicode, binary]

def number : ValueType → UInt8
  | unknown => 0
  | bool => 1
  | integer .int8 => 2
  | integer .uint8 => 3
  | integer .int16 => 4
  | integer .uint16 => 5
  | integer .int32 => 6
  | integer .uint32 => 7
  | integer .int64 => 8
  | integer .uint64 => 9
  | float => 10
  | double => 11
  | pointer => 12
  | guid => 13
  | text .ascii => 14
  | text .utf8 => 15
  | text .unicode => 16
  | binary => 18

def fixedSize : ValueType → Option Nat
  | unknown => some 0
  | bool => some 1
  | integer t => some t.size
  | float => some 4
  | double | pointer => some 8
  | guid => some 16
  | text _ | binary => none

def isFixedSize (t : ValueType) : Bool := t.fixedSize.isSome

/-- Bytes per unit in which the length of varying content is counted. -/
def unitSize : ValueType → Nat
  | text .unicode => 2
  | _ => 1

def isInteger : ValueType → Bool
  | integer _ => true
  | _ => false

def isFloating : ValueType → Bool
  | float | double => true
  | _ => false

def isNumeric (t : ValueType) : Bool := t.isInteger || t.isFloating || t = bool

def isText : ValueType → Bool
  | text _ => true
  | _ => false

def name : ValueType → String
  | unknown => "unknown"
  | bool => "bool"
  | integer .int8 => "int8"
  | integer .uint8 => "uint8"
  | integer .int16 => "int16"
  | integer .uint16 => "uint16"
  | integer .int32 => "int32"
  | integer .uint32 => "uint32"
  | integer .int64 => "int64"
  | integer .uint64 => "uint64"
  | float => "float"
  | double => "double"
  | pointer => "pointer"
  | guid => "guid"
  | text .ascii => "ascii"
  | text .utf8 => "utf8"
  | text .unicode => "unicode"
  | binary => "binary"

/-- The type of a name; three text types have a second name. -/
def ofName? (name : String) : Option ValueType :=
  if name = "string" then some (text .ascii)
  else if name = "utf8string" then some (text .utf8)
  else if name = "wstring" then some (text .unicode)
  else all.find? (·.name = name)

end ValueType

def nameMarker : UInt8 := 20

namespace ValueType

def lengthFlag : UInt8 := 0x40

def numberMask : UInt8 := 0x1F

def tag (t : ValueType) : UInt8 := if t.isFixedSize then t.number else t.number ||| lengthFlag

def ofNumber? (n : UInt8) : Option ValueType := all.find? (·.number = n)

/-- The type of a tag whatever its flag bits; the name marker has none. -/
def ofTag? (tag : UInt8) : Option ValueType :=
  if tag = nameMarker then none else ofNumber? (tag &&& numberMask)

/-- The type of a tag with exactly the flag bits that the type has. -/
def ofHeaderTag? (tag : UInt8) : Option ValueType :=
  match ofTag? tag with
  | some t => if t.tag = tag then some t else none
  | none => none

end ValueType

end TaggedBuffer
