import TaggedBuffer.Bytes.LittleEndian
import TaggedBuffer.Bytes.Basic
import TaggedBuffer.ValueType.Basic

namespace TaggedBuffer

/-- Numbers are kept as bit patterns, so equality is equality of bits. -/
inductive Value where
  | unknown
  | bool (b : Bool)
  | integer (t : IntType) (bits : BitVec t.bits)
  | float (bits : BitVec 32)
  | double (bits : BitVec 64)
  | pointer (address : BitVec 64)
  /-- Sixteen bytes, as a little endian number. -/
  | guid (bits : BitVec 128)
  | text (e : Encoding) (content : Bytes)
  | binary (content : Bytes)
  deriving DecidableEq

namespace Value

instance : Inhabited Value := ⟨unknown⟩

def type : Value → ValueType
  | unknown => .unknown
  | bool _ => .bool
  | integer t _ => .integer t
  | float _ => .float
  | double _ => .double
  | pointer _ => .pointer
  | guid _ => .guid
  | text e _ => .text e
  | binary _ => .binary

def content? : Value → Option Bytes
  | text _ content | binary content => some content
  | _ => none

def byteLength (v : Value) : Nat :=
  match v.content? with
  | some content => content.size
  | none => v.type.fixedSize.getD 0

/-- The length that is stored beside varying content, in units. -/
def nativeLength (v : Value) : Nat := v.byteLength / v.type.unitSize

def bitBytes {w : Nat} (bits : BitVec w) : Bytes := (littleEndian (w / 8) bits.toNat).toByteArray

def payload : Value → Bytes
  | unknown => .empty
  | bool b => [if b then (1 : UInt8) else 0].toByteArray
  | integer _ bits => bitBytes bits
  | float bits => bitBytes bits
  | double bits => bitBytes bits
  | pointer address => bitBytes address
  | guid bits => bitBytes bits
  | text _ content => content
  | binary content => content

theorem size_payload (v : Value) : v.payload.size = v.byteLength := by
  cases v with
  | integer t bits => cases t <;> simp [payload, bitBytes, byteLength, content?, type,
      ValueType.fixedSize, IntType.size]
  | _ => simp [payload, bitBytes, byteLength, content?, type, ValueType.fixedSize]

def utf8 (s : String) : Value := text .utf8 s.toByteArray

def ascii (s : String) : Value := text .ascii s.toByteArray

def bytes? : Value → Option Bytes
  | binary content => some content
  | guid bits => some (bitBytes bits)
  | _ => none

def isText (v : Value) : Bool := v.type.isText

def isNumeric (v : Value) : Bool := v.type.isNumeric

/-- A `unicode` content of odd length holds half a unit; no other value is malformed. -/
def WellFormed : Value → Prop
  | text .unicode content => content.size % 2 = 0
  | _ => True

end Value

end TaggedBuffer
