import TaggedBuffer.Record.Limits
import TaggedBuffer.Value.Text

namespace TaggedBuffer

structure PayloadFault where
  type : ValueType
  expected : Nat
  found : Nat
  deriving DecidableEq

inductive LegacyFault where
  | short (needed available : Nat)
  | unterminated
  | illFormedName
  | unsupportedTag (tag : UInt8)
  | withoutLength (type : ValueType)
  | payload (fault : PayloadFault)
  deriving DecidableEq

inductive Error where
  | invalidTag (tag : UInt8)
  | notAName (position : Nat) (tag : UInt8)
  | positionOutOfRange (position used : Nat)
  | misalignedPosition (position : Nat)
  | notAnEntry (position : Nat)
  | indexOutOfRange (index length : Nat)
  | truncated (position needed available : Nat)
  | valueTooLarge (length : Nat)
  | nameTooLong (length : Nat)
  | emptyName
  | emptyStoredName (position : Nat)
  | illFormedName (position : Nat) (fault : Utf8.Fault)
  | invalidPayload (fault : PayloadFault)
  /-- The padded size has no 64 bit number. -/
  | addressSpace (needed : Nat)
  /-- No single region can be that large. -/
  | regionLimit (capacity : Nat)
  | outOfMemory (capacity : Nat)
  | conversion (value : Value) (target : ValueType)
  | itemFields (item : String)
  | itemType (item type : String)
  | itemRejected (item : String) (cause : Error)
  | legacy (offset : Nat) (fault : LegacyFault)
  | writerFull
  | readerFailed
  deriving DecidableEq

def tagText (tag : UInt8) : String := "0x" ++ Hex.encodeLower [tag].toByteArray

def PayloadFault.message (f : PayloadFault) : String :=
  s!"Invalid {f.type.name} payload: expected {f.expected} bytes, found {f.found}"

def LegacyFault.message : LegacyFault → String
  | short needed available => s!"needs {needed} bytes, {available} available"
  | unterminated => "unterminated text value"
  | illFormedName => "name is not UTF-8"
  | unsupportedTag tag => "unsupported type tag " ++ tagText tag
  | withoutLength type => s!"{type.name} value without length"
  | payload fault => fault.message

def Error.message : Error → String
  | invalidTag tag => "Invalid type tag: " ++ tagText tag
  | notAName position tag =>
    s!"Expected a name record at position {position}, found tag " ++ tagText tag
  | positionOutOfRange position used =>
    s!"Position {position} is out of range (used length {used})"
  | misalignedPosition position => s!"Position {position} is not aligned to a 4 byte boundary"
  | notAnEntry position => s!"Position {position} is not the start of an entry"
  | indexOutOfRange index length => s!"Index {index} is out of range ({length} entries)"
  | truncated position needed available =>
    s!"Truncated record at {position}: needs {needed} bytes, {available} available"
  | valueTooLarge length =>
    s!"Value too large: {length} bytes exceeds the {maxEncodedLength} byte entry limit"
  | nameTooLong length => s!"Name too long: {length} bytes (max {maxNameLength})"
  | emptyName => "Invalid name: name is empty"
  | emptyStoredName position => s!"Invalid name: empty name at position {position}"
  | illFormedName position fault =>
    s!"Invalid name: at position {position}: " ++ fault.message
  | invalidPayload fault => fault.message
  | addressSpace needed => s!"Allocation error: {needed} bytes exceeds the address space"
  | regionLimit capacity =>
    s!"Allocation error: {capacity} bytes: memory allocation failed because the computed capacity " ++
      "exceeded the collection's maximum"
  | outOfMemory capacity =>
    s!"Allocation error: {capacity} bytes: memory allocation failed because the memory allocator " ++
      "returned an error"
  | conversion value target =>
    "Cannot convert " ++ value.display ++ " (" ++ value.type.name ++ ") to " ++ target.name
  | itemFields item => "Cannot parse argument text `" ++ item ++ "`: expected name,type,value"
  | itemType item type =>
    "Cannot parse argument text `" ++ item ++ "`: unknown type `" ++ type ++ "`"
  | itemRejected item cause =>
    "Cannot parse argument text `" ++ item ++ "`: " ++ cause.message
  | legacy offset fault => s!"Malformed legacy buffer at offset {offset}: " ++ fault.message
  | writerFull => "I/O error: failed to write whole buffer"
  | readerFailed => "I/O error: reader failed"

def Error.IsAllocation : Error → Prop
  | addressSpace _ | regionLimit _ | outOfMemory _ => True
  | _ => False

theorem bind_eq_ok {α β : Type} {x : Except Error α} {f : α → Except Error β} {b : β} :
    (x >>= f) = .ok b ↔ ∃ a, x = .ok a ∧ f a = .ok b := by
  cases x <;> simp [bind, Except.bind]

end TaggedBuffer
