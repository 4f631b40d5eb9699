import TaggedBuffer.Record.Reader

namespace TaggedBuffer

/-- A computation on a state that fails or answers, and leaves a state either way. -/
abbrev Update (σ α : Type) := EStateM Error σ α

def writeRecord (position : Nat) (record : Bytes) : Update Bytes Nat := do
  let dest ← get
  ofExcept (checkRoom dest.size position record.size)
  ofExcept (checkAlignment position)
  set (dest.overwrite position record)
  return position + record.size

def writeHeader (position : Nat) (tag : UInt8) (length : Nat) : Update Bytes Unit := do
  let dest ← get
  ofExcept (checkAlignment position)
  if length > maxEncodedLength then throw (.valueTooLarge length)
  ofExcept (checkRoom dest.size position headerSize)
  set (dest.overwrite position (headerWord tag length))

def writeName (position : Nat) (name : String) : Update Bytes Nat := do
  ofExcept (checkName name)
  writeRecord position (nameRecord name)

def writeValue (position : Nat) (v : Value) : Update Bytes Nat := do
  ofExcept (checkValue v)
  writeRecord position (valueRecord v)

/-- An entry whose name fits and whose value does not leaves its name written. -/
def writeEntry (position : Nat) (name : Option String) (v : Value) : Update Bytes Nat := do
  let valuePosition ← match name with
    | some name => writeName position name
    | none => pure position
  writeValue valuePosition v

end TaggedBuffer
