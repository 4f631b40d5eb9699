import TaggedBuffer.Error

namespace TaggedBuffer.ValueType

def known (tag : UInt8) (t : Option ValueType) : Except Error ValueType :=
  match t with
  | some t => .ok t
  | none => .error (.invalidTag tag)

def tagIsFixedSize (tag : UInt8) : Except Error Bool :=
  (known tag (ofTag? tag)).map isFixedSize

def tagFixedSize (tag : UInt8) : Except Error Nat := do
  let t ← known tag (ofTag? tag)
  match t.fixedSize with
  | some n => return n
  | none => throw (.invalidTag tag)

end TaggedBuffer.ValueType
