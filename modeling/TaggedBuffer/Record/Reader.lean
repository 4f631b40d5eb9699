import TaggedBuffer.Record.Encoding
import TaggedBuffer.ValueType.Tag

namespace TaggedBuffer

def checkAlignment (position : Nat) : Except Error Unit :=
  if position % alignment = 0 then .ok () else .error (.misalignedPosition position)

def checkRoom (length position needed : Nat) : Except Error Unit :=
  if needed ≤ length - position then .ok ()
  else .error (.truncated position needed (length - position))

def checkStoredLength (position length : Nat) : Except Error Unit :=
  if length = 0 then .error (.emptyStoredName position)
  else if length > maxNameLength then .error (.nameTooLong length)
  else .ok ()

structure Header where
  tag : UInt8
  length : Nat
  deriving DecidableEq, Repr

/-- An entry and where it lies: its start, the start of its value record, and its end. -/
structure Entry where
  position : Nat
  name : Option String
  valuePosition : Nat
  value : Value
  next : Nat
  deriving DecidableEq

def readWord (src : Bytes) (position : Nat) : Except Error Nat := do
  checkRoom src.size position 4
  return ofLittleEndian (Bytes.list (src.extract position (position + 4)))

def readHeader (src : Bytes) (position : Nat) : Except Error Header := do
  checkAlignment position
  let word ← readWord src position
  return ⟨UInt8.ofNat (word / 2 ^ 24), word % 2 ^ 24⟩

def readName (src : Bytes) (position : Nat) : Except Error (String × Nat) := do
  let header ← readHeader src position
  if header.tag ≠ nameMarker then throw (.notAName position header.tag)
  checkStoredLength position header.length
  let start := position + headerSize
  checkRoom src.size start (align header.length)
  match Utf8.decode (src.extract start (start + header.length)) with
  | .ok name => return (name, start + align header.length)
  | .error fault => throw (.illFormedName position fault)

/-- Where the content of a value record starts, and its length in bytes. -/
def contentSpan (src : Bytes) (t : ValueType) (start : Nat) : Except Error (Nat × Nat) :=
  match t.fixedSize with
  | some n => return (start, n)
  | none => do
    let native ← readWord src start
    return (start + lengthFieldSize, native * t.unitSize)

def headerType (header : Header) : Except Error ValueType :=
  ValueType.known header.tag (ValueType.ofHeaderTag? header.tag)

def readValue (src : Bytes) (position : Nat) : Except Error (Value × Nat) := do
  let header ← readHeader src position
  let t ← headerType header
  let start := position + headerSize
  checkRoom src.size start header.length
  let (content, byteLength) ← contentSpan src t start
  let expected := Value.encodedSize t byteLength
  if expected ≠ header.length then throw (.invalidPayload ⟨t, expected, header.length⟩)
  let value ← Value.ofPayload t (src.extract content (content + byteLength))
  return (value, start + header.length)

def skipName (src : Bytes) (position : Nat) : Except Error Nat := do
  let header ← readHeader src position
  if header.tag = nameMarker then
    checkStoredLength position header.length
    let size := headerSize + align header.length
    checkRoom src.size position size
    return position + size
  else return position

/-- The offset of the entry after the one at `position`, by the headers alone. -/
def advance (src : Bytes) (position : Nat) : Except Error Nat := do
  let valuePosition ← skipName src position
  let header ← readHeader src valuePosition
  let _ ← headerType header
  let size := headerSize + header.length
  checkRoom src.size valuePosition size
  return valuePosition + size

def readNameIfPresent (src : Bytes) (position : Nat) : Except Error (Option String × Nat) := do
  let header ← readHeader src position
  if header.tag = nameMarker then
    let (name, next) ← readName src position
    return (some name, next)
  else return (none, position)

def decodeEntry (src : Bytes) (position : Nat) : Except Error Entry := do
  let (name, valuePosition) ← readNameIfPresent src position
  let (value, next) ← readValue src valuePosition
  return ⟨position, name, valuePosition, value, next⟩

theorem checkRoom_ok {n p k : Nat} (h : checkRoom n p k = .ok ()) : k ≤ n - p := by
  unfold checkRoom at h
  split at h
  · assumption
  · simp at h

theorem readName_bounds {src : Bytes} {p q : Nat} {name : String}
    (h : readName src p = .ok (name, q)) : p + 4 ≤ q := by
  simp only [readName, bind, Except.bind, pure, Except.pure, throw, throwThe, MonadExceptOf.throw]
    at h
  repeat' split at h
  all_goals simp_all [headerSize]
  omega

theorem readValue_bounds {src : Bytes} {p q : Nat} {v : Value}
    (h : readValue src p = .ok (v, q)) : p + 4 ≤ q := by
  simp only [readValue, bind, Except.bind, pure, Except.pure, throw, throwThe, MonadExceptOf.throw]
    at h
  repeat' split at h
  all_goals simp_all [headerSize]
  omega

theorem skipName_le {src : Bytes} {p q : Nat} (h : skipName src p = .ok q) : p ≤ q := by
  simp only [skipName, bind, Except.bind, pure, Except.pure] at h
  repeat' split at h
  all_goals simp_all
  omega

theorem advance_bounds {src : Bytes} {p q : Nat} (h : advance src p = .ok q) :
    p + 4 ≤ q ∧ q ≤ src.size := by
  simp only [advance, bind_eq_ok] at h
  obtain ⟨v, hv, header, _, _, _, _, hroom, hq⟩ := h
  have hp := skipName_le hv
  have hr := checkRoom_ok hroom
  cases hq
  simp only [headerSize] at hr ⊢
  omega

theorem readNameIfPresent_le {src : Bytes} {p q : Nat} {name : Option String}
    (h : readNameIfPresent src p = .ok (name, q)) : p ≤ q := by
  simp only [readNameIfPresent, bind_eq_ok] at h
  obtain ⟨header, _, h⟩ := h
  split at h
  · obtain ⟨⟨n, q'⟩, hn, hq⟩ := bind_eq_ok.1 h
    have := readName_bounds hn
    cases hq
    omega
  · cases h
    exact Nat.le_refl _

theorem decodeEntry_lt {src : Bytes} {p : Nat} {e : Entry} (h : decodeEntry src p = .ok e) :
    p < e.next := by
  simp only [decodeEntry, bind_eq_ok] at h
  obtain ⟨⟨name, v⟩, hv, ⟨value, next⟩, hnext, he⟩ := h
  have := readNameIfPresent_le hv
  have := readValue_bounds hnext
  cases he
  simp only
  omega

end TaggedBuffer
