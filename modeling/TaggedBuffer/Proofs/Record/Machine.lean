import TaggedBuffer.Proofs.Record.Grammar

namespace TaggedBuffer

/-- Readings in machine words. A sum, product or difference that is no word of 64 bits and a slice that
leaves the bytes have no outcome, which is not the same as being refused. -/
abbrev Machine : Type → Type := ExceptT Error Option

namespace Machine

variable {α β : Type}

def stuck : Machine α := ExceptT.mk none

def lift (x : Except Error α) : Machine α := ExceptT.mk (some x)

def add (a b : Nat) : Machine Nat := if a + b < 2 ^ 64 then pure (a + b) else stuck

def mul (a b : Nat) : Machine Nat := if a * b < 2 ^ 64 then pure (a * b) else stuck

def sub (a b : Nat) : Machine Nat := if b ≤ a then pure (a - b) else stuck

def slice (src : Bytes) (p q : Nat) : Machine Bytes :=
  if p ≤ q ∧ q ≤ src.size then pure (src.extract p q) else stuck

def align (n : Nat) : Machine Nat := do
  let sum ← add n alignment
  let padded ← sub sum 1
  return padded / alignment * alignment

def encodedSize (t : ValueType) (byteLength : Nat) : Machine Nat :=
  match t.fixedSize with
  | some n => align n
  | none => do
    let length ← add lengthFieldSize byteLength
    align length

def ofPayload (t : ValueType) (b : Bytes) : Machine Value :=
  match t with
  | .text .unicode => do
    if b.size % 2 = 0 then return .text .unicode b
    else
      let expected ← add b.size 1
      throw (.invalidPayload ⟨t, expected, b.size⟩)
  | t => lift (Value.ofPayload t b)

def readWord (src : Bytes) (position : Nat) : Machine Nat := do
  lift (checkRoom src.size position 4)
  let stop ← add position 4
  let bytes ← slice src position stop
  return ofLittleEndian (Bytes.list bytes)

def readHeader (src : Bytes) (position : Nat) : Machine Header := do
  lift (checkAlignment position)
  let word ← readWord src position
  return ⟨UInt8.ofNat (word / 2 ^ 24), word % 2 ^ 24⟩

def readName (src : Bytes) (position : Nat) : Machine (String × Nat) := do
  let header ← readHeader src position
  if header.tag ≠ nameMarker then throw (.notAName position header.tag)
  lift (checkStoredLength position header.length)
  let start ← add position headerSize
  let padded ← align header.length
  lift (checkRoom src.size start padded)
  let stop ← add start header.length
  let bytes ← slice src start stop
  match Utf8.decode bytes with
  | .ok name => do
    let padded ← align header.length
    let next ← add start padded
    return (name, next)
  | .error fault => throw (.illFormedName position fault)

def contentSpan (src : Bytes) (t : ValueType) (start : Nat) : Machine (Nat × Nat) :=
  match t.fixedSize with
  | some n => return (start, n)
  | none => do
    let native ← readWord src start
    let content ← add start lengthFieldSize
    let byteLength ← mul native t.unitSize
    return (content, byteLength)

def readValue (src : Bytes) (position : Nat) : Machine (Value × Nat) := do
  let header ← readHeader src position
  let t ← lift (headerType header)
  let start ← add position headerSize
  lift (checkRoom src.size start header.length)
  let next ← add start header.length
  let (content, byteLength) ← contentSpan src t start
  let expected ← encodedSize t byteLength
  if expected ≠ header.length then throw (.invalidPayload ⟨t, expected, header.length⟩)
  let stop ← add content byteLength
  let bytes ← slice src content stop
  let value ← ofPayload t bytes
  return (value, next)

def skipName (src : Bytes) (position : Nat) : Machine Nat := do
  let header ← readHeader src position
  if header.tag = nameMarker then
    lift (checkStoredLength position header.length)
    let start ← add position headerSize
    let padded ← align header.length
    let next ← add start padded
    let size ← sub next position
    lift (checkRoom src.size position size)
    return next
  else return position

def advance (src : Bytes) (position : Nat) : Machine Nat := do
  let valuePosition ← skipName src position
  let header ← readHeader src valuePosition
  let _ ← lift (headerType header)
  let start ← add valuePosition headerSize
  let next ← add start header.length
  let size ← sub next valuePosition
  lift (checkRoom src.size valuePosition size)
  return next

def readNameIfPresent (src : Bytes) (position : Nat) : Machine (Option String × Nat) := do
  let header ← readHeader src position
  if header.tag = nameMarker then
    let (name, next) ← readName src position
    return (some name, next)
  else return (none, position)

def decodeEntry (src : Bytes) (position : Nat) : Machine Entry := do
  let (name, valuePosition) ← readNameIfPresent src position
  let (value, next) ← readValue src valuePosition
  return ⟨position, name, valuePosition, value, next⟩

/-- The reading gets to its end, with that outcome. -/
def Runs (m : Machine α) (x : Except Error α) : Prop := m.run = some x

namespace Runs

variable {m : Machine α} {x : Except Error α} {f : α → Machine β}

theorem lift (x : Except Error α) : Runs (lift x) x := rfl

theorem bind {g : α → Except Error β} (h : Runs m x) (hf : ∀ a, x = .ok a → Runs (f a) (g a)) :
    Runs (m >>= f) (x >>= g) := by
  rw [Runs, ExceptT.run_bind, h]
  cases x with
  | error e => rfl
  | ok a => exact hf a rfl

theorem step {a : α} {y : Except Error β} (h : Runs m (.ok a)) (hf : Runs (f a) y) :
    Runs (m >>= f) y := by
  rw [Runs, ExceptT.run_bind, h]
  exact hf

end Runs

section Words

variable {a b : Nat}

theorem add_runs (h : a + b < 2 ^ 64) : Runs (add a b) (.ok (a + b)) := by
  rw [add, if_pos h]
  rfl

theorem mul_runs (h : a * b < 2 ^ 64) : Runs (mul a b) (.ok (a * b)) := by
  rw [mul, if_pos h]
  rfl

theorem sub_runs (h : b ≤ a) : Runs (sub a b) (.ok (a - b)) := by
  rw [sub, if_pos h]
  rfl

theorem slice_runs {src : Bytes} (h : a ≤ b) (hb : b ≤ src.size) :
    Runs (slice src a b) (.ok (src.extract a b)) := by
  rw [slice, if_pos ⟨h, hb⟩]
  rfl

theorem align_runs {n : Nat} (h : n + 4 < 2 ^ 64) :
    Runs (align n) (.ok (TaggedBuffer.align n)) :=
  .step (add_runs h) (.step (sub_runs (Nat.le_add_left 1 (n + 3))) rfl)

end Words

theorem fixedSize_le {t : ValueType} {n : Nat} (h : t.fixedSize = some n) : n ≤ 16 := by
  cases t with
  | integer t => cases t <;> cases h <;> decide
  | text e => cases h
  | binary => cases h
  | _ => cases h; decide

theorem unitSize_le (t : ValueType) : t.unitSize ≤ 2 := by
  cases t with
  | text e => cases e <;> decide
  | _ => exact Nat.le_succ 1

theorem encodedSize_runs {t : ValueType} {byteLength : Nat} (h : byteLength < 2 ^ 63) :
    Runs (encodedSize t byteLength) (.ok (Value.encodedSize t byteLength)) := by
  rw [encodedSize, Value.encodedSize]
  cases hf : t.fixedSize with
  | some n =>
    have := fixedSize_le hf
    exact align_runs (by omega)
  | none =>
    simp only [lengthFieldSize]
    exact .step (add_runs (by omega)) (align_runs (by omega))

theorem ofPayload_runs (t : ValueType) {b : Bytes} (h : b.size < 2 ^ 63) :
    Runs (ofPayload t b) (Value.ofPayload t b) := by
  rw [ofPayload.eq_def, Value.ofPayload.eq_def]
  split
  · split
    · rfl
    · exact .step (add_runs (by omega)) rfl
  · rfl

variable {src : Bytes}

theorem readWord_bounds {p n : Nat} (h : TaggedBuffer.readWord src p = .ok n) :
    p + 4 ≤ src.size ∧ n < 2 ^ 32 := by
  simp only [TaggedBuffer.readWord, bind_eq_ok] at h
  obtain ⟨_, hroom, hn⟩ := h
  have := checkRoom_ok hroom
  cases hn
  have hlt := ofLittleEndian_lt (Bytes.list (src.extract p (p + 4)))
  have hp : p + 4 ≤ src.size := by omega
  rw [Bytes.length_list, ByteArray.size_extract, Nat.min_eq_left hp, Nat.add_sub_cancel_left] at hlt
  exact ⟨hp, hlt⟩

theorem readHeader_bounds {p : Nat} {header : Header}
    (h : TaggedBuffer.readHeader src p = .ok header) :
    p + 4 ≤ src.size ∧ header.length < 2 ^ 24 := by
  simp only [TaggedBuffer.readHeader, bind_eq_ok] at h
  obtain ⟨_, _, word, hw, hheader⟩ := h
  cases hheader
  exact ⟨(readWord_bounds hw).1, Nat.mod_lt _ (by decide)⟩

theorem contentSpan_lt {t : ValueType} {p c n : Nat}
    (h : TaggedBuffer.contentSpan src t p = .ok (c, n)) : n < 2 ^ 33 := by
  rw [TaggedBuffer.contentSpan] at h
  split at h
  next size hf =>
    have := fixedSize_le hf
    cases h
    omega
  next =>
    obtain ⟨native, hn, h⟩ := bind_eq_ok.1 h
    have := (readWord_bounds hn).2
    have := Nat.mul_le_mul_left native (unitSize_le t)
    cases h
    omega

section Readers

-- Room is checked first, so that no offset gets past the end by more than one record.
variable (hsrc : src.size < 2 ^ 63) (p : Nat)

include hsrc

theorem readWord_runs : Runs (readWord src p) (TaggedBuffer.readWord src p) := by
  refine .bind (.lift _) fun _ hroom => ?_
  have := checkRoom_ok hroom
  exact .step (add_runs (by omega)) (.step (slice_runs (by omega) (by omega)) rfl)

theorem readHeader_runs : Runs (readHeader src p) (TaggedBuffer.readHeader src p) := by
  refine .bind (.lift _) fun _ _ => ?_
  exact .bind (readWord_runs hsrc p) fun _ _ => rfl

theorem readName_runs : Runs (readName src p) (TaggedBuffer.readName src p) := by
  have hsize : headerSize = 4 := rfl
  refine .bind (readHeader_runs hsrc p) fun header hh => ?_
  obtain ⟨hp, hl⟩ := readHeader_bounds hh
  have hle := le_align header.length
  have hlt := align_lt header.length
  dsimp only
  split
  · rfl
  · refine .bind (.lift _) fun _ _ => ?_
    refine .step (add_runs (by omega)) (.step (align_runs (by omega)) ?_)
    refine .bind (.lift _) fun _ hroom => ?_
    have := checkRoom_ok hroom
    refine .step (add_runs (by omega)) (.step (slice_runs (by omega) (by omega)) ?_)
    cases Utf8.decode (src.extract (p + headerSize) (p + headerSize + header.length)) with
    | ok name => exact .step (align_runs (by omega)) (.step (add_runs (by omega)) rfl)
    | error fault => rfl

theorem contentSpan_runs (t : ValueType) :
    Runs (contentSpan src t p) (TaggedBuffer.contentSpan src t p) := by
  rw [contentSpan, TaggedBuffer.contentSpan]
  cases t.fixedSize with
  | some n => rfl
  | none =>
    refine .bind (readWord_runs hsrc p) fun native hn => ?_
    obtain ⟨hp, hn⟩ := readWord_bounds hn
    have hu := Nat.mul_le_mul_left native (unitSize_le t)
    exact .step (add_runs (by simp only [lengthFieldSize]; omega)) (.step (mul_runs (by omega)) rfl)

theorem readValue_runs : Runs (readValue src p) (TaggedBuffer.readValue src p) := by
  have hsize : headerSize = 4 := rfl
  refine .bind (readHeader_runs hsrc p) fun header hh => ?_
  obtain ⟨hp, hl⟩ := readHeader_bounds hh
  refine .bind (.lift _) fun t _ => ?_
  refine .step (add_runs (by omega)) (.bind (.lift _) fun _ hroom => ?_)
  have := checkRoom_ok hroom
  refine .step (add_runs (by omega)) ?_
  refine .bind (contentSpan_runs hsrc _ t) fun (content, byteLength) hspan => ?_
  have hlt := contentSpan_lt hspan
  dsimp only
  refine .step (encodedSize_runs (by omega)) ?_
  split
  · rfl
  next hexpected =>
    have hstop := contentSpan_le hspan
    rw [Decidable.not_not.1 hexpected] at hstop
    refine .step (add_runs (by omega)) (.step (slice_runs (by omega) (by omega)) ?_)
    exact .bind (ofPayload_runs t (by rw [ByteArray.size_extract]; omega)) fun _ _ => rfl

theorem skipName_runs : Runs (skipName src p) (TaggedBuffer.skipName src p) := by
  have hsize : headerSize = 4 := rfl
  refine .bind (readHeader_runs hsrc p) fun header hh => ?_
  obtain ⟨hp, hl⟩ := readHeader_bounds hh
  have hlt := align_lt header.length
  dsimp only
  split
  · refine .bind (.lift _) fun _ _ => ?_
    refine .step (add_runs (by omega)) (.step (align_runs (by omega)) ?_)
    refine .step (add_runs (by omega)) (.step (sub_runs (by omega)) ?_)
    rw [Nat.add_assoc, Nat.add_sub_cancel_left]
    exact .bind (.lift _) fun _ _ => rfl
  · rfl

theorem advance_runs : Runs (advance src p) (TaggedBuffer.advance src p) := by
  have hsize : headerSize = 4 := rfl
  refine .bind (skipName_runs hsrc p) fun valuePosition _ => ?_
  refine .bind (readHeader_runs hsrc valuePosition) fun header hh => ?_
  obtain ⟨hp, hl⟩ := readHeader_bounds hh
  refine .bind (.lift _) fun _ _ => ?_
  refine .step (add_runs (by omega)) (.step (add_runs (by omega)) ?_)
  refine .step (sub_runs (by omega)) ?_
  rw [Nat.add_assoc, Nat.add_sub_cancel_left]
  exact .bind (.lift _) fun _ _ => rfl

theorem readNameIfPresent_runs :
    Runs (readNameIfPresent src p) (TaggedBuffer.readNameIfPresent src p) := by
  refine .bind (readHeader_runs hsrc p) fun header _ => ?_
  dsimp only
  split
  · exact .bind (readName_runs hsrc p) fun _ _ => rfl
  · rfl

theorem decodeEntry_runs : Runs (decodeEntry src p) (TaggedBuffer.decodeEntry src p) :=
  .bind (readNameIfPresent_runs hsrc p) fun (_, valuePosition) _ =>
    .bind (readValue_runs hsrc valuePosition) fun _ _ => rfl

end Readers

end Machine

end TaggedBuffer
