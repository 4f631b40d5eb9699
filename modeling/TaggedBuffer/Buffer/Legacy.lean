import TaggedBuffer.Buffer.Append

namespace TaggedBuffer

namespace Legacy

def fail {α : Type} (offset : Nat) (fault : LegacyFault) : Except Error α :=
  .error (.legacy offset fault)

def take (src : Bytes) (p length : Nat) : Except Error (Bytes × Nat) :=
  if length ≤ src.size - p then .ok (src.extract p (p + length), p + length)
  else fail p (.short length (src.size - p))

def takeNumber (src : Bytes) (p width : Nat) : Except Error (Nat × Nat) := do
  let (bytes, p) ← take src p width
  return (ofLittleEndian (Bytes.list bytes), p)

def readName (src : Bytes) (p : Nat) : Except Error (Option String × Nat) :=
  if Bytes.list (src.extract p (p + 1)) = [nameMarker] then do
    let (length, p) ← takeNumber src (p + 1) 1
    let (bytes, p) ← take src p length
    match String.fromUTF8? bytes with
    | some name => return (if name = "" then none else some name, p)
    | none => fail p .illFormedName
  else .ok (none, p)

def unit (e : Encoding) : Nat := (ValueType.text e).unitSize

theorem unit_pos (e : Encoding) : 0 < unit e := by cases e <;> decide

def isZeroAt (src : Bytes) (e : Encoding) (p : Nat) : Bool :=
  Bytes.list (src.extract p (p + unit e)) = List.replicate (unit e) 0

/-- The offset of the first zero unit, counted in units from `p` on. -/
def terminator? (src : Bytes) (e : Encoding) (p : Nat) : Option Nat :=
  if p + unit e ≤ src.size then
    if isZeroAt src e p then some p else terminator? src e (p + unit e)
  else none
termination_by src.size - p
decreasing_by
  have := unit_pos e
  omega

theorem terminator?_le {src : Bytes} {e : Encoding} {p stop : Nat}
    (h : terminator? src e p = some stop) : p ≤ stop := by
  fun_induction terminator? src e p with
  | case1 p _ _ => cases h; exact Nat.le_refl _
  | case2 p _ _ ih => exact Nat.le_trans (Nat.le_add_right _ _) (ih h)
  | case3 p _ => simp at h

def takeTerminated (src : Bytes) (p : Nat) (e : Encoding) : Except Error (Bytes × Nat) :=
  match terminator? src e p with
  | some stop => .ok (src.extract p stop, stop + unit e)
  | none => fail p .unterminated

/-- Counted text may end in a terminator, which is no content. -/
def dropTerminator (e : Encoding) (bytes : Bytes) : Bytes :=
  if unit e ≤ bytes.size ∧ isZeroAt bytes e (bytes.size - unit e) then
    bytes.extract 0 (bytes.size - unit e)
  else bytes

def readContent (src : Bytes) (p : Nat) (tag : UInt8) (t : ValueType) :
    Except Error (Bytes × Nat) :=
  if tag &&& ValueType.lengthFlag ≠ 0 then do
    let (length, p) ← takeNumber src p 4
    let (bytes, p) ← take src p length
    match t with
    | .text e => return (dropTerminator e bytes, p)
    | _ => return (bytes, p)
  else
    match t.fixedSize, t with
    | some size, _ => take src p size
    | none, .text e => takeTerminated src p e
    | none, _ => fail p (.withoutLength t)

def readValue (src : Bytes) (p : Nat) : Except Error (Value × Nat) := do
  let (number, p) ← takeNumber src p 1
  let tag := UInt8.ofNat number
  match ValueType.ofTag? tag with
  | none => fail p (.unsupportedTag tag)
  | some t =>
    let (content, p) ← readContent src p tag t
    match Value.ofPayload t content with
    | .ok v => return (v, p)
    | .error (.invalidPayload fault) => fail p (.payload fault)
    | .error fault => throw fault

/-- An optional name, then a value: its type byte and its content, which is counted if the type byte
says so, and else of fixed size or up to a terminator. -/
def readEntry (src : Bytes) (p : Nat) : Except Error ((Option String × Value) × Nat) := do
  let (name, p) ← readName src p
  let (v, p) ← readValue src p
  return ((name, v), p)

theorem take_le {src : Bytes} {p q n : Nat} {b : Bytes} (h : take src p n = .ok (b, q)) :
    q = p + n := by
  unfold take at h
  split at h
  · cases h
    rfl
  · simp [fail] at h

theorem takeNumber_eq {src : Bytes} {p q width n : Nat} (h : takeNumber src p width = .ok (n, q)) :
    q = p + width := by
  obtain ⟨⟨b, r⟩, hb, hr⟩ := bind_eq_ok.1 h
  cases hr
  exact take_le hb

theorem readName_le {src : Bytes} {p q : Nat} {name : Option String}
    (h : readName src p = .ok (name, q)) : p ≤ q := by
  unfold readName at h
  split at h
  · obtain ⟨⟨n, r⟩, hn, h⟩ := bind_eq_ok.1 h
    obtain ⟨⟨b, r'⟩, hb, h⟩ := bind_eq_ok.1 h
    have := takeNumber_eq hn
    have := take_le hb
    simp only at h
    split at h
    · cases h
      omega
    · simp [fail] at h
  · cases h
    exact Nat.le_refl _

theorem readContent_le {src : Bytes} {p q : Nat} {tag : UInt8} {t : ValueType} {b : Bytes}
    (h : readContent src p tag t = .ok (b, q)) : p ≤ q := by
  unfold readContent at h
  split at h
  · obtain ⟨⟨n, r⟩, hn, h⟩ := bind_eq_ok.1 h
    obtain ⟨⟨b', r'⟩, hb, h⟩ := bind_eq_ok.1 h
    have := takeNumber_eq hn
    have := take_le hb
    simp only at h
    split at h <;> (cases h; omega)
  · split at h
    · have := take_le h
      omega
    · simp only [takeTerminated] at h
      split at h
      · next stop hs =>
        have := terminator?_le hs
        cases h
        omega
      · simp [fail] at h
    · simp [fail] at h

theorem readValue_lt {src : Bytes} {p q : Nat} {v : Value} (h : readValue src p = .ok (v, q)) :
    p < q := by
  obtain ⟨⟨n, r⟩, hn, h⟩ := bind_eq_ok.1 h
  have := takeNumber_eq hn
  simp only at h
  split at h
  · simp [fail] at h
  · obtain ⟨⟨b, r'⟩, hb, h⟩ := bind_eq_ok.1 h
    have := readContent_le hb
    simp only at h
    split at h
    · cases h
      omega
    · simp [fail] at h
    · simp [throw, throwThe, MonadExceptOf.throw] at h

theorem readEntry_lt {src : Bytes} {p q : Nat} {pair : Option String × Value}
    (h : readEntry src p = .ok (pair, q)) : p < q := by
  obtain ⟨⟨n, r⟩, hn, h⟩ := bind_eq_ok.1 h
  obtain ⟨⟨v, r'⟩, hv, h⟩ := bind_eq_ok.1 h
  have := readName_le hn
  have := readValue_lt hv
  cases h
  omega

/-- The entries from `p` on as far as they can be read, and what is wrong after them. -/
def walk (src : Bytes) (p : Nat) : List (Option String × Value) × Option Error :=
  if p < src.size then
    match _h : readEntry src p with
    | .ok (pair, q) =>
      let rest := walk src q
      (pair :: rest.1, rest.2)
    | .error fault => ([], some fault)
  else ([], none)
termination_by src.size - p
decreasing_by
  have := readEntry_lt _h
  omega

end Legacy

namespace Buffer

variable {σ : Type} [Store σ] [Allocator]

def importLegacy (src : Bytes) : Update σ Unit := do
  let (pairs, fault?) := Legacy.walk src 0
  appendAll pairs
  match fault? with
  | some fault => throw fault
  | none => pure ()

end Buffer

end TaggedBuffer
