import TaggedBuffer.Record.Reader

namespace TaggedBuffer.Content

/-- The entries from offset `p` on as far as they can be read, and what stopped the walk before the
end. -/
def walk (src : Bytes) (p : Nat) : List Entry × Option Error :=
  if p < src.size then
    match _h : decodeEntry src p with
    | .ok e =>
      let rest := walk src e.next
      (e :: rest.1, rest.2)
    | .error fault => ([], some fault)
  else ([], none)
termination_by src.size - p
decreasing_by
  have := decodeEntry_lt _h
  omega

def entriesFrom (src : Bytes) (p : Nat) : List Entry := (walk src p).1

/-- All entries, up to the first malformed record. -/
def entries (src : Bytes) : List Entry := entriesFrom src 0

/-- The number of entries, if the content is entries and nothing else. -/
def validate (src : Bytes) : Except Error Nat := do
  checkAlignment src.size
  match walk src 0 with
  | (es, none) => return es.length
  | (_, some fault) => throw fault

/-- The first offset not below `target` that is reached from `p` by whole entries. -/
def seek (src : Bytes) (target p : Nat) : Except Error Nat :=
  if p < target then
    match _h : advance src p with
    | .ok q => seek src target q
    | .error fault => .error fault
  else .ok p
termination_by target - p
decreasing_by
  have := advance_bounds _h
  omega

def isUnnamedAt (src : Bytes) (p : Nat) : Except Error Bool :=
  if src.size ≤ p then .ok false
  else do
    let header ← readHeader src p
    return header.tag ≠ nameMarker

/-- The first offset from `p` on at which no unnamed entry lies. -/
def skipUnnamed (src : Bytes) (p : Nat) : Except Error Nat :=
  match isUnnamedAt src p with
  | .error fault => .error fault
  | .ok false => .ok p
  | .ok true =>
    match _h : advance src p with
    | .ok q => skipUnnamed src q
    | .error fault => .error fault
termination_by src.size - p
decreasing_by
  have := advance_bounds _h
  omega

def checkPosition (src : Bytes) (p : Nat) : Except Error Unit :=
  if src.size ≤ p then .error (.positionOutOfRange p src.size) else checkAlignment p

/-- The entry that starts at `p`, wherever `p` comes from. -/
def entryAt (src : Bytes) (p : Nat) : Except Error Entry := do
  checkPosition src p
  decodeEntry src p

/-- The entry at `p`, which must be reached from the start by whole entries. -/
def boundary (src : Bytes) (p : Nat) : Except Error Entry := do
  checkPosition src p
  let q ← seek src p 0
  if q ≠ p then throw (.notAnEntry p)
  decodeEntry src q

def first? (src : Bytes) : Option Nat := if src.size = 0 then none else some 0

def next? (src : Bytes) (p : Nat) : Except Error (Option Nat) := do
  checkPosition src p
  let q ← advance src p
  return if q < src.size then some q else none

/-- The entries from `p` on, each checked and then stepped over by its headers. -/
def traverseFrom (src : Bytes) (p : Nat) : Except Error (List Entry) :=
  match entryAt src p with
  | .error fault => .error fault
  | .ok e =>
    match _h : next? src p with
    | .error fault => .error fault
    | .ok none => .ok [e]
    | .ok (some q) => (traverseFrom src q).map (e :: ·)
termination_by src.size - p
decreasing_by
  simp only [next?, bind_eq_ok] at _h
  obtain ⟨_, _, r, hr, hq⟩ := _h
  have := advance_bounds hr
  by_cases hlt : r < src.size
  · simp only [hlt, if_true, pure, Except.pure, Except.ok.injEq, Option.some.injEq] at hq
    omega
  · simp [hlt, pure, Except.pure] at hq

def traverse (src : Bytes) : Except Error (List Entry) :=
  match first? src with
  | some p => traverseFrom src p
  | none => .ok []

end TaggedBuffer.Content
