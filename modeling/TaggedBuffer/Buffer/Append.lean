import TaggedBuffer.Content.Lookup
import TaggedBuffer.Store.Basic
import TaggedBuffer.Value.Parse

namespace TaggedBuffer.Buffer

variable {σ : Type} [Store σ]

def content : Update σ Bytes := do
  return Store.content (← get)

/-- Runs a writer on the region, which becomes this handle's alone first. What the writer did stays
if it fails. -/
def writeRegion {α : Type} (w : Update Bytes α) : Update σ α := fun s =>
  match w (Store.region s) with
  | .ok a region => .ok a (Store.setRegion region s)
  | .error fault region => .error fault (Store.setRegion region s)

/-- The entries of a section: the name goes to the first value. -/
def sectionPairs (name : String) : List Value → List (Option String × Value)
  | [] => []
  | v :: rest => (some name, v) :: rest.map (none, ·)

def checkEntry (name : Option String) (v : Value) : Except Error Unit := do
  match name with
  | some name => checkName name
  | none => pure ()
  checkValue v

section Adding

variable [Allocator]

def append (name : Option String) (v : Value) : Update σ Nat := do
  ofExcept (checkEntry name v)
  let position := Store.used (← get)
  let stop := position + entrySize name v
  let _ ← Store.reserve stop
  let _ ← writeRegion (writeEntry position name v)
  modify (Store.setUsed stop)
  return position

def appendAll : List (Option String × Value) → Update σ Unit
  | [] => pure ()
  | (name, v) :: rest => do
    let _ ← append name v
    appendAll rest

def appendRaw (name : Option String) (t : ValueType) (payload : Bytes) : Update σ Nat := do
  let v ← ofExcept (Value.ofPayload t payload)
  append name v

def appendPairs : List (Option String × Value) → Update σ (Option Nat)
  | [] => return none
  | (name, v) :: rest => do
    let position ← append name v
    appendAll rest
    return some position

def appendSection (name : String) (vs : List Value) : Update σ (Option Nat) :=
  appendPairs (sectionPairs name vs)

def appendMany (vs : List Value) : Update σ (Option Nat) := appendPairs (vs.map (none, ·))

def appendInferred (name : String) (s : String) : Update σ Nat := append (some name) (.infer s)

/-- Adds the named entries of other content whose names do not occur yet. -/
def mergeEntries : List Entry → Update σ Unit
  | [] => pure ()
  | e :: rest => do
    match e.name with
    | some name =>
      if Content.contains (← content) name then pure ()
      else
        let _ ← append (some name) e.value
    | none => pure ()
    mergeEntries rest

def merge (other : Bytes) : Update σ Unit := mergeEntries (Content.entries other)

def load (bytes : Bytes) : Update σ Unit := do
  let _ ← Store.reserve bytes.size
  writeRegion (modify fun region => region.overwrite 0 bytes)
  modify (Store.setUsed bytes.size)

def fromBytes (bytes : Bytes) : Update σ Unit := do
  let _ ← ofExcept (Content.validate bytes)
  load bytes

def withCapacity (capacity : Nat) : Update σ Unit := do
  let _ ← Store.reserve capacity

end Adding

end TaggedBuffer.Buffer
