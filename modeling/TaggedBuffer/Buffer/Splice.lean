import TaggedBuffer.Buffer.Append

namespace TaggedBuffer.Buffer

variable {σ : Type} [Store σ]

def positionAt (index : Nat) : Update σ Nat := do
  let src ← content
  match Content.findIndex? src index with
  | some p => return p
  | none => throw (.indexOutOfRange index (Content.entries src).length)

variable [Allocator]

/-- Makes the span of `old` bytes at `p` one of `new` bytes by moving what follows it. -/
def resizeSpan (p old new : Nat) : Update σ Unit := do
  let used := Store.used (← get)
  if new = old then pure ()
  else
    let newUsed := used - old + new
    let _ ← Store.reserve newUsed
    writeRegion (modify fun region => region.overwrite (p + new) (region.extract (p + old) used))
    modify (Store.setUsed newUsed)

/-- Replaces the value of the entry at `p`, which keeps its name. -/
def set (p : Nat) (v : Value) : Update σ Nat := do
  ofExcept (checkValue v)
  let e ← ofExcept (Content.boundary (← content) p)
  if e.value.type = v.type ∧ v.type.isFixedSize then pure ()
  else resizeSpan e.valuePosition (e.next - e.valuePosition) v.recordSize
  let _ ← writeRegion (writeValue e.valuePosition v)
  return p

def setNamed (name : String) (v : Value) : Update σ Nat := do
  match Content.find? (← content) name with
  | some p => set p v
  | none => append (some name) v

def setIndex (index : Nat) (v : Value) : Update σ Nat := do
  let p ← positionAt index
  set p v

/-- Makes an entry before the one at `p`; the end of the content is a position for this too. -/
def insert (p : Nat) (name : Option String) (v : Value) : Update σ Nat := do
  if p = Store.used (← get) then append name v
  else
    ofExcept (checkEntry name v)
    let _ ← ofExcept (Content.boundary (← content) p)
    resizeSpan p 0 (entrySize name v)
    let _ ← writeRegion (writeEntry p name v)
    return p

def insertAt (index : Nat) (name : Option String) (v : Value) : Update σ Nat := do
  let src ← content
  match Content.findIndex? src index with
  | some p => insert p name v
  | none =>
    let length := (Content.entries src).length
    if index = length then insert (Store.used (← get)) name v
    else throw (.indexOutOfRange index length)

def remove (p : Nat) : Update σ Unit := do
  let e ← ofExcept (Content.boundary (← content) p)
  resizeSpan p (e.next - p) 0

def removeFound : Option Nat → Update σ Bool
  | some p => do
    remove p
    return true
  | none => return false

def removeNamed (name : String) : Update σ Bool := do
  removeFound (Content.find? (← content) name)

def removeIndex (index : Nat) : Update σ Unit := do
  let p ← positionAt index
  remove p

def removeKey (key : Key) : Update σ Bool := do
  removeFound (Content.positionOf? (← content) key)

end TaggedBuffer.Buffer
