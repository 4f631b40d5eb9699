import TaggedBuffer.Buffer.Splice

namespace TaggedBuffer.Buffer

def sectionEnd (src : Bytes) (start : Nat) : Except Error Nat := do
  let p ← advance src start
  Content.skipUnnamed src p

variable {σ : Type} [Store σ] [Allocator]

/-- Replaces what the key addresses. A missing name is added, and so is the slot just past the end
of a section. -/
def setKey (key : Key) (v : Value) : Update σ Nat := do
  match key with
  | .name name => setNamed name v
  | .index index => setIndex index v
  | .slot name number =>
    let src ← content
    match Content.positionOf? src key with
    | some p => set p v
    | none =>
      let length := (Content.sectionEntries src name).length
      if length = 0 ∧ number = 0 then append (some name) v
      else if number = length then
        let stop ← ofExcept (sectionEnd src ((Content.find? src name).getD 0))
        insert stop none v
      else throw (.indexOutOfRange number length)

/-- Lays values over the unnamed entries from `cursor` on, making entries where there are none, and
answers the offset after the last. -/
def layValues : (cursor : Nat) → List Value → Update σ Nat
  | cursor, [] => return cursor
  | cursor, v :: rest => do
    if ← ofExcept (Content.isUnnamedAt (← content) cursor) then
      let _ ← set cursor v
    else
      let _ ← insert cursor none v
    let next ← ofExcept (advance (← content) cursor)
    layValues next rest

/-- Old values are overwritten in order, more are inserted before the next named entry, and what is
left over is removed. No values remove the section; a missing one is added. -/
def setSection (name : String) (vs : List Value) : Update σ Unit := do
  ofExcept (checkName name)
  ofExcept (vs.forM checkValue)
  match Content.find? (← content) name with
  | none =>
    let _ ← appendSection name vs
  | some start =>
    match vs with
    | [] =>
      let stop ← ofExcept (sectionEnd (← content) start)
      resizeSpan start (stop - start) 0
    | v :: rest =>
      let _ ← set start v
      let cursor ← ofExcept (advance (← content) start)
      let cursor ← layValues cursor rest
      let stop ← ofExcept (Content.skipUnnamed (← content) cursor)
      resizeSpan cursor (stop - cursor) 0

end TaggedBuffer.Buffer
