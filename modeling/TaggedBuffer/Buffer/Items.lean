import TaggedBuffer.Buffer.Append
import TaggedBuffer.Value.Parse

namespace TaggedBuffer

namespace Text

def splitAll (separator : Char) : List Char → List (List Char)
  | [] => [[]]
  | c :: cs =>
    if c = separator then [] :: splitAll separator cs
    else
      match splitAll separator cs with
      | [] => [[c]]
      | part :: parts => (c :: part) :: parts

def cut? (separator : Char) : List Char → Option (List Char × List Char)
  | [] => none
  | c :: cs =>
    if c = separator then some ([], cs)
    else (cut? separator cs).map fun (before, after) => (c :: before, after)

end Text

/-- The entry of one item; an empty name is none. The value may hold commas. -/
def parseItem (item : List Char) : Except Error (Option String × Value) := do
  let itemText := String.ofList item
  match Text.cut? ',' item with
  | none => throw (.itemFields itemText)
  | some (name, rest) =>
    match Text.cut? ',' rest with
    | none => throw (.itemFields itemText)
    | some (typeName, text) =>
      match ValueType.ofName? (String.ofList (Text.trim typeName)) with
      | none => throw (.itemType itemText (String.ofList typeName))
      | some t =>
        let v ← (Value.parse t (String.ofList text)).mapError (.itemRejected itemText)
        let name := if name = [] then none else some (String.ofList name)
        match name with
        | some name => (checkName name).mapError (.itemRejected itemText)
        | none => pure ()
        checkValue v
        return (name, v)

/-- The entries of all items. One semicolon may end the text. -/
def parseItems (s : String) : Except Error (List (Option String × Value)) :=
  let cs := s.toList
  let body := if cs.getLast? = some ';' then cs.dropLast else cs
  if body = [] then .ok [] else (Text.splitAll ';' body).mapM parseItem

namespace Buffer

def pairsSize (pairs : List (Option String × Value)) : Nat :=
  pairs.foldr (fun (name, v) size => entrySize name v + size) 0

variable {σ : Type} [Store σ] [Allocator]

/-- Adds the entries of all items, having read every item first, and answers their number. -/
def appendParsed (s : String) : Update σ Nat := do
  let pairs ← ofExcept (parseItems s)
  if pairs = [] then return 0
  let _ ← Store.reserve (Store.used (← get) + pairsSize pairs)
  appendAll pairs
  return pairs.length

end Buffer

end TaggedBuffer
