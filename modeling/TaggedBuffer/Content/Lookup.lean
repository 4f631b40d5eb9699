import TaggedBuffer.Content.Walk
import TaggedBuffer.Value.Compare

namespace TaggedBuffer

/-- How an entry is addressed. -/
inductive Key where
  | name (name : String)
  | index (index : Nat)
  /-- The value of that number in the section of the name, the named value being number 0. -/
  | slot (name : String) (number : Nat)
  deriving DecidableEq, Repr

namespace Entry

def isNamed (e : Entry) : Bool := e.name.isSome

def hasName (name : String) (e : Entry) : Bool := e.name = some name

end Entry

namespace Content

def named (src : Bytes) : List Entry := (entries src).filter (·.isNamed)

def names (src : Bytes) : List String := (entries src).filterMap (·.name)

def find? (src : Bytes) (name : String) : Option Nat :=
  ((entries src).find? (·.hasName name)).map (·.position)

def findFrom? (src : Bytes) (name : String) (after : Nat) : Option Nat :=
  match advance src after with
  | .ok start => ((entriesFrom src start).find? (·.hasName name)).map (·.position)
  | .error _ => none

def findAll (src : Bytes) (name : String) : List Nat :=
  ((entries src).filter (·.hasName name)).map (·.position)

def findNth? (src : Bytes) (name : String) (n : Nat) : Option Nat :=
  ((entries src).filter (·.hasName name))[n]?.map (·.position)

def findIndex? (src : Bytes) (index : Nat) : Option Nat :=
  (entries src)[index]?.map (·.position)

/-- The first entry of that name whose value equals `v` within its group of types. -/
def findValue? (src : Bytes) (name : String) (v : Value) : Option Nat :=
  ((entries src).find? fun e => e.hasName name && e.value.sameGroup v).map (·.position)

/-- A section is a named entry and the unnamed entries after it. Here the entry is the head. -/
def sectionOf : List Entry → List Entry
  | [] => []
  | e :: rest => e :: rest.takeWhile (!·.isNamed)

def sectionEntries (src : Bytes) (name : String) : List Entry :=
  match find? src name with
  | some p => sectionOf (entriesFrom src p)
  | none => []

def sectionValues (src : Bytes) (name : String) : List Value :=
  (sectionEntries src name).map (·.value)

def findInSection? (src : Bytes) (name : String) (v : Value) : Option Nat :=
  ((sectionEntries src name).find? (·.value.sameGroup v)).map (·.position)

def count (src : Bytes) (name : String) : Nat := ((names src).filter (· = name)).length

def contains (src : Bytes) (name : String) : Bool := (find? src name).isSome

def positionOf? (src : Bytes) : Key → Option Nat
  | .name name => find? src name
  | .index index => findIndex? src index
  | .slot name number => (sectionEntries src name)[number]?.map (·.position)

def get (src : Bytes) (p : Nat) : Except Error Value := do
  return (← entryAt src p).value

def nameAt (src : Bytes) (p : Nat) : Except Error (Option String) := do
  return (← entryAt src p).name

def get? (src : Bytes) (p : Nat) : Option Value := (get src p).toOption

/-- The value that a key addresses, `unknown` if there is none. -/
def getKey (src : Bytes) (key : Key) : Value :=
  ((positionOf? src key).bind (get? src)).getD .unknown

def value (src : Bytes) (name : String) : Value := getKey src (.name name)

def valueAt (src : Bytes) (index : Nat) : Value := getKey src (.index index)

def sectionValue (src : Bytes) (name : String) (number : Nat) : Value :=
  getKey src (.slot name number)

def findPair (src : Bytes) (name : String) : Value × Value :=
  let found := ((entries src).filter (·.hasName name)).map (·.value)
  (found[0]?.getD .unknown, found[1]?.getD .unknown)

def getMany (src : Bytes) (names : List String) : List Value := names.map (value src)

def firstOf? (src : Bytes) (names : List String) : Option Value :=
  (names.findSome? (find? src)).bind (get? src)

/-- Whether, for each named entry of `other`, the first entry of that name here has the same
value. -/
def containsAll (src other : Bytes) : Bool :=
  let ours := entries src
  (entries other).all fun e =>
    match e.name with
    | some name => (ours.find? (·.hasName name)).any (·.value.same e.value)
    | none => true

def sameEntries (a b : Bytes) : Bool :=
  let xs := entries a
  let ys := entries b
  xs.length = ys.length &&
    (xs.zip ys).all fun (x, y) => x.name = y.name && x.value.same y.value

end Content

end TaggedBuffer
