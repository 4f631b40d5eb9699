import TaggedBuffer.Error
import TaggedBuffer.Value.Lenient

namespace TaggedBuffer.Value

open Floating

def tryText (v : Value) : Except Error String :=
  let result := match v with
    | text .unicode content => Utf16.decode? content
    | text _ content => String.fromUTF8? content
    | _ => none
  match result with
  | some s => .ok s
  | none => .error (.conversion v (.text .utf8))

/-- Integral floating numbers count as integers below this magnitude. -/
def integralLimit : Nat := 18000000000000000000

def integral? (n : Number) : Option Int :=
  match n.integer? with
  | some v => if v.natAbs < integralLimit then some v else none
  | none => none

/-- The integer that a value is, or that its whole text is between blanks. The target is the type
named in the refusal. -/
def tryInt (v : Value) (target : ValueType) : Except Error Int :=
  let refusal := Error.conversion v target
  match v with
  | float bits => ((integral? (single.decode bits.toNat)).map .ok).getD (.error refusal)
  | double bits => ((integral? (Floating.double.decode bits.toNat)).map .ok).getD (.error refusal)
  | text _ _ => do
    let s ← v.tryText
    ((Text.integer128? (Text.trim s.toList)).map .ok).getD (.error refusal)
  | unknown | guid _ | binary _ => .error refusal
  | _ => .ok v.asInt

def tryRange (v : Value) (t : IntType) (target : ValueType) : Except Error (BitVec t.bits) := do
  let n ← v.tryInt target
  ((t.ofInt? n).map .ok).getD (.error (.conversion v target))

def tryInteger (v : Value) (t : IntType) : Except Error Int := do
  let bits ← v.tryRange t (.integer t)
  return t.toInt bits

def tryDouble (v : Value) : Except Error (BitVec 64) :=
  let refusal := Error.conversion v .double
  match v with
  | text _ _ => do
    let s ← v.tryText
    ((Text.real? (Text.trim s.toList)).map fun bits => .ok (BitVec.ofNat 64 bits)).getD
      (.error refusal)
  | unknown | guid _ | binary _ => .error refusal
  | _ => .ok v.asDouble

/-- Booleans, the integers 0 and 1, and the words `true`, `false`, `1` and `0`. -/
def tryBool (v : Value) : Except Error Bool :=
  let refusal := Error.conversion v .bool
  match v with
  | bool b => .ok b
  | text _ _ => do
    let s ← v.tryText
    let cs := Text.trim s.toList
    if cs.map Char.toLower = "true".toList ∨ cs = ['1'] then return true
    else if cs.map Char.toLower = "false".toList ∨ cs = ['0'] then return false
    else throw refusal
  | _ =>
    match v.tryInt .bool with
    | .ok 0 => .ok false
    | .ok 1 => .ok true
    | _ => .error refusal

end TaggedBuffer.Value
