import TaggedBuffer.Text.Real
import TaggedBuffer.Value.Text

namespace TaggedBuffer.Value

open Floating

/-- The integer that a value is, floating ones with the fraction dropped; 0 for the rest. -/
def asInt : Value → Int
  | bool b => if b then 1 else 0
  | integer t bits => t.toInt bits
  | pointer address => address.toNat
  | float bits => (single.decode bits.toNat).saturate (-2 ^ 127) (2 ^ 127 - 1)
  | double bits => (Floating.double.decode bits.toNat).saturate (-2 ^ 127) (2 ^ 127 - 1)
  | unknown | guid _ | text _ _ | binary _ => 0

def chars (v : Value) : List Char := (v.text?.map String.toList).getD []

/-- Floating values are clamped, integers wrap, and text gives its leading integer. -/
def asInt64 (v : Value) : Int :=
  match v with
  | float bits => (single.decode bits.toNat).saturate (-2 ^ 63) (2 ^ 63 - 1)
  | double bits => (Floating.double.decode bits.toNat).saturate (-2 ^ 63) (2 ^ 63 - 1)
  | text _ _ => Text.leadingSigned v.chars
  | _ => v.asInt.bmod (2 ^ 64)

def asUInt64 (v : Value) : Int :=
  match v with
  | float bits => (single.decode bits.toNat).saturate 0 (2 ^ 64 - 1)
  | double bits => (Floating.double.decode bits.toNat).saturate 0 (2 ^ 64 - 1)
  | text _ _ => Text.leadingUnsigned v.chars
  | _ => v.asInt % 2 ^ 64

def asInt32 (v : Value) : Int := v.asInt64.bmod (2 ^ 32)

def asUInt32 (v : Value) : Int := v.asUInt64 % 2 ^ 32

def asDouble (v : Value) : BitVec 64 :=
  match v with
  | float bits => BitVec.ofNat 64 (single.convert Floating.double bits.toNat)
  | double bits => bits
  | text _ _ => BitVec.ofNat 64 (Text.leadingReal v.chars)
  | _ => BitVec.ofNat 64 (Floating.double.ofInt v.asInt)

def toSingle (bits : BitVec 64) : BitVec 32 :=
  BitVec.ofNat 32 (Floating.double.convert single bits.toNat)

def asSingle (v : Value) : BitVec 32 := toSingle v.asDouble

def isTrue (v : Value) : Bool :=
  match v with
  | unknown => false
  | bool b => b
  | float bits => !(single.decode bits.toNat).isZero
  | double bits => !(Floating.double.decode bits.toNat).isZero
  | guid bits => bits ≠ 0
  | text _ content => content.size ≠ 0
  | binary content => content.size ≠ 0
  | _ => v.asInt ≠ 0

/-- Text is true for the word `true` in any case or a leading integer that is not zero. -/
def asBool (v : Value) : Bool :=
  match v.text? with
  | some s =>
    let cs := Text.trim s.toList
    cs.map Char.toLower = "true".toList || Text.leadingSigned cs ≠ 0
  | none => v.isTrue

end TaggedBuffer.Value
