import TaggedBuffer.Value.Lenient

namespace TaggedBuffer.Value

open Floating

/-- Same type and content; floating values compare as numbers, so not-a-number equals nothing. -/
def same : Value → Value → Bool
  | float a, float b => Number.same single a.toNat b.toNat
  | double a, double b => Number.same Floating.double a.toNat b.toNat
  | a, b => a = b

/-- Numbers by value across widths, text by its characters across encodings, the rest strictly. -/
def sameGroup (a b : Value) : Bool :=
  if a.isNumeric && b.isNumeric then
    if a.type.isFloating || b.type.isFloating then
      Number.same Floating.double a.asDouble.toNat b.asDouble.toNat
    else a.asInt = b.asInt
  else if a.isText && b.isText then a.text? = b.text?
  else a.same b

end TaggedBuffer.Value
