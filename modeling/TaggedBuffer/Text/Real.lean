import TaggedBuffer.Floating.Format
import TaggedBuffer.Text.Integer

namespace TaggedBuffer.Text

open Floating

structure RealLiteral where
  negative : Bool
  digits : Nat
  exponent : Int
  deriving DecidableEq, Repr

/-- From 2^16 on the magnitude of an exponent no longer grows with further digits. -/
def exponentValue (ds : List Char) : Nat :=
  ds.foldl (fun n c => if n < 0x10000 then 10 * n + (c.toNat - '0'.toNat) else n) 0

def takeExponent (cs : List Char) : Int × List Char :=
  match cs with
  | c :: rest =>
    if c = 'e' ∨ c = 'E' then
      let (negative, tail) := splitSign rest
      let ds := tail.takeWhile Char.isDigit
      if ds = [] then (0, cs)
      else (signed negative (exponentValue ds), tail.dropWhile Char.isDigit)
    else (0, cs)
  | [] => (0, [])

/-- A point and the digits after it, and the rest; `anyDigits` says whether digits stood before it,
since a point needs a digit on one side. -/
def takeFraction (anyDigits : Bool) (cs : List Char) : List Char × List Char :=
  match cs with
  | '.' :: rest =>
    let ds := rest.takeWhile Char.isDigit
    if anyDigits || ds ≠ [] then (ds, rest.dropWhile Char.isDigit) else ([], cs)
  | _ => ([], cs)

/-- The longest number at the head of the text, and the rest. -/
def scanReal (cs : List Char) : Option (RealLiteral × List Char) :=
  let (negative, unsigned) := splitSign cs
  let whole := unsigned.takeWhile Char.isDigit
  let (fraction, rest) := takeFraction (whole ≠ []) (unsigned.dropWhile Char.isDigit)
  if whole = [] ∧ fraction = [] then none
  else
    let (exponent, rest) := takeExponent rest
    some (⟨negative, digitsValue (whole ++ fraction), exponent - fraction.length⟩, rest)

/-- The pattern nearest to the number. One of at least `10^400` or below `10^-400` is beyond both
formats; `digits` is below `10^n` if it is below `2^n`. -/
def RealLiteral.bits (r : RealLiteral) (f : Format) : Nat :=
  if r.digits = 0 then f.signBit r.negative
  else if 400 ≤ r.exponent then f.signBit r.negative + f.infinityBits
  else if r.exponent + (r.digits.log2 + 1) < -400 then f.signBit r.negative
  else f.round r.negative (r.digits * 10 ^ r.exponent.toNat) (10 ^ (-r.exponent).toNat)

def realWord? (f : Format) (cs : List Char) : Option Nat :=
  let (negative, rest) := splitSign cs
  let word := rest.map Char.toLower
  if word = "inf".toList ∨ word = "infinity".toList then some (f.signBit negative + f.infinityBits)
  else if word = "nan".toList then some (f.quietNan negative)
  else none

def real? (cs : List Char) : Option Nat :=
  match realWord? double cs with
  | some bits => some bits
  | none =>
    match scanReal cs with
    | some (r, []) => some (r.bits double)
    | _ => none

/-- The double nearest to the longest number after leading blanks, zero if there is none. -/
def leadingReal (cs : List Char) : Nat :=
  match scanReal (trimStart cs) with
  | some (r, _) => r.bits double
  | none => 0

def looksNumeric (cs : List Char) : Bool :=
  cs.any Char.isDigit &&
    cs.all fun c => c.isDigit || c = '+' || c = '-' || c = '.' || c = 'e' || c = 'E'

end TaggedBuffer.Text
