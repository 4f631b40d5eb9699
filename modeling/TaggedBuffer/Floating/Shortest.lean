import TaggedBuffer.Floating.Format

namespace TaggedBuffer.Floating

inductive Tie where
  | up
  | even
  deriving DecidableEq, Repr

structure Decimal where
  digits : Nat
  exponent : Int
  deriving DecidableEq, Repr

def floorLog10 (num den : Nat) : Int :=
  if den ≤ num then (Nat.toDigits 10 (num / den)).length - 1
  else -(Nat.toDigits 10 ((den - 1) / num)).length

/-- The reals that round to `significand * 2^exponent`, in quarters of its last place: below by two,
or by one where the numbers below lie twice as close, above by two, ends included or not. -/
structure Interval where
  below : Nat
  closed : Bool
  deriving DecidableEq, Repr

def Format.interval (f : Format) (significand : Nat) (exponent : Int) : Interval :=
  { below := if significand = 2 ^ (f.precision - 1) ∧ f.lowest < exponent then 1 else 2
    closed := significand % 2 = 0 }

/-- The points of the grid of step `10^k` beside `significand * 2^exponent` that lie in the interval,
the nearest one of them. -/
def Interval.nearest? (i : Interval) (tie : Tie) (significand : Nat) (exponent k : Int) :
    Option Nat :=
  let unit := 2 ^ (exponent - 2).toNat * 10 ^ (-k).toNat
  let step := 10 ^ k.toNat * 2 ^ (2 - exponent).toNat
  let value := 4 * significand * unit
  let low := (4 * significand - i.below) * unit
  let high := (4 * significand + 2) * unit
  let d := value / step
  let isIn (x : Nat) : Bool := if i.closed then low ≤ x && x ≤ high else low < x && x < high
  let gapDown := value - d * step
  let gapUp := (d + 1) * step - value
  match isIn (d * step), isIn ((d + 1) * step) with
  | true, true =>
    if gapDown < gapUp then some d
    else if gapUp < gapDown then some (d + 1)
    else match tie with
      | .up => some (d + 1)
      | .even => if d % 2 = 0 then some d else some (d + 1)
  | true, false => some d
  | false, true => some (d + 1)
  | false, false => none

/-- Tries ever finer grids, `fuel` of them, from the step `10^k` on. -/
def Interval.search (i : Interval) (tie : Tie) (significand : Nat) (exponent : Int) :
    (fuel : Nat) → (k : Int) → Decimal
  | 0, k => ⟨0, k⟩
  | fuel + 1, k =>
    match i.nearest? tie significand exponent k with
    | some d => ⟨d, k⟩
    | none => i.search tie significand exponent fuel (k - 1)

def Decimal.strip (d : Decimal) : Decimal :=
  if d.digits ≠ 0 ∧ d.digits % 10 = 0 then ⟨d.digits / 10, d.exponent + 1⟩ else d

/-- The shortest decimal of a positive number; 17 digits always suffice for both formats. -/
def Format.shortest (f : Format) (tie : Tie) (significand : Nat) (exponent : Int) : Decimal :=
  let (n, d) := scale significand 1 exponent
  ((f.interval significand exponent).search tie significand exponent 17 (floorLog10 n d)).strip

end TaggedBuffer.Floating
