import TaggedBuffer.Instances

namespace TaggedBuffer.Floating

/-- A binary interchange format: bits of the significand, the leading one included, and of the
exponent. -/
structure Format where
  precision : Nat
  exponentBits : Nat
  deriving DecidableEq, Repr

def single : Format := ⟨24, 8⟩

def double : Format := ⟨53, 11⟩

/-- What a bit pattern stands for: a finite one is its significand times a power of two. -/
inductive Number where
  | nan
  | infinity (negative : Bool)
  | finite (negative : Bool) (significand : Nat) (exponent : Int)
  deriving DecidableEq, Repr

namespace Format

def width (f : Format) : Nat := f.precision + f.exponentBits

def lowest (f : Format) : Int := 3 - 2 ^ (f.exponentBits - 1) - f.precision

/-- The patterns below the sign bit count upward from zero to infinity. -/
def infinityBits (f : Format) : Nat := (2 ^ f.exponentBits - 1) * 2 ^ (f.precision - 1)

def signBit (f : Format) (negative : Bool) : Nat := if negative then 2 ^ (f.width - 1) else 0

def isNegative (f : Format) (bits : Nat) : Bool := bits / 2 ^ (f.width - 1) % 2 = 1

def decode (f : Format) (bits : Nat) : Number :=
  let negative := f.isNegative bits
  let magnitude := bits % 2 ^ (f.width - 1)
  let field := magnitude / 2 ^ (f.precision - 1)
  let fraction := magnitude % 2 ^ (f.precision - 1)
  if magnitude > f.infinityBits then .nan
  else if magnitude = f.infinityBits then .infinity negative
  else if field = 0 then .finite negative fraction f.lowest
  else .finite negative (fraction + 2 ^ (f.precision - 1)) (f.lowest + field - 1)

end Format

/-- `num / den` to the nearest integer, a half to the even one. -/
def roundDiv (num den : Nat) : Nat :=
  let q := num / den
  let r := num % den
  if den < 2 * r ∨ (2 * r = den ∧ q % 2 = 1) then q + 1 else q

def scale (num den : Nat) (e : Int) : Nat × Nat :=
  (num * 2 ^ e.toNat, den * 2 ^ (-e).toNat)

/-- The largest `k` with `2^k ≤ num / den`, for a positive fraction. -/
def floorLog2 (num den : Nat) : Int :=
  let k : Int := num.log2 - den.log2
  let (n, d) := scale num den (-k)
  if d ≤ n then k else k - 1

namespace Format

/-- The pattern, without its sign, nearest to `num / den`. -/
def magnitude (f : Format) (num den : Nat) : Nat :=
  if num = 0 then 0
  else
    let e := max f.lowest (floorLog2 num den - (f.precision - 1))
    let (n, d) := scale num den (-e)
    min f.infinityBits ((e - f.lowest).toNat * 2 ^ (f.precision - 1) + roundDiv n d)

def round (f : Format) (negative : Bool) (num den : Nat) : Nat :=
  f.signBit negative + f.magnitude num den

def ofInt (f : Format) (v : Int) : Nat := f.round (v < 0) v.natAbs 1

/-- The not-a-number pattern of a sign and the leading bits of a payload. -/
def quietNan (f : Format) (negative : Bool) : Nat :=
  f.signBit negative + f.infinityBits + 2 ^ (f.precision - 2)

/-- The pattern of format `g` nearest to a pattern of format `f`; a not-a-number keeps its sign and
the leading bits of its payload and becomes quiet. -/
def convert (f g : Format) (bits : Nat) : Nat :=
  match f.decode bits with
  | .nan =>
    let payload := bits % 2 ^ (f.precision - 2)
    let (n, d) := scale payload 1 ((g.precision : Int) - f.precision)
    g.quietNan (f.isNegative bits) + n / d
  | .infinity negative => g.signBit negative + g.infinityBits
  | .finite negative m q =>
    let (n, d) := scale m 1 q
    g.round negative n d

end Format

namespace Number

/-- Equality of numbers: not-a-number equals nothing, and both zeros are equal. -/
def same (f : Format) (a b : Nat) : Bool :=
  match f.decode a, f.decode b with
  | .nan, _ => false
  | _, .nan => false
  | .finite _ 0 _, .finite _ 0 _ => true
  | x, y => x = y

def isZero : Number → Bool
  | .finite _ 0 _ => true
  | _ => false

def truncate : Number → Option Int
  | .finite negative m q =>
    let n := (m * 2 ^ q.toNat) / 2 ^ (-q).toNat
    some (if negative then -n else n)
  | _ => none

def integer? : Number → Option Int
  | .finite negative m q =>
    let (n, d) := scale m 1 q
    if n % d = 0 then some (if negative then -(n / d : Nat) else (n / d : Nat)) else none
  | _ => none

/-- Truncated and clamped to `lo … hi`; not-a-number gives 0. -/
def saturate (lo hi : Int) : Number → Int
  | .nan => 0
  | .infinity negative => if negative then lo else hi
  | .finite negative m q =>
    match truncate (.finite negative m q) with
    | some v => max lo (min hi v)
    | none => 0

end Number

end TaggedBuffer.Floating
