import TaggedBuffer.Floating.Shortest

namespace TaggedBuffer.Floating

structure Layout where
  /-- The exponents of the first digit that are written without an exponent part, all if `none`. -/
  positional : Option (Int × Int)
  wholeFraction : Bool
  tie : Tie
  deriving DecidableEq, Repr

namespace Layout

def isPositional (l : Layout) (e : Int) : Bool :=
  match l.positional with
  | none => true
  | some (lo, hi) => lo ≤ e && e ≤ hi

/-- Digits with a point such that the first digit has the weight `10^e`. -/
def placed (l : Layout) (ds : List Char) (e : Int) : List Char :=
  if e < 0 then '0' :: '.' :: (List.replicate (-e - 1).toNat '0' ++ ds)
  else
    let whole := e.toNat + 1
    if ds.length ≤ whole then
      ds ++ List.replicate (whole - ds.length) '0' ++ (if l.wholeFraction then ['.', '0'] else [])
    else ds.take whole ++ '.' :: ds.drop whole

def scientific (ds : List Char) (e : Int) : List Char :=
  let mantissa := match ds with
    | [] => []
    | [d] => [d]
    | d :: rest => d :: '.' :: rest
  mantissa ++ 'e' :: (if e < 0 then '-' else '+') :: Nat.toDigits 10 e.natAbs

def magnitude (l : Layout) (f : Format) (significand : Nat) (exponent : Int) : List Char :=
  if significand = 0 then l.placed ['0'] 0
  else
    let d := f.shortest l.tie significand exponent
    let ds := Nat.toDigits 10 d.digits
    let e := d.exponent + ds.length - 1
    if l.isPositional e then l.placed ds e else scientific ds e

def finite (l : Layout) (f : Format) (negative : Bool) (significand : Nat) (exponent : Int) :
    List Char :=
  (if negative then ['-'] else []) ++ l.magnitude f significand exponent

end Layout

end TaggedBuffer.Floating
