import TaggedBuffer.Text.Blank

namespace TaggedBuffer.Text

def splitSign : List Char → Bool × List Char
  | '-' :: rest => (true, rest)
  | '+' :: rest => (false, rest)
  | cs => (false, cs)

def signed (negative : Bool) (n : Nat) : Int := if negative then -n else n

def joinPairs (base : Nat) : List Nat → List Nat
  | low :: high :: rest => (low + base * high) :: joinPairs base rest
  | ds => ds

theorem length_joinPairs_le (base : Nat) (ds : List Nat) :
    (joinPairs base ds).length ≤ ds.length := by
  fun_induction joinPairs base ds with
  | case1 low high rest ih => simp; omega
  | case2 ds _ => exact Nat.le_refl _

/-- Joined digits are those of the same number in the squared base. -/
theorem foldr_joinPairs (base : Nat) (ds : List Nat) :
    (joinPairs base ds).foldr (fun d n => d + base * base * n) 0 =
      ds.foldr (fun d n => d + base * n) 0 := by
  fun_induction joinPairs base ds with
  | case1 low high rest ih => simp only [List.foldr_cons, ih]; grind
  | case2 ds h =>
    match ds, h with
    | [], _ => rfl
    | [d], _ => simp
    | low :: high :: rest, h => exact absurd rfl (h low high rest)

/-- The number with these digits, the lowest first. Neighbours are joined before distant digits, so
that the factors of each product are of about the same length. -/
def ofDigits (base : Nat) : List Nat → Nat
  | [] => 0
  | [d] => d
  | low :: high :: rest => ofDigits (base * base) ((low + base * high) :: joinPairs base rest)
termination_by ds => ds.length
decreasing_by
  have := length_joinPairs_le base rest
  simp
  omega

theorem ofDigits_eq_foldr (base : Nat) (ds : List Nat) :
    ofDigits base ds = ds.foldr (fun d n => d + base * n) 0 := by
  fun_induction ofDigits base ds with
  | case1 => rfl
  | case2 => simp
  | case3 base low high rest ih =>
    rw [ih, ← foldr_joinPairs base (low :: high :: rest), joinPairs]

def digitsValue (cs : List Char) : Nat :=
  ofDigits 10 (cs.reverse.map fun c => c.toNat - '0'.toNat)

theorem digitsValue_eq (cs : List Char) : digitsValue cs = Nat.ofDigitChars 10 cs 0 := by
  simp only [digitsValue, ofDigits_eq_foldr, List.foldr_map, List.foldr_reverse,
    Nat.ofDigitChars_eq_foldl, Nat.add_comm]

def integer? (cs : List Char) : Option Int :=
  let (negative, digits) := splitSign cs
  if digits ≠ [] ∧ digits.all Char.isDigit then some (signed negative (digitsValue digits))
  else none

/-- Strict conversions read integers of 128 bits and narrow them to their type. -/
def integer128? (cs : List Char) : Option Int :=
  (integer? cs).filter fun v => -2 ^ 127 ≤ v ∧ v < 2 ^ 127

theorem integer128?_eq_some_iff {cs : List Char} {v : Int} :
    integer128? cs = some v ↔ integer? cs = some v ∧ -2 ^ 127 ≤ v ∧ v < 2 ^ 127 := by
  rw [integer128?, Option.filter_eq_some_iff, decide_eq_true_eq]

/-- The sign, and the digits at the head of what follows leading blanks and a sign. -/
def leadingDigits (cs : List Char) : Bool × List Char :=
  let (negative, rest) := splitSign (trimStart cs)
  (negative, rest.takeWhile Char.isDigit)

def clamp (lo hi v : Int) : Int := max lo (min hi v)

/-- One more digit behind a number, away from zero. The product and the sum each stop at the bounds. -/
def addDigit (lo hi : Int) (negative : Bool) (v : Int) (c : Char) : Int :=
  let scaled := clamp lo hi (v * 10)
  let d := c.toNat - '0'.toNat
  clamp lo hi (if negative then scaled - d else scaled + d)

def leadingSigned (cs : List Char) : Int :=
  let (negative, digits) := leadingDigits cs
  digits.foldl (addDigit (-2 ^ 63) (2 ^ 63 - 1) negative) 0

/-- The leading integer within 64 bits unsigned; a negative one is read as signed and taken modulo
2^64. -/
def leadingUnsigned (cs : List Char) : Int :=
  let (negative, digits) := leadingDigits cs
  if negative then leadingSigned cs % 2 ^ 64
  else digits.foldl (addDigit 0 (2 ^ 64 - 1) false) 0

/-- A product that stopped at a bound stays there, since the digits lead away from zero. -/
theorem addDigit_clamp {lo hi : Int} (hlo : lo ≤ 0) (hhi : 0 ≤ hi) (negative : Bool) (n : Nat)
    (c : Char) : addDigit lo hi negative (clamp lo hi (signed negative n)) c =
      clamp lo hi (signed negative (10 * n + (c.toNat - '0'.toNat))) := by
  simp only [addDigit, signed, clamp]
  generalize c.toNat - '0'.toNat = d
  cases negative with
  | false =>
    simp only [Bool.false_eq_true, if_false]
    omega
  | true =>
    simp only [if_true]
    omega

theorem foldl_addDigit {lo hi : Int} (hlo : lo ≤ 0) (hhi : 0 ≤ hi) (negative : Bool)
    (ds : List Char) (n : Nat) :
    ds.foldl (addDigit lo hi negative) (clamp lo hi (signed negative n)) =
      clamp lo hi (signed negative (Nat.ofDigitChars 10 ds n)) := by
  induction ds generalizing n with
  | nil => rfl
  | cons c ds ih => rw [List.foldl_cons, addDigit_clamp hlo hhi, ih, Nat.ofDigitChars_cons]

/-- Stopping at the bounds with each digit and clamping the whole number come to the same. -/
theorem foldl_addDigit_zero {lo hi : Int} (hlo : lo ≤ 0) (hhi : 0 ≤ hi) (negative : Bool)
    (ds : List Char) : ds.foldl (addDigit lo hi negative) 0 =
      clamp lo hi (signed negative (Nat.ofDigitChars 10 ds 0)) := by
  have hzero : clamp lo hi (signed negative 0) = 0 := by
    cases negative <;> simp only [clamp, signed] <;> omega
  rw [← foldl_addDigit hlo hhi, hzero]

def integerChars (v : Int) : List Char :=
  if v < 0 then '-' :: Nat.toDigits 10 v.natAbs else Nat.toDigits 10 v.natAbs

end TaggedBuffer.Text
