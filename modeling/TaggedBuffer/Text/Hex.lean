import TaggedBuffer.Bytes.Basic

namespace TaggedBuffer.Hex

def lowerDigit (n : Nat) : Char := Nat.digitChar n

def upperDigit (n : Nat) : Char := if n < 10 then Nat.digitChar n else Char.ofNat (n - 10 + 65)

def digits (digit : Nat → Char) (bs : List UInt8) : List Char :=
  bs.flatMap fun b => [digit (b.toNat / 16), digit (b.toNat % 16)]

def encode (b : Bytes) : String := String.ofList (digits upperDigit (Bytes.list b))

def encodeLower (b : Bytes) : String := String.ofList (digits lowerDigit (Bytes.list b))

/-- The value of an ASCII hexadecimal digit of either case. -/
def digit? (c : Char) : Option Nat :=
  if '0' ≤ c ∧ c ≤ '9' then some (c.toNat - 48)
  else if 'a' ≤ c ∧ c ≤ 'f' then some (c.toNat - 97 + 10)
  else if 'A' ≤ c ∧ c ≤ 'F' then some (c.toNat - 65 + 10)
  else none

def addDigit? (v : UInt8) (c : Char) : Option UInt8 := do
  let d ← digit? c
  if 16 * v.toNat + d < 256 then some (UInt8.ofNat (16 * v.toNat + d)) else none

/-- The byte that is written as a number in base 16. A plus sign may stand before the digits. -/
def number? : List Char → Option UInt8
  | [] => none
  | '+' :: c :: rest => (c :: rest).foldlM addDigit? 0
  | cs => cs.foldlM addDigit? 0

def pair? (high low : UInt8) : Option UInt8 := do
  let s ← String.fromUTF8? [high, low].toByteArray
  number? s.toList

/-- The numbers that pairs of bytes of text write. A byte without a partner is left out. -/
def pairs? : List UInt8 → Option (List UInt8)
  | high :: low :: rest => do
    let b ← pair? high low
    let bs ← pairs? rest
    return b :: bs
  | _ => some []

def isDigit (b : UInt8) : Bool := (digit? (Char.ofNat b.toNat)).isSome

/-- The bytes that the text writes. Nothing but digits is let through to the pairs, since a number may
have a sign. -/
def decode? (s : String) : Option Bytes :=
  let bs := Bytes.list s.toByteArray
  if bs.length % 2 = 0 ∧ bs.all isDigit then (pairs? bs).map List.toByteArray else none

end TaggedBuffer.Hex
