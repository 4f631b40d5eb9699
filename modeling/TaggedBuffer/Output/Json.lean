import TaggedBuffer.Content.Group
import TaggedBuffer.Value.Text

namespace TaggedBuffer.Json

open Floating

/-- Numbers in JSON always show a fraction or an exponent. Positional down to 10^-5 and below
10^16. -/
def doubleLayout : Layout := ⟨some (-5, 15), true, .even⟩

def singleLayout : Layout := ⟨some (-6, 12), true, .even⟩

def escapeChar (c : Char) : List Char :=
  if c = '"' then ['\\', '"']
  else if c = '\\' then ['\\', '\\']
  else if c = '\x08' then ['\\', 'b']
  else if c = '\x0c' then ['\\', 'f']
  else if c = '\n' then ['\\', 'n']
  else if c = '\r' then ['\\', 'r']
  else if c = '\t' then ['\\', 't']
  else if c.toNat < 0x20 then
    '\\' :: 'u' :: '0' :: '0' :: Hex.digits Hex.lowerDigit [UInt8.ofNat c.toNat]
  else [c]

def quoteChars (cs : List Char) : List Char := '"' :: (cs.flatMap escapeChar ++ ['"'])

def quote (s : String) : String := String.ofList (quoteChars s.toList)

/-- Infinities and not-a-number have no number in JSON. -/
def number (l : Layout) (f : Format) (bits : Nat) : String :=
  match f.decode bits with
  | .finite negative m q => String.ofList (l.finite f negative m q)
  | _ => "null"

def value (v : Value) : String :=
  match v with
  | .unknown => "null"
  | .bool b => if b then "true" else "false"
  | .integer _ _ => v.display
  | .float bits => number singleLayout single bits.toNat
  | .double bits => number doubleLayout double bits.toNat
  | .pointer address => String.ofList (Nat.toDigits 10 address.toNat)
  | .guid _ | .text _ _ | .binary _ => quote v.display

def openBrace : String := "\x7b"

def closeBrace : String := "\x7d"

/-- A key with one value maps to it, a longer group to a list. -/
def group (g : Content.Group) : String :=
  let vs := g.values.map value
  quote g.key ++ ":" ++
    match vs with
    | [v] => v
    | _ => "[" ++ ",".intercalate vs ++ "]"

def object (src : Bytes) : String :=
  openBrace ++ ",".intercalate ((Content.groups src).map group) ++ closeBrace

def prettyGroup (g : Content.Group) : String :=
  let vs := g.values.map value
  "  " ++ quote g.key ++ ": " ++
    match vs with
    | [v] => v
    | _ => "[\n" ++ ",\n".intercalate (vs.map ("    " ++ ·)) ++ "\n  ]"

def prettyObject (src : Bytes) : String :=
  match Content.groups src with
  | [] => openBrace ++ closeBrace
  | gs => openBrace ++ "\n" ++ ",\n".intercalate (gs.map prettyGroup) ++ "\n" ++ closeBrace

end TaggedBuffer.Json
