import TaggedBuffer.Floating.Layout
import TaggedBuffer.Text.Hex
import TaggedBuffer.Text.Integer
import TaggedBuffer.Text.Utf16
import TaggedBuffer.Text.Utf8
import TaggedBuffer.Value.Basic

namespace TaggedBuffer

/-- Plain numbers never have an exponent part, and whole ones no fraction. -/
def plainLayout : Floating.Layout := ⟨none, false, .up⟩

namespace Value

open Floating

def text? : Value → Option String
  | text .unicode content => some (Utf16.decodeLossy content)
  | text _ content => some (Utf8.decodeLossy content)
  | _ => none

def utf8? : Value → Option String
  | text .unicode _ => none
  | text _ content => String.fromUTF8? content
  | _ => none

def floatText (f : Format) (bits : Nat) : List Char :=
  match f.decode bits with
  | .nan => "NaN".toList
  | .infinity negative => if negative then "-inf".toList else "inf".toList
  | .finite negative m q => plainLayout.finite f negative m q

/-- The plain form: nothing for unknown, 1 and 0 for booleans, digits for numbers, hexadecimal
digits for pointers and bytes, and text as it is. -/
def display : Value → String
  | unknown => ""
  | bool b => if b then "1" else "0"
  | integer t bits => String.ofList (Text.integerChars (t.toInt bits))
  | float bits => String.ofList (floatText single bits.toNat)
  | double bits => String.ofList (floatText Floating.double bits.toNat)
  | pointer address => "0x" ++ String.ofList (Nat.toDigits 16 address.toNat)
  | guid bits => Hex.encode (bitBytes bits)
  | binary content => Hex.encode content
  | text .unicode content => Utf16.decodeLossy content
  | text _ content => Utf8.decodeLossy content

end Value

end TaggedBuffer
