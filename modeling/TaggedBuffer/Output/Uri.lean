import TaggedBuffer.Content.Lookup
import TaggedBuffer.Value.Text

namespace TaggedBuffer

def Value.words (v : Value) : String :=
  match v with
  | .bool b => if b then "true" else "false"
  | _ => v.display

namespace Uri

def isUnreserved (b : UInt8) : Bool :=
  (0x30 ≤ b && b ≤ 0x39) || (0x41 ≤ b && b ≤ 0x5A) || (0x61 ≤ b && b ≤ 0x7A) ||
    b = 0x2D || b = 0x5F || b = 0x2E || b = 0x7E

def encodeByte (b : UInt8) : List Char :=
  if isUnreserved b then [Char.ofNat b.toNat] else '%' :: Hex.digits Hex.upperDigit [b]

def encode (s : String) : List Char := (Bytes.list s.toByteArray).flatMap encodeByte

def pair? (e : Entry) : Option (List Char) :=
  e.name.map fun name => encode name ++ '=' :: encode e.value.words

/-- `name=value` pairs joined by `&`; unnamed entries are left out. -/
def query (src : Bytes) : String :=
  String.ofList (['&'].intercalate ((Content.entries src).filterMap pair?))

end Uri

end TaggedBuffer
