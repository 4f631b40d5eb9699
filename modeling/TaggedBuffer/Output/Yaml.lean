import TaggedBuffer.Output.Json
import TaggedBuffer.Output.Uri
import TaggedBuffer.Text.Real

namespace TaggedBuffer.Yaml

def indicators : List Char :=
  [':', '#', '\x7b', '\x7d', '[', ']', ',', '&', '*', '!', '|', '>', '\'', '"', '%', '@', '\x60',
   '\n', '\r', '\t']

def reserved : List String := ["true", "false", "yes", "no", "null", "~", "on", "off"]

/-- Text that would be read as something else, or not at all, without quotes. -/
def needsQuotes (s : String) : Bool :=
  let cs := s.toList
  cs = [] || Text.trim cs ≠ cs || cs.head? = some '-' || cs.head? = some '?' ||
    cs.any (indicators.contains ·) || (Text.real? cs).isSome ||
    reserved.contains (String.ofList (cs.map Char.toLower))

def plain (s : String) : String := if needsQuotes s then Json.quote s else s

def scalar (v : Value) : String :=
  match v with
  | .unknown => "~"
  | .guid _ | .text _ _ | .binary _ => plain v.display
  | _ => v.words

def group (g : Content.Group) : String :=
  match g.values with
  | [v] => plain g.key ++ ": " ++ scalar v ++ "\n"
  | vs => plain g.key ++ ":\n" ++ String.join (vs.map fun v => "  - " ++ scalar v ++ "\n")

def mapping (src : Bytes) : String := String.join ((Content.groups src).map group)

end TaggedBuffer.Yaml
