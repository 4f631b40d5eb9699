import TaggedBuffer.Output.Json

namespace TaggedBuffer.Print

/-- Values in plain form, each named one after its name in quotes. -/
def plain (src : Bytes) : String :=
  ", ".intercalate ((Content.entries src).map fun e =>
    match e.name with
    | some name => "\"" ++ name ++ "\": " ++ e.value.display
    | none => e.value.display)

def json (src : Bytes) : String :=
  ", ".intercalate ((Content.entries src).map fun e =>
    match e.name with
    | some name => Json.quote name ++ ": " ++ Json.value e.value
    | none => Json.value e.value)

def keys (src : Bytes) (separator : String) : String :=
  separator.intercalate (Content.names src)

def values (src : Bytes) (separator : String) : String :=
  separator.intercalate ((Content.entries src).map (·.value.display))

def debug (src : Bytes) : String :=
  String.join ((Content.entries src).mapIdx fun index e =>
    e.name.getD s!"[{index}]" ++ " = " ++ e.value.display ++ " : " ++ e.value.type.name ++ "\n")

end TaggedBuffer.Print
