import TaggedBuffer.Value.Strict

namespace TaggedBuffer.Value

def wide (s : String) : Value := text .unicode (Utf16.encode s)

/-- The value of type `t` that the text is. Identifiers are 32 hexadecimal digits, dashes ignored,
and bytes are pairs of hexadecimal digits. -/
def parse (t : ValueType) (s : String) : Except Error Value :=
  let source := utf8 s
  let refusal := Error.conversion source t
  match t with
  | .unknown => .error refusal
  | .bool => return bool (← source.tryBool)
  | .integer i => return integer i (← source.tryRange i t)
  | .float => return float (toSingle (← source.tryDouble))
  | .double => return double (← source.tryDouble)
  | .pointer => return pointer (← source.tryRange .uint64 t)
  | .guid =>
    match Hex.decode? (String.ofList ((Text.trim s.toList).filter (· ≠ '-'))) with
    | some b => if b.size = 16 then .ok (guid (BitVec.ofNat _ (ofLittleEndian (Bytes.list b))))
      else .error refusal
    | none => .error refusal
  | .text .unicode => .ok (wide s)
  | .text e => .ok (text e s.toByteArray)
  | .binary =>
    match Hex.decode? (String.ofList (Text.trim s.toList)) with
    | some b => .ok (binary b)
    | none => .error refusal

/-- A 64 bit integer if the text is one between blanks, else a double if it is another number, else
the text itself. -/
def infer (s : String) : Value :=
  let trimmed := Text.trim s.toList
  if Text.looksNumeric trimmed then
    match (Text.integer? trimmed).bind IntType.int64.ofInt? with
    | some bits => integer .int64 bits
    | none =>
      match Text.real? trimmed with
      | some bits => double (BitVec.ofNat 64 bits)
      | none => utf8 s
  else utf8 s

end TaggedBuffer.Value
