import TaggedBuffer.Error

namespace TaggedBuffer.Value

/-- The value of fixed size whose payload, as a little endian number, is `n`. A payload of varying
size has no such number. -/
def ofNumber (n : Nat) : ValueType → Value
  | .bool => bool (n ≠ 0)
  | .integer t => integer t (BitVec.ofNat _ n)
  | .float => float (BitVec.ofNat _ n)
  | .double => double (BitVec.ofNat _ n)
  | .pointer => pointer (BitVec.ofNat _ n)
  | .guid => guid (BitVec.ofNat _ n)
  | .unknown | .text _ | .binary => unknown

def ofPayload (t : ValueType) (b : Bytes) : Except Error Value :=
  match t with
  | .text .unicode =>
    if b.size % 2 = 0 then .ok (text .unicode b)
    else .error (.invalidPayload ⟨t, b.size + 1, b.size⟩)
  | .text e => .ok (text e b)
  | .binary => .ok (binary b)
  | t =>
    let expected := t.fixedSize.getD 0
    if b.size = expected then .ok (ofNumber (ofLittleEndian (Bytes.list b)) t)
    else .error (.invalidPayload ⟨t, expected, b.size⟩)

theorem ofNat_littleEndian (n : Nat) (bits : BitVec (8 * n)) :
    BitVec.ofNat (8 * n) (ofLittleEndian (littleEndian n bits.toNat)) = bits := by
  have hw : 256 ^ n = 2 ^ (8 * n) := by rw [Nat.pow_mul]
  rw [ofLittleEndian_littleEndian, hw, Nat.mod_eq_of_lt bits.isLt, BitVec.ofNat_toNat,
    BitVec.setWidth_eq]

theorem ofPayload_payload {v : Value} (h : v.WellFormed) : ofPayload v.type v.payload = .ok v := by
  cases v with
  | unknown => rfl
  | bool b => cases b <;> rfl
  | integer t bits =>
    cases t <;>
      simp [ofPayload, type, payload, bitBytes, ValueType.fixedSize, IntType.size, ofNumber] <;>
      exact ofNat_littleEndian _ bits
  | text e content => cases e <;> simp_all [ofPayload, type, payload, WellFormed]
  | binary content => rfl
  | float bits =>
    simp [ofPayload, type, payload, bitBytes, ValueType.fixedSize, ofNumber]
    exact ofNat_littleEndian 4 bits
  | double bits =>
    simp [ofPayload, type, payload, bitBytes, ValueType.fixedSize, ofNumber]
    exact ofNat_littleEndian 8 bits
  | pointer bits =>
    simp [ofPayload, type, payload, bitBytes, ValueType.fixedSize, ofNumber]
    exact ofNat_littleEndian 8 bits
  | guid bits =>
    simp [ofPayload, type, payload, bitBytes, ValueType.fixedSize, ofNumber]
    exact ofNat_littleEndian 16 bits

end TaggedBuffer.Value
