import TaggedBuffer.Value.Payload

namespace TaggedBuffer

namespace Value

/-- The length in the header of a value record: all that follows the header. -/
def encodedSize (t : ValueType) (byteLength : Nat) : Nat :=
  match t.fixedSize with
  | some n => align n
  | none => align (lengthFieldSize + byteLength)

def encodedLength (v : Value) : Nat := encodedSize v.type v.byteLength

def recordSize (v : Value) : Nat := headerSize + v.encodedLength

end Value

def nameRecordSize (name : String) : Nat := headerSize + align name.utf8ByteSize

def entrySize (name : Option String) (v : Value) : Nat :=
  (name.map nameRecordSize).getD 0 + v.recordSize

def checkName (name : String) : Except Error Unit :=
  if name.utf8ByteSize = 0 then .error .emptyName
  else if name.utf8ByteSize > maxNameLength then .error (.nameTooLong name.utf8ByteSize)
  else .ok ()

def checkValue (v : Value) : Except Error Unit :=
  if v.encodedLength > maxEncodedLength then .error (.valueTooLarge v.encodedLength) else .ok ()

/-- The tag in the top eight bits and the length in the others. -/
def headerWord (tag : UInt8) (length : Nat) : Bytes :=
  (littleEndian 4 (tag.toNat * 2 ^ 24 + length)).toByteArray

def nameRecord (name : String) : Bytes :=
  headerWord nameMarker name.utf8ByteSize ++ name.toByteArray ++
    Bytes.zeros (align name.utf8ByteSize - name.utf8ByteSize)

def lengthField (v : Value) : Bytes :=
  if v.type.isFixedSize then .empty else (littleEndian 4 v.nativeLength).toByteArray

def valueRecord (v : Value) : Bytes :=
  headerWord v.type.tag v.encodedLength ++ lengthField v ++ v.payload ++
    Bytes.zeros (v.encodedLength - (lengthField v).size - v.byteLength)

def entryRecord (name : Option String) (v : Value) : Bytes :=
  (name.map nameRecord).getD .empty ++ valueRecord v

@[simp] theorem size_headerWord (tag : UInt8) (length : Nat) :
    (headerWord tag length).size = 4 := by
  simp [headerWord]

theorem size_nameRecord (name : String) : (nameRecord name).size = nameRecordSize name := by
  have := le_align name.utf8ByteSize
  simp only [nameRecord, nameRecordSize, ByteArray.size_append, size_headerWord, Bytes.size_zeros,
    headerSize, String.size_toByteArray]
  omega

theorem size_lengthField (v : Value) :
    (lengthField v).size = if v.type.isFixedSize then 0 else 4 := by
  unfold lengthField
  split <;> simp

theorem size_lengthField_add_le (v : Value) :
    (lengthField v).size + v.byteLength ≤ v.encodedLength := by
  have hc : v.type.fixedSize = some v.byteLength ∨ v.type.fixedSize = none := by
    cases v <;> simp [Value.byteLength, Value.content?, Value.type, ValueType.fixedSize]
  rw [size_lengthField]
  rcases hc with h | h <;>
    simp only [Value.encodedLength, Value.encodedSize, ValueType.isFixedSize, h, Option.isSome,
      lengthFieldSize, if_true, Bool.false_eq_true, if_false, Nat.zero_add]
  · exact le_align _
  · exact le_align _

theorem size_valueRecord (v : Value) : (valueRecord v).size = v.recordSize := by
  have := size_lengthField_add_le v
  simp only [valueRecord, Value.recordSize, ByteArray.size_append, size_headerWord,
    Bytes.size_zeros, Value.size_payload, headerSize]
  omega

theorem size_entryRecord (name : Option String) (v : Value) :
    (entryRecord name v).size = entrySize name v := by
  cases name <;> simp [entryRecord, entrySize, size_nameRecord, size_valueRecord]

end TaggedBuffer
