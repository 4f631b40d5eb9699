import TaggedBuffer.Instances

namespace TaggedBuffer

abbrev Bytes := ByteArray

namespace Bytes

def list (b : Bytes) : List UInt8 := b.data.toList

def zeros (n : Nat) : Bytes := ⟨Array.replicate n 0⟩

/-- `b` with `new` laid over it from offset `p` on. -/
def overwrite (b : Bytes) (p : Nat) (new : Bytes) : Bytes :=
  new.copySlice 0 b p new.size

@[simp] theorem length_list (b : Bytes) : (list b).length = b.size := rfl

@[simp] theorem list_append (a b : Bytes) : list (a ++ b) = list a ++ list b := by
  simp [list, ByteArray.data_append]

@[simp] theorem list_toByteArray (l : List UInt8) : list l.toByteArray = l := by
  simp [list]

@[simp] theorem toByteArray_list (b : Bytes) : (list b).toByteArray = b := by
  apply ByteArray.ext
  simp [list]

theorem list_injective {a b : Bytes} (h : list a = list b) : a = b := by
  rw [← toByteArray_list a, h, toByteArray_list]

@[simp] theorem size_zeros (n : Nat) : (zeros n).size = n := by
  simp [zeros, ByteArray.size]

@[simp] theorem list_zeros (n : Nat) : list (zeros n) = List.replicate n 0 := by
  simp [list, zeros]

theorem overwrite_eq (b : Bytes) (p : Nat) (new : Bytes) :
    b.overwrite p new = b.extract 0 p ++ new ++ b.extract (p + new.size) b.size := by
  simp [overwrite, ByteArray.copySlice_eq_append]

theorem size_overwrite {b : Bytes} {p : Nat} {new : Bytes} (h : p + new.size ≤ b.size) :
    (b.overwrite p new).size = b.size := by
  rw [overwrite_eq]
  simp only [ByteArray.size_append, ByteArray.size_extract]
  omega

end Bytes

end TaggedBuffer
