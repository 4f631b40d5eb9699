import TaggedBuffer.Bytes.Basic
import TaggedBuffer.Bytes.LittleEndian

namespace TaggedBuffer.Bytes

/-- The bytes `b` lie at offset `p` of `src`. -/
def At (src : Bytes) (p : Nat) (b : Bytes) : Prop :=
  p + b.size ≤ src.size ∧ src.extract p (p + b.size) = b

theorem size_extract_of_le {b : Bytes} {p q : Nat} (hq : q ≤ b.size) :
    (b.extract p q).size = q - p := by
  rw [ByteArray.size_extract, Nat.min_eq_left hq]

theorem extract_cut {b : Bytes} {p q : Nat} (hp : p ≤ q) (hq : q ≤ b.size) :
    b = b.extract 0 p ++ b.extract p q ++ b.extract q b.size := by
  simp only [ByteArray.extract_append_extract, Nat.zero_min, Nat.max_eq_right hp,
    Nat.max_eq_right hq, ByteArray.extract_zero_size]

theorem at_extract {src : Bytes} {p q : Nat} (hp : p ≤ q) (hq : q ≤ src.size) :
    At src p (src.extract p q) := by
  have hs : p + (src.extract p q).size = q := by
    rw [ByteArray.size_extract]
    omega
  exact ⟨by omega, by rw [hs]⟩

theorem At.extract_eq {src b : Bytes} {p q : Nat} (h : At src p b) (hq : q = p + b.size) :
    src.extract p q = b := by
  rw [hq, h.2]

theorem At.extract_append {src b : Bytes} {p : Nat} (h : At src p b) :
    src.extract p src.size = b ++ src.extract (p + b.size) src.size := by
  have hb := h.1
  calc src.extract p src.size
      = src.extract p (p + b.size) ++ src.extract (p + b.size) src.size := by
        rw [ByteArray.extract_append_extract, Nat.min_eq_left (by omega),
          Nat.max_eq_right (by omega)]
    _ = b ++ src.extract (p + b.size) src.size := by rw [h.2]

theorem At.bound {src b : Bytes} {p : Nat} (h : At src p b) : p + b.size ≤ src.size := h.1

theorem at_middle (pre b post : Bytes) : At (pre ++ b ++ post) pre.size b := by
  constructor
  · simp only [ByteArray.size_append]
    omega
  · have h := ByteArray.extract_append_size_add (i := 0) (j := b.size) (a := pre) (b := b ++ post)
    rw [Nat.add_zero] at h
    rw [ByteArray.append_assoc, h, ByteArray.extract_append_eq_left rfl]

theorem At.append_iff {src a b : Bytes} {p : Nat} :
    At src p (a ++ b) ↔ At src p a ∧ At src (p + a.size) b := by
  simp only [At, ByteArray.size_append]
  constructor
  · rintro ⟨hb, he⟩
    have hl : src.extract p (p + a.size) = a := by
      have := congrArg (·.extract 0 a.size) he
      simpa [ByteArray.extract_extract, ByteArray.extract_append_eq_left] using this
    have hr : src.extract (p + a.size) (p + a.size + b.size) = b := by
      have := congrArg (·.extract a.size (a.size + b.size)) he
      simpa [ByteArray.extract_extract, ByteArray.extract_append_size_left, Nat.add_assoc,
        ByteArray.extract_append_eq_right] using this
    exact ⟨⟨by omega, hl⟩, by omega, hr⟩
  · rintro ⟨⟨_, ha⟩, hb, he⟩
    refine ⟨by omega, ?_⟩
    calc src.extract p (p + (a.size + b.size))
        = src.extract p (p + a.size) ++ src.extract (p + a.size) (p + a.size + b.size) := by
          rw [ByteArray.extract_append_extract, Nat.min_eq_left (by omega),
            Nat.max_eq_right (by omega), Nat.add_assoc]
      _ = a ++ b := by rw [ha, he]

theorem At.unique {src a b : Bytes} {p : Nat} (ha : At src p a) (hb : At src p b)
    (h : a.size = b.size) : a = b := by
  rw [← ha.2, h, hb.2]

theorem At.congr {src src' b : Bytes} {p n : Nat} (h : At src p b) (hp : p + b.size ≤ n)
    (hs : n ≤ src'.size) (he : src.extract 0 n = src'.extract 0 n) : At src' p b := by
  have hb := h.1
  refine ⟨by omega, ?_⟩
  have := congrArg (·.extract p (p + b.size)) he
  simp only [ByteArray.extract_extract, Nat.zero_add, Nat.min_eq_left hp] at this
  rw [← this, h.2]

theorem at_littleEndian_iff {src : Bytes} {p n width : Nat} (hn : n < 256 ^ width) :
    At src p (littleEndian width n).toByteArray ↔
      p + width ≤ src.size ∧ ofLittleEndian (list (src.extract p (p + width))) = n := by
  simp only [At, List.size_toByteArray, length_littleEndian]
  apply and_congr_right
  intro hp
  have hl : (list (src.extract p (p + width))).length = width := by
    rw [length_list, ByteArray.size_extract]
    omega
  constructor
  · intro h
    rw [h, list_toByteArray, ofLittleEndian_littleEndian, Nat.mod_eq_of_lt hn]
  · intro h
    apply list_injective
    rw [list_toByteArray, ← h]
    conv => lhs; rw [← littleEndian_ofLittleEndian (list _), hl]

end TaggedBuffer.Bytes
