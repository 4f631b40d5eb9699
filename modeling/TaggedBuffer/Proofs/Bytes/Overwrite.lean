import TaggedBuffer.Proofs.Bytes.Location

namespace TaggedBuffer.Bytes

theorem overwrite_middle {x y z new : Bytes} (h : y.size = new.size) :
    (x ++ y ++ z).overwrite x.size new = x ++ new ++ z := by
  have hs : x.size + new.size = (x ++ y).size := by rw [ByteArray.size_append, h]
  have hl : (x ++ y ++ z).extract 0 x.size = x := by
    rw [ByteArray.append_assoc, ByteArray.extract_append_eq_left rfl]
  rw [overwrite_eq, hs, hl, ByteArray.extract_append_eq_right rfl ByteArray.size_append]

theorem overwrite_append {b x y : Bytes} {p : Nat} (h : p + x.size + y.size ≤ b.size) :
    (b.overwrite p x).overwrite (p + x.size) y = b.overwrite p (x ++ y) := by
  obtain ⟨u, w, z, rfl, hu, hw⟩ : ∃ u w z : Bytes, b = u ++ w ++ z ∧ u.size = p ∧
      w.size = x.size + y.size := by
    refine ⟨_, _, _, extract_cut (p := p) (q := p + x.size + y.size) (by omega) h, ?_, ?_⟩
    · rw [ByteArray.size_extract]
      omega
    · rw [ByteArray.size_extract]
      omega
  obtain ⟨w₁, w₂, rfl, h₁⟩ : ∃ w₁ w₂ : Bytes, w = w₁ ++ w₂ ∧ w₁.size = x.size := by
    refine ⟨w.extract 0 x.size, w.extract x.size w.size, ?_, ?_⟩
    · rw [ByteArray.extract_append_extract, Nat.zero_min, Nat.max_eq_right (by omega),
        ByteArray.extract_zero_size]
    · rw [ByteArray.size_extract]
      omega
  have h₂ : w₂.size = y.size := by
    rw [ByteArray.size_append] at hw
    omega
  subst hu
  have hx : (u ++ (w₁ ++ w₂) ++ z).overwrite u.size x = u ++ x ++ w₂ ++ z := by
    have := overwrite_middle (x := u) (z := w₂ ++ z) h₁
    simpa only [ByteArray.append_assoc] using this
  have hy := overwrite_middle (x := u ++ x) (z := z) h₂
  rw [ByteArray.size_append] at hy
  rw [hx, hy, overwrite_middle (by simp only [ByteArray.size_append]; omega)]
  simp only [ByteArray.append_assoc]

theorem at_overwrite {b new : Bytes} {p : Nat} (h : p + new.size ≤ b.size) :
    At (b.overwrite p new) p new := by
  have hat := at_middle (b.extract 0 p) new (b.extract (p + new.size) b.size)
  rwa [size_extract_of_le (by omega), ← overwrite_eq] at hat

theorem overwrite_empty (b : Bytes) : b.overwrite 0 .empty = b := by
  rw [overwrite_eq, ByteArray.extract_same, ByteArray.empty_append, ByteArray.empty_append,
    ByteArray.size_empty, ByteArray.extract_zero_size]

theorem size_tail {b : Bytes} {p old new used : Nat} (hp : p + old ≤ used) :
    p + new + (b.extract (p + old) used).size ≤ used - old + new := by
  rw [ByteArray.size_extract]
  omega

theorem getElem?_overwrite {b new : Bytes} {p i : Nat} (h : p + new.size ≤ b.size)
    (hi : i < p ∨ p + new.size ≤ i) : (list (b.overwrite p new))[i]? = (list b)[i]? := by
  have hold := extract_cut (b := b) (Nat.le_add_right p new.size) h
  have hhead : (b.extract 0 p).size = p := size_extract_of_le (by omega)
  have hspan := size_extract_of_le (p := p) h
  rw [overwrite_eq]
  conv => rhs; rw [hold]
  simp only [list_append]
  rcases hi with hi | hi
  · have hlt : i < (list (b.extract 0 p)).length := by rwa [length_list, hhead]
    rw [List.append_assoc, List.append_assoc, List.getElem?_append_left hlt,
      List.getElem?_append_left hlt]
  · have hsame : (list (b.extract 0 p) ++ list new).length =
        (list (b.extract 0 p) ++ list (b.extract p (p + new.size))).length := by
      simp only [List.length_append, length_list, hspan]
      omega
    have hle : (list (b.extract 0 p) ++ list new).length ≤ i := by
      simp only [List.length_append, length_list, hhead]
      exact hi
    rw [List.getElem?_append_right hle, List.getElem?_append_right (hsame ▸ hle), hsame]

theorem extract_overwrite {b new : Bytes} {p : Nat} (h : p + new.size ≤ b.size) :
    (b.overwrite p new).extract 0 (p + new.size) = b.extract 0 p ++ new := by
  have hs : (b.extract 0 p).size = p := by
    rw [ByteArray.size_extract]
    omega
  rw [overwrite_eq, ByteArray.extract_append_eq_left]
  rw [ByteArray.size_append, hs]

/-- Where the span in front of it gets another length, a tail is moved and leaves a gap of that length. -/
theorem exists_gap {x y z slack : Bytes} {n : Nat}
    (h : x.size + n + z.size ≤ (x ++ y ++ z ++ slack).size) :
    ∃ gap, gap.size = n ∧ ((x ++ y ++ z ++ slack).overwrite (x.size + n) z).extract 0
      (x.size + n + z.size) = x ++ gap ++ z := by
  have hhead : (x ++ y ++ z ++ slack).extract 0 x.size = x := by
    rw [ByteArray.append_assoc, ByteArray.append_assoc, ByteArray.extract_append_eq_left rfl]
  generalize x ++ y ++ z ++ slack = b at h hhead ⊢
  refine ⟨b.extract x.size (x.size + n), ?_, ?_⟩
  · rw [ByteArray.size_extract]
    omega
  · have hgap : b.extract 0 (x.size + n) = x ++ b.extract x.size (x.size + n) := by
      conv => rhs; rw [← congrArg (· ++ _) hhead]
      rw [ByteArray.extract_append_extract, Nat.zero_min, Nat.max_eq_right (by omega)]
    rw [extract_overwrite h, hgap]

end TaggedBuffer.Bytes
