import TaggedBuffer.Text.Utf8

namespace TaggedBuffer.Utf8

theorem fromUTF8?_eq_some_iff {b : Bytes} {s : String} :
    String.fromUTF8? b = some s ↔ b = s.toByteArray := by
  unfold String.fromUTF8?
  constructor
  · intro h
    split at h
    · cases h
      rfl
    · cases h
  · rintro rfl
    have := s.isValidUTF8
    simp [this, String.fromUTF8]

theorem decode_ok_iff {b : Bytes} {s : String} : decode b = .ok s ↔ b = s.toByteArray := by
  rw [← fromUTF8?_eq_some_iff, decode]
  cases String.fromUTF8? b <;> simp

theorem decodeLossy_of_fromUTF8? {b : Bytes} {s : String} (h : String.fromUTF8? b = some s) :
    decodeLossy b = s := by
  rw [decodeLossy, h]

theorem decodeLossy_toByteArray (s : String) : decodeLossy s.toByteArray = s :=
  decodeLossy_of_fromUTF8? (fromUTF8?_eq_some_iff.2 rfl)

def IsAscii (s : String) : Prop := ∀ c ∈ s.toList, c.toNat < 128

theorem list_toByteArray (s : String) :
    Bytes.list s.toByteArray = s.toList.flatMap String.utf8EncodeChar := by
  rw [← String.utf8Encode_toList, List.utf8Encode, Bytes.list_toByteArray]

theorem utf8EncodeChar_of_lt {c : Char} (h : c.toNat < 128) :
    String.utf8EncodeChar c = [UInt8.ofNat c.toNat] := by
  rw [String.utf8EncodeChar]
  exact if_pos (Nat.le_of_lt_succ h)

/-- The first byte of a longer sequence tells its length by bits from the highest on. -/
theorem exists_le_of_utf8EncodeChar {c : Char} (h : 128 ≤ c.toNat) :
    ∃ b ∈ String.utf8EncodeChar c, 128 ≤ b.toNat := by
  have hc : ¬ c.val.toNat ≤ 127 := Nat.not_le_of_lt h
  rw [String.utf8EncodeChar, if_neg hc]
  split
  · refine ⟨_, .head _, ?_⟩
    rw [UInt8.toNat_ofNat']
    omega
  · split
    · refine ⟨_, .head _, ?_⟩
      rw [UInt8.toNat_ofNat']
      omega
    · refine ⟨_, .head _, ?_⟩
      rw [UInt8.toNat_ofNat']
      omega

theorem isAscii_of_bytes {s : String} (h : ∀ b ∈ Bytes.list s.toByteArray, b.toNat < 128) :
    IsAscii s := by
  intro c hc
  apply Nat.lt_of_not_le
  intro hle
  obtain ⟨b, hb, hlow⟩ := exists_le_of_utf8EncodeChar hle
  have hmem : b ∈ Bytes.list s.toByteArray := by
    rw [list_toByteArray]
    exact List.mem_flatMap.2 ⟨c, hc, hb⟩
  have := h b hmem
  omega

theorem list_toByteArray_of_isAscii {s : String} (h : IsAscii s) :
    Bytes.list s.toByteArray = s.toList.map fun c => UInt8.ofNat c.toNat := by
  have hsingle : s.toList.map String.utf8EncodeChar = s.toList.map fun c => [UInt8.ofNat c.toNat] :=
    List.map_congr_left fun c hc => utf8EncodeChar_of_lt (h c hc)
  rw [list_toByteArray, List.flatMap_def, hsingle, ← List.flatMap_def, List.map_eq_flatMap]

end TaggedBuffer.Utf8
