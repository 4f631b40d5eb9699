import TaggedBuffer.Proofs.Bytes.Location
import TaggedBuffer.Proofs.Value.Payload
import TaggedBuffer.Record.Reader

namespace TaggedBuffer

theorem checkRoom_ok_iff {n p k : Nat} {u : Unit} : checkRoom n p k = .ok u ↔ k ≤ n - p := by
  rw [checkRoom]
  split <;> simp_all

theorem checkAlignment_ok_iff {p : Nat} {u : Unit} : checkAlignment p = .ok u ↔ p % 4 = 0 := by
  unfold checkAlignment alignment
  split <;> simp_all

theorem checkStoredLength_ok_iff {p n : Nat} {u : Unit} :
    checkStoredLength p n = .ok u ↔ 1 ≤ n ∧ n ≤ maxNameLength := by
  rw [checkStoredLength]
  split
  · simp
    omega
  · split
    · simp
      omega
    · simp
      omega

theorem checkName_ok_iff {name : String} {u : Unit} :
    checkName name = .ok u ↔ 1 ≤ name.utf8ByteSize ∧ name.utf8ByteSize ≤ maxNameLength := by
  rw [checkName]
  split
  · simp
    omega
  · split
    · simp
      omega
    · simp
      omega

theorem checkValue_ok_iff {v : Value} {u : Unit} :
    checkValue v = .ok u ↔ v.encodedLength ≤ maxEncodedLength := by
  rw [checkValue]
  split
  · simp
    omega
  · simp
    omega

theorem readWord_ok_iff {src : Bytes} {p w : Nat} :
    readWord src p = .ok w ↔ w < 256 ^ 4 ∧ src.At p (littleEndian 4 w).toByteArray := by
  simp only [readWord, bind_eq_ok, checkRoom_ok_iff, pure, Except.pure, Except.ok.injEq]
  constructor
  · rintro ⟨_, hr, rfl⟩
    have hlt := ofLittleEndian_lt (Bytes.list (src.extract p (p + 4)))
    have hl : (Bytes.list (src.extract p (p + 4))).length = 4 := by
      rw [Bytes.length_list, ByteArray.size_extract]
      omega
    rw [hl] at hlt
    exact ⟨hlt, (Bytes.at_littleEndian_iff hlt).2 ⟨by omega, rfl⟩⟩
  · rintro ⟨hw, ha⟩
    obtain ⟨hr, he⟩ := (Bytes.at_littleEndian_iff hw).1 ha
    exact ⟨(), by omega, he⟩

theorem readHeader_ok_iff {src : Bytes} {p : Nat} {h : Header} :
    readHeader src p = .ok h ↔
      p % 4 = 0 ∧ h.length ≤ maxEncodedLength ∧ src.At p (headerWord h.tag h.length) := by
  simp only [readHeader, bind_eq_ok, checkAlignment_ok_iff, readWord_ok_iff, pure, Except.pure,
    Except.ok.injEq, maxEncodedLength, headerWord]
  have ht := h.tag.toNat_lt
  constructor
  · rintro ⟨_, hp, w, ⟨hw, ha⟩, rfl⟩
    have hn : (UInt8.ofNat (w / 2 ^ 24)).toNat * 2 ^ 24 + w % 2 ^ 24 = w := by
      rw [UInt8.toNat_ofNat']
      omega
    refine ⟨hp, by simp only; omega, ?_⟩
    simpa only [hn] using ha
  · rintro ⟨hp, hl, ha⟩
    refine ⟨(), hp, _, ⟨by omega, ha⟩, ?_⟩
    have hd : (h.tag.toNat * 2 ^ 24 + h.length) / 2 ^ 24 = h.tag.toNat := by omega
    have hm : (h.tag.toNat * 2 ^ 24 + h.length) % 2 ^ 24 = h.length := by omega
    rw [hd, hm, UInt8.ofNat_toNat]

theorem headerType_ok_iff {h : Header} {t : ValueType} :
    headerType h = .ok t ↔ t.tag = h.tag := by
  rw [← ofHeaderTag?_eq_some_iff, headerType, ValueType.known.eq_def]
  cases ValueType.ofHeaderTag? h.tag <;> simp

end TaggedBuffer
