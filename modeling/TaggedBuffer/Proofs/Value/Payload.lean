import TaggedBuffer.Value.Payload
import TaggedBuffer.ValueType.Tag

namespace TaggedBuffer

namespace Value

/-- The content that a value is read from. -/
def HasPayload (v : Value) (c : Bytes) : Prop :=
  c = v.payload ∨ v = .bool true ∧ ∃ b : UInt8, b ≠ 0 ∧ c = [b].toByteArray

theorem HasPayload.size {v : Value} {c : Bytes} (h : v.HasPayload c) : c.size = v.byteLength := by
  rcases h with rfl | ⟨rfl, b, _, rfl⟩
  · exact v.size_payload
  · rfl

theorem bitBytes_ofNumber {n : Nat} {c : Bytes} (h : c.size = n) :
    bitBytes (BitVec.ofNat (8 * n) (ofLittleEndian (Bytes.list c))) = c := by
  have hlt := ofLittleEndian_lt (Bytes.list c)
  rw [Bytes.length_list, h, show 256 = 2 ^ 8 from rfl, ← Nat.pow_mul] at hlt
  apply Bytes.list_injective
  rw [bitBytes, BitVec.toNat_ofNat, Nat.mod_eq_of_lt hlt, Bytes.list_toByteArray,
    Nat.mul_div_cancel_left _ (by decide), ← h, ← Bytes.length_list, littleEndian_ofLittleEndian]

theorem ofPayload_ok {t : ValueType} {c : Bytes} {v : Value} (h : ofPayload t c = .ok v) :
    v.type = t ∧ v.WellFormed ∧ v.HasPayload c := by
  have hfixed : ∀ n, (if c.size = n then (.ok (ofNumber (ofLittleEndian (Bytes.list c)) t) :
      Except Error Value) else .error (.invalidPayload ⟨t, n, c.size⟩)) = .ok v →
      c.size = n ∧ v = ofNumber (ofLittleEndian (Bytes.list c)) t := by
    intro n h
    split at h
    · exact ⟨by assumption, by cases h; rfl⟩
    · cases h
  cases t with
  | unknown =>
    obtain ⟨hs, rfl⟩ := hfixed _ h
    refine ⟨rfl, trivial, .inl ?_⟩
    exact ByteArray.size_eq_zero_iff.1 hs
  | bool =>
    obtain ⟨hs, rfl⟩ := hfixed _ h
    refine ⟨rfl, trivial, ?_⟩
    obtain ⟨b, hb⟩ : ∃ b, Bytes.list c = [b] := List.length_eq_one_iff.1 hs
    have hc : c = [b].toByteArray := Bytes.list_injective (by rw [hb, Bytes.list_toByteArray])
    have hn : ofLittleEndian (Bytes.list c) = b.toNat := by simp [hb, ofLittleEndian]
    by_cases h0 : b = 0
    · subst h0
      left
      simp [ofNumber, payload, hc, ofLittleEndian]
    · right
      have : b.toNat ≠ 0 := fun h => h0 (UInt8.toNat_inj.1 h)
      exact ⟨by simp [ofNumber, hn, this], b, h0, hc⟩
  | integer t =>
    obtain ⟨hs, rfl⟩ := hfixed _ h
    exact ⟨rfl, trivial, .inl (bitBytes_ofNumber hs).symm⟩
  | float =>
    obtain ⟨hs, rfl⟩ := hfixed _ h
    exact ⟨rfl, trivial, .inl (bitBytes_ofNumber hs).symm⟩
  | double =>
    obtain ⟨hs, rfl⟩ := hfixed _ h
    exact ⟨rfl, trivial, .inl (bitBytes_ofNumber hs).symm⟩
  | pointer =>
    obtain ⟨hs, rfl⟩ := hfixed _ h
    exact ⟨rfl, trivial, .inl (bitBytes_ofNumber hs).symm⟩
  | guid =>
    obtain ⟨hs, rfl⟩ := hfixed _ h
    exact ⟨rfl, trivial, .inl (bitBytes_ofNumber hs).symm⟩
  | text e =>
    cases e with
    | unicode =>
      simp only [ofPayload] at h
      split at h
      · cases h
        exact ⟨rfl, by assumption, .inl rfl⟩
      · cases h
    | ascii => cases h; exact ⟨rfl, trivial, .inl rfl⟩
    | utf8 => cases h; exact ⟨rfl, trivial, .inl rfl⟩
  | binary => cases h; exact ⟨rfl, trivial, .inl rfl⟩

theorem HasPayload.ofPayload {v : Value} {c : Bytes} (h : v.HasPayload c) (hw : v.WellFormed) :
    Value.ofPayload v.type c = .ok v := by
  rcases h with rfl | ⟨rfl, b, hb, rfl⟩
  · exact ofPayload_payload hw
  · have : b.toNat ≠ 0 := fun h => hb (UInt8.toNat_inj.1 h)
    simp [Value.ofPayload, type, ValueType.fixedSize, ofNumber, ofLittleEndian, this]

end Value

theorem ofHeaderTag?_eq_some_iff {tag : UInt8} {t : ValueType} :
    ValueType.ofHeaderTag? tag = some t ↔ t.tag = tag := by
  constructor
  · intro h
    simp only [ValueType.ofHeaderTag?] at h
    split at h
    · split at h
      · cases h
        assumption
      · cases h
    · cases h
  · rintro rfl
    rcases t with _ | _ | t | _ | _ | _ | _ | e | _
    case integer => cases t <;> decide
    case text => cases e <;> decide
    all_goals decide

theorem tag_ne_nameMarker (t : ValueType) : t.tag ≠ nameMarker := by
  rcases t with _ | _ | t | _ | _ | _ | _ | e | _
  case integer => cases t <;> decide
  case text => cases e <;> decide
  all_goals decide

end TaggedBuffer
