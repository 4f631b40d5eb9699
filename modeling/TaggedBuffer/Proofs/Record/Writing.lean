import TaggedBuffer.Proofs.Buffer.Outcome
import TaggedBuffer.Proofs.Bytes.Overwrite
import TaggedBuffer.Proofs.Content.Packed

namespace TaggedBuffer

theorem writeRecord_run {dest record : Bytes} {p : Nat} (hp : p % 4 = 0)
    (hr : p + record.size ≤ dest.size) :
    writeRecord p record dest = .ok (p + record.size) (dest.overwrite p record) := by
  have hroom : checkRoom dest.size p record.size = .ok () := checkRoom_ok_iff.2 (by omega)
  have hal : checkAlignment p = .ok () := checkAlignment_ok_iff.2 hp
  rw [writeRecord, Update.bind_get, Update.bind_check_ok hroom,
    Update.bind_check_ok hal]
  rfl

theorem writeRecord_misaligned {dest record : Bytes} {p : Nat} (hp : p % 4 ≠ 0)
    (hr : p + record.size ≤ dest.size) :
    writeRecord p record dest = .error (.misalignedPosition p) dest := by
  have hroom : checkRoom dest.size p record.size = .ok () := checkRoom_ok_iff.2 (by omega)
  have hal : checkAlignment p = .error (.misalignedPosition p) := if_neg hp
  rw [writeRecord, Update.bind_get, Update.bind_check_ok hroom,
    Update.bind_check_error hal]

theorem writeName_run {dest : Bytes} {p : Nat} {name : String} (hc : checkName name = .ok ())
    (hp : p % 4 = 0) (hr : p + nameRecordSize name ≤ dest.size) :
    writeName p name dest = .ok (p + nameRecordSize name) (dest.overwrite p (nameRecord name)) := by
  rw [← size_nameRecord] at hr ⊢
  rw [writeName, Update.bind_check_ok hc]
  exact writeRecord_run hp hr

theorem writeValue_run {dest : Bytes} {p : Nat} {v : Value} (hc : checkValue v = .ok ())
    (hp : p % 4 = 0) (hr : p + v.recordSize ≤ dest.size) :
    writeValue p v dest = .ok (p + v.recordSize) (dest.overwrite p (valueRecord v)) := by
  rw [← size_valueRecord] at hr ⊢
  rw [writeValue, Update.bind_check_ok hc]
  exact writeRecord_run hp hr

theorem writeEntry_run {dest : Bytes} {p : Nat} {name : Option String} {v : Value}
    (hc : Buffer.checkEntry name v = .ok ()) (hp : p % 4 = 0)
    (hr : p + entrySize name v ≤ dest.size) :
    writeEntry p name v dest =
      .ok (p + entrySize name v) (dest.overwrite p (entryRecord name v)) := by
  obtain ⟨hn, hv⟩ := Content.checkEntry_ok_iff.1 hc
  cases name with
  | none =>
    simp only [entrySize, entryRecord, Option.map_none, Option.getD_none, Nat.zero_add,
      ByteArray.empty_append] at hr ⊢
    exact writeValue_run hv hp hr
  | some name =>
    simp only [entrySize, entryRecord, Option.map_some, Option.getD_some] at hr ⊢
    have hs := size_nameRecord name
    have hm := nameRecordSize_mod name
    have hfirst := writeName_run (hn name rfl) hp (show p + nameRecordSize name ≤ dest.size by omega)
    have hd : (dest.overwrite p (nameRecord name)).size = dest.size :=
      Bytes.size_overwrite (by omega)
    have hsecond : writeValue (p + nameRecordSize name) v (dest.overwrite p (nameRecord name)) =
        .ok _ _ := writeValue_run hv (by omega) (by omega)
    rw [Nat.add_assoc, ← hs, Bytes.overwrite_append (by rw [size_valueRecord]; omega), hs]
      at hsecond
    exact (Update.bind_of_ok hfirst).trans hsecond

theorem writeEntry_misaligned {dest : Bytes} {p : Nat} {name : Option String} {v : Value}
    (hc : Buffer.checkEntry name v = .ok ()) (hp : p % 4 ≠ 0)
    (hr : p + entrySize name v ≤ dest.size) :
    writeEntry p name v dest = .error (.misalignedPosition p) dest := by
  obtain ⟨hn, hv⟩ := Content.checkEntry_ok_iff.1 hc
  cases name with
  | none =>
    simp only [entrySize, Option.map_none, Option.getD_none, Nat.zero_add] at hr
    change writeValue p v dest = _
    rw [writeValue, Update.bind_check_ok hv]
    exact writeRecord_misaligned hp (by rwa [size_valueRecord])
  | some name =>
    simp only [entrySize, Option.map_some, Option.getD_some] at hr
    have hfirst : writeName p name dest = .error (.misalignedPosition p) dest := by
      rw [writeName, Update.bind_check_ok (hn name rfl)]
      exact writeRecord_misaligned hp (by rw [size_nameRecord]; omega)
    exact Update.bind_of_error hfirst

theorem Bytes.At.of_append {src rest b : Bytes} {p : Nat} (h : (src ++ rest).At p b)
    (hp : p + b.size ≤ src.size) : src.At p b := by
  apply h.congr hp (Nat.le_refl _)
  rw [ByteArray.extract_append_eq_left rfl, ByteArray.extract_zero_size]

/-- Whatever may be stored is read back as it was written, from the bytes or from a part of them that
goes up to the end of the entry at least, and the bytes around it are as they were. -/
theorem decodeEntry_written {dest : Bytes} {p : Nat} {name : Option String} {v : Value}
    (hp : p % alignment = 0)
    (hn : ∀ n, name = some n → 1 ≤ n.utf8ByteSize ∧ n.utf8ByteSize ≤ maxNameLength)
    (hw : v.WellFormed) (hv : v.encodedLength ≤ maxEncodedLength)
    (hr : p + entrySize name v ≤ dest.size) :
    ∃ dest', writeEntry p name v dest = .ok (p + entrySize name v) dest' ∧
      dest'.size = dest.size ∧
      (∀ i, i < p ∨ p + entrySize name v ≤ i →
        (Bytes.list dest')[i]? = (Bytes.list dest)[i]?) ∧
      ∀ src rest : Bytes, src ++ rest = dest' → p + entrySize name v ≤ src.size →
        decodeEntry src p = .ok ⟨p, name, p + namePartSize name, v, p + entrySize name v⟩ := by
  have hc : Buffer.checkEntry name v = .ok () := by
    apply Content.checkEntry_ok_iff.2
    exact ⟨fun n h => checkName_ok_iff.2 (hn n h), checkValue_ok_iff.2 hv⟩
  have hsize := size_entryRecord name v
  have hroom : p + (entryRecord name v).size ≤ dest.size := by rwa [hsize]
  refine ⟨_, writeEntry_run hc hp hr, Bytes.size_overwrite hroom, ?_, ?_⟩
  · intro i hi
    apply Bytes.getElem?_overwrite hroom
    rwa [hsize]
  · intro src rest hsrc hle
    have hat : (src ++ rest).At p (entryRecord name v) := by
      rw [hsrc]
      exact Bytes.at_overwrite hroom
    apply decodeEntry_ok_iff.2
    exact ⟨hp, rfl, _, Content.isEntry_entryRecord hw hc, hat.of_append (by rwa [hsize])⟩

/-- A name and a text with an unpaired surrogate, both padded, between bytes that stay. -/
theorem decodeEntry_written_surrogate :
    let v : Value := .text .unicode [0x3d, 0xd8].toByteArray
    ∃ dest', writeEntry 4 (some "abc") v ⟨.replicate 40 255⟩ = .ok 24 dest' ∧
      dest'.size = 40 ∧ (Bytes.list dest')[3]? = some 255 ∧ (Bytes.list dest')[24]? = some 255 ∧
      decodeEntry dest' 4 = .ok ⟨4, some "abc", 12, v, 24⟩ := by
  intro v
  have hname : ∀ n, some "abc" = some n → 1 ≤ n.utf8ByteSize ∧ n.utf8ByteSize ≤ maxNameLength := by
    rintro n ⟨⟩
    decide
  have hentry : entrySize (some "abc") v = 20 := by decide
  have hpart : namePartSize (some "abc") = 8 := by decide
  obtain ⟨dest', hwrite, hsize, hsame, hread⟩ :=
    @decodeEntry_written ⟨.replicate 40 255⟩ 4 (some "abc") v (by decide) hname rfl (by decide)
      (by decide)
  rw [hentry] at hwrite hsame hread
  rw [hpart] at hread
  refine ⟨dest', hwrite, hsize, ?_, ?_, ?_⟩
  · rw [hsame 3 (.inl (by decide))]
    rfl
  · rw [hsame 24 (.inr (by decide))]
    rfl
  · exact hread dest' .empty ByteArray.append_empty (by rw [hsize]; decide)

end TaggedBuffer
