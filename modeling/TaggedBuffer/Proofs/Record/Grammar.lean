import TaggedBuffer.Proofs.Record.Header
import TaggedBuffer.Proofs.Text.Utf8

namespace TaggedBuffer

/-- A name record: header word, one to 255 bytes of text, any padding. -/
def IsNameRecord (name : String) (b : Bytes) : Prop :=
  checkName name = .ok () ∧ b.size = nameRecordSize name ∧
    ∃ padding, b = headerWord nameMarker name.utf8ByteSize ++ name.toByteArray ++ padding

/-- A value record: header word, length field, content, any padding. -/
def IsValueRecord (v : Value) (b : Bytes) : Prop :=
  v.WellFormed ∧ checkValue v = .ok () ∧ b.size = v.recordSize ∧
    ∃ content padding, v.HasPayload content ∧
      b = headerWord v.type.tag v.encodedLength ++ lengthField v ++ content ++ padding

/-- The bytes before the value record of an entry. -/
def IsNamePart : Option String → Bytes → Prop
  | some name, b => IsNameRecord name b
  | none, b => b = .empty

def IsEntry (name : Option String) (v : Value) (b : Bytes) : Prop :=
  ∃ namePart valuePart, IsNamePart name namePart ∧ IsValueRecord v valuePart ∧
    b = namePart ++ valuePart

theorem isNameRecord_nameRecord {name : String} (h : checkName name = .ok ()) :
    IsNameRecord name (nameRecord name) :=
  ⟨h, size_nameRecord name, _, rfl⟩

theorem isValueRecord_valueRecord {v : Value} (hw : v.WellFormed) (hc : checkValue v = .ok ()) :
    IsValueRecord v (valueRecord v) :=
  ⟨hw, hc, size_valueRecord v, v.payload, _, .inl rfl, rfl⟩

def namePartSize (name : Option String) : Nat := (name.map nameRecordSize).getD 0

theorem isNamePart_none : IsNamePart none .empty := rfl

theorem IsNamePart.size {name : Option String} {b : Bytes} (h : IsNamePart name b) :
    b.size = namePartSize name := by
  cases name with
  | none => exact congrArg ByteArray.size h
  | some name => exact h.2.1

theorem IsEntry.size {name : Option String} {v : Value} {b : Bytes} (h : IsEntry name v b) :
    b.size = entrySize name v := by
  obtain ⟨np, vp, hn, hv, rfl⟩ := h
  rw [ByteArray.size_append, hn.size, hv.2.2.1]
  rfl

theorem Bytes.At.extend {src a : Bytes} {p q : Nat} (h : src.At p a) (hp : p + a.size ≤ q)
    (hq : q ≤ src.size) : src.At p (a ++ src.extract (p + a.size) q) :=
  Bytes.At.append_iff.2 ⟨h, Bytes.at_extract hp hq⟩

theorem IsNameRecord.header {src b : Bytes} {p : Nat} {name : String} (h : IsNameRecord name b)
    (hp : p % 4 = 0) (ha : src.At p b) :
    readHeader src p = .ok ⟨nameMarker, name.utf8ByteSize⟩ := by
  obtain ⟨hc, _, padding, rfl⟩ := h
  rw [checkName_ok_iff, maxNameLength] at hc
  obtain ⟨hhn, -⟩ := Bytes.At.append_iff.1 ha
  exact readHeader_ok_iff.2 ⟨hp, by simp only [maxEncodedLength]; omega,
    (Bytes.At.append_iff.1 hhn).1⟩

theorem IsNameRecord.readName {src b : Bytes} {p : Nat} {name : String} (h : IsNameRecord name b)
    (hp : p % 4 = 0) (ha : src.At p b) : readName src p = .ok (name, p + b.size) := by
  have hh := h.header hp ha
  obtain ⟨hc, hs, padding, rfl⟩ := h
  have hb := ha.bound
  obtain ⟨hhn, -⟩ := Bytes.At.append_iff.1 ha
  obtain ⟨-, hn⟩ := Bytes.At.append_iff.1 hhn
  rw [checkName_ok_iff] at hc
  rw [size_headerWord] at hn
  rw [hs, nameRecordSize] at *
  simp only [headerSize] at *
  simp only [TaggedBuffer.readName, bind_eq_ok]
  refine ⟨_, hh, ?_⟩
  simp only [ne_eq, not_true_eq_false, if_false, bind_eq_ok]
  refine ⟨(), checkStoredLength_ok_iff.2 hc, (),
    checkRoom_ok_iff.2 (by simp only [headerSize]; omega), ?_⟩
  simp only [headerSize]
  rw [hn.extract_eq (by rw [String.size_toByteArray]), Utf8.decode_ok_iff.2 rfl]
  simp only [pure, Except.pure, Nat.add_assoc]

theorem isNameRecord_of_readName {src : Bytes} {p q : Nat} {name : String}
    (h : readName src p = .ok (name, q)) :
    p % 4 = 0 ∧ ∃ b, IsNameRecord name b ∧ src.At p b ∧ q = p + b.size := by
  simp only [readName, bind_eq_ok] at h
  obtain ⟨⟨tag, n⟩, hh, h⟩ := h
  obtain ⟨hp, hn, ha⟩ := readHeader_ok_iff.1 hh
  simp only at h hn ha
  split at h
  · cases h
  next htag =>
    rw [Decidable.not_not] at htag
    subst htag
    obtain ⟨_, hs, _, hr, h⟩ := by simpa only [bind_eq_ok] using h
    rw [checkStoredLength_ok_iff] at hs
    rw [checkRoom_ok_iff] at hr
    split at h
    next s hd =>
      cases h
      have hb := Utf8.decode_ok_iff.1 hd
      have hal := le_align n
      simp only [headerSize] at *
      have hsize : n = name.utf8ByteSize := by
        have := congrArg ByteArray.size hb
        rw [ByteArray.size_extract, String.size_toByteArray] at this
        omega
      subst hsize
      have hname : src.At (p + 4) name.toByteArray := by
        refine ⟨?_, ?_⟩
        · rw [String.size_toByteArray]
          omega
        · rw [String.size_toByteArray, hb]
      have hat := Bytes.At.append_iff.2 ⟨ha, by rwa [size_headerWord]⟩
      have hext := hat.extend (q := p + 4 + align name.utf8ByteSize)
        (by simp only [ByteArray.size_append, size_headerWord, String.size_toByteArray]; omega)
        (by omega)
      refine ⟨hp, _, ⟨checkName_ok_iff.2 hs, ?_, _, rfl⟩, hext, ?_⟩ <;>
        simp only [ByteArray.size_append, size_headerWord, String.size_toByteArray,
          ByteArray.size_extract, nameRecordSize, headerSize] <;> omega
    · cases h

theorem readName_ok_iff {src : Bytes} {p q : Nat} {name : String} :
    readName src p = .ok (name, q) ↔
      p % 4 = 0 ∧ ∃ b, IsNameRecord name b ∧ src.At p b ∧ q = p + b.size := by
  constructor
  · exact isNameRecord_of_readName
  · rintro ⟨hp, b, h, ha, rfl⟩
    exact h.readName hp ha

theorem Value.nativeLength_mul {v : Value} (h : v.WellFormed) :
    v.nativeLength * v.type.unitSize = v.byteLength := by
  cases v with
  | text e content =>
    cases e with
    | unicode => exact Nat.div_mul_cancel (Nat.dvd_of_mod_eq_zero h)
    | ascii => simp [nativeLength, type, ValueType.unitSize]
    | utf8 => simp [nativeLength, type, ValueType.unitSize]
  | _ => simp [nativeLength, type, ValueType.unitSize]

theorem Value.nativeLength_lt {v : Value} (h : checkValue v = .ok ()) :
    v.nativeLength < 256 ^ 4 := by
  have hc := checkValue_ok_iff.1 h
  have hf := size_lengthField_add_le v
  have hd : v.nativeLength ≤ v.byteLength := Nat.div_le_self _ _
  simp only [maxEncodedLength] at hc
  omega

theorem fixedSize_of_isFixedSize {v : Value} (h : v.type.isFixedSize) :
    v.type.fixedSize = some v.byteLength := by
  cases v <;> first | rfl | cases h

theorem recordSize_of_isFixedSize {v w : Value} (ht : v.type = w.type)
    (hf : w.type.isFixedSize) : v.recordSize = w.recordSize := by
  obtain ⟨n, hn⟩ := Option.isSome_iff_exists.1 hf
  simp only [Value.recordSize, Value.encodedLength, Value.encodedSize, ht, hn]

theorem size_valueHead (v : Value) {c : Bytes} (h : v.HasPayload c) :
    (headerWord v.type.tag v.encodedLength ++ lengthField v ++ c).size =
      4 + (lengthField v).size + v.byteLength := by
  rw [ByteArray.size_append, ByteArray.size_append, size_headerWord, h.size]

theorem contentSpan_ok_of_at {src : Bytes} {v : Value} {p : Nat} (hw : v.WellFormed)
    (hc : checkValue v = .ok ()) (ha : src.At p (lengthField v)) :
    contentSpan src v.type p = .ok (p + (lengthField v).size, v.byteLength) := by
  rw [contentSpan]
  by_cases hf : v.type.isFixedSize
  · rw [fixedSize_of_isFixedSize hf]
    simp [lengthField, hf, pure, Except.pure]
  · have hn : v.type.fixedSize = none := by
      simpa [ValueType.isFixedSize, Option.isSome_iff_ne_none] using hf
    have hl : lengthField v = (littleEndian 4 v.nativeLength).toByteArray := by
      simp [lengthField, hf]
    rw [hl] at ha
    simp only [hn, bind_eq_ok]
    refine ⟨_, readWord_ok_iff.2 ⟨v.nativeLength_lt hc, ha⟩, ?_⟩
    rw [Value.nativeLength_mul hw, hl]
    simp [pure, Except.pure, lengthFieldSize]

theorem lengthField_of_contentSpan {src : Bytes} {v : Value} {p c n : Nat} (hw : v.WellFormed)
    (h : contentSpan src v.type p = .ok (c, n)) (hn : v.byteLength = n) (hp : p ≤ src.size) :
    src.At p (lengthField v) ∧ c = p + (lengthField v).size := by
  rw [contentSpan] at h
  by_cases hf : v.type.isFixedSize
  · rw [fixedSize_of_isFixedSize hf] at h
    simp only [pure, Except.pure, Except.ok.injEq, Prod.mk.injEq] at h
    have hl : lengthField v = .empty := by simp [lengthField, hf]
    rw [hl]
    exact ⟨⟨hp, ByteArray.extract_same⟩, h.1.symm⟩
  · have hn' : v.type.fixedSize = none := by
      simpa [ValueType.isFixedSize, Option.isSome_iff_ne_none] using hf
    have hl : lengthField v = (littleEndian 4 v.nativeLength).toByteArray := by
      simp [lengthField, hf]
    simp only [hn', bind_eq_ok] at h
    obtain ⟨w, hr, h⟩ := h
    cases h
    have hu : 0 < v.type.unitSize := by
      unfold ValueType.unitSize
      split <;> omega
    have hwv : w = v.nativeLength := by
      apply Nat.eq_of_mul_eq_mul_right hu
      rw [Value.nativeLength_mul hw, hn]
    subst hwv
    rw [hl, List.size_toByteArray, length_littleEndian]
    exact ⟨(readWord_ok_iff.1 hr).2, rfl⟩

theorem contentSpan_le {src : Bytes} {t : ValueType} {p c n : Nat}
    (h : contentSpan src t p = .ok (c, n)) : c + n ≤ p + Value.encodedSize t n := by
  rw [contentSpan] at h
  split at h
  next size hf =>
    simp only [pure, Except.pure, Except.ok.injEq, Prod.mk.injEq] at h
    obtain ⟨rfl, rfl⟩ := h
    have hsize : Value.encodedSize t size = align size := by rw [Value.encodedSize, hf]
    have := le_align size
    omega
  next hf =>
    simp only [bind_eq_ok] at h
    obtain ⟨w, _, h⟩ := h
    cases h
    have hsize : Value.encodedSize t (w * t.unitSize) = align (lengthFieldSize + w * t.unitSize) := by
      rw [Value.encodedSize, hf]
    have := le_align (lengthFieldSize + w * t.unitSize)
    omega

theorem IsValueRecord.header {src b : Bytes} {p : Nat} {v : Value} (h : IsValueRecord v b)
    (hp : p % 4 = 0) (ha : src.At p b) :
    readHeader src p = .ok ⟨v.type.tag, v.encodedLength⟩ := by
  obtain ⟨_, hc, _, content, padding, _, rfl⟩ := h
  obtain ⟨hhlc, -⟩ := Bytes.At.append_iff.1 ha
  obtain ⟨hhl, -⟩ := Bytes.At.append_iff.1 hhlc
  exact readHeader_ok_iff.2 ⟨hp, checkValue_ok_iff.1 hc, (Bytes.At.append_iff.1 hhl).1⟩

theorem IsValueRecord.readValue {src b : Bytes} {p : Nat} {v : Value} (h : IsValueRecord v b)
    (hp : p % 4 = 0) (ha : src.At p b) : readValue src p = .ok (v, p + b.size) := by
  have hh := h.header hp ha
  obtain ⟨hw, hc, hs, content, padding, hpl, rfl⟩ := h
  obtain ⟨hhlc, -⟩ := Bytes.At.append_iff.1 ha
  obtain ⟨hhl, hcont⟩ := Bytes.At.append_iff.1 hhlc
  obtain ⟨-, hl⟩ := Bytes.At.append_iff.1 hhl
  have hb := ha.bound
  rw [hs, Value.recordSize] at *
  rw [ByteArray.size_append, size_headerWord, ← Nat.add_assoc] at hcont
  rw [size_headerWord] at hl
  simp only [TaggedBuffer.readValue, bind_eq_ok]
  refine ⟨_, hh, v.type, headerType_ok_iff.2 rfl, (),
    checkRoom_ok_iff.2 (by simp only [headerSize] at *; omega), _, contentSpan_ok_of_at hw hc hl, ?_⟩
  have he : Value.encodedSize v.type v.byteLength = v.encodedLength := rfl
  have hx := hcont.extract_eq (congrArg _ hpl.size.symm)
  simp only [he, ne_eq, not_true_eq_false, if_false, bind_eq_ok, headerSize]
  exact ⟨v, by rw [hx, hpl.ofPayload hw], by simp only [pure, Except.pure, Nat.add_assoc]⟩

theorem isValueRecord_of_readValue {src : Bytes} {p q : Nat} {v : Value}
    (h : readValue src p = .ok (v, q)) :
    p % 4 = 0 ∧ ∃ b, IsValueRecord v b ∧ src.At p b ∧ q = p + b.size := by
  simp only [readValue, bind_eq_ok] at h
  obtain ⟨⟨tag, n⟩, hh, t, ht, _, hr, ⟨c, m⟩, hs, h⟩ := h
  obtain ⟨hp, hn, ha⟩ := readHeader_ok_iff.1 hh
  rw [checkRoom_ok_iff] at hr
  simp only [headerSize] at *
  split at h
  · cases h
  next he =>
    rw [Decidable.not_not] at he
    simp only [bind_eq_ok, pure, Except.pure, Except.ok.injEq, Prod.mk.injEq] at h
    obtain ⟨v', hv, rfl, rfl⟩ := h
    obtain ⟨rfl, hw, hc⟩ := Value.ofPayload_ok hv
    have hb := ha.bound
    rw [size_headerWord] at hb
    have hle := contentSpan_le hs
    have hm : v'.byteLength = m := by
      rw [← hc.size, ByteArray.size_extract]
      omega
    have hn' : v'.encodedLength = n := by
      rw [← he, ← hm]
      rfl
    obtain ⟨hl, rfl⟩ := lengthField_of_contentSpan hw hs hm (by omega)
    obtain rfl : v'.type.tag = tag := headerType_ok_iff.1 ht
    subst hn'
    have hhead := Bytes.At.append_iff.2 ⟨ha, by rwa [size_headerWord]⟩
    have hbody := Bytes.At.append_iff.2 ⟨hhead, by
      rw [ByteArray.size_append, size_headerWord, ← Nat.add_assoc]
      exact Bytes.at_extract (Nat.le_add_right _ m) (by omega)⟩
    have hsize := size_valueHead v' hc
    have hext := hbody.extend (q := p + 4 + v'.encodedLength) (by omega) (by omega)
    have hrec : (headerWord v'.type.tag v'.encodedLength ++ lengthField v' ++
        src.extract (p + 4 + (lengthField v').size) (p + 4 + (lengthField v').size + m) ++
        src.extract (p + (4 + (lengthField v').size + v'.byteLength))
          (p + 4 + v'.encodedLength)).size = v'.recordSize := by
      rw [ByteArray.size_append, hsize, ByteArray.size_extract, Value.recordSize, headerSize]
      omega
    rw [hsize] at hext
    refine ⟨hp, _, ⟨hw, checkValue_ok_iff.2 hn, hrec, _, _, hc, rfl⟩, hext, ?_⟩
    rw [hrec, Value.recordSize, headerSize, Nat.add_assoc]

theorem readValue_ok_iff {src : Bytes} {p q : Nat} {v : Value} :
    readValue src p = .ok (v, q) ↔
      p % 4 = 0 ∧ ∃ b, IsValueRecord v b ∧ src.At p b ∧ q = p + b.size := by
  constructor
  · exact isValueRecord_of_readValue
  · rintro ⟨hp, b, h, ha, rfl⟩
    exact h.readValue hp ha

theorem nameRecordSize_mod (name : String) : nameRecordSize name % 4 = 0 := by
  have := align_mod name.utf8ByteSize
  simp only [nameRecordSize, headerSize]
  omega

theorem namePartSize_mod (name : Option String) : namePartSize name % 4 = 0 := by
  cases name with
  | none => rfl
  | some name => exact nameRecordSize_mod name

theorem IsNamePart.aligned {name : Option String} {np : Bytes} {p : Nat} (h : IsNamePart name np)
    (hp : p % 4 = 0) : (p + np.size) % 4 = 0 := by
  have := namePartSize_mod name
  rw [h.size]
  omega

theorem recordSize_mod (v : Value) : v.recordSize % 4 = 0 := by
  have h : v.encodedLength % 4 = 0 := by
    unfold Value.encodedLength Value.encodedSize
    split <;> exact align_mod _
  simp only [Value.recordSize, headerSize]
  omega

theorem entrySize_mod (name : Option String) (v : Value) : entrySize name v % 4 = 0 := by
  have := namePartSize_mod name
  have := recordSize_mod v
  simp only [entrySize, namePartSize] at *
  omega

theorem readNameIfPresent_ok {src : Bytes} {p q : Nat} {name : Option String}
    (h : readNameIfPresent src p = .ok (name, q)) :
    p % 4 = 0 ∧ ∃ b, IsNamePart name b ∧ src.At p b ∧ q = p + b.size := by
  simp only [readNameIfPresent, bind_eq_ok] at h
  obtain ⟨header, hh, h⟩ := h
  obtain ⟨hp, _, ha⟩ := readHeader_ok_iff.1 hh
  split at h
  · simp only [bind_eq_ok] at h
    obtain ⟨⟨n, q'⟩, hr, h⟩ := h
    cases h
    exact readName_ok_iff.1 hr
  · cases h
    have hb := ha.bound
    exact ⟨hp, .empty, rfl, ⟨by simp only [ByteArray.size_empty]; omega,
      ByteArray.extract_same⟩, rfl⟩

theorem readNameIfPresent_of_at {src namePart valuePart : Bytes} {p : Nat} {name : Option String}
    {v : Value} (hn : IsNamePart name namePart) (hv : IsValueRecord v valuePart) (hp : p % 4 = 0)
    (ha : src.At p namePart) (hva : src.At (p + namePart.size) valuePart) :
    readNameIfPresent src p = .ok (name, p + namePart.size) := by
  simp only [readNameIfPresent, bind_eq_ok]
  cases name with
  | none =>
    obtain rfl : namePart = .empty := hn
    refine ⟨_, hv.header hp hva, ?_⟩
    simp only [tag_ne_nameMarker, if_false]
    rfl
  | some name =>
    refine ⟨_, IsNameRecord.header hn hp ha, ?_⟩
    simp only [if_true, bind_eq_ok]
    exact ⟨_, readName_ok_iff.2 ⟨hp, namePart, hn, ha, rfl⟩, rfl⟩

theorem decodeEntry_ok_iff {src : Bytes} {p : Nat} {e : Entry} :
    decodeEntry src p = .ok e ↔ p % 4 = 0 ∧
      e = ⟨p, e.name, p + namePartSize e.name, e.value, p + entrySize e.name e.value⟩ ∧
        ∃ b, IsEntry e.name e.value b ∧ src.At p b := by
  simp only [decodeEntry, bind_eq_ok]
  constructor
  · rintro ⟨⟨name, vp⟩, hn, ⟨v, next⟩, hv, he⟩
    cases he
    obtain ⟨hp, np, hnp, ha, rfl⟩ := readNameIfPresent_ok hn
    obtain ⟨_, b, hb, hva, rfl⟩ := readValue_ok_iff.1 hv
    refine ⟨hp, ?_, np ++ b, ⟨np, b, hnp, hb, rfl⟩, Bytes.At.append_iff.2 ⟨ha, hva⟩⟩
    rw [hnp.size, hb.2.2.1, Nat.add_assoc]
    rfl
  · rintro ⟨hp, he, b, ⟨np, vp, hnp, hv, rfl⟩, ha⟩
    obtain ⟨ha, hva⟩ := Bytes.At.append_iff.1 ha
    refine ⟨_, readNameIfPresent_of_at hnp hv hp ha hva, _,
      readValue_ok_iff.2 ⟨hnp.aligned hp, vp, hv, hva, rfl⟩, ?_⟩
    rw [he, hnp.size, hv.2.2.1, Nat.add_assoc]
    rfl

theorem decodeEntry_place {src : Bytes} {p : Nat} {e : Entry} (h : decodeEntry src p = .ok e) :
    p % 4 = 0 ∧ e.valuePosition = p + namePartSize e.name ∧
      e.next = e.valuePosition + e.value.recordSize ∧ e.next ≤ src.size := by
  obtain ⟨hp, he, b, hb, ha⟩ := decodeEntry_ok_iff.1 h
  have hv := congrArg Entry.valuePosition he
  have hn := congrArg Entry.next he
  have hbound := ha.bound
  rw [hb.size] at hbound
  simp only [entrySize, ← namePartSize.eq_def] at hv hn hbound
  exact ⟨hp, hv, by omega, by omega⟩

theorem IsNamePart.skipName {src np : Bytes} {p : Nat} {name : Option String} {v : Value}
    (hn : IsNamePart name np) (hp : p % 4 = 0) (ha : src.At p np)
    (hh : readHeader src (p + np.size) = .ok ⟨v.type.tag, v.encodedLength⟩) :
    skipName src p = .ok (p + np.size) := by
  simp only [TaggedBuffer.skipName, bind_eq_ok]
  cases name with
  | none =>
    obtain rfl : np = .empty := hn
    refine ⟨_, hh, ?_⟩
    simp only [tag_ne_nameMarker, if_false]
    rfl
  | some name =>
    have hsz := hn.2.1
    have hb := ha.bound
    refine ⟨_, IsNameRecord.header hn hp ha, ?_⟩
    simp only [if_true, bind_eq_ok]
    rw [nameRecordSize] at hsz
    refine ⟨(), checkStoredLength_ok_iff.2 (checkName_ok_iff.1 hn.1), (),
      checkRoom_ok_iff.2 (by omega), ?_⟩
    rw [hsz]
    rfl

/-- The headers alone lead past a value record, whatever it holds. -/
theorem advance_of_header {src np : Bytes} {p : Nat} {name : Option String} {v : Value}
    (hn : IsNamePart name np) (hp : p % 4 = 0) (ha : src.At p np)
    (hh : readHeader src (p + np.size) = .ok ⟨v.type.tag, v.encodedLength⟩)
    (hr : p + np.size + v.recordSize ≤ src.size) :
    advance src p = .ok (p + np.size + v.recordSize) := by
  have hskip := hn.skipName hp ha hh
  have hroom : headerSize + v.encodedLength ≤ src.size - (p + np.size) := Nat.le_sub_of_add_le' hr
  simp only [advance, bind_eq_ok]
  exact ⟨_, hskip, _, hh, _, headerType_ok_iff.2 rfl, (), checkRoom_ok_iff.2 hroom, rfl⟩

theorem advance_of_decodeEntry {src : Bytes} {p : Nat} {e : Entry}
    (h : decodeEntry src p = .ok e) : advance src p = .ok e.next := by
  obtain ⟨hp, he, b, ⟨np, vp, hnp, hv, rfl⟩, ha⟩ := decodeEntry_ok_iff.1 h
  obtain ⟨ha, hva⟩ := Bytes.At.append_iff.1 ha
  have hb := hva.bound
  rw [hv.2.2.1] at hb
  have hnext : e.next = p + np.size + e.value.recordSize := by
    rw [hnp.size, Nat.add_assoc]
    exact congrArg Entry.next he
  rw [hnext]
  exact advance_of_header hnp hp ha (hv.header (hnp.aligned hp) hva) hb

end TaggedBuffer
