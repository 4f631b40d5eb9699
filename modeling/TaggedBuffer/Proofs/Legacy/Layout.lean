import TaggedBuffer.Buffer.Legacy
import TaggedBuffer.Proofs.Content.Packed

namespace TaggedBuffer.Legacy

open ValueType (lengthFlag numberMask)

/-- The bytes of marked text: the marker, the length and the text. -/
def marked (text : String) : Bytes :=
  [nameMarker].toByteArray ++ (littleEndian 1 text.utf8ByteSize).toByteArray ++ text.toByteArray

/-- What stands before a value: nothing, or marked text, which is no name if it is empty. -/
inductive IsName : Option String → Bytes → Prop
  | absent : IsName none .empty
  | marked {text : String} : text.utf8ByteSize ≤ 255 →
      IsName (if text = "" then none else some text) (marked text)

/-- Whole units of which none is zero. -/
def NoZeroUnit (e : Encoding) (content : Bytes) : Prop :=
  content.size % unit e = 0 ∧ ∀ before after,
    content = before ++ Bytes.zeros (unit e) ++ after → before.size % unit e ≠ 0

/-- The content of counted bytes. Text goes without its last unit if that is zero. -/
def IsStripped : ValueType → Bytes → Bytes → Prop
  | .text e, raw, content => raw = content ++ Bytes.zeros (unit e) ∨
      content = raw ∧ ∀ before, raw ≠ before ++ Bytes.zeros (unit e)
  | _, raw, content => content = raw

def counted (raw : Bytes) : Bytes := (littleEndian 4 raw.size).toByteArray ++ raw

/-- How content stands behind its type byte. -/
inductive IsContent (tag : UInt8) : ValueType → Bytes → Bytes → Prop
  | counted {t raw content} : tag &&& lengthFlag ≠ 0 → raw.size < 2 ^ 32 →
      IsStripped t raw content →
      IsContent tag t content (counted raw)
  | fixed {t content} : tag &&& lengthFlag = 0 → t.fixedSize = some content.size →
      IsContent tag t content content
  | terminated {e content} : tag &&& lengthFlag = 0 → NoZeroUnit e content →
      IsContent tag (.text e) content (content ++ Bytes.zeros (unit e))

/-- A type byte, of which five bits name the type and one says that the content is counted, and the
content. -/
def IsValue (v : Value) (b : Bytes) : Prop :=
  ∃ tag content bytes, tag ≠ nameMarker ∧ tag &&& numberMask = v.type.number ∧ v.WellFormed ∧
    v.HasPayload content ∧ IsContent tag v.type content bytes ∧ b = [tag].toByteArray ++ bytes

/-- The bytes of one entry. -/
def IsChunk (pair : Pair) (b : Bytes) : Prop :=
  ∃ namePart valuePart, IsName pair.1 namePart ∧ IsValue pair.2 valuePart ∧
    b = namePart ++ valuePart

/-- Bytes that are one chunk for each of these entries, in order, and nothing else. -/
inductive Layout : Bytes → List Pair → Prop
  | nil : Layout .empty []
  | cons {pair b rest pairs} : IsChunk pair b → Layout rest pairs →
      Layout (b ++ rest) (pair :: pairs)

section Take

variable {src b : Bytes} {p q n width : Nat}

theorem take_ok_iff (hp : p ≤ src.size) :
    take src p n = .ok (b, q) ↔ b.size = n ∧ src.At p b ∧ q = p + b.size := by
  rw [take]
  constructor
  · intro h
    split at h
    next hn =>
      cases h
      have hsize : (src.extract p (p + n)).size = n := by
        rw [ByteArray.size_extract]
        omega
      exact ⟨hsize, Bytes.at_extract (Nat.le_add_right p n) (by omega), by rw [hsize]⟩
    · cases h
  · rintro ⟨rfl, ha, rfl⟩
    have := ha.bound
    rw [if_pos (by omega), ha.2]

theorem takeNumber_ok_iff (hp : p ≤ src.size) :
    takeNumber src p width = .ok (n, q) ↔
      n < 256 ^ width ∧ src.At p (littleEndian width n).toByteArray ∧ q = p + width := by
  simp only [takeNumber, bind_eq_ok, Prod.exists]
  constructor
  · rintro ⟨b, r, hb, h⟩
    cases h
    obtain ⟨rfl, ha, rfl⟩ := (take_ok_iff hp).1 hb
    have hl : (littleEndian b.size (ofLittleEndian (Bytes.list b))).toByteArray = b := by
      rw [← Bytes.length_list, littleEndian_ofLittleEndian, Bytes.toByteArray_list]
    exact ⟨ofLittleEndian_lt (Bytes.list b), hl.symm ▸ ha, rfl⟩
  · rintro ⟨hn, ha, rfl⟩
    refine ⟨_, _, (take_ok_iff hp).2 ⟨?_, ha, rfl⟩, ?_⟩
    · rw [List.size_toByteArray, length_littleEndian]
    · simp only [Bytes.list_toByteArray, ofLittleEndian_littleEndian, Nat.mod_eq_of_lt hn,
        List.size_toByteArray, length_littleEndian]
      rfl

theorem at_singleton_iff {x : UInt8} :
    src.At p [x].toByteArray ↔ Bytes.list (src.extract p (p + 1)) = [x] := by
  constructor
  · intro h
    have he : src.extract p (p + 1) = [x].toByteArray := h.extract_eq rfl
    rw [he, Bytes.list_toByteArray]
  · intro h
    have hsize := congrArg List.length h
    rw [Bytes.length_list, ByteArray.size_extract] at hsize
    refine ⟨?_, ?_⟩
    · simp only [List.size_toByteArray, List.length_singleton] at hsize ⊢
      omega
    · exact Bytes.list_injective (by rw [Bytes.list_toByteArray]; exact h)

end Take

section Terminators

variable {src content raw : Bytes} {e : Encoding} {p k stop : Nat}

theorem isZeroAt_iff : isZeroAt src e p = true ↔ src.At p (Bytes.zeros (unit e)) := by
  rw [isZeroAt, decide_eq_true_iff]
  constructor
  · intro h
    have hsize := congrArg List.length h
    rw [Bytes.length_list, ByteArray.size_extract, List.length_replicate] at hsize
    have := unit_pos e
    refine ⟨?_, ?_⟩
    · rw [Bytes.size_zeros]
      omega
    · exact Bytes.list_injective (by rw [Bytes.size_zeros, Bytes.list_zeros]; exact h)
  · intro h
    rw [h.extract_eq (by rw [Bytes.size_zeros]), Bytes.list_zeros]

/-- A zero unit lies at `k`, a whole number of units from `p` on. -/
def ZeroUnitAt (src : Bytes) (e : Encoding) (p k : Nat) : Prop :=
  p ≤ k ∧ (k - p) % unit e = 0 ∧ src.At k (Bytes.zeros (unit e))

theorem zeroUnitAt_self (h : src.At p (Bytes.zeros (unit e))) : ZeroUnitAt src e p p :=
  ⟨Nat.le_refl p, by rw [Nat.sub_self, Nat.zero_mod], h⟩

theorem zeroUnitAt_next (h : ¬ src.At p (Bytes.zeros (unit e))) :
    ZeroUnitAt src e p k ↔ ZeroUnitAt src e (p + unit e) k := by
  have hu := unit_pos e
  constructor
  · rintro ⟨hle, hmod, ha⟩
    have hnext : p + unit e ≤ k := by
      apply Nat.le_of_not_lt
      intro hlt
      rw [Nat.mod_eq_of_lt (by omega)] at hmod
      rw [show k = p by omega] at ha
      exact h ha
    rw [show k - p = k - (p + unit e) + unit e by omega, Nat.add_mod_right] at hmod
    exact ⟨hnext, hmod, ha⟩
  · rintro ⟨hle, hmod, ha⟩
    refine ⟨by omega, ?_, ha⟩
    rw [show k - p = k - (p + unit e) + unit e by omega, Nat.add_mod_right, hmod]

theorem terminator?_eq_some_iff : terminator? src e p = some stop ↔
    ZeroUnitAt src e p stop ∧ ∀ k, ZeroUnitAt src e p k → stop ≤ k := by
  fun_induction terminator? src e p with
  | case1 p hp hz =>
    have hself := zeroUnitAt_self (isZeroAt_iff.1 hz)
    constructor
    · rintro ⟨⟩
      exact ⟨hself, fun k hk => hk.1⟩
    · rintro ⟨hstop, hfirst⟩
      rw [Nat.le_antisymm hstop.1 (hfirst p hself)]
  | case2 p hp hz ih =>
    have hno : ¬ src.At p (Bytes.zeros (unit e)) := fun h => hz (isZeroAt_iff.2 h)
    simp only [zeroUnitAt_next hno]
    exact ih
  | case3 p hp =>
    constructor
    · rintro ⟨⟩
    · rintro ⟨⟨hle, -, ha⟩, -⟩
      have := ha.bound
      rw [Bytes.size_zeros] at this
      omega

theorem noZeroUnit_iff (ha : src.At p content) : NoZeroUnit e content ↔
    content.size % unit e = 0 ∧ ∀ k, ZeroUnitAt src e p k → p + content.size ≤ k := by
  apply and_congr_right
  intro hmod
  constructor
  · rintro h k ⟨hk, hkmod, hz⟩
    apply Nat.le_of_not_lt
    intro hlt
    -- a unit that starts inside the content ends inside it
    have hfit : k - p + unit e ≤ content.size := by
      have hdvd : unit e ∣ content.size - (k - p) :=
        Nat.dvd_sub (Nat.dvd_of_mod_eq_zero hmod) (Nat.dvd_of_mod_eq_zero hkmod)
      have := Nat.le_of_dvd (by omega) hdvd
      omega
    have hunit : content.extract (k - p) (k - p + unit e) = Bytes.zeros (unit e) := by
      have := congrArg (·.extract (k - p) (k - p + unit e)) ha.2
      simp only [ByteArray.extract_extract, Nat.min_eq_left (Nat.add_le_add_left hfit p)] at this
      rw [← this, ← hz.extract_eq (by rw [Bytes.size_zeros])]
      congr 1 <;> omega
    refine h (content.extract 0 (k - p)) (content.extract (k - p + unit e) content.size) ?_ ?_
    · rw [← hunit]
      exact Bytes.extract_cut (Nat.le_add_right _ _) hfit
    · rwa [Bytes.size_extract_of_le (by omega)]
  · rintro h before after rfl hbefore
    obtain ⟨hbz, -⟩ := Bytes.At.append_iff.1 ha
    obtain ⟨-, hz⟩ := Bytes.At.append_iff.1 hbz
    have hle := h (p + before.size)
      ⟨Nat.le_add_right _ _, by rwa [Nat.add_sub_cancel_left], hz⟩
    have := unit_pos e
    simp only [ByteArray.size_append, Bytes.size_zeros] at hle
    omega

theorem takeTerminated_ok_iff {q : Nat} : takeTerminated src p e = .ok (content, q) ↔
    NoZeroUnit e content ∧ src.At p (content ++ Bytes.zeros (unit e)) ∧
      q = p + (content ++ Bytes.zeros (unit e)).size := by
  rw [takeTerminated, ByteArray.size_append, Bytes.size_zeros, Bytes.At.append_iff]
  constructor
  · intro h
    split at h
    next stop hs =>
      cases h
      obtain ⟨⟨hle, hmod, hz⟩, hno⟩ := terminator?_eq_some_iff.1 hs
      have hsize : p + (src.extract p stop).size = stop := by
        have := hz.bound
        rw [Bytes.size_extract_of_le (by omega)]
        omega
      have ha : src.At p (src.extract p stop) := Bytes.at_extract hle (by have := hz.bound; omega)
      refine ⟨(noZeroUnit_iff ha).2 ⟨?_, ?_⟩, ⟨ha, hsize.symm ▸ hz⟩, by omega⟩
      · rwa [show (src.extract p stop).size = stop - p by omega]
      · rwa [hsize]
    · cases h
  · rintro ⟨hno, ⟨ha, hz⟩, rfl⟩
    obtain ⟨hmod, hno⟩ := (noZeroUnit_iff ha).1 hno
    have hs : terminator? src e p = some (p + content.size) :=
      terminator?_eq_some_iff.2 ⟨⟨Nat.le_add_right _ _, by rwa [Nat.add_sub_cancel_left], hz⟩, hno⟩
    rw [hs]
    simp only [ha.2, Nat.add_assoc]

theorem dropTerminator_eq_iff : dropTerminator e raw = content ↔ IsStripped (.text e) raw content := by
  rw [dropTerminator]
  split
  next h =>
    obtain ⟨hle, hz⟩ := h
    rw [isZeroAt_iff] at hz
    have hraw : raw = raw.extract 0 (raw.size - unit e) ++ Bytes.zeros (unit e) := by
      rw [← hz.extract_eq (q := raw.size) (by rw [Bytes.size_zeros]; omega),
        ByteArray.extract_append_extract, Nat.zero_min, Nat.max_eq_right (Nat.sub_le _ _),
        ByteArray.extract_zero_size]
    constructor
    · rintro rfl
      exact .inl hraw
    · rintro (rfl | ⟨-, hno⟩)
      · rw [ByteArray.size_append, Bytes.size_zeros, Nat.add_sub_cancel,
          ByteArray.extract_append_eq_left rfl]
      · exact (hno _ hraw).elim
  next h =>
    have hno : ∀ before, raw ≠ before ++ Bytes.zeros (unit e) := by
      rintro before rfl
      apply h
      rw [ByteArray.size_append, Bytes.size_zeros, Nat.add_sub_cancel]
      exact ⟨Nat.le_add_left _ _, isZeroAt_iff.2 (by
        simpa using Bytes.at_middle before (Bytes.zeros (unit e)) .empty)⟩
    constructor
    · rintro rfl
      exact .inr ⟨rfl, hno⟩
    · rintro (hraw | ⟨rfl, -⟩)
      · exact (hno _ hraw).elim
      · rfl

end Terminators

theorem ofTag?_eq_some_iff {tag : UInt8} {t : ValueType} :
    ValueType.ofTag? tag = some t ↔ tag ≠ nameMarker ∧ tag &&& numberMask = t.number := by
  have hnumber : ∀ n, ValueType.ofNumber? n = some t ↔ n = t.number := by
    intro n
    constructor
    · intro h
      exact (by simpa using List.find?_some h : t.number = n).symm
    · rintro rfl
      rcases t with _ | _ | t | _ | _ | _ | _ | e | _
      case integer => cases t <;> decide
      case text => cases e <;> decide
      all_goals decide
  rw [ValueType.ofTag?]
  split
  next h => simp [h]
  next h => rw [hnumber, and_iff_right h]

section Readers

variable {src : Bytes} {p q : Nat}

theorem readName_unmarked (h : ¬ src.At p [nameMarker].toByteArray) :
    readName src p = .ok (none, p) := if_neg fun hm => h (at_singleton_iff.2 hm)

theorem size_marked (text : String) : (marked text).size = 1 + 1 + text.utf8ByteSize := by
  simp [marked]

theorem at_marked_iff {text : String} :
    src.At p (marked text) ↔ src.At p [nameMarker].toByteArray ∧
      src.At (p + 1) (littleEndian 1 text.utf8ByteSize).toByteArray ∧
        src.At (p + 1 + 1) text.toByteArray := by
  rw [marked, Bytes.At.append_iff, Bytes.At.append_iff, and_assoc]
  simp

theorem readName_marked_iff (h : src.At p [nameMarker].toByteArray) {name : Option String} :
    readName src p = .ok (name, q) ↔ ∃ text : String, text.utf8ByteSize ≤ 255 ∧
      (if text = "" then none else some text) = name ∧ src.At p (marked text) ∧
        q = p + (marked text).size := by
  have hp : p + 1 ≤ src.size := h.bound
  rw [readName, if_pos (at_singleton_iff.1 h)]
  simp only [bind_eq_ok, Prod.exists, takeNumber_ok_iff hp]
  constructor
  · rintro ⟨n, r, ⟨hn, hlen, rfl⟩, bytes, r', hbytes, hname⟩
    have hr : p + 1 + 1 ≤ src.size := by simpa using hlen.bound
    obtain ⟨rfl, ha, rfl⟩ := (take_ok_iff hr).1 hbytes
    split at hname
    next text htext =>
      cases hname
      obtain rfl : bytes = text.toByteArray := Utf8.fromUTF8?_eq_some_iff.1 htext
      rw [String.size_toByteArray] at hn hlen
      refine ⟨text, by omega, rfl, at_marked_iff.2 ⟨h, hlen, ha⟩, ?_⟩
      rw [size_marked, String.size_toByteArray]
      omega
    · cases hname
  · rintro ⟨text, hs, rfl, ha, rfl⟩
    obtain ⟨-, hlen, htext⟩ := at_marked_iff.1 ha
    have hr : p + 1 + 1 ≤ src.size := by simpa using hlen.bound
    refine ⟨_, _, ⟨by omega, hlen, rfl⟩, _, _,
      (take_ok_iff hr).2 ⟨String.size_toByteArray, htext, rfl⟩, ?_⟩
    rw [Utf8.fromUTF8?_eq_some_iff.2 rfl, size_marked, String.size_toByteArray]
    simp only [pure, Except.pure, Nat.add_assoc]

def stripped : ValueType → Bytes → Bytes
  | .text e, raw => dropTerminator e raw
  | _, raw => raw

theorem stripped_eq_iff {t : ValueType} {raw content : Bytes} :
    stripped t raw = content ↔ IsStripped t raw content := by
  cases t with
  | text e => exact dropTerminator_eq_iff
  | _ => exact eq_comm

theorem readContent_counted {tag : UInt8} (htag : tag &&& lengthFlag ≠ 0) (t : ValueType) :
    readContent src p tag t = (do
      let (length, p) ← takeNumber src p 4
      let (raw, p) ← take src p length
      return (stripped t raw, p)) := by
  rw [readContent.eq_def, if_pos htag]
  cases t <;> rfl

theorem size_counted (raw : Bytes) : (counted raw).size = 4 + raw.size := by
  simp [counted]

theorem at_counted_iff {raw : Bytes} : src.At p (counted raw) ↔
    src.At p (littleEndian 4 raw.size).toByteArray ∧ src.At (p + 4) raw := by
  simp [counted, Bytes.At.append_iff]

theorem readContent_counted_iff (hp : p ≤ src.size) {tag : UInt8} (htag : tag &&& lengthFlag ≠ 0)
    {t : ValueType} {content : Bytes} :
    readContent src p tag t = .ok (content, q) ↔ ∃ raw, raw.size < 2 ^ 32 ∧
      IsStripped t raw content ∧ src.At p (counted raw) ∧ q = p + (counted raw).size := by
  rw [readContent_counted htag]
  simp only [bind_eq_ok, Prod.exists, takeNumber_ok_iff hp, pure, Except.pure, Except.ok.injEq,
    Prod.mk.injEq, stripped_eq_iff]
  constructor
  · rintro ⟨n, r, ⟨hn, hlen, rfl⟩, raw, r', hraw, hs, rfl⟩
    have hr : p + 4 ≤ src.size := by simpa using hlen.bound
    obtain ⟨rfl, ha, rfl⟩ := (take_ok_iff hr).1 hraw
    exact ⟨raw, hn, hs, at_counted_iff.2 ⟨hlen, ha⟩, by rw [size_counted, Nat.add_assoc]⟩
  · rintro ⟨raw, hn, hs, ha, rfl⟩
    obtain ⟨hlen, ha⟩ := at_counted_iff.1 ha
    have hr : p + 4 ≤ src.size := by simpa using hlen.bound
    exact ⟨_, _, ⟨hn, hlen, rfl⟩, _, _, (take_ok_iff hr).2 ⟨rfl, ha, rfl⟩, hs,
      by rw [size_counted, Nat.add_assoc]⟩

theorem readContent_ok_iff (hp : p ≤ src.size) {tag : UInt8} {t : ValueType} {content : Bytes} :
    readContent src p tag t = .ok (content, q) ↔
      ∃ b, IsContent tag t content b ∧ src.At p b ∧ q = p + b.size := by
  by_cases hflag : tag &&& lengthFlag = 0
  · have hcounted : ¬ tag &&& lengthFlag ≠ 0 := fun h => h hflag
    rw [readContent.eq_def, if_neg hcounted]
    constructor
    · intro h
      split at h
      next size hfixed =>
        obtain ⟨rfl, ha, rfl⟩ := (take_ok_iff hp).1 h
        exact ⟨content, .fixed hflag hfixed, ha, rfl⟩
      next e hfixed =>
        obtain ⟨hno, ha, rfl⟩ := takeTerminated_ok_iff.1 h
        exact ⟨_, .terminated hflag hno, ha, rfl⟩
      · cases h
    · rintro ⟨b, hb, ha, rfl⟩
      cases hb with
      | counted hset _ _ => exact (hset hflag).elim
      | fixed _ hfixed =>
        rw [hfixed]
        exact (take_ok_iff hp).2 ⟨rfl, ha, rfl⟩
      | terminated _ hno => exact takeTerminated_ok_iff.2 ⟨hno, ha, rfl⟩
  · rw [readContent_counted_iff hp hflag]
    constructor
    · rintro ⟨raw, hn, hs, ha, rfl⟩
      exact ⟨_, .counted hflag hn hs, ha, rfl⟩
    · rintro ⟨b, hb, ha, rfl⟩
      cases hb with
      | counted _ hn hs => exact ⟨_, hn, hs, ha, rfl⟩
      | fixed hzero _ => exact (hflag hzero).elim
      | terminated hzero _ => exact (hflag hzero).elim

theorem readValue_ok_iff (hp : p ≤ src.size) {v : Value} :
    readValue src p = .ok (v, q) ↔ ∃ b, IsValue v b ∧ src.At p b ∧ q = p + b.size := by
  have hone : ∀ tag : UInt8, (littleEndian 1 tag.toNat).toByteArray = [tag].toByteArray := by
    intro tag
    simp [littleEndian]
  simp only [readValue, bind_eq_ok, Prod.exists, takeNumber_ok_iff hp]
  constructor
  · rintro ⟨n, r, ⟨hn, htag, rfl⟩, h⟩
    have hr : p + 1 ≤ src.size := by simpa using htag.bound
    have hn' : (UInt8.ofNat n).toNat = n := Nat.mod_eq_of_lt hn
    rw [← hn', hone] at htag
    split at h
    · cases h
    next t ht =>
      obtain ⟨hmarker, hnumber⟩ := ofTag?_eq_some_iff.1 ht
      obtain ⟨⟨content, r'⟩, hcontent, h⟩ := bind_eq_ok.1 h
      obtain ⟨bytes, hbytes, ha, rfl⟩ := (readContent_ok_iff hr).1 hcontent
      dsimp only at h
      split at h
      next v' hv =>
        cases h
        obtain ⟨rfl, hw, hpayload⟩ := Value.ofPayload_ok hv
        refine ⟨_, ⟨_, content, bytes, hmarker, hnumber, hw, hpayload, hbytes, rfl⟩,
          Bytes.At.append_iff.2 ⟨htag, ha⟩, ?_⟩
        rw [ByteArray.size_append, Nat.add_assoc]
        rfl
      · cases h
      · cases h
  · rintro ⟨b, ⟨tag, content, bytes, hmarker, hnumber, hw, hpayload, hbytes, rfl⟩, ha, rfl⟩
    obtain ⟨htag, ha⟩ := Bytes.At.append_iff.1 ha
    have hr : p + 1 ≤ src.size := htag.bound
    refine ⟨tag.toNat, p + 1, ⟨tag.toNat_lt, hone tag ▸ htag, rfl⟩, ?_⟩
    rw [UInt8.ofNat_toNat, ofTag?_eq_some_iff.2 ⟨hmarker, hnumber⟩]
    refine bind_eq_ok.2 ⟨_, (readContent_ok_iff hr).2 ⟨bytes, hbytes, ha, rfl⟩, ?_⟩
    simp only [hpayload.ofPayload hw]
    rw [ByteArray.size_append, ← Nat.add_assoc]
    rfl

theorem IsValue.unmarked {v : Value} {b : Bytes} (h : IsValue v b) (ha : src.At p b) :
    ¬ src.At p [nameMarker].toByteArray := by
  obtain ⟨tag, _, _, hmarker, -, -, -, -, rfl⟩ := h
  obtain ⟨htag, -⟩ := Bytes.At.append_iff.1 ha
  intro hm
  apply hmarker
  have := congrArg Bytes.list (htag.unique hm rfl)
  simpa using this

theorem readEntry_ok_iff (hp : p ≤ src.size) {pair : Pair} :
    readEntry src p = .ok (pair, q) ↔ ∃ b, IsChunk pair b ∧ src.At p b ∧ q = p + b.size := by
  simp only [readEntry, bind_eq_ok, Prod.exists]
  constructor
  · rintro ⟨name, r, hname, v, r', hv, h⟩
    cases h
    by_cases hm : src.At p [nameMarker].toByteArray
    · obtain ⟨text, hs, rfl, ha, rfl⟩ := (readName_marked_iff hm).1 hname
      obtain ⟨b, hb, hab, rfl⟩ := (readValue_ok_iff ha.bound).1 hv
      exact ⟨_, ⟨_, b, .marked hs, hb, rfl⟩, Bytes.At.append_iff.2 ⟨ha, hab⟩,
        by rw [ByteArray.size_append, Nat.add_assoc]⟩
    · cases (readName_unmarked hm).symm.trans hname
      obtain ⟨b, hb, hab, rfl⟩ := (readValue_ok_iff hp).1 hv
      exact ⟨_, ⟨_, b, .absent, hb, ByteArray.empty_append.symm⟩, hab, rfl⟩
  · rintro ⟨_, ⟨np, b, hname, hb, rfl⟩, ha, rfl⟩
    obtain ⟨han, hab⟩ := Bytes.At.append_iff.1 ha
    have hv := (readValue_ok_iff han.bound).2 ⟨b, hb, hab, rfl⟩
    obtain ⟨name, v⟩ := pair
    refine ⟨name, _, ?_, v, _, hv, ?_⟩
    · cases hname with
      | absent => exact readName_unmarked (hb.unmarked hab)
      | marked hs =>
        obtain ⟨hm, -⟩ := at_marked_iff.1 han
        exact (readName_marked_iff hm).2 ⟨_, hs, rfl, han, rfl⟩
    · rw [ByteArray.size_append, Nat.add_assoc]
      rfl

end Readers

end TaggedBuffer.Legacy
