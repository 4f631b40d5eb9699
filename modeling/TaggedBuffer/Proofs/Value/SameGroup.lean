import TaggedBuffer.Proofs.Text.Utf16
import TaggedBuffer.Proofs.Text.Utf8
import TaggedBuffer.Proofs.Value.Same
import TaggedBuffer.Value.Parse

namespace TaggedBuffer

/-- The types that are compared with each other: truth values and numbers, texts, or one type alone. -/
inductive TypeGroup where
  | numeric
  | text
  | single (t : ValueType)
  deriving DecidableEq, Repr

def ValueType.group : ValueType → TypeGroup
  | bool | integer _ | float | double => .numeric
  | text _ => .text
  | t => .single t

namespace Value

/-- The number that a truth value or an integer is. -/
def whole? : Value → Option Int
  | bool b => some b.toInt
  | integer t bits => some (t.toInt bits)
  | _ => none

def ofText : Encoding → String → Value
  | .ascii => ascii
  | .utf8 => utf8
  | .unicode => wide

/-- What a value that is not floating is compared by. -/
inductive Key where
  | number (n : Int)
  | text (s : Option String)
  | value (v : Value)

def key (v : Value) : Key :=
  match v.type.group with
  | .numeric => .number v.asInt
  | .text => .text v.text?
  | .single _ => .value v

variable {a b : Value}

theorem isNumeric_iff : a.isNumeric = true ↔ a.type.group = .numeric := by
  cases a <;> simp [isNumeric, type, ValueType.isNumeric, ValueType.isInteger, ValueType.isFloating,
    ValueType.group]

theorem isText_iff : a.isText = true ↔ a.type.group = .text := by
  cases a <;> simp [isText, type, ValueType.isText, ValueType.group]

theorem type_eq_of_same (h : a.same b = true) : a.type = b.type := by
  cases b with
  | float bits =>
    obtain ⟨bits', rfl, -⟩ := same_float.1 h
    rfl
  | double bits =>
    obtain ⟨bits', rfl, -⟩ := same_double.1 h
    rfl
  | _ => rw [(same_of_not_floating rfl).1 h]

theorem group_eq_of_sameGroup (h : a.sameGroup b = true) : a.type.group = b.type.group := by
  rw [sameGroup] at h
  split at h
  next hn =>
    rw [Bool.and_eq_true, isNumeric_iff, isNumeric_iff] at hn
    rw [hn.1, hn.2]
  next =>
    split at h
    next ht =>
      rw [Bool.and_eq_true, isText_iff, isText_iff] at ht
      rw [ht.1, ht.2]
    next => rw [type_eq_of_same h]

theorem sameGroup_iff_key (ha : a.type.isFloating = false) (hb : b.type.isFloating = false)
    (hg : a.type.group = b.type.group) : a.sameGroup b = true ↔ a.key = b.key := by
  have hnumeric : a.isNumeric = b.isNumeric := by rw [Bool.eq_iff_iff, isNumeric_iff, isNumeric_iff, hg]
  have htext : a.isText = b.isText := by rw [Bool.eq_iff_iff, isText_iff, isText_iff, hg]
  rw [sameGroup, key, key, hg, hnumeric, htext, ha, hb]
  cases hb' : b.type.group with
  | numeric => simp [isNumeric_iff.2 hb']
  | text =>
    have hn : b.isNumeric = false := by simp [Bool.eq_false_iff, isNumeric_iff, hb']
    simp [hn, isText_iff.2 hb']
  | single t =>
    have hn : b.isNumeric = false := by simp [Bool.eq_false_iff, isNumeric_iff, hb']
    have ht : b.isText = false := by simp [Bool.eq_false_iff, isText_iff, hb']
    simp [hn, ht, same_of_not_floating hb]

/-- Without floating values, what is compared is the group and, within it, the key. -/
theorem sameGroup_iff (ha : a.type.isFloating = false) (hb : b.type.isFloating = false) :
    a.sameGroup b = true ↔ a.type.group = b.type.group ∧ a.key = b.key := by
  constructor
  · intro h
    have hg := group_eq_of_sameGroup h
    exact ⟨hg, (sameGroup_iff_key ha hb hg).1 h⟩
  · rintro ⟨hg, hk⟩
    exact (sameGroup_iff_key ha hb hg).2 hk

theorem key_of_whole? {n : Int} (h : a.whole? = some n) :
    a.type.isFloating = false ∧ a.type.group = .numeric ∧ a.key = .number n := by
  cases a with
  | bool b =>
    cases h
    cases b <;> exact ⟨rfl, rfl, rfl⟩
  | integer t bits =>
    cases h
    exact ⟨rfl, rfl, rfl⟩
  | _ => cases h

theorem sameGroup_whole_iff {m n : Int} (ha : a.whole? = some m) (hb : b.whole? = some n) :
    a.sameGroup b = true ↔ m = n := by
  obtain ⟨hfa, hga, hka⟩ := key_of_whole? ha
  obtain ⟨hfb, hgb, hkb⟩ := key_of_whole? hb
  rw [sameGroup_iff_key hfa hfb (hga.trans hgb.symm), hka, hkb, Key.number.injEq]

theorem text?_ofText (e : Encoding) (s : String) : (ofText e s).text? = some s := by
  cases e with
  | ascii => exact congrArg some (Utf8.decodeLossy_toByteArray s)
  | utf8 => exact congrArg some (Utf8.decodeLossy_toByteArray s)
  | unicode => exact congrArg some (Utf16.decodeLossy_encode s)

theorem type_ofText (e : Encoding) (s : String) : (ofText e s).type = .text e := by
  cases e <;> rfl

theorem key_ofText (e : Encoding) (s : String) : (ofText e s).type.isFloating = false ∧
    (ofText e s).type.group = .text ∧ (ofText e s).key = .text (some s) := by
  rw [key, text?_ofText, type_ofText]
  exact ⟨rfl, rfl, rfl⟩

theorem sameGroup_ofText_iff {e f : Encoding} {s t : String} :
    (ofText e s).sameGroup (ofText f t) = true ↔ s = t := by
  obtain ⟨hfs, hgs, hks⟩ := key_ofText e s
  obtain ⟨hft, hgt, hkt⟩ := key_ofText f t
  rw [sameGroup_iff_key hfs hft (hgs.trans hgt.symm), hks, hkt, Key.text.injEq, Option.some.injEq]

/-- Without floating values this is an equivalence that compares integers as numbers and texts as
text, whatever they are stored as, and never leaves a group. -/
theorem sameGroup_equivalence :
    Equivalence (fun a b : { v : Value // v.type.isFloating = false } => a.1.sameGroup b.1 = true) ∧
    (∀ (a b : Value) m n, a.whole? = some m → b.whole? = some n →
      (a.sameGroup b = true ↔ m = n)) ∧
    (∀ e f s t, (ofText e s).sameGroup (ofText f t) = true ↔ s = t) ∧
    ∀ a b : Value, a.sameGroup b = true → a.type.group = b.type.group := by
  refine ⟨⟨?_, ?_, ?_⟩, fun _ _ _ _ => sameGroup_whole_iff, fun _ _ _ _ => sameGroup_ofText_iff,
    fun _ _ => group_eq_of_sameGroup⟩
  · rintro ⟨a, ha⟩
    exact (sameGroup_iff ha ha).2 ⟨rfl, rfl⟩
  · rintro ⟨a, ha⟩ ⟨b, hb⟩ h
    obtain ⟨hg, hk⟩ := (sameGroup_iff ha hb).1 h
    exact (sameGroup_iff hb ha).2 ⟨hg.symm, hk.symm⟩
  · rintro ⟨a, ha⟩ ⟨b, hb⟩ ⟨c, hc⟩ h h'
    obtain ⟨hg, hk⟩ := (sameGroup_iff ha hb).1 h
    obtain ⟨hg', hk'⟩ := (sameGroup_iff hb hc).1 h'
    exact (sameGroup_iff ha hc).2 ⟨hg.trans hg', hk.trans hk'⟩

theorem sameGroup_equivalence_bits :
    let signed := integer .int64 (-1)
    let unsigned := integer .uint64 (-1)
    let one := integer .int8 1
    (signed.whole? = some (-1) ∧ unsigned.whole? = some (2 ^ 64 - 1) ∧
      signed.sameGroup unsigned = false) ∧
      (bool true).whole? = some 1 ∧ one.whole? = some 1 ∧ (bool true).sameGroup one = true := by
  intro signed unsigned one
  have hwhole := sameGroup_equivalence.2.1
  have hsigned : signed.whole? = some (-1) := by decide
  have hunsigned : unsigned.whole? = some (2 ^ 64 - 1) := by decide
  have hne : ¬ signed.sameGroup unsigned = true :=
    mt (hwhole signed unsigned _ _ hsigned hunsigned).1 (by decide)
  exact ⟨⟨hsigned, hunsigned, Bool.eq_false_iff.2 hne⟩, rfl, by decide,
    (hwhole (bool true) one 1 1 rfl (by decide)).2 rfl⟩

end Value

end TaggedBuffer
