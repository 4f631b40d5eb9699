import TaggedBuffer.Output.Yaml
import TaggedBuffer.Proofs.Text.Decimal
import TaggedBuffer.Proofs.Text.Leading

namespace TaggedBuffer.Yaml

open Text (trim real?)

/-- Values that are shown without quotes, whatever they are. -/
def IsBare : Value → Prop
  | .unknown | .bool _ | .integer _ _ | .float _ | .double _ | .pointer _ => True
  | .guid _ | .text _ _ | .binary _ => False

theorem needsQuotes_eq_false_iff {s : String} : needsQuotes s = false ↔
    s.toList ≠ [] ∧ trim s.toList = s.toList ∧ s.toList.head? ≠ some '-' ∧
      s.toList.head? ≠ some '?' ∧ (∀ c ∈ s.toList, c ∉ indicators) ∧ real? s.toList = none ∧
      String.ofList (s.toList.map Char.toLower) ∉ reserved := by
  simp [needsQuotes, and_assoc]

theorem needsQuotes_of_real? {s : String} (h : (real? s.toList).isSome = true) :
    needsQuotes s = true := by
  cases hq : needsQuotes s with
  | true => rfl
  | false =>
    rw [(needsQuotes_eq_false_iff.1 hq).2.2.2.2.2.1] at h
    cases h

def isBareChar (c : Char) : Bool := c.isAlphanum || c = '-' || c = '.' || c = '~'

theorem isBareChar_of_isAlphanum {c : Char} (h : c.isAlphanum = true) : isBareChar c = true := by
  rw [isBareChar, h]
  rfl

theorem toList_display_pointer (address : BitVec 64) : (Value.pointer address).display.toList =
    '0' :: 'x' :: Nat.toDigits 16 address.toNat := by
  simp [Value.display]

theorem mem_scalar {v : Value} (hv : IsBare v) {c : Char} (h : c ∈ (scalar v).toList) :
    isBareChar c = true := by
  have hfloat {f bits} (h : c ∈ (String.ofList (Value.floatText f bits)).toList) :
      isBareChar c = true := by
    rw [String.toList_ofList] at h
    rcases Value.mem_floatText h with rfl | rfl | hc
    · rfl
    · rfl
    · exact isBareChar_of_isAlphanum hc
  cases v with
  | unknown =>
    obtain rfl : c = '~' := List.mem_singleton.1 h
    rfl
  | bool b =>
    have hwords : ∀ b, (scalar (.bool b)).toList.all isBareChar = true := by decide
    exact List.all_eq_true.1 (hwords b) c h
  | integer t bits =>
    have hchars : (scalar (.integer t bits)).toList = Text.integerChars (t.toInt bits) :=
      String.toList_ofList
    rw [hchars] at h
    rcases Text.mem_integerChars h with rfl | hc
    · rfl
    · exact isBareChar_of_isAlphanum (Text.isAlphanum_of_isDigit hc)
  | float bits => exact hfloat h
  | double bits => exact hfloat h
  | pointer address =>
    have hchars : (scalar (.pointer address)).toList =
        '0' :: 'x' :: Nat.toDigits 16 address.toNat := toList_display_pointer address
    rw [hchars, List.mem_cons, List.mem_cons] at h
    rcases h with rfl | rfl | hc
    · rfl
    · rfl
    · exact isBareChar_of_isAlphanum (Text.isAlphanum_of_mem_toDigits (by decide) (by decide) hc)
  | _ => exact hv.elim

theorem quote_ne_scalar {v : Value} (hv : IsBare v) (s : String) : Json.quote s ≠ scalar v := by
  intro h
  have hmem : '"' ∈ (scalar v).toList := by
    rw [← h, Json.quote, String.toList_ofList]
    exact List.mem_cons_self ..
  cases mem_scalar hv hmem

theorem plain_eq_scalar_iff {v : Value} (hv : IsBare v) {s : String} :
    plain s = scalar v ↔ s = scalar v ∧ needsQuotes (scalar v) = false := by
  rw [plain]
  constructor
  · intro h
    split at h
    next => exact (quote_ne_scalar hv s h).elim
    next hq =>
      rw [Bool.not_eq_true] at hq
      exact ⟨h, h ▸ hq⟩
  · rintro ⟨rfl, hq⟩
    rw [hq]
    rfl

/-- A pointer is read as no number, for the letter after its first digit. -/
theorem real?_pointer (ds : List Char) : real? ('0' :: 'x' :: ds) = none := by
  have hword : Text.realWord? Floating.double ('0' :: 'x' :: ds) = none := by
    simp [Text.realWord?, Text.splitSign]
  have hscan : ∃ r, Text.scanReal ('0' :: 'x' :: ds) = some (r, 'x' :: ds) := by
    simp [Text.scanReal, Text.splitSign, Text.takeFraction, Text.takeExponent]
  obtain ⟨r, hr⟩ := hscan
  rw [real?, hword, hr]

theorem needsQuotes_pointer (address : BitVec 64) :
    needsQuotes (Value.pointer address).display = false := by
  have hchars := toList_display_pointer address
  have halnum : ∀ c ∈ '0' :: 'x' :: Nat.toDigits 16 address.toNat, c.isAlphanum = true := by
    intro c hc
    rw [List.mem_cons, List.mem_cons] at hc
    rcases hc with rfl | rfl | hc
    · rfl
    · rfl
    · exact Text.isAlphanum_of_mem_toDigits (by decide) (by decide) hc
  have hindicators : indicators.all (!·.isAlphanum) = true := by decide
  have hreserved : ∀ word ∈ reserved, word.toList.head? ≠ some '0' := by decide
  rw [needsQuotes_eq_false_iff, hchars]
  refine ⟨List.cons_ne_nil _ _, ?_, nofun, nofun, ?_, real?_pointer _, ?_⟩
  · exact Text.trim_eq_self fun c hc => Text.isBlank_of_isAlphanum (halnum c hc)
  · intro c hc hi
    have hnot := List.all_eq_true.1 hindicators c hi
    rw [halnum c hc] at hnot
    cases hnot
  · intro hmem
    apply hreserved _ hmem
    rw [String.toList_ofList]
    rfl

theorem needsQuotes_scalar {v : Value} (hv : IsBare v) :
    needsQuotes (scalar v) = true ↔ ∀ address, v ≠ .pointer address := by
  have hreal {cs : List Char} (h : (real? cs).isSome = true) :
      needsQuotes (String.ofList cs) = true :=
    needsQuotes_of_real? (by rwa [String.toList_ofList])
  cases v with
  | pointer address =>
    have hq : needsQuotes (scalar (.pointer address)) = false := needsQuotes_pointer address
    simp [hq]
  | unknown => exact iff_of_true (by decide) nofun
  | bool b =>
    have hwords : ∀ b, needsQuotes (scalar (.bool b)) = true := by decide
    exact iff_of_true (hwords b) nofun
  | integer t bits =>
    exact iff_of_true (hreal (Text.isSome_real?_numeral (Text.isNumeral_integerChars _))) nofun
  | float bits => exact iff_of_true (hreal (Value.isSome_real?_floatText _ _)) nofun
  | double bits => exact iff_of_true (hreal (Value.isSome_real?_floatText _ _)) nofun
  | _ => exact hv.elim

/-- A text is shown as a null, a truth value or a number is only where that is a pointer and the
text reads as its digits. -/
theorem scalar_text_eq_iff (e : Encoding) (content : Bytes) {v : Value} (hv : IsBare v) :
    (scalar (.text e content) = scalar v ↔
      (∃ address, v = .pointer address) ∧ (Value.text e content).display = v.display) ∧
    (needsQuotes (scalar v) = true ↔ ∀ address, v ≠ .pointer address) := by
  have hplain : scalar (.text e content) = plain (Value.text e content).display := rfl
  refine ⟨?_, needsQuotes_scalar hv⟩
  rw [hplain, plain_eq_scalar_iff hv]
  constructor
  · rintro ⟨hs, hq⟩
    have hpointer : ∃ address, v = .pointer address := by
      apply Classical.byContradiction
      intro hnone
      rw [(needsQuotes_scalar hv).2 fun address h => hnone ⟨address, h⟩] at hq
      cases hq
    obtain ⟨address, rfl⟩ := hpointer
    exact ⟨⟨address, rfl⟩, hs⟩
  · rintro ⟨⟨address, rfl⟩, hs⟩
    exact ⟨hs, needsQuotes_pointer address⟩

theorem scalar_text_eq_iff_integer :
    IsBare (.integer .int32 12#32) ∧
      scalar (.utf8 "12") ≠ scalar (.integer .int32 12#32) := by
  have hbare : IsBare (.integer .int32 12#32) := trivial
  refine ⟨hbare, fun h => ?_⟩
  obtain ⟨⟨address, hpointer⟩, -⟩ := (scalar_text_eq_iff .utf8 "12".toByteArray hbare).1.1 h
  cases hpointer

theorem scalar_pointer_text :
    scalar (.utf8 "0x1f") = "0x1f" ∧ scalar (.pointer 0x1f#64) = "0x1f" ∧
      needsQuotes "0x1f" = false := by
  decide

end TaggedBuffer.Yaml
