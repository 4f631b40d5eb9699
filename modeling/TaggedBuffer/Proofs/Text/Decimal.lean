import TaggedBuffer.Proofs.Text.Digits
import TaggedBuffer.Text.Real
import TaggedBuffer.Value.Text

namespace TaggedBuffer

open Floating

namespace Text

/-- Digits, and a point with further digits or none. -/
inductive IsDecimal : List Char → Prop where
  | whole {ds : List Char} (hne : ds ≠ []) (hd : ds.all Char.isDigit = true) : IsDecimal ds
  | fraction {ds fs : List Char} (hne : ds ≠ []) (hd : ds.all Char.isDigit = true)
      (hf : fs.all Char.isDigit = true) : IsDecimal (ds ++ '.' :: fs)

inductive IsNumeral : List Char → Prop where
  | positive {cs : List Char} (h : IsDecimal cs) : IsNumeral cs
  | negative {cs : List Char} (h : IsDecimal cs) : IsNumeral ('-' :: cs)

theorem span_digits {ds : List Char} (hd : ds.all Char.isDigit = true) :
    ds.takeWhile Char.isDigit = ds ∧ ds.dropWhile Char.isDigit = [] := by
  have hall := List.all_eq_true.1 hd
  constructor
  · rw [← List.append_nil ds, List.takeWhile_append_of_pos hall]
    rfl
  · rw [← List.append_nil ds, List.dropWhile_append_of_pos hall]
    rfl

theorem span_digits_point {ds : List Char} (hd : ds.all Char.isDigit = true) (fs : List Char) :
    (ds ++ '.' :: fs).takeWhile Char.isDigit = ds ∧
      (ds ++ '.' :: fs).dropWhile Char.isDigit = '.' :: fs := by
  have hall := List.all_eq_true.1 hd
  rw [List.takeWhile_append_of_pos hall, List.dropWhile_append_of_pos hall]
  exact ⟨List.append_nil ds, rfl⟩

theorem takeFraction_point {fs : List Char} (hf : fs.all Char.isDigit = true) :
    takeFraction true ('.' :: fs) = (fs, []) := by
  obtain ⟨htake, hdrop⟩ := span_digits hf
  simp only [takeFraction, htake, hdrop, Bool.true_or, if_true]

theorem scanReal_decimal {cs unsigned : List Char} {negative : Bool}
    (hs : splitSign cs = (negative, unsigned)) (h : IsDecimal unsigned) :
    ∃ r, scanReal cs = some (r, []) := by
  rw [scanReal, hs]
  cases h with
  | whole hne hd =>
    obtain ⟨htake, hdrop⟩ := span_digits hd
    simp [htake, hdrop, takeFraction, takeExponent, hne]
  | @fraction ds fs hne hd hf =>
    obtain ⟨htake, hdrop⟩ := span_digits_point hd fs
    simp [htake, hdrop, takeFraction_point hf, takeExponent, hne]

theorem IsDecimal.splitSign {cs : List Char} (h : IsDecimal cs) : splitSign cs = (false, cs) := by
  cases h with
  | whole hne hd => exact splitSign_of_digits hd
  | @fraction ds fs hne hd hf =>
    obtain ⟨d, ds, rfl⟩ := List.exists_cons_of_ne_nil hne
    exact splitSign_of_isAlphanum (isAlphanum_of_isDigit (List.all_eq_true.1 hd d (.head _))) _

theorem isSome_real?_of_scanReal {cs : List Char} (h : ∃ r, scanReal cs = some (r, [])) :
    (real? cs).isSome = true := by
  obtain ⟨r, hr⟩ := h
  rw [real?]
  split
  next => rfl
  next => rw [hr]; rfl

theorem isSome_real?_numeral {cs : List Char} (h : IsNumeral cs) : (real? cs).isSome = true := by
  cases h with
  | positive h => exact isSome_real?_of_scanReal (scanReal_decimal h.splitSign h)
  | negative h => exact isSome_real?_of_scanReal (scanReal_decimal rfl h)

theorem isNumeral_integerChars (v : Int) : IsNumeral (integerChars v) := by
  have hdecimal : IsDecimal (Nat.toDigits 10 v.natAbs) :=
    .whole Nat.toDigits_ne_nil (toDigits_all_isDigit _)
  rw [integerChars]
  split
  · exact .negative hdecimal
  · exact .positive hdecimal

theorem IsDecimal.mem {cs : List Char} (h : IsDecimal cs) {c : Char} (hc : c ∈ cs) :
    c = '.' ∨ c.isDigit = true := by
  cases h with
  | whole hne hd => exact .inr (List.all_eq_true.1 hd c hc)
  | fraction hne hd hf =>
    rw [List.mem_append, List.mem_cons] at hc
    rcases hc with hc | rfl | hc
    · exact .inr (List.all_eq_true.1 hd c hc)
    · exact .inl rfl
    · exact .inr (List.all_eq_true.1 hf c hc)

theorem IsNumeral.mem {cs : List Char} (h : IsNumeral cs) {c : Char} (hc : c ∈ cs) :
    c = '-' ∨ c = '.' ∨ c.isDigit = true := by
  cases h with
  | positive h => exact .inr (h.mem hc)
  | negative h =>
    rcases List.mem_cons.1 hc with rfl | hc
    · exact .inl rfl
    · exact .inr (h.mem hc)

end Text

open Text (IsDecimal IsNumeral)

theorem isDecimal_placed {ds : List Char} (hne : ds ≠ []) (hd : ds.all Char.isDigit = true) (e : Int) :
    IsDecimal (plainLayout.placed ds e) := by
  have hzeros (n : Nat) : (List.replicate n '0').all Char.isDigit = true := by
    rw [List.all_replicate]
    split <;> rfl
  rw [Layout.placed]
  split
  · refine .fraction (List.cons_ne_nil '0' []) rfl ?_
    rw [List.all_append, hzeros, hd]
    rfl
  · dsimp only
    split
    · rw [show plainLayout.wholeFraction = false from rfl, if_neg Bool.false_ne_true, List.append_nil]
      refine .whole (List.append_ne_nil_of_left_ne_nil hne _) ?_
      rw [List.all_append, hzeros, hd]
      rfl
    · refine .fraction ?_ ?_ ?_
      · obtain ⟨d, ds, rfl⟩ := List.exists_cons_of_ne_nil hne
        rw [List.take_succ_cons]
        exact List.cons_ne_nil _ _
      · exact List.all_eq_true.2 fun c hc => List.all_eq_true.1 hd c (List.mem_of_mem_take hc)
      · exact List.all_eq_true.2 fun c hc => List.all_eq_true.1 hd c (List.mem_of_mem_drop hc)

theorem isDecimal_magnitude (f : Format) (significand : Nat) (exponent : Int) :
    IsDecimal (plainLayout.magnitude f significand exponent) := by
  rw [Layout.magnitude]
  split
  · exact isDecimal_placed (List.cons_ne_nil _ _) rfl 0
  · exact isDecimal_placed Nat.toDigits_ne_nil (Text.toDigits_all_isDigit _) _

theorem isNumeral_finite (f : Format) (negative : Bool) (significand : Nat) (exponent : Int) :
    IsNumeral (plainLayout.finite f negative significand exponent) := by
  rw [Layout.finite]
  cases negative with
  | false => exact .positive (isDecimal_magnitude f significand exponent)
  | true => exact .negative (isDecimal_magnitude f significand exponent)

namespace Value

def floatWords : List (List Char) := ["NaN".toList, "inf".toList, "-inf".toList]

theorem floatText_cases (f : Format) (bits : Nat) :
    floatText f bits ∈ floatWords ∨ IsNumeral (floatText f bits) := by
  rw [floatText]
  cases f.decode bits with
  | nan => exact .inl (List.mem_cons_self ..)
  | infinity negative =>
    cases negative with
    | false => exact .inl (by simp [floatWords])
    | true => exact .inl (by simp [floatWords])
  | finite negative m q => exact .inr (isNumeral_finite f negative m q)

theorem isSome_real?_floatText (f : Format) (bits : Nat) :
    (Text.real? (floatText f bits)).isSome = true := by
  have hwords : ∀ cs ∈ floatWords, (Text.real? cs).isSome = true := by decide
  rcases floatText_cases f bits with h | h
  · exact hwords _ h
  · exact Text.isSome_real?_numeral h

theorem mem_floatText {f : Format} {bits : Nat} {c : Char} (h : c ∈ floatText f bits) :
    c = '-' ∨ c = '.' ∨ c.isAlphanum = true := by
  have hwords : ∀ cs ∈ floatWords, (cs.all fun c => c = '-' || c.isAlphanum) = true := by decide
  rcases floatText_cases f bits with hw | hn
  · have hc := List.all_eq_true.1 (hwords _ hw) c h
    rw [Bool.or_eq_true, decide_eq_true_eq] at hc
    exact hc.imp_right .inr
  · rcases hn.mem h with hc | hc | hc
    · exact .inl hc
    · exact .inr (.inl hc)
    · exact .inr (.inr (Text.isAlphanum_of_isDigit hc))

end Value

end TaggedBuffer
