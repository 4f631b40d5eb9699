import TaggedBuffer.Proofs.Text.Digits

namespace TaggedBuffer.Text

theorem isBlank_of_isDigit {c : Char} (h : c.isDigit = true) : isBlank c = false := by
  have hc := toNat_of_isDigit h
  exact isBlank_eq_false (by omega) (by omega)

theorem exists_trimEnd (cs : List Char) :
    ∃ blanks, cs = trimEnd cs ++ blanks ∧ blanks.all isBlank = true := by
  refine ⟨(cs.reverse.takeWhile isBlank).reverse, ?_, ?_⟩
  · rw [trimEnd, ← List.reverse_append, List.takeWhile_append_dropWhile, List.reverse_reverse]
  · rw [List.all_reverse, List.all_takeWhile]

theorem isBlank_of_trim {c : Char} {cs : List Char} (h : trim (c :: cs) = c :: cs) :
    isBlank c = false := by
  cases hb : isBlank c with
  | false => rfl
  | true =>
    have hstart : trimStart (c :: cs) = cs.dropWhile isBlank :=
      List.dropWhile_cons_of_pos hb
    obtain ⟨blanks, hcs, -⟩ := exists_trimEnd (trimStart (c :: cs))
    have hlen := congrArg List.length hcs
    have hle := (List.dropWhile_suffix (l := cs) isBlank).length_le
    rw [← trim, h, hstart, List.length_append, List.length_cons] at hlen
    omega

theorem splitSign_append {cs : List Char} (h : cs ≠ []) (rest : List Char) :
    splitSign (cs ++ rest) = ((splitSign cs).1, (splitSign cs).2 ++ rest) := by
  obtain ⟨c, cs, rfl⟩ := List.exists_cons_of_ne_nil h
  by_cases hminus : c = '-'
  · subst c
    rfl
  · by_cases hplus : c = '+'
    · subst c
      rfl
    · simp [splitSign, hminus, hplus]

theorem takeWhile_isDigit_append {digits blanks : List Char} (hd : digits.all Char.isDigit = true)
    (hb : blanks.all isBlank = true) : (digits ++ blanks).takeWhile Char.isDigit = digits := by
  rw [List.takeWhile_append_of_pos (List.all_eq_true.1 hd)]
  cases blanks with
  | nil => rw [List.takeWhile_nil, List.append_nil]
  | cons b blanks =>
    have hblank : isBlank b = true := List.all_eq_true.1 hb b (.head _)
    have hdigit : ¬ b.isDigit = true := by
      intro hdigit
      rw [isBlank_of_isDigit hdigit] at hblank
      cases hblank
    rw [List.takeWhile_cons_of_neg hdigit, List.append_nil]

theorem integer?_eq_some_iff {cs : List Char} {v : Int} :
    integer? cs = some v ↔ (splitSign cs).2 ≠ [] ∧ (splitSign cs).2.all Char.isDigit = true ∧
      signed (splitSign cs).1 (digitsValue (splitSign cs).2) = v := by
  rw [integer?]
  rcases splitSign cs with ⟨negative, digits⟩
  simp [and_assoc]

theorem leadingDigits_of_integer? {cs : List Char} {v : Int} (h : integer? (trim cs) = some v) :
    signed (leadingDigits cs).1 (Nat.ofDigitChars 10 (leadingDigits cs).2 0) = v := by
  obtain ⟨hne, hd, hv⟩ := integer?_eq_some_iff.1 h
  obtain ⟨blanks, hcs, hb⟩ := exists_trimEnd (trimStart cs)
  have htrim : trim cs ≠ [] := by
    intro hnil
    rw [hnil] at hne
    exact hne rfl
  have hsplit : splitSign (trimStart cs) =
      ((splitSign (trim cs)).1, (splitSign (trim cs)).2 ++ blanks) := by
    rw [hcs, ← trim, splitSign_append htrim]
  rw [leadingDigits, hsplit]
  simp only [takeWhile_isDigit_append hd hb, ← digitsValue_eq, hv]

theorem leadingSigned_eq (cs : List Char) : leadingSigned cs = clamp (-2 ^ 63) (2 ^ 63 - 1)
    (signed (leadingDigits cs).1 (Nat.ofDigitChars 10 (leadingDigits cs).2 0)) :=
  foldl_addDigit_zero (by decide) (by decide) _ _

theorem leadingUnsigned_eq_mod {cs : List Char} (h : (leadingDigits cs).1 = true) :
    leadingUnsigned cs = leadingSigned cs % 2 ^ 64 :=
  if_pos h

theorem leadingUnsigned_eq_clamp {cs : List Char} (h : (leadingDigits cs).1 = false) :
    leadingUnsigned cs =
      clamp 0 (2 ^ 64 - 1) (Nat.ofDigitChars 10 (leadingDigits cs).2 0 : Nat) := by
  rw [leadingUnsigned]
  simp only [h, Bool.false_eq_true, if_false]
  exact foldl_addDigit_zero (by decide) (by decide) false _

theorem leadingSigned_of_integer? {cs : List Char} {v : Int} (h : integer? (trim cs) = some v)
    (hlo : -2 ^ 63 ≤ v) (hhi : v ≤ 2 ^ 63 - 1) : leadingSigned cs = v := by
  rw [leadingSigned_eq, leadingDigits_of_integer? h, clamp]
  omega

theorem leadingUnsigned_of_integer? {cs : List Char} {v : Int} (h : integer? (trim cs) = some v)
    (hlo : 0 ≤ v) (hhi : v ≤ 2 ^ 64 - 1) : leadingUnsigned cs = v := by
  have hsigned := leadingDigits_of_integer? h
  cases hneg : (leadingDigits cs).1 with
  | false =>
    rw [hneg] at hsigned
    simp only [signed, Bool.false_eq_true, if_false] at hsigned
    rw [leadingUnsigned_eq_clamp hneg, hsigned, clamp]
    omega
  | true =>
    -- Only zero has a minus sign here.
    rw [hneg] at hsigned
    simp only [signed, if_true] at hsigned
    rw [leadingUnsigned_eq_mod hneg, leadingSigned_of_integer? h (by omega) (by omega)]
    omega

theorem isAlpha_iff {c : Char} : c.isAlpha = true ↔ c.isUpper = true ∨ c.isLower = true :=
  Bool.or_eq_true_iff

theorem isAlpha_of_toLower {c : Char} (h : c.toLower.isAlpha = true) : c.isAlpha = true := by
  by_cases hupper : c.isUpper = true
  · exact isAlpha_iff.2 (.inl hupper)
  · have hsame : c.toLower = c := dif_neg (mt decide_eq_true hupper)
    rwa [hsame] at h

theorem toNat_of_isAlpha {c : Char} (h : c.isAlpha = true) : 65 ≤ c.toNat ∧ c.toNat ≤ 122 := by
  rcases isAlpha_iff.1 h with hupper | hlower
  · obtain ⟨hlo, hhi⟩ : 'A'.val ≤ c.val ∧ c.val ≤ 'Z'.val := of_decide_eq_true hupper
    have hhi' : c.toNat ≤ 90 := UInt32.le_iff_toNat_le.1 hhi
    exact ⟨UInt32.le_iff_toNat_le.1 hlo, by omega⟩
  · obtain ⟨hlo, hhi⟩ := Bool.and_eq_true_iff.1 hlower
    have hlo' : 97 ≤ c.toNat := UInt32.le_iff_toNat_le.1 (of_decide_eq_true hlo)
    exact ⟨by omega, UInt32.le_iff_toNat_le.1 (of_decide_eq_true hhi)⟩

theorem isBlank_of_isAlphanum {c : Char} (h : c.isAlphanum = true) : isBlank c = false := by
  rw [Char.isAlphanum, Bool.or_eq_true] at h
  rcases h with h | h
  · have hc := toNat_of_isAlpha h
    exact isBlank_eq_false (by omega) (by omega)
  · exact isBlank_of_isDigit h

/-- A letter is no blank, sign or digit, so no integer is at the head of a text that begins with one. -/
theorem leadingSigned_of_isAlpha {c : Char} (h : c.isAlpha = true) (cs : List Char) :
    leadingSigned (c :: cs) = 0 := by
  have hc := toNat_of_isAlpha h
  have halnum := isAlphanum_of_isAlpha h
  have hblank : ¬ isBlank c = true := by
    rw [isBlank_of_isAlphanum halnum]
    exact Bool.false_ne_true
  have hdigit : ¬ c.isDigit = true := by
    intro hd
    have := toNat_of_isDigit hd
    omega
  rw [leadingSigned, leadingDigits, trimStart, List.dropWhile_cons_of_neg hblank,
    splitSign_of_isAlphanum halnum]
  simp only [List.takeWhile_cons_of_neg hdigit]
  rfl

end TaggedBuffer.Text
