import TaggedBuffer.Proofs.Text.Leading

namespace TaggedBuffer.Text

/-- A sign or none, with whether it is a minus sign, and what follows it. -/
inductive IsSigned : List Char → Bool → List Char → Prop where
  | minus (rest : List Char) : IsSigned ('-' :: rest) true rest
  | plus (rest : List Char) : IsSigned ('+' :: rest) false rest
  | unsigned {rest : List Char} (h : ∀ c ∈ rest.head?, c ≠ '-' ∧ c ≠ '+') : IsSigned rest false rest

/-- The longest part at the head of the characters that has the property throughout, and the rest. -/
structure IsRun (p : Char → Bool) (cs run rest : List Char) : Prop where
  split : cs = run ++ rest
  all : run.all p = true
  stop : ∀ c ∈ rest.head?, p c = false

/-- Behind all leading blanks stand a sign or none and then these digits, as many as there are. -/
def HasLeading (cs : List Char) (negative : Bool) (digits : List Char) : Prop :=
  ∃ blanks body tail rest, IsRun isBlank cs blanks body ∧ IsSigned body negative tail ∧
    IsRun Char.isDigit tail digits rest

/-- A sign or none and at least one digit, and the integer that they write. -/
def IsInteger (cs : List Char) (v : Int) : Prop :=
  ∃ negative digits, IsSigned cs negative digits ∧ digits ≠ [] ∧ digits.all Char.isDigit = true ∧
    v = signed negative (Nat.ofDigitChars 10 digits 0)

/-- An integer with blanks before it, behind it, both or none. -/
def IsPaddedInteger (cs : List Char) (v : Int) : Prop :=
  ∃ before core after, cs = before ++ core ++ after ∧ before.all isBlank = true ∧
    after.all isBlank = true ∧ IsInteger core v

variable {p : Char → Bool} {cs run rest digits : List Char} {negative : Bool} {v : Int}

theorem isSigned_iff : IsSigned cs negative rest ↔ splitSign cs = (negative, rest) := by
  constructor
  · intro h
    cases h with
    | minus => rfl
    | plus => rfl
    | unsigned h =>
      cases cs with
      | nil => rfl
      | cons c cs =>
        obtain ⟨hminus, hplus⟩ := h c rfl
        simp [splitSign, hminus, hplus]
  · intro h
    unfold splitSign at h
    split at h
    next => cases h; exact .minus _
    next => cases h; exact .plus _
    next hminus hplus =>
      cases h
      refine .unsigned fun c hc => ⟨?_, ?_⟩
      · rintro rfl
        obtain ⟨tail, htail⟩ := List.head?_eq_some_iff.1 hc
        exact hminus tail htail
      · rintro rfl
        obtain ⟨tail, htail⟩ := List.head?_eq_some_iff.1 hc
        exact hplus tail htail

theorem isRun_iff : IsRun p cs run rest ↔ cs.takeWhile p = run ∧ cs.dropWhile p = rest := by
  constructor
  · rintro ⟨rfl, hall, hstop⟩
    rw [List.takeWhile_append_of_pos (List.all_eq_true.1 hall),
      List.dropWhile_append_of_pos (List.all_eq_true.1 hall)]
    cases rest with
    | nil => exact ⟨List.append_nil run, rfl⟩
    | cons c rest =>
      have hc : ¬ p c = true := by
        rw [hstop c rfl]
        exact Bool.false_ne_true
      rw [List.takeWhile_cons_of_neg hc, List.dropWhile_cons_of_neg hc]
      exact ⟨List.append_nil run, rfl⟩
  · rintro ⟨rfl, rfl⟩
    refine ⟨List.takeWhile_append_dropWhile.symm, List.all_takeWhile, fun c hc => ?_⟩
    have hstop := List.head?_dropWhile_not p cs
    rw [Option.mem_def.1 hc] at hstop
    exact hstop

theorem hasLeading_iff : HasLeading cs negative digits ↔ leadingDigits cs = (negative, digits) := by
  rw [leadingDigits, trimStart, Prod.mk.injEq]
  constructor
  · rintro ⟨blanks, body, tail, rest, hblanks, hsign, hdigits⟩
    obtain ⟨-, rfl⟩ := isRun_iff.1 hblanks
    obtain ⟨rfl, -⟩ := isRun_iff.1 hdigits
    rw [isSigned_iff.1 hsign]
    exact ⟨rfl, rfl⟩
  · rintro ⟨rfl, rfl⟩
    exact ⟨_, _, _, _, isRun_iff.2 ⟨rfl, rfl⟩, isSigned_iff.2 rfl, isRun_iff.2 ⟨rfl, rfl⟩⟩

theorem isInteger_iff : IsInteger cs v ↔ integer? cs = some v := by
  rw [integer?_eq_some_iff, digitsValue_eq]
  constructor
  · rintro ⟨negative, digits, hsign, hne, hall, rfl⟩
    rw [isSigned_iff.1 hsign]
    exact ⟨hne, hall, rfl⟩
  · rintro ⟨hne, hall, rfl⟩
    exact ⟨_, _, isSigned_iff.2 rfl, hne, hall, rfl⟩

theorem IsInteger.mem (h : IsInteger cs v) {c : Char} (hc : c ∈ cs) :
    c = '-' ∨ c = '+' ∨ c.isDigit = true := by
  obtain ⟨negative, digits, hsign, -, hall, -⟩ := h
  have hdigit : ∀ d ∈ digits, d.isDigit = true := List.all_eq_true.1 hall
  cases hsign with
  | minus => exact (List.mem_cons.1 hc).imp_right fun hc => .inr (hdigit c hc)
  | plus => exact .inr ((List.mem_cons.1 hc).imp_right (hdigit c))
  | unsigned => exact .inr (.inr (hdigit c hc))

theorem IsInteger.exists_digit (h : IsInteger cs v) : ∃ c ∈ cs, c.isDigit = true := by
  obtain ⟨negative, digits, hsign, hne, hall, -⟩ := h
  obtain ⟨d, digits, rfl⟩ := List.exists_cons_of_ne_nil hne
  have hd : d.isDigit = true := List.all_eq_true.1 hall d (.head _)
  cases hsign with
  | minus => exact ⟨d, .tail _ (.head _), hd⟩
  | plus => exact ⟨d, .tail _ (.head _), hd⟩
  | unsigned => exact ⟨d, .head _, hd⟩

theorem IsInteger.isBlank (h : IsInteger cs v) {c : Char} (hc : c ∈ cs) : isBlank c = false := by
  rcases h.mem hc with rfl | rfl | hd
  · rfl
  · rfl
  · exact isBlank_of_isDigit hd

theorem exists_trim (cs : List Char) : ∃ before after, cs = before ++ trim cs ++ after ∧
    before.all isBlank = true ∧ after.all isBlank = true := by
  obtain ⟨after, hend, hafter⟩ := exists_trimEnd (trimStart cs)
  refine ⟨cs.takeWhile isBlank, after, ?_, List.all_takeWhile, hafter⟩
  rw [trim, List.append_assoc, ← hend, trimStart, List.takeWhile_append_dropWhile]

theorem trim_padded {before core after : List Char} (hne : core ≠ [])
    (hcore : ∀ c ∈ core, isBlank c = false) (hbefore : before.all isBlank = true)
    (hafter : after.all isBlank = true) : trim (before ++ core ++ after) = core := by
  have hstart : trimStart (before ++ core ++ after) = core ++ after := by
    obtain ⟨c, core, rfl⟩ := List.exists_cons_of_ne_nil hne
    have hc : ¬ isBlank c = true := by simp [hcore c (.head _)]
    rw [trimStart, List.append_assoc, List.dropWhile_append_of_pos (List.all_eq_true.1 hbefore),
      List.cons_append, List.dropWhile_cons_of_neg hc]
  have hend : trimEnd (core ++ after) = trimEnd core := by
    have hrev : ∀ c ∈ after.reverse, isBlank c = true := fun c hc =>
      List.all_eq_true.1 hafter c (List.mem_reverse.1 hc)
    rw [trimEnd, List.reverse_append, List.dropWhile_append_of_pos hrev, trimEnd]
  rw [trim, hstart, hend, trimEnd_eq_self hcore]

theorem integer?_trim_iff : integer? (trim cs) = some v ↔ IsPaddedInteger cs v := by
  rw [← isInteger_iff]
  constructor
  · intro h
    obtain ⟨before, after, hcs, hbefore, hafter⟩ := exists_trim cs
    exact ⟨before, trim cs, after, hcs, hbefore, hafter, h⟩
  · rintro ⟨before, core, after, rfl, hbefore, hafter, hcore⟩
    have hne : core ≠ [] := by
      obtain ⟨c, hc, -⟩ := hcore.exists_digit
      exact List.ne_nil_of_mem hc
    rwa [trim_padded hne (fun _ => hcore.isBlank) hbefore hafter]

/-- The bounded readings give the number at the head of a text clamped to their range, the unsigned
one behind a minus sign by way of the signed one, modulo 2^64. -/
theorem leading_clamped (cs : List Char) :
    (∃ negative digits, HasLeading cs negative digits) ∧
    (∀ negative digits, HasLeading cs negative digits →
      let n := signed negative (Nat.ofDigitChars 10 digits 0)
      leadingSigned cs = max (-2 ^ 63) (min n (2 ^ 63 - 1)) ∧
      leadingUnsigned cs =
        if negative then max (-2 ^ 63) (min n 0) % 2 ^ 64 else min n (2 ^ 64 - 1)) ∧
    (-2 ^ 63 ≤ leadingSigned cs ∧ leadingSigned cs ≤ 2 ^ 63 - 1) ∧
    0 ≤ leadingUnsigned cs ∧ leadingUnsigned cs ≤ 2 ^ 64 - 1 := by
  have hsigned := leadingSigned_eq cs
  rw [clamp] at hsigned
  refine ⟨⟨_, _, hasLeading_iff.2 rfl⟩, ?_, by omega, ?_⟩
  · intro negative digits h n
    have hdigits := hasLeading_iff.1 h
    rw [hdigits] at hsigned
    change leadingSigned cs = max (-2 ^ 63) (min (2 ^ 63 - 1) n) at hsigned
    refine ⟨by omega, ?_⟩
    cases negative with
    | false =>
      have hunsigned := leadingUnsigned_eq_clamp (congrArg Prod.fst hdigits)
      rw [hdigits, clamp] at hunsigned
      change leadingUnsigned cs = max 0 (min (2 ^ 64 - 1) n) at hunsigned
      have hn : 0 ≤ n := Int.natCast_nonneg _
      simp only [Bool.false_eq_true, if_false]
      omega
    | true =>
      have hn : n ≤ 0 := Int.neg_nonpos_of_nonneg (Int.natCast_nonneg _)
      rw [leadingUnsigned_eq_mod (congrArg Prod.fst hdigits), if_pos rfl, hsigned]
      have hsame : max (-2 ^ 63) (min (2 ^ 63 - 1) n) = max (-2 ^ 63) (min n 0) := by omega
      rw [hsame]
  · cases hneg : (leadingDigits cs).1 with
    | false =>
      rw [leadingUnsigned_eq_clamp hneg, clamp]
      omega
    | true =>
      rw [leadingUnsigned_eq_mod hneg]
      omega

/-- One below the lowest signed integer, behind a blank and before other text. -/
theorem leading_clamped_below :
    let cs := "\u00a0-9223372036854775809px".toList
    HasLeading cs true "9223372036854775809".toList ∧
      leadingSigned cs = -2 ^ 63 ∧ leadingUnsigned cs = 2 ^ 63 := by
  intro cs
  have h : HasLeading cs true "9223372036854775809".toList := hasLeading_iff.2 (by decide)
  obtain ⟨hsigned, hunsigned⟩ := (leading_clamped cs).2.1 _ _ h
  exact ⟨h, hsigned.trans (by decide), hunsigned.trans (by decide)⟩

end TaggedBuffer.Text
