import TaggedBuffer.Text.Integer
import TaggedBuffer.ValueType.Basic

namespace TaggedBuffer

namespace Text

theorem isBlank_eq_false {c : Char} (hlo : 0x20 < c.toNat) (hhi : c.toNat < 0x85) :
    isBlank c = false := by
  simp only [isBlank, blankRanges, List.any_cons, List.any_nil, Bool.or_false, Bool.or_eq_false_iff,
    Bool.and_eq_false_iff, decide_eq_false_iff_not]
  omega

theorem dropWhile_isBlank_eq_self {cs : List Char} (h : ∀ c ∈ cs, isBlank c = false) :
    cs.dropWhile isBlank = cs := by
  cases cs with
  | nil => rfl
  | cons c cs => rw [List.dropWhile_cons_of_neg (by simp [h c (.head _)])]

theorem trimEnd_eq_self {cs : List Char} (h : ∀ c ∈ cs, isBlank c = false) : trimEnd cs = cs := by
  rw [trimEnd, dropWhile_isBlank_eq_self fun c hc => h c (List.mem_reverse.1 hc),
    List.reverse_reverse]

theorem trim_eq_self {cs : List Char} (h : ∀ c ∈ cs, isBlank c = false) : trim cs = cs := by
  rw [trim, trimStart, dropWhile_isBlank_eq_self h, trimEnd_eq_self h]

theorem toNat_of_isDigit {c : Char} (h : c.isDigit = true) : 48 ≤ c.toNat ∧ c.toNat ≤ 57 := by
  simpa [Char.isDigit, UInt32.le_iff_toNat_le] using h

theorem splitSign_of_digits {cs : List Char} (h : cs.all Char.isDigit = true) :
    splitSign cs = (false, cs) := by
  unfold splitSign
  split
  · simp [Char.isDigit] at h
  · simp [Char.isDigit] at h
  · rfl

theorem isAlphanum_of_isDigit {c : Char} (h : c.isDigit = true) : c.isAlphanum = true := by
  rw [Char.isAlphanum, h, Bool.or_true]

theorem isAlphanum_of_isAlpha {c : Char} (h : c.isAlpha = true) : c.isAlphanum = true := by
  rw [Char.isAlphanum, h, Bool.true_or]

theorem splitSign_of_isAlphanum {c : Char} (h : c.isAlphanum = true) (cs : List Char) :
    splitSign (c :: cs) = (false, c :: cs) := by
  unfold splitSign
  split
  next heq => cases heq; cases h
  next heq => cases heq; cases h
  next => rfl

theorem toDigits_all_isDigit (n : Nat) : (Nat.toDigits 10 n).all Char.isDigit = true :=
  List.all_eq_true.2 fun _ hc => Nat.isDigit_of_mem_toDigits (by decide) (by decide) hc

theorem isAlphanum_of_mem_toDigits {b n : Nat} {c : Char} (hb : 1 < b) (hb' : b ≤ 16)
    (h : c ∈ Nat.toDigits b n) : c.isAlphanum = true := by
  have hdigit : ∀ d < 16, (Nat.digitChar d).isAlphanum = true := by decide
  induction n using Nat.strongRecOn with
  | ind n ih =>
    by_cases hlt : n < b
    · rw [Nat.toDigits_of_lt_base hlt, List.mem_singleton] at h
      rw [h]
      exact hdigit n (by omega)
    · have hmod : n % b < b := Nat.mod_lt n (by omega)
      have hdiv : n / b < n := Nat.div_lt_self (by omega) hb
      have hpos : 0 < n / b := Nat.div_pos (by omega) (by omega)
      have hsplit := Nat.toDigits_append_toDigits hb hpos hmod
      rw [Nat.div_add_mod, Nat.toDigits_of_lt_base hmod] at hsplit
      rw [← hsplit, List.mem_append, List.mem_singleton] at h
      rcases h with h | rfl
      · exact ih (n / b) hdiv h
      · exact hdigit (n % b) (by omega)

theorem digitsValue_toDigits (n : Nat) : digitsValue (Nat.toDigits 10 n) = n := by
  rw [digitsValue_eq, Nat.ofDigitChars_toDigits (by decide) (by decide)]

theorem splitSign_integerChars (v : Int) :
    splitSign (integerChars v) = (decide (v < 0), Nat.toDigits 10 v.natAbs) := by
  rw [integerChars]
  split
  next h => simp [splitSign, h]
  next h => rw [splitSign_of_digits (toDigits_all_isDigit _), decide_eq_false h]

theorem integer?_integerChars (v : Int) : integer? (integerChars v) = some v := by
  have hdigits : Nat.toDigits 10 v.natAbs ≠ [] ∧ (Nat.toDigits 10 v.natAbs).all Char.isDigit = true :=
    ⟨Nat.toDigits_ne_nil, toDigits_all_isDigit _⟩
  rw [integer?, splitSign_integerChars]
  simp only [if_pos hdigits, digitsValue_toDigits, signed, decide_eq_true_eq, Option.some.injEq]
  split <;> omega

theorem mem_integerChars {v : Int} {c : Char} (h : c ∈ integerChars v) :
    c = '-' ∨ c.isDigit = true := by
  have hdigit : ∀ {n}, c ∈ Nat.toDigits 10 n → c.isDigit = true := fun hc =>
    Nat.isDigit_of_mem_toDigits (by decide) (by decide) hc
  rw [integerChars] at h
  split at h
  · rcases List.mem_cons.1 h with rfl | hc
    · exact .inl rfl
    · exact .inr (hdigit hc)
  · exact .inr (hdigit h)

end Text

namespace IntType

theorem toInt_bounds (t : IntType) (bits : BitVec t.bits) :
    t.lowest ≤ t.toInt bits ∧ t.toInt bits ≤ t.highest := by
  rw [lowest, highest, toInt]
  split
  · exact ⟨BitVec.le_toInt bits, Int.le_sub_one_of_lt BitVec.toInt_lt⟩
  · have hlt := bits.isLt
    refine ⟨Int.natCast_nonneg _, ?_⟩
    apply Int.le_sub_one_of_lt
    exact_mod_cast hlt

theorem toInt_within_128 (t : IntType) (bits : BitVec t.bits) :
    -2 ^ 127 ≤ t.toInt bits ∧ t.toInt bits < 2 ^ 127 := by
  have hlo : -2 ^ 127 ≤ t.lowest := by cases t <;> decide
  have hhi : t.highest < 2 ^ 127 := by cases t <;> decide
  have hbounds := t.toInt_bounds bits
  omega

theorem ofInt_toInt (t : IntType) (bits : BitVec t.bits) :
    BitVec.ofInt t.bits (t.toInt bits) = bits := by
  rw [toInt]
  split
  · rw [BitVec.ofInt_toInt]
  · rw [BitVec.ofInt_natCast, BitVec.ofNat_toNat, BitVec.setWidth_eq]

theorem ofInt?_toInt (t : IntType) (bits : BitVec t.bits) : t.ofInt? (t.toInt bits) = some bits := by
  rw [ofInt?, if_pos (t.toInt_bounds bits), ofInt_toInt]

theorem toInt_ofInt {t : IntType} {v : Int} (h : t.lowest ≤ v ∧ v ≤ t.highest) :
    t.toInt (BitVec.ofInt t.bits v) = v := by
  have hpos : 0 < t.bits := by cases t <;> decide
  have hhalf : (2 : Int) ^ t.bits = 2 * 2 ^ (t.bits - 1) := by cases t <;> rfl
  rw [lowest, highest] at h
  rw [toInt]
  split
  next hs =>
    rw [if_pos hs, if_pos hs] at h
    rw [BitVec.toInt_ofInt]
    apply Int.bmod_eq_of_le <;> push_cast <;> omega
  next hs =>
    rw [if_neg hs, if_neg hs] at h
    have hne : ((2 ^ t.bits : Nat) : Int) ≠ 0 := Int.natCast_ne_zero.2 (Nat.ne_of_gt (Nat.two_pow_pos _))
    rw [BitVec.toNat_ofInt, Int.toNat_of_nonneg (Int.emod_nonneg _ hne)]
    apply Int.emod_eq_of_lt h.1
    push_cast
    omega

theorem ofInt?_eq_some_iff {t : IntType} {v : Int} {bits : BitVec t.bits} :
    t.ofInt? v = some bits ↔ t.toInt bits = v := by
  constructor
  · intro h
    rw [ofInt?] at h
    split at h
    next hv =>
      cases h
      exact toInt_ofInt hv
    next => cases h
  · rintro rfl
    exact t.ofInt?_toInt bits

end IntType

end TaggedBuffer
