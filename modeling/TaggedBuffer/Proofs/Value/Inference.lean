import TaggedBuffer.Proofs.Text.Grammar
import TaggedBuffer.Proofs.Value.Printed

namespace TaggedBuffer

namespace Text

theorem looksNumeric_of_isInteger {cs : List Char} {v : Int} (h : IsInteger cs v) :
    looksNumeric cs = true := by
  rw [looksNumeric, Bool.and_eq_true, List.any_eq_true, List.all_eq_true]
  refine ⟨h.exists_digit, fun c hc => ?_⟩
  rcases h.mem hc with rfl | rfl | hd
  · rfl
  · rfl
  · simp [hd]

end Text

namespace Value

open Text (trim IsPaddedInteger)

variable {s : String} {t : IntType} {w : Value}

theorem parse_integer_eq (t : IntType) (s : String) :
    parse (.integer t) s = (utf8 s).tryRange t (.integer t) >>= fun bits => .ok (integer t bits) :=
  rfl

theorem parse_integer_ok_iff : parse (.integer t) s = .ok w ↔
    ∃ bits, IsPaddedInteger s.toList (t.toInt bits) ∧ w = integer t bits := by
  rw [parse_integer_eq, bind_eq_ok]
  refine exists_congr fun bits => ?_
  rw [tryRange_utf8_ok_iff, Text.integer?_trim_iff, Except.ok.injEq, eq_comm]

theorem infer_cases (s : String) :
    (∃ bits, infer s = integer .int64 bits ∧
      Text.integer? (trim s.toList) = some (IntType.int64.toInt bits)) ∨
    (∃ bits, infer s = double bits) ∨ infer s = utf8 s := by
  unfold infer
  dsimp only
  split
  · split
    next bits hbits =>
      obtain ⟨n, hn, hrange⟩ := Option.bind_eq_some_iff.1 hbits
      rw [IntType.ofInt?_eq_some_iff] at hrange
      exact .inl ⟨bits, rfl, by rw [hn, hrange]⟩
    next =>
      split
      · exact .inr (.inl ⟨_, rfl⟩)
      · exact .inr (.inr rfl)
  · exact .inr (.inr rfl)

theorem infer_eq_integer_iff {bits : BitVec IntType.int64.bits} :
    infer s = integer .int64 bits ↔ IsPaddedInteger s.toList (IntType.int64.toInt bits) := by
  rw [← Text.integer?_trim_iff]
  constructor
  · intro h
    rcases infer_cases s with ⟨bits', hbits', hread⟩ | ⟨bits', hbits'⟩ | htext
    · rw [h, Value.integer.injEq] at hbits'
      obtain ⟨-, rfl⟩ := hbits'
      exact hread
    · rw [h] at hbits'
      cases hbits'
    · rw [h] at htext
      cases htext
  · intro h
    have hlooks := Text.looksNumeric_of_isInteger (Text.isInteger_iff.2 h)
    have hbits : IntType.int64.ofInt? (IntType.int64.toInt bits) = some bits :=
      IntType.ofInt?_toInt _ _
    simp only [infer, hlooks, if_true, h, Option.bind_some, hbits]

/-- A text is read as an integer of a type just if it writes one of its range between blanks. The
guess is an integer just where it is one of 64 bits, and a guess that is no number is the text as it
is. -/
theorem parse_infer_integers :
    (∀ s t w, parse (.integer t) s = .ok w ↔ ∃ n, IsPaddedInteger s.toList n ∧
      t.lowest ≤ n ∧ n ≤ t.highest ∧ w = integer t (BitVec.ofInt t.bits n)) ∧
    (∀ s bits, infer s = integer .int64 bits ↔
      parse (.integer .int64) s = .ok (integer .int64 bits)) ∧
    (∀ s, (∃ bits, infer s = integer .int64 bits) ∨ (∃ bits, infer s = double bits) ∨
      infer s = text .utf8 s.toByteArray) ∧
    ∀ bits, infer (integer .int64 bits).display = integer .int64 bits ∧
      parse (.integer .int64) (integer .int64 bits).display = .ok (integer .int64 bits) := by
  have hagree : ∀ s bits, infer s = integer .int64 bits ↔
      parse (.integer .int64) s = .ok (integer .int64 bits) := by
    intro s bits
    rw [infer_eq_integer_iff, parse_integer_ok_iff]
    constructor
    · intro h
      exact ⟨bits, h, rfl⟩
    · rintro ⟨bits', h, hbits⟩
      rw [Value.integer.injEq] at hbits
      obtain ⟨-, rfl⟩ := hbits
      exact h
  refine ⟨fun s t w => ?_, hagree, fun s => ?_, fun bits => ?_⟩
  · rw [parse_integer_ok_iff]
    constructor
    · rintro ⟨bits, h, rfl⟩
      obtain ⟨hlo, hhi⟩ := t.toInt_bounds bits
      exact ⟨_, h, hlo, hhi, by rw [t.ofInt_toInt]⟩
    · rintro ⟨n, h, hlo, hhi, rfl⟩
      exact ⟨_, by rwa [IntType.toInt_ofInt ⟨hlo, hhi⟩], rfl⟩
  · exact (infer_cases s).imp_left fun ⟨bits, hbits, _⟩ => ⟨bits, hbits⟩
  · exact ⟨(hagree _ bits).2 (parse_integer .int64 bits), parse_integer .int64 bits⟩

end Value

end TaggedBuffer
