import TaggedBuffer.Proofs.Text.Leading
import TaggedBuffer.Proofs.Text.Utf16
import TaggedBuffer.Proofs.Text.Utf8
import TaggedBuffer.Proofs.Value.Strict

namespace TaggedBuffer.Value

open Text (trim)

variable {v : Value} {target : ValueType}

theorem read_ok_iff {o : Option String} {e : Error} {s : String} :
    (match o with | some s => Except.ok s | none => .error e) = .ok s ↔ o = some s := by
  cases o <;> simp

theorem text?_of_tryText {s : String} (h : v.tryText = .ok s) : v.text? = some s := by
  have hread := read_ok_iff.1 h
  cases v with
  | text e content =>
    cases e with
    | unicode => exact congrArg some (Utf16.decodeLossy_of_decode? hread)
    | ascii => exact congrArg some (Utf8.decodeLossy_of_fromUTF8? hread)
    | utf8 => exact congrArg some (Utf8.decodeLossy_of_fromUTF8? hread)
  | _ => cases hread

theorem integer?_of_tryInt {e : Encoding} {content : Bytes} {n : Int}
    (h : (text e content).tryInt target = .ok n) :
    Text.integer? (trim (text e content).chars) = some n := by
  obtain ⟨s, hs, hn⟩ := bind_eq_ok.1 h
  rw [chars, text?_of_tryText hs]
  exact (Text.integer128?_eq_some_iff.1 (getD_map_ok_iff.1 hn)).1

theorem asInt64_of_tryInt {n : Int} (hv : v.type.isFloating = false) (h : v.tryInt target = .ok n)
    (hlo : -2 ^ 63 ≤ n) (hhi : n ≤ 2 ^ 63 - 1) : v.asInt64 = n := by
  have hmod : n.bmod (2 ^ 64) = n := Int.bmod_eq_of_le (by omega) (by omega)
  cases v with
  | unknown | guid | binary => cases h
  | float | double => cases hv
  | bool | integer | pointer =>
    cases h
    exact hmod
  | text e content => exact Text.leadingSigned_of_integer? (integer?_of_tryInt h) hlo hhi

theorem asUInt64_of_tryInt {n : Int} (hv : v.type.isFloating = false) (h : v.tryInt target = .ok n)
    (hlo : 0 ≤ n) (hhi : n ≤ 2 ^ 64 - 1) : v.asUInt64 = n := by
  have hmod : n % 2 ^ 64 = n := Int.emod_eq_of_lt hlo (by omega)
  cases v with
  | unknown | guid | binary => cases h
  | float | double => cases hv
  | bool | integer | pointer =>
    cases h
    exact hmod
  | text e content => exact Text.leadingUnsigned_of_integer? (integer?_of_tryInt h) hlo hhi

theorem asInt64_of_tryInteger {n : Int} (hv : v.type.isFloating = false)
    (h : v.tryInteger .int64 = .ok n) : v.asInt64 = n := by
  obtain ⟨hn, hlo, hhi⟩ := tryInteger_ok_iff.1 h
  exact asInt64_of_tryInt hv hn hlo hhi

theorem asUInt64_of_tryInteger {n : Int} (hv : v.type.isFloating = false)
    (h : v.tryInteger .uint64 = .ok n) : v.asUInt64 = n := by
  obtain ⟨hn, hlo, hhi⟩ := tryInteger_ok_iff.1 h
  exact asUInt64_of_tryInt hv hn hlo hhi

/-- The narrow integers are cut from the wide ones, which changes nothing in range. -/
theorem asInt32_of_tryInteger {n : Int} (hv : v.type.isFloating = false)
    (h : v.tryInteger .int32 = .ok n) : v.asInt32 = n := by
  obtain ⟨hn, hlo, hhi⟩ := tryInteger_ok_iff.1 h
  have hlo' : -2 ^ 31 ≤ n := hlo
  have hhi' : n ≤ 2 ^ 31 - 1 := hhi
  rw [asInt32, asInt64_of_tryInt hv hn (by omega) (by omega)]
  exact Int.bmod_eq_of_le (by omega) (by omega)

theorem asUInt32_of_tryInteger {n : Int} (hv : v.type.isFloating = false)
    (h : v.tryInteger .uint32 = .ok n) : v.asUInt32 = n := by
  obtain ⟨hn, hlo, hhi⟩ := tryInteger_ok_iff.1 h
  have hlo' : 0 ≤ n := hlo
  have hhi' : n ≤ 2 ^ 32 - 1 := hhi
  rw [asUInt32, asUInt64_of_tryInt hv hn hlo' (by omega)]
  exact Int.emod_eq_of_lt hlo' (by omega)

theorem leadingSigned_of_false {cs : List Char}
    (h : cs.map Char.toLower = "false".toList ∨ cs = ['0']) : Text.leadingSigned cs = 0 := by
  rcases h with h | rfl
  · obtain ⟨c, cs, rfl, hc, -⟩ := List.map_eq_cons_iff.1 h
    exact Text.leadingSigned_of_isAlpha (Text.isAlpha_of_toLower (hc ▸ by decide)) cs
  · decide

theorem ne_zero_of_answer {n : Int} {e : Error} {b : Bool}
    (h : (match Except.ok (ε := Error) n with
      | .ok 0 => .ok false
      | .ok 1 => .ok true
      | _ => .error e) = Except.ok b) : decide (n ≠ 0) = b := by
  split at h
  next h0 => cases h0; cases h; rfl
  next h1 => cases h1; cases h; rfl
  next => cases h

theorem asBool_of_tryBool {b : Bool} (hv : v.type.isFloating = false) (h : v.tryBool = .ok b) :
    v.asBool = b := by
  cases v with
  | unknown | guid | binary => cases h
  | float | double => cases hv
  | bool => cases h; rfl
  | integer t bits => exact ne_zero_of_answer h
  | pointer address => exact ne_zero_of_answer h
  | text e content =>
    obtain ⟨s, hs, hb⟩ := bind_eq_ok.1 h
    rw [asBool, text?_of_tryText hs]
    dsimp only at hb ⊢
    split at hb
    next htrue =>
      cases hb
      rcases htrue with hword | hone
      · simp [hword]
      · have hdigit : Text.leadingSigned ['1'] ≠ 0 := by decide
        simp [hone, hdigit]
    next hnot =>
      split at hb
      next hfalse =>
        cases hb
        rw [not_or] at hnot
        rw [decide_eq_false hnot.1, leadingSigned_of_false hfalse]
        rfl
      next => cases hb

/-- On any value that is not floating, whatever its bytes are, the integers of 64 and 32 bits, the truth
value and the text that a strict conversion gives are those of the lenient one. -/
theorem strict_refines {v : Value} (hv : v.type.isFloating = false) :
    (∀ n, v.tryInteger .int64 = .ok n → v.asInt64 = n) ∧
    (∀ n, v.tryInteger .uint64 = .ok n → v.asUInt64 = n) ∧
    (∀ n, v.tryInteger .int32 = .ok n → v.asInt32 = n) ∧
    (∀ n, v.tryInteger .uint32 = .ok n → v.asUInt32 = n) ∧
    (∀ b, v.tryBool = .ok b → v.asBool = b) ∧
    ∀ s, v.tryText = .ok s → v.text? = some s :=
  ⟨fun _ => asInt64_of_tryInteger hv, fun _ => asUInt64_of_tryInteger hv,
    fun _ => asInt32_of_tryInteger hv, fun _ => asUInt32_of_tryInteger hv,
    fun _ => asBool_of_tryBool hv, fun _ => text?_of_tryText⟩

theorem tryText_unicode (s : String) : (text .unicode (Utf16.encode s)).tryText = .ok s := by
  simp only [tryText, Utf16.decode?_encode]

/-- The largest unsigned integer, in UTF-16 with a sign, a leading zero and blanks around it. -/
theorem strict_refines_largest :
    let v := text .unicode (Utf16.encode "\u00a0+018446744073709551615\n")
    v.type.isFloating = false ∧ v.tryInteger .uint64 = .ok 18446744073709551615 ∧
      v.asUInt64 = 18446744073709551615 := by
  have hread : (text .unicode (Utf16.encode "\u00a0+018446744073709551615\n")).tryInteger .uint64 =
      .ok 18446744073709551615 := by
    refine tryInteger_ok_iff.2 ⟨bind_eq_ok.2 ⟨_, tryText_unicode _, getD_map_ok_iff.2 ?_⟩, by decide⟩
    decide +kernel
  exact ⟨rfl, hread, (strict_refines rfl).2.1 _ hread⟩

end TaggedBuffer.Value
