import TaggedBuffer.Proofs.Text.Digits
import TaggedBuffer.Value.Strict

namespace TaggedBuffer.Value

variable {v : Value} {t : IntType} {target : ValueType}

theorem getD_map_ok_iff {α : Type} {o : Option α} {e : Error} {a : α} :
    (o.map Except.ok).getD (.error e) = .ok a ↔ o = some a := by
  cases o <;> simp

theorem eq_of_getD_map_error {α : Type} {o : Option α} {e e' : Error}
    (h : (o.map Except.ok).getD (.error e) = .error e') : e' = e := by
  cases o with
  | none => exact (Except.error.inj h).symm
  | some a => cases h

theorem tryRange_ok_iff {bits : BitVec t.bits} :
    v.tryRange t target = .ok bits ↔ v.tryInt target = .ok (t.toInt bits) := by
  rw [tryRange, bind_eq_ok]
  simp only [getD_map_ok_iff, IntType.ofInt?_eq_some_iff]
  constructor
  · rintro ⟨n, hn, rfl⟩
    exact hn
  · intro h
    exact ⟨_, h, rfl⟩

theorem tryInteger_ok_iff {n : Int} : v.tryInteger t = .ok n ↔
    v.tryInt (.integer t) = .ok n ∧ t.lowest ≤ n ∧ n ≤ t.highest := by
  rw [tryInteger, bind_eq_ok]
  constructor
  · rintro ⟨bits, hbits, hn⟩
    cases hn
    exact ⟨tryRange_ok_iff.1 hbits, t.toInt_bounds bits⟩
  · rintro ⟨hn, hrange⟩
    refine ⟨BitVec.ofInt t.bits n, tryRange_ok_iff.2 ?_, ?_⟩
    · rw [IntType.toInt_ofInt hrange, hn]
    · rw [IntType.toInt_ofInt hrange]
      rfl

theorem bind_eq_error {α β : Type} {x : Except Error α} {f : α → Except Error β} {e : Error} :
    (x >>= f) = .error e ↔ x = .error e ∨ ∃ a, x = .ok a ∧ f a = .error e := by
  cases x <;> simp [bind, Except.bind]

/-- The integer is sought first, and what the type does not have is refused for it. -/
theorem tryInteger_error {e : Error} (h : v.tryInteger t = .error e) :
    v.tryInt (.integer t) = .error e ∨ e = .conversion v (.integer t) := by
  rcases bind_eq_error.1 h with hrange | ⟨_, _, hpure⟩
  · rcases bind_eq_error.1 hrange with hint | ⟨_, _, hbits⟩
    · exact .inl hint
    · exact .inr (eq_of_getD_map_error hbits)
  · cases hpure

end TaggedBuffer.Value
