import TaggedBuffer.Proofs.Floating.Exact
import TaggedBuffer.Proofs.Value.Strict

namespace TaggedBuffer.Value

open Floating

def rational? : Value → Option Rat
  | float bits => single.value? bits.toNat
  | double bits => Floating.double.value? bits.toNat
  | _ => none

variable {v : Value} {t : IntType} {z : Int}

theorem integral?_decode {f : Format} (hp : 0 < f.precision) {bits : Nat} :
    integral? (f.decode bits) = some z ↔
      f.value? bits = some (z : Rat) ∧ z.natAbs < integralLimit := by
  rw [← Format.toRat?_decode hp, ← Number.integer?_eq_some_iff, integral?]
  cases (f.decode bits).integer? with
  | none => simp
  | some n =>
    simp only [Option.ite_none_right_eq_some, Option.some.injEq]
    constructor
    · rintro ⟨hn, rfl⟩
      exact ⟨rfl, hn⟩
    · rintro ⟨rfl, hn⟩
      exact ⟨hn, rfl⟩

theorem tryInt_ok_iff_exact (hv : v.type.isFloating = true) {target : ValueType} :
    v.tryInt target = .ok z ↔ v.rational? = some (z : Rat) ∧ z.natAbs < integralLimit := by
  cases v with
  | float bits => exact getD_map_ok_iff.trans (integral?_decode (by decide))
  | double bits => exact getD_map_ok_iff.trans (integral?_decode (by decide))
  | _ => cases hv

theorem tryInteger_ok_iff_exact (hv : v.type.isFloating = true) : v.tryInteger t = .ok z ↔
    v.rational? = some (z : Rat) ∧ t.lowest ≤ z ∧ z ≤ t.highest ∧ z.natAbs < integralLimit := by
  rw [tryInteger_ok_iff, tryInt_ok_iff_exact hv]
  constructor
  · rintro ⟨⟨hz, hlimit⟩, hlo, hhi⟩
    exact ⟨hz, hlo, hhi, hlimit⟩
  · rintro ⟨hz, hlo, hhi, hlimit⟩
    exact ⟨⟨hz, hlimit⟩, hlo, hhi⟩

theorem tryInt_refusal (hv : v.type.isFloating = true) {target : ValueType} {e : Error}
    (h : v.tryInt target = .error e) : e = .conversion v target := by
  cases v with
  | float | double => exact eq_of_getD_map_error h
  | _ => cases hv

theorem tryInteger_refusal (hv : v.type.isFloating = true) {e : Error}
    (h : v.tryInteger t = .error e) : e = .conversion v (.integer t) := by
  rcases tryInteger_error h with hint | he
  · exact tryInt_refusal hv hint
  · exact he

/-- The limit lies below the lowest integers of all types, so it only bounds from above. -/
theorem tryInteger_ok_iff_range (hv : v.type.isFloating = true) {lo hi : Int} (hlo : t.lowest = lo)
    (hhi : min (t.highest + 1) 18000000000000000000 = hi) :
    v.tryInteger t = .ok z ↔ v.rational? = some (z : Rat) ∧ lo ≤ z ∧ z < hi := by
  have hlowest : -2 ^ 63 ≤ t.lowest := by cases t <;> decide
  rw [tryInteger_ok_iff_exact hv, integralLimit]
  refine and_congr_right fun _ => ?_
  omega

/-- A floating value is taken for an integer just if it is exactly that integer and the type has it,
where unsigned integers of 64 bits only count below 18·10^18. -/
theorem tryInteger_exact (hv : v.type.isFloating = true) :
    (∀ z, v.tryInteger .int64 = .ok z ↔ v.rational? = some (z : Rat) ∧ -2 ^ 63 ≤ z ∧ z < 2 ^ 63) ∧
    (∀ z, v.tryInteger .uint64 = .ok z ↔
      v.rational? = some (z : Rat) ∧ 0 ≤ z ∧ z < 18000000000000000000) ∧
    (∀ z, v.tryInteger .int32 = .ok z ↔ v.rational? = some (z : Rat) ∧ -2 ^ 31 ≤ z ∧ z < 2 ^ 31) ∧
    (∀ z, v.tryInteger .uint32 = .ok z ↔ v.rational? = some (z : Rat) ∧ 0 ≤ z ∧ z < 2 ^ 32) ∧
    ∀ t, (∀ z, v.tryInteger t ≠ .ok z) → v.tryInteger t = .error (.conversion v (.integer t)) := by
  refine ⟨fun _ => tryInteger_ok_iff_range hv rfl (by decide),
    fun _ => tryInteger_ok_iff_range hv rfl (by decide),
    fun _ => tryInteger_ok_iff_range hv rfl (by decide),
    fun _ => tryInteger_ok_iff_range hv rfl (by decide), fun t h => ?_⟩
  cases hread : v.tryInteger t with
  | ok z => exact (h z hread).elim
  | error e => rw [tryInteger_refusal hv hread]

theorem tryInteger_exact_lowest :
    (double 0xC3E0000000000000#64).type.isFloating = true ∧
      (double 0xC3E0000000000000#64).tryInteger .int64 = .ok (-2 ^ 63) := by
  have hvalue : (double 0xC3E0000000000000#64).rational? = some ((-2 ^ 63 : Int) : Rat) := by
    decide +kernel
  exact ⟨rfl, ((tryInteger_exact rfl).1 _).2 ⟨hvalue, by decide⟩⟩

/-- The double 18·10^18 is an integer below 2^64, which the lenient reading gives and the strict one
refuses. -/
theorem tryInteger_gap :
    let v := double 0x43EF399B1438A100#64
    v.rational? = some ((18000000000000000000 : Int) : Rat) ∧ (18000000000000000000 : Int) < 2 ^ 64 ∧
      v.asUInt64 = 18000000000000000000 ∧
      v.tryInteger .uint64 = .error (.conversion v (.integer .uint64)) := by
  exact ⟨by decide +kernel, by decide, by decide +kernel, rfl⟩

end TaggedBuffer.Value
