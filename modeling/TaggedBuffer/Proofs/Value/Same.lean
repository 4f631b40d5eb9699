import TaggedBuffer.Value.Compare

namespace TaggedBuffer

open Floating

namespace Floating.Number

/-- Both zeros of any exponent as one number. -/
def unsigned : Number → Number
  | .finite _ 0 _ => .finite false 0 0
  | x => x

theorem same_iff {f : Format} {a b : Nat} :
    same f a b = true ↔ f.decode a ≠ .nan ∧ (f.decode a).unsigned = (f.decode b).unsigned := by
  unfold same
  generalize f.decode a = x
  generalize f.decode b = y
  cases x with
  | nan => simp
  | infinity n =>
    cases y with
    | nan => simp [unsigned]
    | infinity m => simp [unsigned]
    | finite m k q => cases k <;> simp [unsigned]
  | finite n k q =>
    cases k with
    | zero =>
      cases y with
      | nan => simp [unsigned]
      | infinity m => simp [unsigned]
      | finite m k q => cases k <;> simp [unsigned]
    | succ k =>
      cases y with
      | nan => simp [unsigned]
      | infinity m => simp [unsigned]
      | finite m k q => cases k <;> simp [unsigned]

theorem unsigned_eq_nan_iff {x : Number} : x.unsigned = .nan ↔ x = .nan := by
  cases x with
  | nan => simp [unsigned]
  | infinity n => simp [unsigned]
  | finite n k q => cases k <;> simp [unsigned]

theorem same_symm {f : Format} {a b : Nat} (h : same f a b = true) : same f b a = true := by
  obtain ⟨hn, he⟩ := same_iff.1 h
  refine same_iff.2 ⟨fun hb => hn ?_, he.symm⟩
  rwa [← unsigned_eq_nan_iff, he, unsigned_eq_nan_iff]

theorem same_trans {f : Format} {a b c : Nat} (h : same f a b = true) (h' : same f b c = true) :
    same f a c = true := by
  obtain ⟨hn, he⟩ := same_iff.1 h
  exact same_iff.2 ⟨hn, he.trans (same_iff.1 h').2⟩

end Floating.Number

namespace Value

def IsNan : Value → Prop
  | float bits => single.decode bits.toNat = .nan
  | double bits => Floating.double.decode bits.toNat = .nan
  | _ => False

theorem same_float {v : Value} {bits : BitVec 32} : v.same (float bits) = true ↔
    ∃ bits', v = float bits' ∧ Number.same single bits'.toNat bits.toNat = true := by
  cases v <;> simp [same]

theorem same_double {v : Value} {bits : BitVec 64} : v.same (double bits) = true ↔
    ∃ bits', v = double bits' ∧ Number.same Floating.double bits'.toNat bits.toNat = true := by
  cases v <;> simp [same]

theorem same_of_not_floating {v w : Value} (h : w.type.isFloating = false) :
    v.same w = true ↔ v = w := by
  cases w with
  | float bits => cases h
  | double bits => cases h
  | _ => simp [same]

theorem same_self (v : Value) : v.same v = true ↔ ¬ v.IsNan := by
  cases v with
  | float bits => simp [same, Number.same_iff, IsNan]
  | double bits => simp [same, Number.same_iff, IsNan]
  | _ => simp [same, IsNan]

theorem same_symm {v w : Value} (h : v.same w = true) : w.same v = true := by
  cases w with
  | float bits =>
    obtain ⟨bits', rfl, hs⟩ := same_float.1 h
    exact Number.same_symm hs
  | double bits =>
    obtain ⟨bits', rfl, hs⟩ := same_double.1 h
    exact Number.same_symm hs
  | _ =>
    obtain rfl := (same_of_not_floating rfl).1 h
    exact h

theorem same_trans {u v w : Value} (h : u.same v = true) (h' : v.same w = true) :
    u.same w = true := by
  cases w with
  | float bits =>
    obtain ⟨bits', rfl, hs'⟩ := same_float.1 h'
    obtain ⟨bits'', rfl, hs⟩ := same_float.1 h
    exact Number.same_trans hs hs'
  | double bits =>
    obtain ⟨bits', rfl, hs'⟩ := same_double.1 h'
    obtain ⟨bits'', rfl, hs⟩ := same_double.1 h
    exact Number.same_trans hs hs'
  | _ =>
    obtain rfl := (same_of_not_floating rfl).1 h'
    exact h

end Value

end TaggedBuffer
