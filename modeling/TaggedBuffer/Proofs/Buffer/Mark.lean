import TaggedBuffer.Proofs.Buffer.Noted

namespace TaggedBuffer

/-- The largest used length since the mark was set, also in the middle of a call. -/
structure Mark where
  length : Nat

/-- Only a new used length makes the used part longer. -/
instance : Note Mark where
  reserved _ _ := id
  used n mark := ⟨max mark.length n⟩

abbrev Marked (σ : Type) : Type := Noted Mark σ

def Noted.mark {σ : Type} (m : Marked σ) : Nat := m.note.length

variable {σ : Type} [Store σ]

namespace Marked

def start (s : σ) : Marked σ := ⟨s, ⟨Store.used s⟩⟩

theorem mark_setUsed (n : Nat) (m : Marked σ) :
    (Store.setUsed n m).mark = max m.mark (Store.used (Store.setUsed n m)) := rfl

theorem mark_reserve [Allocator] {m m' : Marked σ} {needed : Nat} {moved : Bool}
    (h : Store.reserve needed m = .ok moved m') : m'.mark = m.mark :=
  congrArg Mark.length (Noted.of_reserve_ok h).2

theorem mark_shrinkToFit [Allocator] {m m' : Marked σ} {u : Unit}
    (h : Store.shrinkToFit m = .ok u m') : m'.mark = m.mark :=
  congrArg Mark.length (Noted.of_lift_ok h).2

/-- How far the mark rises in a change that sets the used length once, or never to less than before. -/
theorem rises [LawfulStore σ] (n : Nat) :
    Upheld (fun m : Marked σ => m.mark = n ∧ Store.used m ≤ n)
      fun m => m.mark = max n (Store.used m) where
  le := by
    rintro m ⟨hmark, hu⟩
    rw [hmark, Nat.max_eq_left hu]
  reserve := by
    rintro m m' needed moved ⟨hmark, hu⟩ hr
    exact ⟨(mark_reserve hr).trans hmark, (Store.of_reserve_ok hr).2.1 ▸ hu⟩
  reserve' := by
    intro m m' needed moved hmark hr
    rw [mark_reserve hr, (Store.of_reserve_ok hr).2.1]
    exact hmark
  write := by
    rintro m p k new ⟨hmark, -⟩ hp hk
    rw [mark_setUsed, (Store.setUsed_overwrite hp hk).1]
    exact congrArg (max · k) hmark
  grow := by
    intro m p k new hmark hu hp hk
    rw [mark_setUsed, (Store.setUsed_overwrite hp hk).1]
    change max m.mark k = max n k
    omega
  patch := by
    intro m p new hmark hp
    rw [(Store.used_overwrite hp).1]
    exact hmark

end Marked

end TaggedBuffer
