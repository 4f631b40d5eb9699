import TaggedBuffer.Proofs.Buffer.Canonical
import TaggedBuffer.Proofs.World.Mirror

namespace TaggedBuffer

open Content

/-- The step takes in well formed values and no bytes as they are. -/
def Step.IsFresh : Step → Prop
  | create _ _ maker => maker.WellFormed ∧ maker.IsFresh
  | call _ c => c.WellFormed
  | _ => True

theorem Step.IsFresh.allowed {s : Step} (h : s.IsFresh) : s.Allowed Canonical Value.WellFormed := by
  cases s with
  | create name flavor maker => exact ⟨h.1, .inl h.2⟩
  | call name c => exact h
  | _ => exact trivial

theorem canonical_of_run {steps : List Step} (h : ∀ s ∈ steps, s.IsFresh) {name : String} {v : Seen}
    (hv : (World.empty.run steps).2.seen? name = some v) : Canonical v.content := by
  have hw := (Mirrors.empty.run canonical_closed fun s hs => (h s hs).allowed).2
  exact hw.holds hv

theorem history_unseen {steps steps' : List Step} (h : ∀ s ∈ steps, s.IsFresh)
    (h' : ∀ s ∈ steps', s.IsFresh) :
    (∀ (name : String) (v : Seen), (World.empty.run steps).2.seen? name = some v →
      v.content = encoded ((entries v.content).map Entry.pair)) ∧
    ∀ (name name' : String) (v v' : Seen), (World.empty.run steps).2.seen? name = some v →
      (World.empty.run steps').2.seen? name' = some v' →
      (entries v.content).map Entry.pair = (entries v'.content).map Entry.pair →
      v.content = v'.content := by
  have hcanonical : ∀ {steps}, (∀ s ∈ steps, Step.IsFresh s) → ∀ (name : String) (v : Seen),
      (World.empty.run steps).2.seen? name = some v →
      v.content = encoded ((entries v.content).map Entry.pair) :=
    fun h _ _ hv => (canonical_of_run h hv).eq_encoded
  refine ⟨hcanonical h, fun name name' v v' hv hv' hpairs => ?_⟩
  calc v.content = encoded ((entries v.content).map Entry.pair) := hcanonical h name v hv
    _ = encoded ((entries v'.content).map Entry.pair) := by rw [hpairs]
    _ = v'.content := (hcanonical h' name' v' hv').symm

/-- A clone that something was added to and a region full of old bytes, filled by one call. -/
theorem history_unseen_clone :
    let steps : List Step := [.create "a" .shared .new, .call "a" (.edit (.append none (.bool true))),
      .clone "a" "b", .call "b" (.edit (.append none .unknown))]
    let steps' : List Step := [.lend "c" ⟨.replicate 40 255⟩,
      .call "c" (.edit (.appendMany [.bool true, .unknown]))]
    ∃ v v', (World.empty.run steps).2.seen? "b" = some v ∧
      (World.empty.run steps').2.seen? "c" = some v' ∧
      (entries v.content).map Entry.pair = [(none, .bool true), (none, .unknown)] ∧
      v.content = v'.content := by
  intro steps steps'
  have hfresh : ∀ s ∈ steps, s.IsFresh := by
    simp [steps, Step.IsFresh, Maker.IsFresh, Maker.WellFormed, Maker.values, Call.WellFormed,
      Call.values, Edit.values, Value.WellFormed]
  have hfresh' : ∀ s ∈ steps', s.IsFresh := by
    simp [steps', Step.IsFresh, Call.WellFormed, Call.values, Edit.values, Value.WellFormed]
  have hstorable : ∀ pair ∈ [(none, Value.bool true), (none, .unknown)], Storable pair := by
    rintro _ (_ | ⟨_, _ | ⟨_, ⟨⟩⟩⟩)
    · exact ⟨trivial, rfl⟩
    · exact ⟨trivial, rfl⟩
  have hpairs := map_pair_entries (packed_encoded hstorable)
  have hb : ((World.empty.run steps).2.seen? "b").map Seen.content =
      some (encoded [(none, .bool true), (none, .unknown)]) := by decide +kernel
  have hc : ((World.empty.run steps').2.seen? "c").map Seen.content =
      some (encoded [(none, .bool true), (none, .unknown)]) := by decide +kernel
  obtain ⟨v, hv, hvc⟩ := Option.map_eq_some_iff.1 hb
  obtain ⟨v', hv', hvc'⟩ := Option.map_eq_some_iff.1 hc
  refine ⟨v, v', hv, hv', ?_, (history_unseen hfresh hfresh').2 "b" "c" v v' hv hv' ?_⟩
  · rw [hvc, hpairs]
  · rw [hvc, hvc']

end TaggedBuffer
