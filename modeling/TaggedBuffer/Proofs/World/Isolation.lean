import TaggedBuffer.Proofs.World.Mirror

namespace TaggedBuffer

namespace Pool

def onBlock (p : Pool) : Option Nat → Nat
  | some id => p.count id
  | none => 0

variable {p : Pool} {name : String} {s : Shared}

theorem Valid.holders_eq (hv : p.Valid) (hs : p.view? name = some s) : s.holders = p.onBlock s.id := by
  obtain ⟨o, ho, rfl⟩ := Option.map_eq_some_iff.1 hs
  cases o with
  | none => rfl
  | some id =>
    obtain ⟨b, hb, hn⟩ := hv.counted.present (count_pos ho)
    simpa [Shared.holders, Shared.block?, onBlock, hb] using hn

theorem Valid.isOwner_iff (hv : p.Valid) (hs : p.view? name = some s) :
    Store.isOwner s = true ↔ p.onBlock s.id = 1 := by
  rw [← hv.holders_eq hs]
  exact decide_eq_true_iff

end Pool

theorem Shared.sharesWith_iff {a b : Option Nat} :
    sharesWith a b = true ↔ ∃ id, a = some id ∧ b = some id := by
  cases a <;> cases b <;> simp [sharesWith, eq_comm]

namespace World

variable {name other : String}

theorem local?_make_ne (h : other ≠ name) (w : World) (flavor : Flavor)
    (f : {σ : Type} → [Store σ] → Update σ Unit) :
    (w.make name flavor f).2.local? other = w.local? other := by
  have hwithout : (w.without name).local? other = w.local? other := local?_filter_ne h w.pool _ _
  cases flavor with
  | owned =>
    rw [make]
    split
    · rw [local?_putLocal_ne h, hwithout]
    · rfl
  | borrowed =>
    rw [make]
    split
    · rw [local?_putLocal_ne h, hwithout]
    · rfl
  | shared =>
    rw [make]
    split
    · exact local?_filter_ne h w.pool _ _
    · rfl

theorem local?_update_ne (h : other ≠ name) (w : World)
    (f : {σ : Type} → [Store σ] → Update σ Answer) :
    (w.update name f).2.local? other = w.local? other := by
  rw [update]
  split
  · exact local?_putLocal_ne h w _
  · exact local?_putLocal_ne h w _
  · split <;> rfl

theorem local?_clone_ne {new : String} (h : other ≠ new) (w : World) (name : String) :
    (w.clone name new).2.local? other = w.local? other := by
  rw [clone]
  split
  · rw [local?_putLocal_ne h]
    exact local?_filter_ne h w.pool _ _
  · rfl
  · split
    · exact local?_filter_ne h w.pool _ _
    · rfl

theorem local?_step_ne {s : Step} (h : other ≠ s.target) (w : World) :
    (w.step s).2.local? other = w.local? other := by
  cases s with
  | create name flavor maker => exact local?_make_ne (show other ≠ name from h) w flavor maker.run
  | lend name region =>
    have hput := local?_putLocal_ne (show other ≠ name from h) (w.without name)
      (.borrowed (Borrowed.new region))
    exact hput.trans (local?_filter_ne h w.pool _ _)
  | call name c => exact local?_update_ne h w _
  | merge name other =>
    rw [step]
    split
    · exact local?_update_ne h w _
    · rfl
  | clone name new => exact local?_clone_ne h w name
  | transfer name new flavor =>
    rw [step]
    split
    · exact local?_make_ne h w _ _
    · rfl
  | drop name => exact local?_filter_ne h w.pool _ _

end World

theorem Step.target_unshared (s : Step) : s.unshared.target = s.target := by
  cases s <;> rfl

namespace Mirrors

variable {P : Bytes → Prop} {w w' : World}

theorem seen?_mirror (h : Mirrors P w w') (name : String) :
    w'.seen? name = (w'.local? name).map Local.seen := by
  have halone : w'.pool.seen? name = none := by rw [h.alone]; rfl
  rw [World.seen?, halone]
  cases w'.local? name <;> rfl

/-- What is seen of other buffers stays, since in the mirror they share nothing. -/
theorem seen?_step_ne {ok : Value → Prop} (hP : Closed P ok) (h : Mirrors P w w') {s : Step}
    (hs : s.Allowed P ok) {name : String} (hn : name ≠ s.target) :
    (w.step s).2.seen? name = w.seen? name := by
  have hstep := (h.step hP hs).2
  have hlocal := World.local?_step_ne (s.target_unshared.symm ▸ hn) w'
  calc (w.step s).2.seen? name = (w'.step s.unshared).2.seen? name := hstep.seen?_eq name
    _ = ((w'.step s.unshared).2.local? name).map Local.seen := hstep.seen?_mirror name
    _ = (w'.local? name).map Local.seen := by rw [hlocal]
    _ = w'.seen? name := (h.seen?_mirror name).symm
    _ = w.seen? name := (h.seen?_eq name).symm

theorem exists_owned (h : Mirrors P w w') {name : String} {s : Shared}
    (hs : w.pool.view? name = some s) :
    w.seen? name = some (Store.seen s) ∧
      ∃ t : Owned, w'.local? name = some (.owned t) ∧ Store.seen t = Store.seen s := by
  have hpool : w.pool.seen? name = some (Store.seen s) := by rw [Pool.seen?, hs]; rfl
  rcases h.lookup name with ⟨_, -, hy, -⟩ | ⟨t, hx, hy, hz, -⟩ | ⟨-, hy, -⟩
  · cases hpool.symm.trans hy
  · have hseen := Option.some.inj (hpool.symm.trans hy)
    exact ⟨by rw [World.seen?, hx, hpool], t, hz, hseen.symm⟩
  · cases hpool.symm.trans hy

end Mirrors

theorem Step.allowed_true (s : Step) : s.Allowed (fun _ => True) (fun _ => True) := by
  cases s with
  | create => exact ⟨fun _ _ => trivial, .inr fun _ => trivial⟩
  | call => exact fun _ _ => trivial
  | _ => exact trivial

/-- In the second run each step has single handles in place of shared ones, and a clone copies. -/
theorem sharing_unseen (steps : List Step) :
    let w := (World.empty.run steps).2
    let w' := (World.empty.run (steps.map Step.unshared)).2
    (World.empty.run steps).1 = (World.empty.run (steps.map Step.unshared)).1 ∧
      (∀ name, w.seen? name = w'.seen? name) ∧
      (∀ (s : Step) (name : String), name ≠ s.target → (w.step s).2.seen? name = w.seen? name) ∧
      (w.pool.handles.map (·.1)).Nodup ∧
      ∀ (name : String) (s : Shared), w.pool.view? name = some s →
        w.seen? name = some (Store.seen s) ∧
        (∃ t : Owned, w'.local? name = some (.owned t) ∧ Store.seen t = Store.seen s) ∧
        s.holders = w.pool.onBlock s.id ∧
        (Store.isOwner s = true ↔ w.pool.onBlock s.id = 1) ∧
        ∀ (other : String) (t : Shared), w.pool.view? other = some t →
          (Shared.sharesWith s.id t.id = true ↔ ∃ id, s.id = some id ∧ t.id = some id) := by
  obtain ⟨hanswers, hw⟩ := Mirrors.empty.run closed_true fun s (_ : s ∈ steps) => s.allowed_true
  refine ⟨hanswers, hw.seen?_eq, fun s name hn => hw.seen?_step_ne closed_true s.allowed_true hn,
    hw.valid.names, fun name s hs => ?_⟩
  obtain ⟨hseen, howned⟩ := hw.exists_owned hs
  exact ⟨hseen, howned, hw.valid.holders_eq hs, hw.valid.isOwner_iff hs,
    fun _ _ _ => Shared.sharesWith_iff⟩

end TaggedBuffer
