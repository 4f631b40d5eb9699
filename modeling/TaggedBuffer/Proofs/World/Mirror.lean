import TaggedBuffer.Proofs.Buffer.Agreement
import TaggedBuffer.Proofs.World.Basic

namespace TaggedBuffer

def Flavor.unshared : Flavor → Flavor
  | shared => owned
  | f => f

/-- The same step with storage of single handles in place of shared storage. -/
def Step.unshared : Step → Step
  | create name flavor maker => create name flavor.unshared maker
  | transfer name new flavor => transfer name new flavor.unshared
  | s => s

/-- What is at a name of a world, unshared and shared, and what is there in its mirror. -/
inductive Mirror (P : Bytes → Prop) : Option Local → Option Seen → Option Local → Prop
  | same {l : Local} : P l.seen.content → Mirror P (some l) none (some l)
  | copy {t : Owned} : P (Store.content t) → Mirror P none (some (Store.seen t)) (some (.owned t))
  | none : Mirror P none none none

/-- A world and its mirror, in which nothing is shared. -/
structure Mirrors (P : Bytes → Prop) (w w' : World) : Prop where
  valid : w.pool.Valid
  alone : w'.pool = .empty
  mirror (name : String) : Mirror P (w.local? name) (w.pool.seen? name) (w'.local? name)

/-- The update does the same to storage of all kinds. -/
def Uniform (P : Bytes → Prop) {α : Type} (f : {σ : Type} → [Store σ] → Update σ α) : Prop :=
  ∀ {σ τ : Type} [Store σ] [Store τ] [LawfulStore σ] [LawfulStore τ] {Q : σ → Prop}, Stable Q →
    Matches (Agree P Q) (f : Update σ α) (f : Update τ α)

theorem Call.uniform {P : Bytes → Prop} {ok : Value → Prop} (hP : Closed P ok) {c : Call}
    (hv : ∀ v ∈ c.values, ok v) : Uniform P c.run :=
  fun hQ => c.run_agrees hP hQ hv

theorem Maker.uniform {P : Bytes → Prop} {ok : Value → Prop} (hP : Closed P ok) {m : Maker}
    (hv : ∀ v ∈ m.values, ok v) (hfresh : m.IsFresh ∨ ∀ b, P b) : Uniform P m.run :=
  fun hQ => m.run_agrees hP hQ hv hfresh

theorem Agree.seen {σ τ : Type} [Store σ] [Store τ] [LawfulStore σ] [LawfulStore τ]
    {P : Bytes → Prop} {Q : σ → Prop} {s : σ} {t : τ} (h : Agree P Q s t) :
    Store.seen s = Store.seen t := by
  rw [Store.seen, Store.seen, h.content, h.capacity, h.used]

theorem Uniform.holds {P : Bytes → Prop} {α : Type} {f : {σ : Type} → [Store σ] → Update σ α}
    (hf : Uniform P f) {σ : Type} [Store σ] [LawfulStore σ] {s : σ} (hs : P (Store.content s)) :
    P (Store.content (Update.final (f s))) :=
  (hf (Q := fun _ : σ => True) (fun _ _ _ h => h) s s ⟨rfl, rfl, hs, trivial⟩).final.holds

namespace World

@[simp] theorem local?_putLocal (w : World) (name : String) (l : Local) :
    (w.putLocal name l).local? name = some l := by
  simp [local?, putLocal]

theorem local?_putLocal_ne {name other : String} (h : other ≠ name) (w : World) (l : Local) :
    (w.putLocal name l).local? other = w.local? other := by
  have hhead : ((name, l) :: w.locals.filter (·.1 ≠ name)).find? (·.1 = other) =
      w.locals.find? (·.1 = other) := by
    rw [List.find?_cons_of_neg (by simpa using Ne.symm h), find?_filter_ne h]
  rw [local?, local?, putLocal, hhead]

theorem local?_filter_ne {name other : String} (h : other ≠ name) (pool pool' : Pool)
    (locals : List (String × Local)) : (⟨pool', locals.filter (·.1 ≠ name)⟩ : World).local? other =
      (⟨pool, locals⟩ : World).local? other := by
  rw [local?, local?, find?_filter_ne h]

theorem local?_filter_self (name : String) (pool : Pool) (locals : List (String × Local)) :
    (⟨pool, locals.filter (·.1 ≠ name)⟩ : World).local? name = none := by
  rw [local?, find?_filter_self]
  rfl

end World

namespace Mirrors

variable {P : Bytes → Prop} {w w' : World}

/-- A name is that of one storage on both sides, of a handle on one and of storage with the same content
on the other, or of nothing. -/
theorem lookup (h : Mirrors P w w') (name : String) :
    (∃ l : Local, w.local? name = some l ∧ w.pool.seen? name = none ∧ w'.local? name = some l ∧
      P l.seen.content) ∨
    (∃ t : Owned, w.local? name = none ∧ w.pool.seen? name = some (Store.seen t) ∧
      w'.local? name = some (.owned t) ∧ P (Store.content t)) ∨
    (w.local? name = none ∧ w.pool.seen? name = none ∧ w'.local? name = none) := by
  have hm := h.mirror name
  generalize w.local? name = x at hm ⊢
  generalize w.pool.seen? name = y at hm ⊢
  generalize w'.local? name = z at hm ⊢
  cases hm with
  | same hp => exact .inl ⟨_, rfl, rfl, rfl, hp⟩
  | copy hp => exact .inr (.inl ⟨_, rfl, rfl, rfl, hp⟩)
  | none => exact .inr (.inr ⟨rfl, rfl, rfl⟩)

theorem view?_eq_none (h : Mirrors P w w') (name : String) : w'.pool.view? name = none := by
  rw [h.alone]
  rfl

theorem seen?_eq (h : Mirrors P w w') (name : String) : w.seen? name = w'.seen? name := by
  rw [World.seen?, World.seen?]
  rcases h.lookup name with ⟨l, hx, -, hz, -⟩ | ⟨t, hx, hy, hz, -⟩ | ⟨hx, hy, hz⟩
  · rw [hx, hz]
  · rw [hx, hy, hz]
    rfl
  · rw [hx, hy, hz, Pool.seen?, h.view?_eq_none]
    rfl

theorem holds (h : Mirrors P w w') {name : String} {v : Seen} (hv : w.seen? name = some v) :
    P v.content := by
  rw [World.seen?] at hv
  rcases h.lookup name with ⟨l, hx, -, -, hp⟩ | ⟨t, hx, hy, -, hp⟩ | ⟨hx, hy, -⟩
  · rw [hx] at hv
    cases hv
    exact hp
  · rw [hx, hy] at hv
    cases hv
    exact hp
  · rw [hx, hy] at hv
    cases hv

theorem without (h : Mirrors P w w') (name : String) : Mirrors P (w.without name) (w'.without name) := by
  obtain ⟨hvalid, hgone, hothers⟩ := Pool.drop_spec h.valid name
  refine ⟨hvalid, ?_, fun other => ?_⟩
  · rw [World.without, h.alone]
    rfl
  · by_cases ho : other = name
    · subst ho
      rw [World.without, World.without, World.local?_filter_self, World.local?_filter_self, hgone]
      exact .none
    · rw [World.without, World.without, World.local?_filter_ne ho w.pool,
        World.local?_filter_ne ho w'.pool, hothers other ho]
      exact h.mirror other

theorem putLocal (h : Mirrors P w w') {name : String} (hfree : w.pool.seen? name = none) {l : Local}
    (hl : P l.seen.content) : Mirrors P (w.putLocal name l) (w'.putLocal name l) := by
  refine ⟨h.valid, h.alone, fun other => ?_⟩
  by_cases ho : other = name
  · subst ho
    have hpool : (w.putLocal other l).pool.seen? other = none := hfree
    rw [World.local?_putLocal, World.local?_putLocal, hpool]
    exact .same hl
  · rw [World.local?_putLocal_ne ho, World.local?_putLocal_ne ho]
    exact h.mirror other

theorem putShared (h : Mirrors P w w') {name : String} {pool : Pool} {t : Owned}
    (hvalid : pool.Valid) (hseen : pool.seen? name = some (Store.seen t))
    (hothers : ∀ other ≠ name, pool.seen? other = w.pool.seen? other)
    (ht : P (Store.content t)) :
    Mirrors P ⟨pool, w.locals.filter (·.1 ≠ name)⟩ (w'.putLocal name (.owned t)) := by
  refine ⟨hvalid, h.alone, fun other => ?_⟩
  by_cases ho : other = name
  · subst ho
    rw [World.local?_filter_self, World.local?_putLocal, hseen]
    exact .copy ht
  · rw [World.local?_filter_ne ho w.pool, World.local?_putLocal_ne ho, hothers other ho]
    exact h.mirror other

theorem replace (h : Mirrors P w w') (name : String) {l : Local} (hl : P l.seen.content) :
    Mirrors P ((w.without name).putLocal name l) ((w'.without name).putLocal name l) :=
  (h.without name).putLocal (Pool.seen?_drop w.pool name) hl

theorem putLocal_without (h : Mirrors P w w') (name : String) (l : Local) :
    (w'.without name).putLocal name l = w'.putLocal name l := by
  rw [World.putLocal, World.putLocal, World.without, h.alone, List.filter_filter]
  simp only [Bool.and_self]
  rfl

theorem make (h : Mirrors P w w') (hempty : P .empty) {f : {σ : Type} → [Store σ] → Update σ Unit}
    (hf : Uniform P f) (name : String) (flavor : Flavor) :
    (w.make name flavor f).1 = (w'.make name flavor.unshared f).1 ∧
      Mirrors P (w.make name flavor f).2 (w'.make name flavor.unshared f).2 := by
  cases flavor with
  | owned =>
    have hholds : P (Store.content (Update.final (f Owned.empty))) := hf.holds hempty
    simp only [World.make, Flavor.unshared]
    cases hr : f Owned.empty with
    | ok u s =>
      rw [hr] at hholds
      exact ⟨rfl, h.replace name hholds⟩
    | error e s => exact ⟨rfl, h⟩
  | borrowed =>
    have hholds : P (Store.content (Update.final (f Borrowed.empty))) := hf.holds hempty
    simp only [World.make, Flavor.unshared]
    cases hr : f Borrowed.empty with
    | ok u s =>
      rw [hr] at hholds
      exact ⟨rfl, h.replace name hholds⟩
    | error e s => exact ⟨rfl, h⟩
  | shared =>
    have hstart : Agree P (Shared.Isolated w.pool.count w.pool.heap) (Shared.empty w.pool.heap)
        Owned.empty :=
      ⟨rfl, rfl, hempty, (plus_none w.pool.count).symm ▸ h.valid.counted, .refl _ _⟩
    have hout : Outcome (Agree P (Shared.Isolated w.pool.count w.pool.heap))
        (f (Shared.empty w.pool.heap)) (f Owned.empty) :=
      hf (Shared.isolated_stable _ _) _ _ hstart
    simp only [World.make, Flavor.unshared]
    generalize f (Shared.empty w.pool.heap) = r at hout ⊢
    generalize f Owned.empty = r' at hout ⊢
    cases hout with
    | @ok _ s t hst =>
      obtain ⟨hvalid, hseen, hothers⟩ := Pool.add_spec h.valid name hst.side
      have hput := h.putShared hvalid (hst.seen ▸ hseen) hothers (hst.content ▸ hst.holds)
      rw [← h.putLocal_without] at hput
      exact ⟨rfl, hput⟩
    | error => exact ⟨rfl, h⟩

/-- A handle agrees with storage that looks like it, and the other handles count the rest. -/
theorem agree_view (h : Mirrors P w w') {name : String} {s : Shared} {t : Owned}
    (hs : w.pool.view? name = some s) (hseen : Store.seen s = Store.seen t)
    (ht : P (Store.content t)) :
    Agree P (Shared.Isolated (w.pool.others name) w.pool.heap) s t := by
  have hcontent : Store.content s = Store.content t := congrArg Seen.content hseen
  obtain ⟨o, ho, rfl⟩ := Option.map_eq_some_iff.1 hs
  have hside := h.valid.isolated name
  rw [Pool.blockOf, ho] at hside
  exact ⟨hcontent, congrArg Seen.capacity hseen, hcontent.symm ▸ ht, hside⟩

theorem update (h : Mirrors P w w') {f : {σ : Type} → [Store σ] → Update σ Answer}
    (hf : Uniform P f) (name : String) :
    (w.update name f).1 = (w'.update name f).1 ∧
      Mirrors P (w.update name f).2 (w'.update name f).2 := by
  rw [World.update, World.update]
  rcases h.lookup name with ⟨l, hx, hy, hz, hp⟩ | ⟨t, hx, hy, hz, hp⟩ | ⟨hx, hy, hz⟩
  · rw [hx, hz]
    cases l with
    | owned s => exact ⟨rfl, h.putLocal hy (hf.holds hp)⟩
    | borrowed s => exact ⟨rfl, h.putLocal hy (hf.holds hp)⟩
  · obtain ⟨s, hview, hseen⟩ := Option.map_eq_some_iff.1 hy
    have hout := hf (Shared.isolated_stable _ _) s t (h.agree_view hview hseen hp)
    have hfinal := hout.final
    obtain ⟨hvalid, hnew, hothers⟩ := Pool.put_spec h.valid hfinal.side
    have hlocals : w.locals.filter (·.1 ≠ name) = w.locals :=
      filter_of_find?_none (Option.map_eq_none_iff.1 hx)
    have hput := h.putShared (t := Update.final (f t)) hvalid
      (by rw [Pool.seen?, hnew, Option.map_some, hfinal.seen]) hothers
      (hfinal.content ▸ hfinal.holds)
    rw [hlocals] at hput
    rw [hx, hview, hz]
    exact ⟨congrArg some hout.answer_eq, hput⟩
  · have hview : w.pool.view? name = none := Option.map_eq_none_iff.1 hy
    rw [hx, hview, hz, h.view?_eq_none]
    exact ⟨rfl, h⟩

theorem clone (h : Mirrors P w w') (name new : String) :
    (w.clone name new).1 = (w'.clone name new).1 ∧
      Mirrors P (w.clone name new).2 (w'.clone name new).2 := by
  rw [World.clone, World.clone]
  rcases h.lookup name with ⟨l, hx, -, hz, hp⟩ | ⟨t, hx, hy, hz, hp⟩ | ⟨hx, hy, hz⟩
  · rw [hx, hz]
    cases l with
    | owned s => exact ⟨rfl, h.replace new hp⟩
    | borrowed s => exact ⟨rfl, h⟩
  · obtain ⟨s, hview, hseen⟩ := Option.map_eq_some_iff.1 hy
    obtain ⟨hvalid, hnew, hothers⟩ := Pool.clone_spec h.valid hview new
    have hput := h.putShared hvalid (hseen ▸ hnew) hothers hp
    rw [← h.putLocal_without] at hput
    rw [hx, hview, hz]
    exact ⟨rfl, hput⟩
  · have hview : w.pool.view? name = none := Option.map_eq_none_iff.1 hy
    rw [hx, hview, hz, h.view?_eq_none]
    exact ⟨rfl, h⟩

theorem empty : Mirrors P .empty .empty where
  valid := ⟨.nil, ⟨fun _ => rfl, fun h => absurd h (Nat.lt_irrefl 0)⟩⟩
  alone := rfl
  mirror _ := .none

end Mirrors

/-- All values of the step are allowed, and bytes that it takes as they are. -/
def Step.Allowed (P : Bytes → Prop) (ok : Value → Prop) : Step → Prop
  | create _ _ maker => (∀ v ∈ maker.values, ok v) ∧ (maker.IsFresh ∨ ∀ b, P b)
  | call _ c => ∀ v ∈ c.values, ok v
  | _ => True

section

variable {P : Bytes → Prop} {ok : Value → Prop}

theorem Mirrors.step (hP : Closed P ok) {w w' : World} (h : Mirrors P w w') {s : Step}
    (hs : s.Allowed P ok) :
    (w.step s).1 = (w'.step s.unshared).1 ∧ Mirrors P (w.step s).2 (w'.step s.unshared).2 := by
  cases s with
  | create name flavor maker =>
    obtain ⟨hr, hw⟩ := h.make hP.empty (maker.uniform hP hs.1 hs.2) name flavor
    exact ⟨congrArg some hr, hw⟩
  | lend name region =>
    have hcontent : Store.content (Borrowed.new region) = .empty := by
      rw [← ByteArray.size_eq_zero_iff, Store.size_content]
      rfl
    refine ⟨rfl, h.replace name ?_⟩
    rw [Local.seen, Store.seen, hcontent]
    exact hP.empty
  | call name c => exact h.update (c.uniform hP hs) name
  | merge name other =>
    simp only [World.step, Step.unshared, ← h.seen?_eq other]
    cases w.seen? other with
    | none => exact ⟨rfl, h⟩
    | some seen => exact h.update (Call.uniform hP fun v hv => absurd hv List.not_mem_nil) name
  | clone name new => exact h.clone name new
  | transfer name new flavor =>
    simp only [World.step, Step.unshared, ← h.seen?_eq name]
    cases hseen : w.seen? name with
    | none => exact ⟨rfl, h⟩
    | some seen =>
      have hload : Uniform P (Buffer.load seen.content) := fun hQ => Buffer.load_agrees hQ (h.holds hseen)
      obtain ⟨hr, hw⟩ := h.make hP.empty hload new flavor
      exact ⟨congrArg some hr, hw⟩
  | drop name => exact ⟨rfl, h.without name⟩

theorem Mirrors.run (hP : Closed P ok) {steps : List Step} (hs : ∀ s ∈ steps, s.Allowed P ok)
    {w w' : World} (h : Mirrors P w w') :
    (w.run steps).1 = (w'.run (steps.map Step.unshared)).1 ∧
      Mirrors P (w.run steps).2 (w'.run (steps.map Step.unshared)).2 := by
  induction steps generalizing w w' with
  | nil => exact ⟨rfl, h⟩
  | cons s rest ih =>
    obtain ⟨hfirst, hw⟩ := h.step hP (hs s (.head _))
    obtain ⟨hanswers, hw⟩ := ih (fun s h => hs s (.tail _ h)) hw
    exact ⟨List.cons_eq_cons.2 ⟨hfirst, hanswers⟩, hw⟩

end

end TaggedBuffer
