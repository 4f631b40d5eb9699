import TaggedBuffer.Proofs.Buffer.Demand
import TaggedBuffer.Proofs.World.Isolation

namespace TaggedBuffer

namespace Shared

/-- The handle is not on the block of that number, which is `b`. -/
structure Apart (id : Nat) (b : Block) (s : Shared) : Prop where
  off : s.id ≠ some id
  block : s.heap.block? id = some b

namespace Apart

variable {id : Nat} {b : Block} {s : Shared}

/-- What is put in the place of its own block leaves that one. -/
theorem block?_put {heap : Heap} {j : Nat} (h : Apart id b ⟨heap, some j⟩) (o : Option Block) :
    (heap.put j o).block? id = some b :=
  (Heap.block?_put_ne (fun hj => h.off (congrArg some hj.symm)) o).trans h.block

theorem leave (h : Apart id b s) : Apart id b s.leave := by
  obtain ⟨heap, o⟩ := s
  cases o with
  | none => exact h
  | some j =>
    refine ⟨nofun, ?_⟩
    change (heap.leave j).block? id = some b
    rw [Heap.leave]
    split
    · exact h.block?_put _
    · exact h.block

theorem moveTo (h : Apart id b s) (r : Bytes) (u : Nat) : Apart id b (s.moveTo r u) := by
  have hl := h.leave
  have hne : id ≠ s.leave.heap.blocks.length := Nat.ne_of_lt (Heap.lt_length hl.block)
  refine ⟨fun hid => hne (Option.some.inj hid).symm, ?_⟩
  exact (Heap.block?_add_ne hne _).trans hl.block

theorem write (h : Apart id b s) (r : Bytes) (u : Nat) : Apart id b (s.write r u) := by
  rw [Shared.write]
  split
  next j b' hid _ =>
    split
    · have hne : id ≠ j := fun hj => h.off (hj ▸ hid)
      exact ⟨h.off, (Heap.block?_put_ne hne _).trans h.block⟩
    · exact h.moveTo r u
  · exact h

theorem share (h : Apart id b s) : Apart id b s.share := by
  obtain ⟨heap, o⟩ := s
  cases o with
  | none => exact h
  | some j =>
    refine ⟨h.off, ?_⟩
    change (heap.join j).block? id = some b
    rw [Heap.join]
    split
    · exact h.block?_put _
    · exact h.block

end Apart

theorem apart_stable (id : Nat) (b : Block) : Stable (Apart id b) :=
  stable_of (fun _ h => h.leave) (fun _ r u h => h.moveTo r u) fun _ r u h => h.write r u

theorem stays_congr {h h' : Heap} {o : Option Nat} {c : Nat} {l : Place}
    (hb : ∀ id, o = some id → h'.block? id = h.block? id) (hs : Stays c l (⟨h, o⟩ : Shared)) :
    Stays c l (⟨h', o⟩ : Shared) := by
  have hblock : (⟨h', o⟩ : Shared).block? = (⟨h, o⟩ : Shared).block? := by
    cases o with
    | none => rfl
    | some id => exact hb id rfl
  obtain ⟨halone, hcap, hplace⟩ := hs
  refine ⟨?_, ?_, hplace⟩
  · change Shared.holders _ ≤ 1
    rw [Shared.holders, hblock]
    exact halone
  · change (Shared.region _).size = c
    rw [Shared.region, hblock]
    exact hcap

end Shared

theorem Uniform.reaches {α : Type} {f : {σ : Type} → [Store σ] → Update σ α}
    (hf : Uniform (fun _ => True) f) {σ : Type} [Store σ] [LawfulStore σ] (s : σ) :
    Reaches s (Update.final (f s)) :=
  (hf (Q := Reaches s) (fun _ _ h h' => h'.trans h) s s ⟨rfl, rfl, trivial, .refl s⟩).final.side

namespace Pool

variable {p : Pool} {name other : String} {id : Nat} {b : Block}

theorem handle?_add_ne (h : other ≠ name) (s : Shared) :
    (p.add name s).handle? other = p.handle? other := by
  rw [add_eq]
  exact handle?_put_ne h _

theorem Valid.handle?_of_mem (hv : p.Valid) {x : String × Option Nat} (hx : x ∈ p.handles) :
    p.handle? x.1 = some x.2 := by
  rw [handle?, find?_of_mem hv.names hx]
  rfl

theorem Valid.others_eq_zero_iff (hv : p.Valid) : p.others name id = 0 ↔
    ∀ other ≠ name, p.handle? other ≠ some (some id) := by
  refine ⟨fun h0 other hne ho => ?_, fun h => ?_⟩
  · have hpos := others_pos hne ho
    omega
  · refine List.countP_eq_zero.2 fun x hx hid => ?_
    obtain ⟨hmem, hne⟩ := List.mem_filter.1 hx
    have hid : x.2 = some id := of_decide_eq_true hid
    exact h x.1 (of_decide_eq_true hne) (hid ▸ hv.handle?_of_mem hmem)

theorem Valid.alone_iff (hv : p.Valid) {s : Shared} (hs : p.view? name = some s) :
    s.holders ≤ 1 ↔ ∀ id, s.id = some id → p.others name id = 0 := by
  rw [hv.holders_eq hs]
  obtain ⟨o, ho, rfl⟩ := Option.map_eq_some_iff.1 hs
  cases o with
  | none => exact iff_of_true (Nat.zero_le 1) nofun
  | some id =>
    have hcount : p.count id = p.others name id + 1 := by
      rw [hv.count name, blockOf, ho]
      exact plus_self _ id
    rw [onBlock, hcount]
    refine ⟨?_, fun h => ?_⟩
    · rintro h _ ⟨rfl⟩
      omega
    · have := h id rfl
      omega

theorem apart_of_alone (h0 : p.others name id = 0) (hb : p.heap.block? id = some b)
    (hne : other ≠ name) : Shared.Apart id b ⟨p.heap, p.blockOf other⟩ := by
  refine ⟨fun hid => ?_, hb⟩
  have hpos := others_pos hne (Option.join_eq_some_iff.1 hid)
  omega

theorem block?_add {s : Shared} (h : Shared.Apart id b ⟨s.heap, p.blockOf name⟩) :
    (p.add name s).heap.block? id = some b := by
  rw [add_eq]
  exact h.leave.block

end Pool

/-- What a step on the handle of that name makes of a pool; `cloned` holds of the handle that it
clones. -/
inductive Pool.Turn (p : Pool) (cloned : String → Prop) (name : String) : Pool → Prop
  | same : Turn p cloned name p
  | drop : Turn p cloned name (p.drop name)
  | add {t : Shared} : Reaches (Shared.empty p.heap) t → Turn p cloned name (p.add name t)
  | put {t t' : Shared} : p.view? name = some t → Reaches t t' → Turn p cloned name (p.put name t')
  | clone {source : String} {t : Shared} : cloned source → p.view? source = some t →
      Turn p cloned name (p.add name t.share)

namespace Pool.Turn

variable {p p' : Pool} {cloned : String → Prop} {name other : String} {id : Nat} {b : Block}

theorem handle?_ne (h : p.Turn cloned name p') (hne : other ≠ name) :
    p'.handle? other = p.handle? other := by
  cases h with
  | same => rfl
  | drop => exact handle?_drop_ne hne
  | add _ => exact handle?_add_ne hne _
  | put _ _ => exact handle?_put_ne hne _
  | clone _ _ => exact handle?_add_ne hne _

theorem block?_ne (h : p.Turn cloned name p') (hne : other ≠ name) (hc : ¬ cloned other)
    (h0 : p.others other id = 0) (hb : p.heap.block? id = some b) : p'.heap.block? id = some b := by
  have hold := apart_of_alone h0 hb (Ne.symm hne)
  cases h with
  | same => exact hb
  | drop =>
    rw [drop_eq]
    exact hold.leave.block
  | add hreach =>
    have hnew := Shared.apart_stable id b _ _ hreach ⟨nofun, hb⟩
    exact block?_add ⟨hold.off, hnew.block⟩
  | put hview hreach =>
    obtain ⟨o, ho, rfl⟩ := Option.map_eq_some_iff.1 hview
    rw [blockOf, ho] at hold
    exact (Shared.apart_stable id b _ _ hreach hold).block
  | @clone source t hsource hview =>
    obtain ⟨o, ho, rfl⟩ := Option.map_eq_some_iff.1 hview
    have hapart := apart_of_alone h0 hb fun hs => hc (hs ▸ hsource)
    rw [blockOf, ho] at hapart
    exact block?_add ⟨hold.off, hapart.share.block⟩

end Pool.Turn

/-- The step makes a second handle on what that handle is on. -/
def Step.Clones (s : Step) (name : String) : Prop :=
  match s with
  | clone source _ => source = name
  | _ => False

namespace World

variable {w w' : World} {name : String} {s : Step}

theorem make_turns (w : World) (name : String) (flavor : Flavor) (cloned : String → Prop)
    {f : {σ : Type} → [Store σ] → Update σ Unit} (hf : Uniform (fun _ => True) f) :
    w.pool.Turn cloned name (w.make name flavor f).2.pool := by
  cases flavor with
  | owned =>
    rw [make]
    split
    · exact .drop
    · exact .same
  | borrowed =>
    rw [make]
    split
    · exact .drop
    · exact .same
  | shared =>
    have hreach := hf.reaches (Shared.empty w.pool.heap)
    rw [make]
    split
    next h =>
      rw [h] at hreach
      exact .add hreach
    · exact .same

theorem update_turns (w : World) (name : String) (cloned : String → Prop)
    {f : {σ : Type} → [Store σ] → Update σ Answer} (hf : Uniform (fun _ => True) f) :
    w.pool.Turn cloned name (w.update name f).2.pool := by
  rw [update]
  split
  · exact .same
  · exact .same
  · split
    next t h => exact .put h (hf.reaches t)
    · exact .same

theorem step_turns (w : World) (s : Step) : w.pool.Turn s.Clones s.target (w.step s).2.pool := by
  have hcall : ∀ c : Call, Uniform (fun _ => True) c.run :=
    fun c => c.uniform closed_true fun _ _ => trivial
  cases s with
  | create name flavor maker =>
    exact w.make_turns name flavor _
      (maker.uniform closed_true (fun _ _ => trivial) (.inr fun _ => trivial))
  | lend name region => exact .drop
  | call name c => exact w.update_turns name _ (hcall c)
  | merge name other =>
    rw [step]
    split
    · exact w.update_turns name _ (hcall _)
    · exact .same
  | clone name new =>
    rw [step, clone]
    split
    · exact .drop
    · exact .same
    · split
      next t h =>
        rw [Pool.clone, h]
        exact .clone rfl h
      · exact .same
  | transfer name new flavor =>
    rw [step]
    split
    · exact w.make_turns new flavor _ fun hQ => Buffer.load_agrees hQ trivial
    · exact .same
  | drop name => exact .drop

/-- The storage of the buffer of that name. -/
def stored? (w : World) (name : String) : Option ((f : Flavor) × f.Storage) :=
  match w.local? name with
  | some (.owned s) => some ⟨.owned, s⟩
  | some (.borrowed s) => some ⟨.borrowed, s⟩
  | none => (w.pool.view? name).map fun s => ⟨.shared, s⟩

variable {flavor : Flavor} {t : flavor.Storage}

theorem stored?_update (h : w.stored? name = some ⟨flavor, t⟩)
    (f : {σ : Type} → [Store σ] → Update σ Answer) :
    (w.update name f).2.stored? name = some ⟨flavor, Update.final (f t)⟩ := by
  rw [stored?] at h
  split at h
  next hl =>
    cases h
    rw [update, hl, stored?, local?_putLocal]
    rfl
  next hl =>
    cases h
    rw [update, hl, stored?, local?_putLocal]
    rfl
  next hl =>
    obtain ⟨t', hview, ht⟩ := Option.map_eq_some_iff.1 h
    cases ht
    have hlocal : ∀ pool, (⟨pool, w.locals⟩ : World).local? name = none := fun _ => hl
    rw [update, hl, hview, stored?, hlocal, Pool.view?_put]
    rfl

/-- Steps on other buffers leave storage that no other handle is on where it is. -/
theorem stays_step_ne {c : Nat} {l : Place} (hv : w.pool.Valid)
    (h : w.stored? name = some ⟨flavor, t⟩) (ht : Stays c l t) (hne : name ≠ s.target)
    (hc : ¬ s.Clones name) :
    ∃ t', (w.step s).2.stored? name = some ⟨flavor, t'⟩ ∧ Stays c l t' := by
  have hlocal := local?_step_ne hne w
  have hturn := w.step_turns s
  rw [stored?] at h
  rw [stored?, hlocal]
  split at h
  next hl => exact ⟨t, h, ht⟩
  next hl => exact ⟨t, h, ht⟩
  next hl =>
    obtain ⟨t', hview, heq⟩ := Option.map_eq_some_iff.1 h
    cases heq
    obtain ⟨o, ho, rfl⟩ := Option.map_eq_some_iff.1 hview
    have hview' : (w.step s).2.pool.view? name = some ⟨(w.step s).2.pool.heap, o⟩ := by
      rw [Pool.view?, hturn.handle?_ne hne, ho]
      rfl
    refine ⟨⟨(w.step s).2.pool.heap, o⟩, congrArg (Option.map _) hview', ?_⟩
    refine Shared.stays_congr (fun id hid => ?_) ht
    subst hid
    have h0 := (hv.alone_iff hview).1 ht.alone id rfl
    obtain ⟨b, hb, -⟩ := hv.counted.present (Pool.count_pos ho)
    exact (hturn.block?_ne hne hc h0 hb).trans hb.symm

end World

end TaggedBuffer
