import TaggedBuffer.Proofs.Store.Counts

namespace TaggedBuffer

structure Seen where
  content : Bytes
  used : Nat
  capacity : Nat
  deriving DecidableEq

def Store.seen {σ : Type} [Store σ] (s : σ) : Seen := ⟨content s, used s, capacity s⟩

namespace Shared

theorem region_eq_data (h : Heap) (o : Option Nat) :
    (⟨h, o⟩ : Shared).region = ((o.bind h.data).map (·.1)).getD .empty := by
  cases o with
  | none => rfl
  | some id => simp [region, block?, Heap.data, Function.comp_def]

theorem used_eq_data (h : Heap) (o : Option Nat) :
    (⟨h, o⟩ : Shared).used = ((o.bind h.data).map (·.2)).getD 0 := by
  cases o with
  | none => rfl
  | some id => simp [used, block?, Heap.data, Function.comp_def]

theorem seen_congr {h h' : Heap} {o : Option Nat} (hd : ∀ id, o = some id → h'.data id = h.data id) :
    Store.seen (⟨h', o⟩ : Shared) = Store.seen (⟨h, o⟩ : Shared) := by
  have hbind : o.bind h'.data = o.bind h.data := by
    cases o with
    | none => rfl
    | some id => exact hd id rfl
  have hregion : (⟨h', o⟩ : Shared).region = (⟨h, o⟩ : Shared).region := by
    rw [region_eq_data, region_eq_data, hbind]
  have hused : (⟨h', o⟩ : Shared).used = (⟨h, o⟩ : Shared).used := by
    rw [used_eq_data, used_eq_data, hbind]
  simp only [Store.seen, Store.content, Store.capacity, Store.region, Store.used, hregion, hused]

end Shared

section

variable {β : Type}

theorem find?_filter_ne {xs : List (String × β)} {name other : String} (h : other ≠ name) :
    (xs.filter (·.1 ≠ name)).find? (·.1 = other) = xs.find? (·.1 = other) := by
  rw [List.find?_filter]
  congr 1
  funext x
  by_cases hx : x.1 = other
  · simp [hx, h]
  · simp [hx]

theorem find?_filter_self (xs : List (String × β)) (name : String) :
    (xs.filter (·.1 ≠ name)).find? (·.1 = name) = none := by
  simp [List.find?_filter]

theorem find?_of_mem {xs : List (String × β)} (h : (xs.map (·.1)).Nodup) {x : String × β}
    (hx : x ∈ xs) : xs.find? (·.1 = x.1) = some x := by
  induction xs with
  | nil => cases hx
  | cons y ys ih =>
    obtain ⟨hy, hys⟩ := List.nodup_cons.1 h
    cases hx with
    | head => exact List.find?_cons_of_pos (decide_eq_true rfl)
    | tail _ hx =>
      have hne : y.1 ≠ x.1 := fun he => hy (List.mem_map.2 ⟨x, hx, he.symm⟩)
      rw [List.find?_cons_of_neg (by simpa using hne)]
      exact ih hys hx

theorem filter_of_find?_none {xs : List (String × β)} {name : String}
    (h : xs.find? (·.1 = name) = none) : xs.filter (·.1 ≠ name) = xs := by
  rw [List.filter_eq_self]
  intro x hx
  simpa using List.find?_eq_none.1 h x hx

end

namespace Pool

def count (p : Pool) (id : Nat) : Nat := p.handles.countP (·.2 = some id)

/-- The number of handles on a block besides the one of that name. -/
def others (p : Pool) (name : String) (id : Nat) : Nat :=
  (p.handles.filter (·.1 ≠ name)).countP (·.2 = some id)

/-- Each name has one handle, and each block counts the handles on it. -/
structure Valid (p : Pool) : Prop where
  names : (p.handles.map (·.1)).Nodup
  counted : p.heap.Counted p.count

theorem count_eq {xs : List (String × Option Nat)} (h : (xs.map (·.1)).Nodup) (name : String)
    (id : Nat) : xs.countP (·.2 = some id) =
      (xs.filter (·.1 ≠ name)).countP (·.2 = some id) +
        if ((xs.find? (·.1 = name)).map (·.2)).join = some id then 1 else 0 := by
  induction xs with
  | nil => rfl
  | cons x xs ih =>
    obtain ⟨hx, hxs⟩ := List.nodup_cons.1 h
    by_cases hn : x.1 = name
    · have hnone : xs.find? (·.1 = name) = none := by
        rw [List.find?_eq_none]
        intro y hy hyn
        refine hx (List.mem_map.2 ⟨y, hy, ?_⟩)
        exact (of_decide_eq_true hyn).trans hn.symm
      have hfilter := filter_of_find?_none hnone
      simp only [ne_eq, decide_not] at hfilter
      simp [hn, hfilter, List.countP_cons]
    · rw [List.countP_cons, ih hxs]
      simp [hn, List.countP_cons]
      omega

def blockOf (p : Pool) (name : String) : Option Nat := (p.handle? name).join

variable {p : Pool} {name : String}

theorem Valid.count (hv : p.Valid) (name : String) : p.count = plus (p.others name) (p.blockOf name) :=
  funext fun id => count_eq hv.names name id

theorem Valid.isolated (hv : p.Valid) (name : String) :
    Shared.Isolated (p.others name) p.heap ⟨p.heap, p.blockOf name⟩ :=
  ⟨hv.count name ▸ hv.counted, .refl _ _⟩

theorem others_pos {other : String} {id : Nat} (h : other ≠ name)
    (ho : p.handle? other = some (some id)) : 0 < p.others name id := by
  obtain ⟨x, hx, hid⟩ := Option.map_eq_some_iff.1 ho
  refine List.countP_pos_iff.2 ⟨x, List.mem_filter.2 ⟨List.mem_of_find?_eq_some hx, ?_⟩, ?_⟩
  · have := List.find?_some hx
    simp only [decide_eq_true_eq] at this
    simpa [this] using h
  · simpa using hid

theorem seen_of_keeps {h h' : Heap} {other : String} (hk : Heap.Keeps (p.others name) h h')
    (hne : other ≠ name) {o : Option Nat} (ho : p.handle? other = some o) :
    Store.seen (⟨h', o⟩ : Shared) = Store.seen (⟨h, o⟩ : Shared) :=
  Shared.seen_congr fun id hid => hk id (others_pos hne (hid ▸ ho))

def seen? (p : Pool) (name : String) : Option Seen := (p.view? name).map Store.seen

theorem seen?_eq (p : Pool) (name : String) :
    p.seen? name = (p.handle? name).map fun o => Store.seen (⟨p.heap, o⟩ : Shared) := by
  simp [seen?, view?, Function.comp_def]

theorem handle?_put_ne {other : String} (h : other ≠ name) (s : Shared) :
    (p.put name s).handle? other = p.handle? other := by
  have hhead : ((name, s.id) :: p.handles.filter (·.1 ≠ name)).find? (·.1 = other) =
      p.handles.find? (·.1 = other) := by
    rw [List.find?_cons_of_neg (by simpa using Ne.symm h), find?_filter_ne h]
  rw [handle?, handle?, put, hhead]

theorem seen?_put_ne {other : String} {s : Shared} (h : other ≠ name)
    (hk : Heap.Keeps (p.others name) p.heap s.heap) :
    (p.put name s).seen? other = p.seen? other := by
  rw [seen?_eq, seen?_eq, handle?_put_ne h]
  cases ho : p.handle? other with
  | none => rfl
  | some o => exact congrArg some (seen_of_keeps hk h ho)

theorem view?_put (p : Pool) (name : String) (s : Shared) : (p.put name s).view? name = some s := by
  simp [view?, handle?, put]

theorem put_valid (hv : p.Valid) {s : Shared} (hs : s.heap.Counted (plus (p.others name) s.id)) :
    (p.put name s).Valid := by
  refine ⟨?_, ?_⟩
  · refine List.nodup_cons.2 ⟨?_, ?_⟩
    · simp
    · exact hv.names.sublist (List.filter_sublist.map _)
  · have hcount : (p.put name s).count = plus (p.others name) s.id := by
      funext id
      simp [Pool.count, put, List.countP_cons, plus, others]
    rw [hcount]
    exact hs

theorem put_spec (hv : p.Valid) {s : Shared} (hs : s.Isolated (p.others name) p.heap) :
    (p.put name s).Valid ∧ (p.put name s).view? name = some s ∧
      ∀ other ≠ name, (p.put name s).seen? other = p.seen? other :=
  ⟨put_valid hv hs.counted, view?_put p name s, fun _ h => seen?_put_ne h hs.keeps⟩

theorem drop_eq (p : Pool) (name : String) : p.drop name =
    ⟨(⟨p.heap, p.blockOf name⟩ : Shared).leave.heap, p.handles.filter (·.1 ≠ name)⟩ := by
  unfold drop view? blockOf
  cases ho : p.handle? name with
  | none =>
    have hnone : p.handles.find? (·.1 = name) = none := Option.map_eq_none_iff.1 ho
    rw [filter_of_find?_none hnone]
    rfl
  | some o => rfl

theorem handle?_drop_ne {other : String} (h : other ≠ name) :
    (p.drop name).handle? other = p.handle? other := by
  rw [drop_eq, handle?, handle?, find?_filter_ne h]

theorem seen?_drop (p : Pool) (name : String) : (p.drop name).seen? name = none := by
  rw [seen?_eq, drop_eq, handle?, find?_filter_self]
  rfl

theorem drop_spec (hv : p.Valid) (name : String) :
    (p.drop name).Valid ∧ (p.drop name).seen? name = none ∧
      ∀ other ≠ name, (p.drop name).seen? other = p.seen? other := by
  have hleave := (hv.isolated name).leave
  refine ⟨⟨?_, ?_⟩, seen?_drop p name, fun other h => ?_⟩
  · rw [drop_eq]
    exact hv.names.sublist (List.filter_sublist.map _)
  · have hcounted := hleave.counted
    rw [Shared.id_leave, plus_none] at hcounted
    rw [drop_eq]
    exact hcounted
  · rw [seen?_eq, seen?_eq, handle?_drop_ne h]
    cases ho : p.handle? other with
    | none => rfl
    | some o =>
      rw [drop_eq]
      exact congrArg some (seen_of_keeps hleave.keeps h ho)

theorem add_eq (p : Pool) (name : String) (s : Shared) :
    p.add name s = p.put name ⟨(⟨s.heap, p.blockOf name⟩ : Shared).leave.heap, s.id⟩ := by
  rw [add, drop_eq, put, put, List.filter_filter]
  simp only [Bool.and_self]
  rfl

theorem add_spec (hv : p.Valid) (name : String) {s : Shared} (hs : s.Isolated p.count p.heap) :
    (p.add name s).Valid ∧ (p.add name s).seen? name = some (Store.seen s) ∧
      ∀ other ≠ name, (p.add name s).seen? other = p.seen? other := by
  have hold : Shared.Isolated (plus (p.others name) s.id) s.heap ⟨s.heap, p.blockOf name⟩ := by
    refine ⟨?_, .refl _ _⟩
    rw [plus_comm, ← hv.count name]
    exact hs.counted
  have hleave := hold.leave
  have hcounted := hleave.counted
  rw [Shared.id_leave, plus_none] at hcounted
  rw [add_eq]
  refine ⟨put_valid hv hcounted, ?_, fun other h => seen?_put_ne h ?_⟩
  · rw [seen?, view?_put]
    refine congrArg some (Shared.seen_congr fun id hid => hleave.keeps id ?_)
    rw [hid, plus_self]
    exact Nat.succ_pos _
  · refine (hs.keeps.mono fun id => ?_).trans (hleave.keeps.mono fun id => le_plus _ _ id)
    rw [hv.count name]
    exact le_plus _ _ id

theorem count_pos {id : Nat} (ho : p.handle? name = some (some id)) : 0 < p.count id := by
  obtain ⟨x, hx, hid⟩ := Option.map_eq_some_iff.1 ho
  exact List.countP_pos_iff.2 ⟨x, List.mem_of_find?_eq_some hx, by simpa using hid⟩

theorem clone_spec (hv : p.Valid) {s : Shared} (hview : p.view? name = some s) (new : String) :
    (p.clone name new).Valid ∧ (p.clone name new).seen? new = some (Store.seen s) ∧
      ∀ other ≠ new, (p.clone name new).seen? other = p.seen? other := by
  obtain ⟨o, ho, rfl⟩ := Option.map_eq_some_iff.1 hview
  have hclone : p.clone name new = p.add new (⟨p.heap, o⟩ : Shared).share := by
    rw [clone, hview]
  have hshare : Shared.Isolated p.count p.heap (⟨p.heap, o⟩ : Shared).share ∧
      Store.seen (⟨p.heap, o⟩ : Shared).share = Store.seen (⟨p.heap, o⟩ : Shared) := by
    cases o with
    | none => exact ⟨⟨(plus_none p.count).symm ▸ hv.counted, .refl _ _⟩, rfl⟩
    | some id =>
      obtain ⟨hc, hd⟩ := hv.counted.join (count_pos ho)
      exact ⟨⟨hc, fun j _ => hd j⟩, Shared.seen_congr fun j _ => hd j⟩
  rw [hclone, ← hshare.2]
  exact add_spec hv new hshare.1

end Pool

end TaggedBuffer
