import TaggedBuffer.Proofs.Buffer.Listing
import TaggedBuffer.Proofs.Store.Flavor

namespace TaggedBuffer

open Content (Packed offset entries located)
open Buffer (pairsSize)

variable {σ : Type} [Store σ]

/-- The storage holds the entries of the list, in as much room. -/
structure Holds (s : σ) (l : Listing) : Prop where
  packed : Packed (Store.content s) l.pairs
  capacity : Store.capacity s = l.capacity

theorem Edits.outcome {α : Type} {m : Update σ α} {f : Bytes → Except Error (α × Bytes)}
    {g : List Pair → Except Error (α × List Pair)} {s : σ} {l : Listing} (he : Edits m f s)
    (h : Holds s l) (hl : Lifted (f (Store.content s)) (g l.pairs)) :
    Outcome Holds (m s) (Listing.edit g l) := by
  rw [Listing.edit, Update.bind_get]
  generalize hx : f (Store.content s) = x at hl
  generalize hy : g l.pairs = y at hl
  cases hl with
  | error e =>
    rw [he.refused hx]
    exact .error h
  | @ok a b pairs hb =>
    rw [Update.bind_check_ok rfl]
    dsimp only
    cases hr : roomFor l.capacity (pairsSize pairs) with
    | error e =>
      rw [he.full hx (by rw [hb.size, h.capacity, hr])]
      exact .error h
    | ok c =>
      obtain ⟨s', hs', hcontent, hcap, -⟩ := he.done hx (by rw [hb.size, h.capacity, hr])
      rw [hs', Update.bind_check_ok rfl]
      exact .ok ⟨hcontent ▸ hb, hcap⟩

namespace Content

variable {src : Bytes} {pairs : List Pair}

theorem findIndex?_of_packed (h : Packed src pairs) (index : Nat) :
    findIndex? src index = if index < pairs.length then some (offset pairs index) else none := by
  rw [findIndex?, entries_of_packed h, getElem?_located]
  split
  next hi => simp [List.getElem?_eq_getElem hi]
  next hi => simp [List.getElem?_eq_none (Nat.le_of_not_lt hi)]

theorem find?_of_packed (h : Packed src pairs) (name : String) :
    find? src name = (Listing.indexOf? name pairs).map (offset pairs) := by
  have hidx : Listing.indexOf? name pairs = (located 0 pairs).findIdx? (·.hasName name) := by
    conv => lhs; rw [← map_pair_located 0 pairs]
    rw [Listing.indexOf?, List.findIdx?_map]
    rfl
  rw [find?, entries_of_packed h, List.find?_eq_bind_findIdx?_getElem?, ← hidx]
  cases hi : Listing.indexOf? name pairs with
  | none => rfl
  | some i =>
    have hlt : i < pairs.length := (List.findIdx?_eq_some_iff_getElem.1 hi).1
    simp [getElem?_located, List.getElem?_eq_getElem hlt]

end Content

namespace Holds

variable [LawfulStore σ] {s : σ} {l : Listing}

theorem used_eq (h : Holds s l) : Store.used s = pairsSize l.pairs := by
  rw [← Store.size_content, h.packed.size]

theorem used_mod (h : Holds s l) : Store.used s % 4 = 0 := by
  rw [← Store.size_content, h.packed.size_mod]

end Holds

section Matches

variable [LawfulStore σ]

theorem append_matches (name : Option String) {v : Value} (hw : v.WellFormed) :
    Matches (Holds (σ := σ)) (Buffer.append name v) (Listing.push name v) :=
  fun _ _ h => (Buffer.append_edits name v h.used_mod).outcome h (.appended h.packed name hw)

theorem set_matches (p : Nat) {v : Value} (hw : v.WellFormed) :
    Matches (Holds (σ := σ)) (Buffer.set p v) (Listing.set p v) :=
  fun s _ h => (Buffer.set_edits p v s).outcome h (.replaced h.packed p hw)

theorem remove_matches (p : Nat) :
    Matches (Holds (σ := σ)) (Buffer.remove p) (Listing.remove p) :=
  fun s _ h => (Buffer.remove_edits p s).outcome h (.removed h.packed p)

theorem insert_matches (p : Nat) (name : Option String) {v : Value} (hw : v.WellFormed) :
    Matches (Holds (σ := σ)) (Buffer.insert p name v) (Listing.insert p name v) := by
  intro s l h
  rw [Listing.insert, Update.bind_get, ← h.used_eq]
  split
  next hp =>
    subst hp
    rw [Buffer.insert_of_end]
    exact append_matches name hw s l h
  next hp => exact (Buffer.insert_edits hp).outcome h (.inserted h.packed p name hw)

theorem appendAll_matches {pairs : List Pair} (hw : ∀ pair ∈ pairs, pair.2.WellFormed) :
    Matches (Holds (σ := σ)) (Buffer.appendAll pairs) (Listing.pushAll pairs) := by
  induction pairs with
  | nil => exact .pure ()
  | cons pair pairs ih =>
    have hrest := ih fun pair h => hw pair (.tail _ h)
    exact (append_matches pair.1 (hw pair (.head _))).bind fun _ => hrest

theorem appendPairs_matches {pairs : List Pair} (hw : ∀ pair ∈ pairs, pair.2.WellFormed) :
    Matches (Holds (σ := σ)) (Buffer.appendPairs pairs) (Listing.pushPairs pairs) := by
  cases pairs with
  | nil => exact .pure none
  | cons pair pairs =>
    have hrest := appendAll_matches (σ := σ) fun pair h => hw pair (.tail _ h)
    exact (append_matches pair.1 (hw pair (.head _))).bind fun p =>
      hrest.bind fun _ => .pure (some p)

omit [LawfulStore σ] in
theorem positionAt_matches (index : Nat) :
    Matches (Holds (σ := σ)) (Buffer.positionAt index) (Listing.positionAt index) := by
  intro s l h
  rw [Buffer.positionAt, Buffer.bind_content, Listing.positionAt, Update.bind_get,
    Content.findIndex?_of_packed h.packed, Content.entries_of_packed h.packed,
    Content.length_located]
  by_cases hi : index < l.pairs.length
  · rw [if_pos hi, if_pos hi]
    exact .ok h
  · rw [if_neg hi, if_neg hi]
    exact .error h

theorem setNamed_matches (name : String) {v : Value} (hw : v.WellFormed) :
    Matches (Holds (σ := σ)) (Buffer.setNamed name v) (Listing.setNamed name v) := by
  intro s l h
  rw [Buffer.setNamed, Buffer.bind_content, Listing.setNamed, Update.bind_get,
    Content.find?_of_packed h.packed]
  cases Listing.indexOf? name l.pairs with
  | some i => exact set_matches _ hw s l h
  | none => exact append_matches _ hw s l h

theorem insertAt_matches (index : Nat) (name : Option String) {v : Value} (hw : v.WellFormed) :
    Matches (Holds (σ := σ)) (Buffer.insertAt index name v) (Listing.insertAt index name v) := by
  intro s l h
  rw [Buffer.insertAt, Buffer.bind_content, Listing.insertAt, Update.bind_get,
    Content.findIndex?_of_packed h.packed, Content.entries_of_packed h.packed,
    Content.length_located]
  rcases Nat.lt_trichotomy index l.pairs.length with hi | hi | hi
  · rw [if_pos hi, if_pos (Nat.le_of_lt hi)]
    exact insert_matches _ name hw s l h
  · -- The place past the last entry is the end of the used part.
    have hend : offset l.pairs index = Store.used s := by
      rw [offset, hi, List.take_length, h.used_eq]
    rw [if_neg (by omega), if_pos (Nat.le_of_eq hi), hend]
    dsimp only
    rw [if_pos hi, Update.bind_get]
    exact insert_matches _ name hw s l h
  · rw [if_neg (by omega), if_neg (by omega)]
    dsimp only
    rw [if_neg (by omega)]
    exact .error h

theorem removeNamed_matches (name : String) :
    Matches (Holds (σ := σ)) (Buffer.removeNamed name) (Listing.removeNamed name) := by
  intro s l h
  rw [Buffer.removeNamed, Buffer.bind_content, Listing.removeNamed, Update.bind_get,
    Content.find?_of_packed h.packed]
  cases Listing.indexOf? name l.pairs with
  | some i => exact ((remove_matches _).bind fun _ => .pure true) s l h
  | none => exact .ok h

theorem reserve_matches (needed : Nat) :
    Matches (Holds (σ := σ)) ((fun _ => Answer.done) <$> Store.reserve needed)
      ((fun _ => Answer.done) <$> Listing.reserve needed) := by
  intro s l h
  cases hr : roomFor l.capacity needed with
  | error e =>
    have hl : Listing.reserve needed l = .error e l := Update.bind_check_error hr
    rw [Update.map_of_error (LawfulStore.reserve_error (h.capacity ▸ hr)), Update.map_of_error hl]
    exact .error h
  | ok c =>
    have hl : Listing.reserve needed l = .ok () ⟨l.pairs, c⟩ := Update.bind_check_ok hr
    obtain ⟨moved, s', hs', hcontent, -, hcap⟩ := LawfulStore.reserve_ok (h.capacity ▸ hr)
    rw [Update.map_of_ok hs', Update.map_of_ok hl]
    exact .ok ⟨hcontent ▸ h.packed, hcap⟩

theorem Edit.run_matches {e : Edit} (hw : e.WellFormed) :
    Matches (Holds (σ := σ)) e.run (Listing.apply e) := by
  cases e with
  | append name v => exact (append_matches name (hw v (.head _))).map _
  | appendRaw name t payload =>
    refine Matches.map _ fun s l h => Outcome.check h fun v hv => ?_
    exact append_matches name (Value.ofPayload_ok hv).2.1 s l h
  | appendSection name vs =>
    refine Matches.map _ (appendPairs_matches fun pair hp => hw pair.2 ?_)
    have := List.mem_map_of_mem (f := (·.2)) hp
    rwa [Buffer.map_sectionPairs] at this
  | appendMany vs =>
    refine Matches.map _ (appendPairs_matches fun pair hp => hw pair.2 ?_)
    obtain ⟨v, hv, rfl⟩ := List.mem_map.1 hp
    exact hv
  | set p v => exact (set_matches p (hw v (.head _))).map _
  | setNamed name v => exact (setNamed_matches name (hw v (.head _))).map _
  | setIndex index v =>
    exact ((positionAt_matches index).bind fun p => set_matches p (hw v (.head _))).map _
  | insert p name v => exact (insert_matches p name (hw v (.head _))).map _
  | insertAt index name v => exact (insertAt_matches index name (hw v (.head _))).map _
  | remove p => exact (remove_matches p).map _
  | removeNamed name => exact (removeNamed_matches name).map _
  | removeIndex index =>
    exact ((positionAt_matches index).bind fun p => remove_matches p).map _
  | reserve needed => exact reserve_matches needed
  | shrinkToFit =>
    intro s l h
    obtain ⟨s', hs', hcontent, hcap⟩ := LawfulStore.shrinkToFit_ok s
    rw [Edit.run, Update.map_of_ok hs']
    refine .ok ⟨hcontent ▸ h.packed, ?_⟩
    rw [hcap, h.used_eq]
  | clear =>
    intro s l _
    refine .ok ⟨?_, LawfulStore.capacity_release s⟩
    rw [LawfulStore.content_release]
    exact .nil

end Matches

section Intact

namespace Intact

variable {α β : Type} {s : σ}

theorem of_edits [Allocator] {m : Update σ α} {f : Bytes → Except Error (α × Bytes)} (h : Edits m f s) :
    Intact m s :=
  fun _ _ => h.unchanged

theorem content {f : Bytes → Update σ α} (h : Intact (f (Store.content s)) s) :
    Intact (Buffer.content >>= f) s := h

theorem positionAt (index : Nat) {f : Nat → Update σ α} (h : ∀ p, Intact (f p) s) :
    Intact (Buffer.positionAt index >>= f) s := by
  intro e s' hr
  cases hfind : Content.findIndex? (Store.content s) index with
  | some p =>
    have hat : Buffer.positionAt index s = .ok p s := by
      rw [Buffer.positionAt, Buffer.bind_content, hfind]
      rfl
    exact h p e s' ((Update.bind_of_ok hat).symm.trans hr)
  | none =>
    have hat : ∃ e, Buffer.positionAt index s = .error e s := by
      rw [Buffer.positionAt, Buffer.bind_content, hfind]
      exact ⟨_, rfl⟩
    obtain ⟨e', hat⟩ := hat
    cases (Update.bind_of_error hat).symm.trans hr
    rfl

end Intact

variable [LawfulStore σ] [Allocator]

theorem insert_intact (p : Nat) (name : Option String) (v : Value) {s : σ}
    (hs : Store.used s % 4 = 0) : Intact (Buffer.insert p name v) s := by
  by_cases hp : p = Store.used s
  · subst hp
    intro e s' hr
    rw [Buffer.insert_of_end] at hr
    exact (Buffer.append_edits name v hs).unchanged hr
  · exact .of_edits (Buffer.insert_edits hp)

theorem insertAt_intact (index : Nat) (name : Option String) (v : Value) {s : σ}
    (hs : Store.used s % 4 = 0) : Intact (Buffer.insertAt index name v) s := by
  apply Intact.content
  split
  next p _ => exact insert_intact p name v hs
  · dsimp only
    split
    · exact insert_intact (Store.used s) name v hs
    · exact .throw _

theorem reserve_intact (needed : Nat) (s : σ) : Intact (Store.reserve needed) s :=
  fun _ _ hr => (Store.denied_of_reserve_error hr).1

theorem shrinkToFit_intact (s : σ) : Intact Store.shrinkToFit s :=
  fun _ _ => Store.of_shrinkToFit_error

theorem setNamed_intact (name : String) (v : Value) {s : σ} (hs : Store.used s % 4 = 0) :
    Intact (Buffer.setNamed name v) s := by
  apply Intact.content
  split
  next p _ => exact .of_edits (Buffer.set_edits p v s)
  · exact .of_edits (Buffer.append_edits (some name) v hs)

theorem setIndex_intact (index : Nat) (v : Value) (s : σ) : Intact (Buffer.setIndex index v) s :=
  Intact.positionAt index fun p => .of_edits (Buffer.set_edits p v s)

theorem removeFound_intact (found : Option Nat) (s : σ) : Intact (Buffer.removeFound found) s := by
  cases found with
  | none =>
    intro e s' h
    cases h
  | some p => exact (Intact.of_edits (Buffer.remove_edits p s)).map fun _ => true

theorem Edit.run_intact {e : Edit} (he : ¬ e.AddsMany) {s : σ} (hs : Store.used s % 4 = 0) :
    Intact e.run s := by
  have happend := fun name v => Intact.of_edits (Buffer.append_edits name v hs)
  have hset := fun p v => Intact.of_edits (Buffer.set_edits p v s)
  have hremove := fun p => Intact.of_edits (Buffer.remove_edits p s)
  cases e with
  | append name v => exact (happend name v).map _
  | appendRaw name t payload => exact (Intact.check fun v => happend name v).map _
  | appendSection name vs => exact (he trivial).elim
  | appendMany vs => exact (he trivial).elim
  | set p v => exact (hset p v).map _
  | setNamed name v => exact (setNamed_intact name v hs).map _
  | setIndex index v => exact (setIndex_intact index v s).map _
  | insert p name v => exact (insert_intact p name v hs).map _
  | insertAt index name v => exact (insertAt_intact index name v hs).map _
  | remove p => exact (hremove p).map _
  | removeNamed name => exact (Intact.content (removeFound_intact _ s)).map _
  | removeIndex index => exact (Intact.positionAt index hremove).map _
  | reserve needed => exact (reserve_intact needed s).map _
  | shrinkToFit => exact (shrinkToFit_intact s).map _
  | clear =>
    intro e s' hr
    cases hr

end Intact

theorem packed_of_fromBytes [LawfulStore σ] {bytes : Bytes} {s s' : σ}
    (h : Buffer.fromBytes bytes s = .ok () s') :
    ∃ pairs, Packed (Store.content s') pairs := by
  cases hv : Content.validate bytes with
  | error e => cases (Update.bind_check_error hv).symm.trans h
  | ok n =>
    obtain ⟨pairs, hp, -⟩ := Content.validate_ok_iff.1 hv
    have hload : Buffer.load bytes s = .ok () s' := (Update.bind_check_ok hv).symm.trans h
    cases hr : roomFor (Store.capacity s) bytes.size with
    | error e => cases ((Buffer.load_edits bytes s).full rfl hr).symm.trans hload
    | ok c =>
      obtain ⟨s'', hs, rfl, -⟩ := (Buffer.load_edits bytes s).done rfl hr
      cases hs.symm.trans hload
      exact ⟨pairs, hp⟩

/-- Calls answer what they answer on the plain list of the entries, and afterwards the content is
valid and holds that list. A call that fails changes nothing unless it adds many values. -/
theorem edits_simulate (f : Flavor) (start : f.Storage) (edits : List Edit)
    (hs : Store.content start = .empty ∨ ∃ bytes s, Buffer.fromBytes bytes s = .ok () start)
    (hw : ∀ e ∈ edits, e.WellFormed) :
    let list : Listing := ⟨(entries (Store.content start)).map Entry.pair, Store.capacity start⟩
    let run := Update.runAll Edit.run edits start
    let listed := Update.runAll Listing.apply edits list
    run.1 = listed.1 ∧
      Content.validate (Store.content run.2) = .ok listed.2.pairs.length ∧
      entries (Store.content run.2) = located 0 listed.2.pairs ∧
      Store.used run.2 % 4 = 0 ∧
      Store.used run.2 ≤ Store.capacity run.2 ∧
      Store.capacity run.2 = listed.2.capacity ∧
      ∀ e : Edit, ¬ e.AddsMany → ∀ fault s', e.run run.2 = .error fault s' → s' = run.2 := by
  intro list run listed
  obtain ⟨pairs, hp⟩ : ∃ pairs, Packed (Store.content start) pairs := by
    rcases hs with hempty | ⟨bytes, s, hb⟩
    · exact ⟨[], hempty ▸ .nil⟩
    · exact packed_of_fromBytes hb
  have hstart : Holds start list := by
    refine ⟨?_, rfl⟩
    rw [show list.pairs = pairs from Content.map_pair_entries hp]
    exact hp
  obtain ⟨hanswers, hfinal⟩ := Matches.runAll (fun e he => Edit.run_matches (hw e he)) hstart
  exact ⟨hanswers, Content.validate_ok_iff.2 ⟨_, hfinal.packed, rfl⟩,
    Content.entries_of_packed hfinal.packed, hfinal.used_mod, Store.used_le_capacity _,
    hfinal.capacity, fun e he fault s' => Edit.run_intact he hfinal.used_mod fault s'⟩

theorem edits_simulate_two :
    let edits : List Edit := [.append none (.bool true), .append none .unknown,
      .set 0 (.binary [1, 2, 3].toByteArray)]
    entries (Store.content (Update.runAll Edit.run edits (Owned.empty : Flavor.owned.Storage)).2) =
      located 0 [(none, .binary [1, 2, 3].toByteArray), (none, .unknown)] := by
  intro edits
  have hw : ∀ e ∈ edits, e.WellFormed := by
    simp [edits, Edit.WellFormed, Edit.values, Value.WellFormed]
  have hempty : entries (Store.content (σ := Flavor.owned.Storage) Owned.empty) = [] :=
    Content.entries_of_packed .nil
  have h := (edits_simulate .owned Owned.empty edits (.inl rfl) hw).2.2.1
  rw [hempty] at h
  exact h

end TaggedBuffer
