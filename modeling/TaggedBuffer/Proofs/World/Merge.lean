import TaggedBuffer.Proofs.Buffer.Room
import TaggedBuffer.Proofs.Buffer.Splices
import TaggedBuffer.Proofs.Content.Containment
import TaggedBuffer.Proofs.Content.Lookups
import TaggedBuffer.Proofs.World.Frame

namespace TaggedBuffer

open Buffer (pairsSize)

namespace Content

/-- The first entry of each name of `theirs` that `ours` does not have, in their order. -/
def newcomers (ours theirs : List Pair) : List Pair :=
  (theirs.filter fun pair => pair.1 ≠ none ∧ pair.1 ∉ ours.map (·.1)).eraseDupsBy
    fun x y => x.1 = y.1

variable {src : Bytes} {name : String} {ours theirs rest pairs : List Pair} {pair : Pair}

theorem newcomers_cons_of_known (h : pair.1 = none ∨ pair.1 ∈ ours.map (·.1)) :
    newcomers ours (pair :: rest) = newcomers ours rest := by
  rw [newcomers, List.filter_cons_of_neg, newcomers]
  rw [decide_eq_true_eq]
  rintro ⟨hname, hnew⟩
  exact h.elim hname hnew

theorem newcomers_cons_of_new (hname : pair.1 ≠ none) (hnew : pair.1 ∉ ours.map (·.1)) :
    newcomers ours (pair :: rest) = pair :: newcomers (ours ++ [pair]) rest := by
  rw [newcomers, List.filter_cons_of_pos (by simp [hname, hnew]),
    List.eraseDupsBy_cons, List.filter_filter, newcomers]
  congr 2
  apply List.filter_congr
  intro x _
  rw [Bool.eq_iff_iff]
  simp only [List.map_append, List.mem_append, List.map_cons, List.map_nil, List.mem_singleton,
    Bool.and_eq_true, decide_eq_true_eq, decide_eq_false_iff_not, not_or]
  exact ⟨fun ⟨hp, hn, ho⟩ => ⟨hn, ho, hp⟩, fun ⟨hn, ho, hp⟩ => ⟨hp, hn, ho⟩⟩

theorem newcomers_subset (ours theirs : List Pair) : newcomers ours theirs ⊆ theirs := by
  induction theirs generalizing ours with
  | nil => exact List.Subset.refl _
  | cons pair rest ih =>
    by_cases h : pair.1 = none ∨ pair.1 ∈ ours.map (·.1)
    · rw [newcomers_cons_of_known h]
      exact List.subset_cons_of_subset _ (ih ours)
    · rw [not_or] at h
      rw [newcomers_cons_of_new h.1 h.2]
      exact List.cons_subset_cons _ (ih _)

theorem firstValue?_newcomers (h : some name ∉ ours.map (·.1)) :
    firstValue? (newcomers ours theirs) name = firstValue? theirs name := by
  induction theirs generalizing ours with
  | nil => rfl
  | cons pair rest ih =>
    by_cases hknown : pair.1 = none ∨ pair.1 ∈ ours.map (·.1)
    · have hne : pair.1 ≠ some name := by
        rintro heq
        rw [heq] at hknown
        exact hknown.elim nofun h
      rw [newcomers_cons_of_known hknown, firstValue?_cons_of_ne hne]
      exact ih h
    · rw [not_or] at hknown
      rw [newcomers_cons_of_new hknown.1 hknown.2]
      by_cases heq : pair.1 = some name
      · rw [firstValue?_cons_of_eq heq, firstValue?_cons_of_eq heq]
      · rw [firstValue?_cons_of_ne heq, firstValue?_cons_of_ne heq]
        apply ih
        simp only [List.map_append, List.mem_append, not_or]
        exact ⟨h, by simpa using Ne.symm heq⟩

theorem newcomers_again (ours theirs : List Pair) :
    newcomers (ours ++ newcomers ours theirs) theirs = [] := by
  rw [newcomers, List.filter_eq_nil_iff.2]
  · rfl
  · intro pair hpair
    rw [decide_eq_true_eq]
    rintro ⟨hname, hnew⟩
    obtain ⟨name, hname⟩ := Option.ne_none_iff_exists'.1 hname
    rw [hname, List.map_append, List.mem_append, not_or] at hnew
    have hmissing := firstValue?_eq_none_iff.2 hnew.2
    rw [firstValue?_newcomers hnew.1, firstValue?_eq_none_iff, ← hname] at hmissing
    exact hmissing (List.mem_map_of_mem hpair)

theorem contains_iff (h : Packed src pairs) :
    contains src name = true ↔ some name ∈ pairs.map (·.1) := by
  have hfirst := map_find?_hasName (entries src) name
  rw [map_pair_entries h] at hfirst
  rw [contains, find?, Option.isSome_map, ← Option.isSome_map, hfirst,
    Option.isSome_iff_ne_none, ne_eq, firstValue?_eq_none_iff, Decidable.not_not]

theorem value_of_packed (h : Packed src pairs) (name : String) :
    value src name = (firstValue? pairs name).getD .unknown := by
  rw [value_eq, map_find?_hasName, map_pair_entries h]

/-- What merging `other` leaves of `src`: all that was there, and the missing entries after it. -/
structure Merged (src other out : Bytes) : Prop where
  lists : Lists out ((entries src).map Entry.pair ++
    newcomers ((entries src).map Entry.pair) ((entries other).map Entry.pair))
  kept : entries src <+: entries out
  values : ∀ name, value out name =
    if contains src name then value src name else value other name

theorem merged_append {other tail : Bytes} (hs : Packed src ((entries src).map Entry.pair))
    (ho : Packed other ((entries other).map Entry.pair))
    (htail : Packed tail
      (newcomers ((entries src).map Entry.pair) ((entries other).map Entry.pair))) :
    Merged src other (src ++ tail) := by
  have hout := hs.append htail
  constructor
  · exact lists_iff_packed.2 hout
  · rw [entries_of_packed hout, located_append, ← entries_of_packed hs]
    exact List.prefix_append _ _
  · intro name
    rw [value_of_packed hout, value_of_packed hs, value_of_packed ho, firstValue?_append]
    split
    next hknown =>
      have hsome := mt firstValue?_eq_none_iff.1 (not_not_intro ((contains_iff hs).1 hknown))
      obtain ⟨v, hv⟩ := Option.ne_none_iff_exists'.1 hsome
      rw [hv, Option.some_or]
    next hnew =>
      have hnone := mt (contains_iff hs).2 hnew
      rw [firstValue?_eq_none_iff.2 hnone, Option.none_or, firstValue?_newcomers hnone]

end Content

open Content

namespace Buffer

variable {σ : Type} [Store σ] [LawfulStore σ] {s : σ} {ours : List Pair}

theorem mergeEntries_eq {es : List Entry} (hs : Packed (Store.content s) ours)
    (he : ∀ e ∈ es, Storable e.pair) :
    mergeEntries es s = appendAll (newcomers ours (es.map Entry.pair)) s := by
  -- What is known grows with each entry that is added, so `ours` is general.
  induction es generalizing s ours with
  | nil => rfl
  | cons e rest ih =>
    obtain ⟨hstorable, hrest⟩ := List.forall_mem_cons.1 he
    rw [List.map_cons]
    unfold mergeEntries
    cases hname : e.name with
    | none =>
      rw [newcomers_cons_of_known (.inl hname)]
      exact ih hs hrest
    | some name =>
      have hpair : e.pair = (some name, e.value) := by rw [Entry.pair, hname]
      rw [hpair] at hstorable ⊢
      dsimp only
      rw [bind_content]
      by_cases hknown : some name ∈ ours.map (·.1)
      · rw [if_pos ((contains_iff hs).2 hknown), newcomers_cons_of_known (.inr hknown)]
        exact ih hs hrest
      · rw [if_neg (mt (contains_iff hs).1 hknown),
          newcomers_cons_of_new (Option.some_ne_none name) hknown, appendAll]
        cases happend : append (some name) e.value s with
        | ok p s₁ =>
          have hpacked := packed_encoded (List.forall_mem_singleton.2 hstorable)
          have hs₁ : Packed (Store.content s₁) (ours ++ [(some name, e.value)]) := by
            rw [append_run_eq happend, ← encoded_singleton]
            exact hs.append hpacked
          rw [Update.bind_of_ok happend, Update.bind_of_ok happend]
          exact ih hs₁ hrest
        | error fault s₁ =>
          rw [Update.bind_of_error happend, Update.bind_of_error happend]

end Buffer

theorem Update.final_map {σ α β : Type} (f : α → β) (m : Update σ α) (s : σ) :
    final ((f <$> m) s) = final (m s) := by
  cases hm : m s with
  | ok a s' => rw [map_of_ok hm]; rfl
  | error e s' => rw [map_of_error hm]; rfl

theorem World.seen?_of_stored? {w : World} {name : String} {f : Flavor} {t : f.Storage}
    (h : w.stored? name = some ⟨f, t⟩) : w.seen? name = some (Store.seen t) := by
  rw [stored?] at h
  rw [seen?]
  split at h
  next hl =>
    cases h
    rw [hl]
    rfl
  next hl =>
    cases h
    rw [hl]
    rfl
  next hl =>
    obtain ⟨t', hview, heq⟩ := Option.map_eq_some_iff.1 h
    cases heq
    rw [hl, Pool.seen?, hview]
    rfl

/-- Merging leaves what was there, adds the entries that are missing, fails for want of room only
and does nothing when done again. A step of a world that merges leaves the other buffer. -/
theorem merge_newcomers {f g : Flavor} (a : f.Storage) (b : g.Storage) {n m : Nat}
    (ha : validate (Store.content a) = .ok n) (hb : validate (Store.content b) = .ok m) :
    let src := Store.content a
    let other := Store.content b
    let added := newcomers ((entries src).map Entry.pair) ((entries other).map Entry.pair)
    (∀ a', Buffer.merge other a = .ok () a' →
      Store.content a' = src ++ encoded added ∧ Merged src other (Store.content a') ∧
        Buffer.merge other a' = .ok () a') ∧
    (∀ e a', Buffer.merge other a = .error e a' → e.IsAllocation) ∧
    (HasRoom (Store.capacity a) (Store.used a + pairsSize added) →
      ∃ a', Buffer.merge other a = .ok () a') ∧
    ∀ (steps : List Step) (x y : String), y ≠ x →
      let w := (World.empty.run steps).2
      w.stored? x = some ⟨f, a⟩ → w.stored? y = some ⟨g, b⟩ →
        (w.step (.merge x y)).2.stored? x = some ⟨f, Update.final (Buffer.merge other a)⟩ ∧
        (w.step (.merge x y)).2.seen? y = w.seen? y := by
  intro src other added
  have hours : Packed src ((entries src).map Entry.pair) := packed_of_validate ha
  have htheirs : Packed other ((entries other).map Entry.pair) := packed_of_validate hb
  have hstorable : ∀ pair ∈ added, Storable pair := by
    intro pair hpair
    obtain ⟨e, he, rfl⟩ := List.mem_map.1 (newcomers_subset _ _ hpair)
    exact storable_of_mem he
  have hrun : Within (Store.used a + pairsSize added) a
      (fun _ a' => Store.content a' = src ++ encoded added) (Buffer.merge other a) := by
    rw [Buffer.merge, Buffer.mergeEntries_eq hours fun e => storable_of_mem]
    apply Buffer.appendAll_within hours.size_mod fun pair hpair => (hstorable pair hpair).2
    apply Nat.le_of_eq
    rw [Store.size_content]
  refine ⟨?merged, fun e a' h => hrun.of_error h, ?roomy, ?world⟩
  case merged =>
    intro a' h
    have hcontent := hrun.of_ok h
    have hpacked := packed_encoded hstorable
    refine ⟨hcontent, hcontent ▸ merged_append hours htheirs hpacked, ?_⟩
    have hall : Packed (Store.content a') ((entries src).map Entry.pair ++ added) :=
      hcontent ▸ hours.append hpacked
    rw [Buffer.merge, Buffer.mergeEntries_eq hall fun e => storable_of_mem, newcomers_again]
    rfl
  case roomy =>
    intro hroom
    obtain ⟨_, a', h, -⟩ := hrun.exists_ok hroom
    exact ⟨a', h⟩
  case world =>
    intro steps x y hne w hx hy
    have hw := (Mirrors.empty.run closed_true fun s (_ : s ∈ steps) => s.allowed_true).2
    refine ⟨?_, hw.seen?_step_ne closed_true (Step.allowed_true _) hne⟩
    rw [World.step, World.seen?_of_stored? hy]
    have hstored := World.stored?_update hx (Call.merge other).run
    rwa [Call.run, Update.final_map] at hstored

/-- The other buffer is a clone that an unnamed entry and two entries of a new name were added to. -/
theorem merge_newcomers_clone :
    let add (name : Option String) (v : Value) (x : String) : Step := .call x (.edit (.append name v))
    let steps : List Step := [.create "x" .shared .new, add (some "k") (.bool true) "x",
      .clone "x" "y", add none .unknown "y", add (some "n") (.bool true) "y",
      add (some "n") (.bool false) "y"]
    let w := (World.empty.run steps).2
    ∃ (f g : Flavor) (a : f.Storage) (b : g.Storage),
      w.stored? "x" = some ⟨f, a⟩ ∧ w.stored? "y" = some ⟨g, b⟩ ∧
      validate (Store.content a) = .ok 1 ∧ validate (Store.content b) = .ok 4 ∧
      (∃ a', Buffer.merge (Store.content b) a = .ok () a' ∧
        Store.content a' = encoded [(some "k", .bool true), (some "n", .bool true)] ∧
        Buffer.merge (Store.content b) a' = .ok () a') ∧
      (w.step (.merge "x" "y")).2.seen? "y" = w.seen? "y" := by
  intro add steps w
  let xs : List Pair := [(some "k", .bool true)]
  let ys : List Pair := [(some "k", .bool true), (none, .unknown), (some "n", .bool true),
    (some "n", .bool false)]
  have hxs : ∀ pair ∈ xs, Storable pair := List.forall_mem_singleton.2 ⟨trivial, rfl⟩
  have hys : ∀ pair ∈ ys, Storable pair := by
    simp only [ys, List.forall_mem_cons]
    exact ⟨⟨trivial, rfl⟩, ⟨trivial, rfl⟩, ⟨trivial, rfl⟩, ⟨trivial, rfl⟩, List.forall_mem_nil _⟩
  have hx : (w.stored? "x").map (fun t => Store.content t.2) = some (encoded xs) := by
    decide +kernel
  have hy : (w.stored? "y").map (fun t => Store.content t.2) = some (encoded ys) := by
    decide +kernel
  obtain ⟨⟨f, a⟩, hx, ha⟩ := Option.map_eq_some_iff.1 hx
  obtain ⟨⟨g, b⟩, hy, hb⟩ := Option.map_eq_some_iff.1 hy
  have hpa : Packed (Store.content a) xs := ha ▸ packed_encoded hxs
  have hpb : Packed (Store.content b) ys := hb ▸ packed_encoded hys
  have hva : validate (Store.content a) = .ok 1 := validate_ok_iff.2 ⟨xs, hpa, rfl⟩
  have hvb : validate (Store.content b) = .ok 4 := validate_ok_iff.2 ⟨ys, hpb, rfl⟩
  have hnew : newcomers xs ys = [(some "n", .bool true)] := by decide +kernel
  obtain ⟨hmerged, -, hroomy, hworld⟩ := merge_newcomers a b hva hvb
  rw [map_pair_entries hpa, map_pair_entries hpb, hnew] at hmerged hroomy
  obtain ⟨a', ha'⟩ := hroomy (.inr (by rw [← Store.size_content, hpa.size]; decide))
  obtain ⟨hcontent, -, hagain⟩ := hmerged a' ha'
  refine ⟨f, g, a, b, hx, hy, hva, hvb, ⟨a', ha', ?_, hagain⟩, (hworld steps "x" "y" ?_ hx hy).2⟩
  · rw [hcontent, ha, ← encoded_append]
    rfl
  · decide

end TaggedBuffer
