import TaggedBuffer.Proofs.Content.Framed

namespace TaggedBuffer.Content

open Buffer (pairsSize sectionPairs)

/-- A section is the first entry of the name and all unnamed entries after it. Where the name does not
occur, all entries are before the section. -/
inductive Sectioned (name : String) : List Pair → List Pair → List Pair → Prop
  | absent {pre : List Pair} : (∀ pair ∈ pre, pair.1 ≠ some name) → Sectioned name pre [] []
  | present {pre run post : List Pair} (v : Value) : (∀ pair ∈ pre, pair.1 ≠ some name) →
      (∀ pair ∈ run, pair.1 = none) → (∀ pair ∈ post.head?, pair.1 ≠ none) →
      Sectioned name pre ((some name, v) :: run) post

variable {name : String} {pre sec run post pairs : List Pair}

namespace Sectioned

theorem pre_unlike (h : Sectioned name pre sec post) : ∀ pair ∈ pre, pair.1 ≠ some name := by
  cases h with
  | absent hpre => exact hpre
  | present v hpre hrun hpost => exact hpre

theorem post_named (h : Sectioned name pre sec post) : ∀ pair ∈ post.head?, pair.1 ≠ none := by
  cases h with
  | absent hpre => exact fun _ h => nomatch h
  | present v hpre hrun hpost => exact hpost

theorem run_unnamed (h : Sectioned name pre (pair :: run) post) : ∀ pair ∈ run, pair.1 = none := by
  cases h with
  | present v hpre hrun hpost => exact hrun

end Sectioned

theorem takeWhile_of_section (hr : ∀ pair ∈ run, pair.1 = none)
    (hp : ∀ pair ∈ post.head?, pair.1 ≠ none) : (run ++ post).takeWhile isUnnamed = run := by
  have hrun : ∀ pair ∈ run, isUnnamed pair = true := fun pair h =>
    Option.isNone_iff_eq_none.2 (hr pair h)
  rw [List.takeWhile_append_of_pos hrun]
  cases post with
  | nil => rw [List.takeWhile_nil, List.append_nil]
  | cons pair post =>
    have hnamed : isUnnamed pair = false := Option.isNone_eq_false_iff.2 <| by
      simpa [Option.isSome_iff_ne_none] using hp pair rfl
    rw [List.takeWhile_cons, hnamed, if_neg Bool.false_ne_true, List.append_nil]

theorem dropWhile_of_section (hr : ∀ pair ∈ run, pair.1 = none)
    (hp : ∀ pair ∈ post.head?, pair.1 ≠ none) : (run ++ post).dropWhile isUnnamed = post := by
  have h := List.takeWhile_append_dropWhile (p := isUnnamed) (l := run ++ post)
  rw [takeWhile_of_section hr hp] at h
  exact List.append_cancel_left h

theorem exists_run (pairs : List Pair) : ∃ run post, pairs = run ++ post ∧
    (∀ pair ∈ run, pair.1 = none) ∧ ∀ pair ∈ post.head?, pair.1 ≠ none := by
  refine ⟨pairs.takeWhile isUnnamed, pairs.dropWhile isUnnamed,
    List.takeWhile_append_dropWhile.symm, ?_, ?_⟩
  · intro pair h
    exact Option.isNone_iff_eq_none.1 (List.all_eq_true.1 List.all_takeWhile pair h)
  · intro pair h hnone
    have hnamed := List.head?_dropWhile_not isUnnamed pairs
    rw [Option.mem_def.1 h] at hnamed
    simp [isUnnamed, hnone] at hnamed

theorem exists_sectioned (name : String) (pairs : List Pair) :
    ∃ pre sec post, pairs = pre ++ sec ++ post ∧ Sectioned name pre sec post := by
  induction pairs with
  | nil => exact ⟨[], [], [], rfl, .absent fun _ h => absurd h List.not_mem_nil⟩
  | cons pair pairs ih =>
    by_cases hname : pair.1 = some name
    · obtain ⟨run, post, rfl, hr, hp⟩ := exists_run pairs
      refine ⟨[], pair :: run, post, rfl, ?_⟩
      obtain ⟨_, v⟩ := pair
      obtain rfl : _ = some name := hname
      exact .present v (fun _ h => absurd h List.not_mem_nil) hr hp
    · obtain ⟨pre, sec, post, rfl, hs⟩ := ih
      refine ⟨pair :: pre, sec, post, rfl, ?_⟩
      cases hs with
      | absent h => exact .absent (List.forall_mem_cons.2 ⟨hname, h⟩)
      | present v h hr hp => exact .present v (List.forall_mem_cons.2 ⟨hname, h⟩) hr hp

theorem located_append (p : Nat) (xs ys : List Pair) :
    located p (xs ++ ys) = located p xs ++ located (p + pairsSize xs) ys := by
  induction xs generalizing p with
  | nil => rfl
  | cons x xs ih => simp [located, ih, Nat.add_assoc]

theorem find?_located_of_not (p : Nat) (h : ∀ pair ∈ pre, pair.1 ≠ some name) :
    (located p pre).find? (·.hasName name) = none := by
  rw [List.find?_eq_none]
  intro e he
  have hpair := List.mem_map_of_mem (f := Entry.pair) he
  rw [map_pair_located] at hpair
  simpa [Entry.hasName, Entry.pair] using h e.pair hpair

theorem find?_absent {src : Bytes} (hs : Packed src pre) (h : ∀ pair ∈ pre, pair.1 ≠ some name) :
    find? src name = none := by
  rw [find?, entries_of_packed hs, find?_located_of_not 0 h]
  rfl

theorem find?_present {a b : Bytes} {v : Value} (ha : Packed a pre)
    (hb : Packed b ((some name, v) :: pairs)) (h : ∀ pair ∈ pre, pair.1 ≠ some name) :
    find? (a ++ b) name = some a.size := by
  rw [find?, entries_of_packed (ha.append hb), located_append, List.find?_append,
    find?_located_of_not 0 h, Option.none_or, located, List.find?_cons_of_pos]
  · simp [ha.size]
  · simp [Entry.hasName]

theorem takeWhile_located (p : Nat) (pairs : List Pair) :
    (located p pairs).takeWhile (!·.isNamed) = located p (pairs.takeWhile isUnnamed) := by
  induction pairs generalizing p with
  | nil => rfl
  | cons pair pairs ih =>
    obtain ⟨name, v⟩ := pair
    cases name with
    | none => exact congrArg _ (ih _)
    | some name => rfl

theorem sectionEntries_of_packed {src : Bytes} (h : Sectioned name pre sec post)
    (hs : Packed src (pre ++ sec ++ post)) :
    sectionEntries src name = located (pairsSize pre) sec := by
  rw [sectionEntries]
  cases h with
  | absent hpre =>
    simp only [List.append_nil] at hs
    rw [find?_absent hs hpre]
    rfl
  | present v hpre hrun hpost =>
    rw [List.append_assoc] at hs
    obtain ⟨a, b, rfl, ha, hb⟩ := hs.split
    rw [find?_present ha hb hpre]
    dsimp only
    rw [entriesFrom_of_packed ha hb, ← ha.size, List.cons_append, located, sectionOf,
      takeWhile_located, takeWhile_of_section hrun hpost]
    rfl

theorem sectionValues_of_packed {src : Bytes} (h : Sectioned name pre sec post)
    (hs : Packed src (pre ++ sec ++ post)) : sectionValues src name = sec.map (·.2) := by
  rw [sectionValues, sectionEntries_of_packed h hs]
  conv => rhs; rw [← map_pair_located (pairsSize pre) sec, List.map_map]
  rfl

theorem sectionOf_subset (es : List Entry) : sectionOf es ⊆ es := by
  cases es with
  | nil => exact List.Subset.refl []
  | cons e rest => exact List.cons_subset_cons e (List.takeWhile_subset _)

theorem sectionValues_wellFormed (src : Bytes) (name : String) :
    ∀ v ∈ sectionValues src name, v.WellFormed := by
  intro v hv
  obtain ⟨e, he, rfl⟩ := List.mem_map.1 hv
  rw [sectionEntries] at he
  split at he
  · exact entriesFrom_wellFormed src _ e (sectionOf_subset _ he)
  · exact absurd he List.not_mem_nil

end TaggedBuffer.Content
