import TaggedBuffer.Proofs.Buffer.Canonical
import TaggedBuffer.Proofs.Record.Machine

namespace TaggedBuffer

open Buffer (pairsSize)

namespace Content

def positions (src : Bytes) : List Nat := (entries src).map (·.position)

variable {src a b : Bytes} {pair : Pair} {xs ys pairs : List Pair}

theorem le_position_of_mem {p : Nat} {e : Entry} (h : e ∈ located p pairs) : p ≤ e.position := by
  induction pairs generalizing p with
  | nil => cases h
  | cons pair pairs ih =>
    rcases List.mem_cons.1 h with rfl | h
    · exact Nat.le_refl p
    · exact Nat.le_trans (Nat.le_add_right _ _) (ih h)

theorem pairwise_located (p : Nat) (pairs : List Pair) :
    ((located p pairs).map (·.position)).Pairwise (· < ·) := by
  induction pairs generalizing p with
  | nil => exact .nil
  | cons pair pairs ih =>
    refine .cons ?_ (ih _)
    intro q hq
    obtain ⟨e, he, rfl⟩ := List.mem_map.1 hq
    have := le_position_of_mem he
    have := entrySize_pos pair.1 pair.2
    dsimp only
    omega

theorem getElem?_positions (h : Packed src pairs) (i : Nat) :
    (positions src)[i]? = pairs[i]?.map fun _ => offset pairs i := by
  rw [positions, entries_of_packed h, List.getElem?_map, getElem?_located, Option.map_map]
  simp only [Function.comp_def, Nat.zero_add]

theorem next?_of_packed (ha : Packed a xs) (hb : Packed b (pair :: ys)) :
    next? (a ++ b) a.size =
      .ok (if ys = [] then none else some (a.size + entrySize pair.1 pair.2)) := by
  have hsize : (a ++ b).size = a.size + (entrySize pair.1 pair.2 + pairsSize ys) := by
    rw [ByteArray.size_append, hb.size, pairsSize_cons]
  have hpos := entrySize_pos pair.1 pair.2
  rw [next?, checkPosition_ok (by omega) ha.size_mod, ha.advance hb, hsize]
  cases ys with
  | nil => simp [bind, Except.bind, pure, Except.pure]
  | cons pair' ys =>
    have := entrySize_pos pair'.1 pair'.2
    rw [pairsSize_cons]
    simp only [bind, Except.bind]
    rw [if_pos (by omega), if_neg (List.cons_ne_nil _ _)]
    rfl

theorem traverseFrom_last {p : Nat} {e : Entry} (he : entryAt src p = .ok e)
    (hn : next? src p = .ok none) : traverseFrom src p = .ok [e] := by
  rw [traverseFrom, he]
  dsimp only
  split
  next h => cases h.symm.trans hn
  next h => rfl
  next h => cases h.symm.trans hn

theorem traverseFrom_step {p q : Nat} {e : Entry} (he : entryAt src p = .ok e)
    (hn : next? src p = .ok (some q)) :
    traverseFrom src p = (traverseFrom src q).map (e :: ·) := by
  rw [traverseFrom, he]
  dsimp only
  split
  next h => cases h.symm.trans hn
  next h => cases h.symm.trans hn
  next h =>
    cases h.symm.trans hn
    rfl

theorem traverseFrom_of_packed (ha : Packed a xs) (hb : Packed b (pair :: ys)) :
    traverseFrom (a ++ b) a.size = .ok (located a.size (pair :: ys)) := by
  induction ys generalizing a b xs pair with
  | nil => exact traverseFrom_last (entryAt_of_packed ha hb) (next?_of_packed ha hb)
  | cons pair' ys ih =>
    have hstep := traverseFrom_step (entryAt_of_packed ha hb) (next?_of_packed ha hb)
    obtain ⟨c, rest, rfl, hc, hrest⟩ := hb.uncons
    have hnext : a.size + entrySize pair.1 pair.2 = (a ++ c).size := by
      rw [ByteArray.size_append, hc.size]
    rw [hstep, hnext, ← ByteArray.append_assoc, ih (ha.append (.singleton hc)) hrest, ← hnext]
    rfl

theorem traverse_of_packed (h : Packed src pairs) : traverse src = .ok (entries src) := by
  have hsize := h.size
  rw [traverse, first?, entries_of_packed h]
  cases pairs with
  | nil =>
    rw [if_pos (hsize.trans pairsSize_nil)]
    rfl
  | cons pair pairs =>
    have hne : src.size ≠ 0 := by
      have := entrySize_pos pair.1 pair.2
      rw [hsize, pairsSize_cons]
      omega
    rw [if_neg hne]
    simpa using traverseFrom_of_packed .nil h

theorem first?_positions (h : Packed src pairs) : first? src = (positions src)[0]? := by
  have hsize := h.size
  rw [getElem?_positions h, first?]
  cases pairs with
  | nil => exact if_pos (hsize.trans pairsSize_nil)
  | cons pair pairs =>
    have := entrySize_pos pair.1 pair.2
    rw [pairsSize_cons] at hsize
    exact if_neg (by omega)

theorem next?_positions (h : Packed src pairs) {i p : Nat} (hp : (positions src)[i]? = some p) :
    next? src p = .ok (positions src)[i + 1]? := by
  rw [getElem?_positions h] at hp ⊢
  obtain ⟨pair, hi, rfl⟩ := Option.map_eq_some_iff.1 hp
  obtain ⟨hlt, rfl⟩ := List.getElem?_eq_some_iff.1 hi
  obtain ⟨a, b, rfl, ha, hb⟩ := h.split_at i
  rw [List.drop_eq_getElem_cons hlt] at hb
  have hoff : offset pairs i = a.size := ha.size.symm
  have hsucc : offset pairs (i + 1) = a.size + entrySize pairs[i].1 pairs[i].2 := by
    rw [offset, List.take_succ_eq_append_getElem hlt, pairsSize_append, ← ha.size]
    rfl
  rw [hoff, next?_of_packed ha hb, ← hsucc]
  by_cases hend : i + 1 < pairs.length
  · rw [List.getElem?_eq_getElem hend, if_neg (by simp [hend])]
    rfl
  · rw [List.getElem?_eq_none (Nat.le_of_not_lt hend), if_pos (by simp; omega)]
    rfl

theorem boundary_iff_mem_positions (h : Packed src pairs) (p : Nat) :
    (∃ e, boundary src p = .ok e) ↔ p ∈ positions src := by
  rw [List.mem_iff_getElem?]
  constructor
  · rintro ⟨e, he⟩
    obtain ⟨a, b, xs, ys, rfl, rfl, rfl, ha, hb⟩ := h.split_of_boundary he
    refine ⟨xs.length, ?_⟩
    rw [getElem?_positions h]
    simp [offset, ha.size]
  · rintro ⟨i, hi⟩
    rw [getElem?_positions h] at hi
    obtain ⟨pair, hget, rfl⟩ := Option.map_eq_some_iff.1 hi
    obtain ⟨hlt, -⟩ := List.getElem?_eq_some_iff.1 hget
    exact ⟨_, boundary_offset h hlt⟩

end Content

open Content

/-- All readers go the same way on any bytes, none of them leaves the bytes or meets a number that
is no word, and on valid content all ways to walk stop at the same places. -/
theorem traversals_agree (src : Bytes) (hsrc : src.size < 2 ^ 63) :
    (∀ p, Machine.Runs (Machine.readHeader src p) (readHeader src p) ∧
      Machine.Runs (Machine.readName src p) (readName src p) ∧
      Machine.Runs (Machine.readValue src p) (readValue src p) ∧
      Machine.Runs (Machine.skipName src p) (skipName src p) ∧
      Machine.Runs (Machine.advance src p) (advance src p) ∧
      Machine.Runs (Machine.decodeEntry src p) (decodeEntry src p)) ∧
    (∀ p e, decodeEntry src p = .ok e →
      p < e.next ∧ e.next ≤ src.size ∧ advance src p = .ok e.next) ∧
    (∀ p q, advance src p = .ok q → p + 4 ≤ q ∧ q ≤ src.size) ∧
    ∀ n, validate src = .ok n →
      (positions src).length = n ∧ (positions src).Pairwise (· < ·) ∧
      first? src = (positions src)[0]? ∧
      (∀ i p, (positions src)[i]? = some p → next? src p = .ok (positions src)[i + 1]?) ∧
      traverse src = .ok (entries src) ∧
      ∀ p, (∃ e, boundary src p = .ok e) ↔ p ∈ positions src := by
  refine ⟨?machine, ?decoded, ?advanced, ?valid⟩
  case machine =>
    intro p
    exact ⟨Machine.readHeader_runs hsrc p, Machine.readName_runs hsrc p,
      Machine.readValue_runs hsrc p, Machine.skipName_runs hsrc p, Machine.advance_runs hsrc p,
      Machine.decodeEntry_runs hsrc p⟩
  case decoded =>
    intro p e h
    exact ⟨decodeEntry_lt h, (decodeEntry_place h).2.2.2, advance_of_decodeEntry h⟩
  case advanced =>
    intro p q h
    exact advance_bounds h
  case valid =>
    intro n h
    obtain ⟨pairs, hp, rfl⟩ := validate_ok_iff.1 h
    refine ⟨?_, ?_, first?_positions hp, fun i p => next?_positions hp, traverse_of_packed hp,
      boundary_iff_mem_positions hp⟩
    · rw [positions, List.length_map, entries_of_packed hp, length_located]
    · rw [positions, entries_of_packed hp]
      exact pairwise_located 0 pairs

theorem traversals_agree_two :
    let src := encoded [(some "a", .bool true), (none, .unknown)]
    src.size < 2 ^ 63 ∧ validate src = .ok 2 ∧ positions src = [0, 16] ∧
      next? src 0 = .ok (some 16) ∧ next? src 16 = .ok none ∧ (¬ ∃ e, boundary src 8 = .ok e) ∧
      Machine.Runs (Machine.decodeEntry src 8) (decodeEntry src 8) := by
  intro src
  have hstorable : ∀ pair ∈ [(some "a", Value.bool true), (none, .unknown)], Storable pair := by
    rw [List.forall_mem_cons, List.forall_mem_singleton]
    exact ⟨⟨trivial, rfl⟩, trivial, rfl⟩
  have hp := packed_encoded hstorable
  have hsrc : src.size < 2 ^ 63 := by decide
  have hvalid : validate src = .ok 2 := validate_ok_iff.2 ⟨_, hp, rfl⟩
  have hpositions : positions src = [0, 16] := by
    rw [positions, entries_of_packed hp]
    rfl
  obtain ⟨hmachine, -, -, h⟩ := traversals_agree src hsrc
  obtain ⟨-, -, -, hnext, -, hboundary⟩ := h 2 hvalid
  rw [hpositions] at hnext hboundary
  refine ⟨hsrc, hvalid, hpositions, hnext 0 0 rfl, hnext 1 16 rfl, ?_, (hmachine 8).2.2.2.2.2⟩
  rw [hboundary]
  decide

end TaggedBuffer
