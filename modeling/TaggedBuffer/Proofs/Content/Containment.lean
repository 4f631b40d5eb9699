import TaggedBuffer.Content.Lookup
import TaggedBuffer.Proofs.Buffer.Canonical
import TaggedBuffer.Proofs.Value.Same

namespace TaggedBuffer.Content

/-- The value of the first entry of that name. -/
def firstValue? (pairs : List Pair) (name : String) : Option Value :=
  (pairs.find? (·.1 = some name)).map (·.2)

def HasValue (pairs : List Pair) (name : String) (v : Value) : Prop :=
  ∃ w, (some name, w) ∈ pairs ∧ w.same v = true

/-- Entries of one name have one value, which is not not-a-number. -/
def SingleValued (pairs : List Pair) : Prop :=
  ∀ name v w, (some name, v) ∈ pairs → (some name, w) ∈ pairs → v.same w = true

variable {pair : Pair} {pairs rest : List Pair} {name : String} {v w : Value}

theorem mem_of_firstValue? (h : firstValue? pairs name = some w) : (some name, w) ∈ pairs := by
  obtain ⟨pair, hfind, rfl⟩ := Option.map_eq_some_iff.1 h
  have hname : pair.1 = some name := by simpa using List.find?_some hfind
  rw [← hname]
  exact List.mem_of_find?_eq_some hfind

theorem exists_firstValue? (h : (some name, v) ∈ pairs) : ∃ w, firstValue? pairs name = some w := by
  have hsome : (pairs.find? (·.1 = some name)).isSome :=
    List.find?_isSome.2 ⟨_, h, decide_eq_true rfl⟩
  obtain ⟨pair, hpair⟩ := Option.isSome_iff_exists.1 hsome
  exact ⟨pair.2, by rw [firstValue?, hpair, Option.map_some]⟩

theorem firstValue?_eq_none_iff : firstValue? pairs name = none ↔ some name ∉ pairs.map (·.1) := by
  rw [firstValue?, Option.map_eq_none_iff, List.find?_eq_none, List.mem_map]
  constructor
  · rintro h ⟨pair, hpair, hname⟩
    exact h pair hpair (decide_eq_true hname)
  · intro h pair hpair hname
    exact h ⟨pair, hpair, of_decide_eq_true hname⟩

theorem firstValue?_append (xs ys : List Pair) (name : String) :
    firstValue? (xs ++ ys) name = (firstValue? xs name).or (firstValue? ys name) := by
  rw [firstValue?, List.find?_append, Option.map_or]
  rfl

theorem firstValue?_cons_of_eq (h : pair.1 = some name) :
    firstValue? (pair :: rest) name = some pair.2 := by
  rw [firstValue?, List.find?_cons_of_pos (by simpa using h), Option.map_some]

theorem firstValue?_cons_of_ne (h : pair.1 ≠ some name) :
    firstValue? (pair :: rest) name = firstValue? rest name := by
  rw [firstValue?, List.find?_cons_of_neg (by simpa using h), firstValue?]

theorem SingleValued.same_first (h : SingleValued pairs) (hfirst : firstValue? pairs name = some w)
    (hv : HasValue pairs name v) : w.same v = true := by
  obtain ⟨u, hu, huv⟩ := hv
  exact Value.same_trans (h name w u (mem_of_firstValue? hfirst) hu) huv

theorem map_find?_hasName (es : List Entry) (name : String) :
    (es.find? (·.hasName name)).map (·.value) = firstValue? (es.map Entry.pair) name := by
  rw [firstValue?, List.find?_map, Option.map_map]
  rfl

theorem containsAll_iff {src other : Bytes} : containsAll src other = true ↔
    ∀ name v, (some name, v) ∈ (entries other).map Entry.pair →
      ∃ w, firstValue? ((entries src).map Entry.pair) name = some w ∧ w.same v = true := by
  rw [containsAll, List.all_eq_true]
  constructor
  · intro h name v hv
    obtain ⟨e, he, hpair⟩ := List.mem_map.1 hv
    obtain ⟨hname, rfl⟩ := Prod.mk.inj hpair
    have hfound := h e he
    rw [hname] at hfound
    obtain ⟨first, hfirst, hsame⟩ := (Option.any_eq_true _ _).1 hfound
    exact ⟨first.value, by rw [← map_find?_hasName, hfirst]; rfl, hsame⟩
  · intro h e he
    split
    next name hname =>
      have hmem : (some name, e.value) ∈ (entries other).map Entry.pair := by
        rw [← hname]
        exact List.mem_map_of_mem (f := Entry.pair) he
      obtain ⟨w, hw, hsame⟩ := h name e.value hmem
      rw [← map_find?_hasName] at hw
      obtain ⟨first, hfirst, rfl⟩ := Option.map_eq_some_iff.1 hw
      rw [hfirst]
      exact hsame
    · rfl

theorem containsAll_self_iff {src : Bytes} :
    containsAll src src = true ↔ SingleValued ((entries src).map Entry.pair) := by
  rw [containsAll_iff]
  constructor
  · intro h name v w hv hw
    obtain ⟨first, hfirst, hsame⟩ := h name v hv
    obtain ⟨first', hfirst', hsame'⟩ := h name w hw
    obtain rfl : first = first' := Option.some.inj (hfirst.symm.trans hfirst')
    exact Value.same_trans (Value.same_symm hsame) hsame'
  · intro h name v hv
    obtain ⟨w, hw⟩ := exists_firstValue? hv
    exact ⟨w, hw, h name w v (mem_of_firstValue? hw) hv⟩

theorem containsAll_trans {a b c : Bytes} (h : containsAll a b = true)
    (h' : containsAll b c = true) : containsAll a c = true := by
  rw [containsAll_iff] at h h' ⊢
  intro name v hv
  obtain ⟨w, hw, hwv⟩ := h' name v hv
  obtain ⟨u, hu, huw⟩ := h name w (mem_of_firstValue? hw)
  exact ⟨u, hu, Value.same_trans huw hwv⟩

/-- Each named value of `other` is compared with the first value of its name, which is the same as
looking at all of them where each name has one value. -/
theorem containsAll_firstValues (src other third : Bytes) :
    let ours := (entries src).map Entry.pair
    let theirs := (entries other).map Entry.pair
    (containsAll src other = true ↔ ∀ name v, (some name, v) ∈ theirs →
      ∃ w, firstValue? ours name = some w ∧ w.same v = true) ∧
    (containsAll src other = true → ∀ name v, (some name, v) ∈ theirs → HasValue ours name v) ∧
    (SingleValued ours → (∀ name v, (some name, v) ∈ theirs → HasValue ours name v) →
      containsAll src other = true) ∧
    (containsAll src src = true ↔ SingleValued ours) ∧
    (containsAll src other = true → containsAll other third = true →
      containsAll src third = true) := by
  intro ours theirs
  refine ⟨containsAll_iff, ?_, ?_, containsAll_self_iff, containsAll_trans⟩
  · intro h name v hv
    obtain ⟨w, hw, hsame⟩ := containsAll_iff.1 h name v hv
    exact ⟨w, mem_of_firstValue? hw, hsame⟩
  · intro hsingle h
    rw [containsAll_iff]
    intro name v hv
    obtain ⟨u, hu, huv⟩ := h name v hv
    obtain ⟨w, hw⟩ := exists_firstValue? hu
    exact ⟨w, hw, hsingle.same_first hw ⟨u, hu, huv⟩⟩

/-- Two entries of one name and no not-a-number: each value is there, and yet the buffer does not
contain itself. -/
theorem containsAll_repeated_name :
    let pairs : List Pair := [(some "x", .bool true), (some "x", .bool false)]
    validate (encoded pairs) = .ok 2 ∧
      (∀ name v, (some name, v) ∈ (entries (encoded pairs)).map Entry.pair →
        ¬ v.IsNan ∧ HasValue ((entries (encoded pairs)).map Entry.pair) name v) ∧
      containsAll (encoded pairs) (encoded pairs) = false := by
  intro pairs
  have hstorable : ∀ pair ∈ pairs, Storable pair :=
    List.forall_mem_cons.2 ⟨⟨trivial, rfl⟩, List.forall_mem_singleton.2 ⟨trivial, rfl⟩⟩
  have hpacked := packed_encoded hstorable
  have hentries := map_pair_entries hpacked
  refine ⟨validate_ok_iff.2 ⟨pairs, hpacked, rfl⟩, ?_, ?_⟩
  · rw [hentries]
    intro name v hv
    have hself : v.same v = true := by
      obtain ⟨-, rfl⟩ | ⟨-, rfl⟩ := by simpa [pairs] using hv
      · rfl
      · rfl
    exact ⟨(Value.same_self v).1 hself, v, hv, hself⟩
  · rw [Bool.eq_false_iff, ne_eq, containsAll_self_iff, hentries]
    intro h
    have hsame := h "x" (.bool true) (.bool false) (.head _) (.tail _ (.head _))
    cases hsame

end TaggedBuffer.Content
