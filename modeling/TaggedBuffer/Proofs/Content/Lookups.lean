import TaggedBuffer.Proofs.Content.Cursor
import TaggedBuffer.Proofs.Content.Section

namespace TaggedBuffer

namespace Content

variable {src : Bytes} {name : String} {e : Entry} {es before rest : List Entry} {p : Nat}

theorem entriesFrom_cons (h : entriesFrom src p = e :: rest) :
    e.position = p ∧ decodeEntry src p = .ok e ∧ entriesFrom src e.next = rest := by
  by_cases hlt : p < src.size
  · cases hd : decodeEntry src p with
    | ok d =>
      rw [entriesFrom, walk_of_decodeEntry hlt hd] at h
      obtain ⟨rfl, hrest⟩ := List.cons.inj h
      obtain ⟨-, hplace, -⟩ := decodeEntry_ok_iff.1 hd
      exact ⟨congrArg Entry.position hplace, rfl, hrest⟩
    | error fault =>
      rw [entriesFrom, walk_of_fault hlt hd] at h
      cases h
  · rw [entriesFrom, walk, if_neg hlt] at h
    cases h

theorem entriesFrom_suffix (h : entriesFrom src p = before ++ e :: rest) :
    entriesFrom src e.position = e :: rest := by
  induction before generalizing p with
  | nil =>
    rw [(entriesFrom_cons h).1]
    exact h
  | cons d before ih => exact ih (entriesFrom_cons h).2.2

theorem pairwise_entriesFrom (h : entriesFrom src p = es) :
    (es.map (·.position)).Pairwise (· < ·) := by
  induction es generalizing p with
  | nil => exact .nil
  | cons e es ih =>
    obtain ⟨rfl, hd, hrest⟩ := entriesFrom_cons h
    apply List.Pairwise.cons
    · intro q hq
      obtain ⟨d, hmem, rfl⟩ := List.mem_map.1 hq
      rw [← hrest] at hmem
      exact Nat.lt_of_lt_of_le (decodeEntry_lt hd) (mem_walk hmem).1.le
    · exact ih hrest

theorem storable_of_mem (h : e ∈ entries src) : Storable e.pair := by
  obtain ⟨-, -, b, ⟨np, vp, hn, hv, -⟩, -⟩ := decodeEntry_ok_iff.1 (mem_walk h).2
  refine ⟨hv.1, checkEntry_ok_iff.2 ⟨?_, hv.2.1⟩⟩
  intro name hname
  rw [show e.name = some name from hname] at hn
  exact hn.1

theorem packed_of_validate {n : Nat} (h : validate src = .ok n) :
    Packed src ((entries src).map Entry.pair) := by
  obtain ⟨pairs, hp, -⟩ := validate_ok_iff.1 h
  rwa [map_pair_entries hp]

theorem get_of_mem (h : e ∈ entries src) : get src e.position = .ok e.value := by
  have hd := (mem_walk h).2
  obtain ⟨hmod, -, -, hle⟩ := decodeEntry_place hd
  have hlt := Nat.lt_of_lt_of_le (decodeEntry_lt hd) hle
  refine bind_eq_ok.2 ⟨e, ?_, rfl⟩
  rw [entryAt, checkPosition_ok hlt hmod]
  exact hd

theorem sectionEntries_subset (src : Bytes) (name : String) :
    sectionEntries src name ⊆ entries src := by
  rw [sectionEntries]
  split
  next p hp =>
    obtain ⟨e, he, rfl⟩ := Option.map_eq_some_iff.1 hp
    obtain ⟨before, rest, h⟩ := List.append_of_mem (List.mem_of_find?_eq_some he)
    rw [entriesFrom_suffix h, h]
    exact List.Subset.trans (sectionOf_subset _) (List.subset_append_right _ _)
  next => exact List.nil_subset _

theorem mem_of_positionOf? {key : Key} (h : positionOf? src key = some p) :
    ∃ e ∈ entries src, e.position = p := by
  cases key with
  | name name =>
    obtain ⟨e, he, rfl⟩ := Option.map_eq_some_iff.1 h
    exact ⟨e, List.mem_of_find?_eq_some he, rfl⟩
  | index i =>
    obtain ⟨e, he, rfl⟩ := Option.map_eq_some_iff.1 h
    exact ⟨e, List.mem_of_getElem? he, rfl⟩
  | slot name k =>
    obtain ⟨e, he, rfl⟩ := Option.map_eq_some_iff.1 h
    exact ⟨e, sectionEntries_subset src name (List.mem_of_getElem? he), rfl⟩

theorem getKey_of_none {key : Key} (h : positionOf? src key = none) :
    getKey src key = .unknown := by
  rw [getKey, h]
  rfl

theorem getKey_of_mem {key : Key} (he : e ∈ entries src)
    (h : positionOf? src key = some e.position) : getKey src key = e.value := by
  rw [getKey, h, Option.bind_some, get?, get_of_mem he]
  rfl

/-- What a key is resolved to is the place of an entry, whose value is then read. -/
theorem getKey_cases (src : Bytes) (key : Key) :
    (positionOf? src key = none ∧ getKey src key = .unknown) ∨
      ∃ e ∈ entries src, positionOf? src key = some e.position ∧
        get src e.position = .ok e.value ∧ getKey src key = e.value := by
  cases hp : positionOf? src key with
  | none => exact .inl ⟨rfl, getKey_of_none hp⟩
  | some p =>
    obtain ⟨e, he, rfl⟩ := mem_of_positionOf? hp
    exact .inr ⟨e, he, rfl, get_of_mem he, getKey_of_mem he hp⟩

theorem getKey_of_picked {key : Key} {picked : Option Entry} (hmem : ∀ e ∈ picked, e ∈ entries src)
    (h : positionOf? src key = picked.map (·.position)) :
    getKey src key = (picked.map (·.value)).getD .unknown := by
  cases picked with
  | none => exact getKey_of_none h
  | some e => exact getKey_of_mem (hmem e rfl) h

theorem value_eq (src : Bytes) (name : String) :
    value src name = (((entries src).find? (·.hasName name)).map (·.value)).getD .unknown :=
  getKey_of_picked (fun _ => List.mem_of_find?_eq_some) rfl

theorem valueAt_eq (src : Bytes) (i : Nat) :
    valueAt src i = ((entries src)[i]?.map (·.value)).getD .unknown :=
  getKey_of_picked (fun _ => List.mem_of_getElem?) rfl

theorem count_eq (src : Bytes) (name : String) :
    count src name = ((entries src).filter (·.hasName name)).length := by
  rw [count, names, ← List.countP_eq_length_filter, List.countP_filterMap,
    List.countP_eq_length_filter]
  congr 1
  apply List.filter_congr
  intro e he
  cases hname : e.name <;> simp [Entry.hasName, hname]

theorem findFrom?_of_split (h : entries src = before ++ e :: rest) :
    findFrom? src name e.position = (rest.find? (·.hasName name)).map (·.position) := by
  obtain ⟨-, hd, hrest⟩ := entriesFrom_cons (entriesFrom_suffix h)
  rw [findFrom?, advance_of_decodeEntry hd]
  dsimp only
  rw [hrest]

/-- From a first position, asking each time for the next entry of the name behind the last one found
gives these positions and then none. -/
inductive Resumes (src : Bytes) (name : String) : Option Nat → List Nat → Prop
  | done : Resumes src name none []
  | next {p : Nat} {ps : List Nat} :
      Resumes src name (findFrom? src name p) ps → Resumes src name (some p) (p :: ps)

theorem Resumes.unique {start : Option Nat} {ps qs : List Nat} (h : Resumes src name start ps)
    (h' : Resumes src name start qs) : ps = qs := by
  induction h generalizing qs with
  | done =>
    cases h'
    rfl
  | @next p ps hp ih =>
    cases h' with
    | next hq => rw [ih hq]

theorem resumes_suffix (h : entries src = before ++ rest) :
    Resumes src name ((rest.find? (·.hasName name)).map (·.position))
      ((rest.filter (·.hasName name)).map (·.position)) := by
  induction rest generalizing before with
  | nil => exact .done
  | cons e rest ih =>
    have hnext : entries src = (before ++ [e]) ++ rest := by
      rw [h, List.append_assoc]
      rfl
    by_cases hname : e.hasName name
    · rw [List.find?_cons_of_pos hname, List.filter_cons_of_pos hname]
      apply Resumes.next
      rw [findFrom?_of_split h]
      exact ih hnext
    · rw [List.find?_cons_of_neg hname, List.filter_cons_of_neg hname]
      exact ih hnext

theorem resumes_iff (src : Bytes) (name : String) (ps : List Nat) :
    Resumes src name (find? src name) ps ↔ ps = findAll src name := by
  have hall : Resumes src name (find? src name) (findAll src name) :=
    resumes_suffix (List.nil_append _).symm
  constructor
  · intro h
    exact h.unique hall
  · rintro rfl
    exact hall

end Content

open Content

/-- All lookups agree with one list, the entries that can be read in order. -/
theorem lookups_agree (src : Bytes) (name : String) :
    let es := entries src
    let hits := es.filter (·.hasName name)
    (es.map (·.position)).Pairwise (· < ·) ∧
    findAll src name = hits.map (·.position) ∧ (findAll src name).Pairwise (· < ·) ∧
    find? src name = (findAll src name).head? ∧
    (∀ k, findNth? src name k = (findAll src name)[k]?) ∧
    count src name = (findAll src name).length ∧
    (contains src name = true ↔ findAll src name ≠ []) ∧
    (∀ ps, Resumes src name (find? src name) ps ↔ ps = findAll src name) ∧
    findPair src name =
      ((hits[0]?.map (·.value)).getD .unknown, (hits[1]?.map (·.value)).getD .unknown) ∧
    (∀ i, findIndex? src i = es[i]?.map (·.position) ∧
      positionOf? src (.index i) = es[i]?.map (·.position) ∧
      valueAt src i = (es[i]?.map (·.value)).getD .unknown) ∧
    value src name = (hits.head?.map (·.value)).getD .unknown ∧
    (∀ key, (positionOf? src key = none ∧ getKey src key = .unknown) ∨
      ∃ e ∈ es, positionOf? src key = some e.position ∧ get src e.position = .ok e.value ∧
        getKey src key = e.value) ∧
    (∀ names, getMany src names =
      names.map fun n => ((es.find? (·.hasName n)).map (·.value)).getD .unknown) ∧
    ∀ v, findValue? src name v = (hits.find? (·.value.sameGroup v)).map (·.position) := by
  intro es hits
  have hfirst : hits.head? = es.find? (·.hasName name) := List.head?_filter
  have hsorted : (es.map (·.position)).Pairwise (· < ·) := pairwise_entriesFrom rfl
  have hhead : find? src name = (findAll src name).head? := by
    rw [findAll, List.head?_map, hfirst]
    rfl
  refine ⟨hsorted, rfl, hsorted.sublist (List.filter_sublist.map _), hhead, ?number, ?count,
    ?contains, resumes_iff src name, ?pair, fun i => ⟨rfl, rfl, valueAt_eq src i⟩, ?value,
    getKey_cases src, ?many, ?findValue⟩
  case number =>
    intro k
    rw [findNth?, findAll, List.getElem?_map]
  case count => rw [count_eq, findAll, List.length_map]
  case contains => rw [contains, hhead, List.isSome_head?]
  case pair => simp only [findPair, List.getElem?_map, es, hits]
  case value => rw [value_eq, hfirst]
  case many =>
    intro names
    exact List.map_congr_left fun n _ => value_eq src n
  case findValue =>
    intro v
    simp only [findValue?, hits, es, List.find?_filter, Bool.decide_and, Bool.decide_eq_true]

end TaggedBuffer
