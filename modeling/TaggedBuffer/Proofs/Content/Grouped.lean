import TaggedBuffer.Content.Group
import TaggedBuffer.Proofs.Buffer.Keyed
import TaggedBuffer.Proofs.Content.Lookups

namespace TaggedBuffer

open Buffer (pairsSize)

namespace Content

def Group.pairs (g : Group) : List Pair :=
  (if g.key = "" then none else some g.key, g.first) :: g.rest.map fun v => (none, v)

/-- Each group is made of one entry and all unnamed entries after it. -/
inductive Grouping : List Group → List Entry → Prop
  | nil : Grouping [] []
  | cons {e : Entry} {run post : List Entry} {gs : List Group} : (∀ d ∈ run, d.name = none) →
      (∀ d ∈ post.head?, d.name ≠ none) → Grouping gs post →
      Grouping (⟨e.name.getD "", e.value, run.map (·.value)⟩ :: gs) (e :: (run ++ post))

variable {src : Bytes} {name : String} {es xs ys : List Entry} {gs : List Group}

theorem grouping_groupsOf (es : List Entry) : Grouping (groupsOf es) es := by
  induction es with
  | nil => exact .nil
  | cons e rest ih =>
    cases rest with
    | nil => exact @Grouping.cons e [] [] [] (List.forall_mem_nil _) (fun _ h => nomatch h) .nil
    | cons d rest =>
      cases hd : d.name with
      | some name =>
        have hgs : groupsOf (e :: d :: rest) =
            ⟨e.name.getD "", e.value, []⟩ :: groupsOf (d :: rest) := by
          rw [groupsOf]
          simp [Entry.isNamed, hd]
        rw [hgs]
        refine @Grouping.cons e [] _ _ (List.forall_mem_nil _) ?_ ih
        rintro d ⟨⟩
        rw [hd]
        exact Option.some_ne_none _
      | none =>
        -- The first group of the rest is the one that this entry joins.
        generalize hgs : groupsOf (d :: rest) = gs at ih
        cases ih with
        | @cons _ run post gs hrun hpost h =>
          rw [groupsOf, hgs]
          simp only [Entry.isNamed, hd]
          exact @Grouping.cons e (d :: run) _ _ (List.forall_mem_cons.2 ⟨hd, hrun⟩) hpost h

/-- Names are not empty, so that the empty key stands for no name. -/
theorem pairs_of_run {e : Entry} {run : List Entry} (he : e.name ≠ some "")
    (hrun : ∀ d ∈ run, d.name = none) :
    Group.pairs ⟨e.name.getD "", e.value, run.map (·.value)⟩ = (e :: run).map Entry.pair := by
  have hkey : (if e.name.getD "" = "" then none else some (e.name.getD "")) = e.name := by
    cases hname : e.name with
    | none => rfl
    | some name =>
      rw [hname, ne_eq, Option.some.injEq] at he
      exact if_neg he
  rw [Group.pairs, hkey, List.map_map, List.map_cons]
  congr 1
  apply List.map_congr_left
  intro d hd
  rw [Entry.pair, hrun d hd]
  rfl

namespace Grouping

theorem flatMap_pairs (h : Grouping gs es) (hn : ∀ e ∈ es, e.name ≠ some "") :
    gs.flatMap Group.pairs = es.map Entry.pair := by
  induction h with
  | nil => rfl
  | @cons e run post gs hrun hpost h ih =>
    obtain ⟨he, hrest⟩ := List.forall_mem_cons.1 hn
    rw [List.flatMap_cons, ih fun d hd => hrest d (List.mem_append_right _ hd),
      pairs_of_run he hrun, ← List.map_append, List.cons_append]

theorem exists_of_mem (h : Grouping gs es) {g : Group} (hg : g ∈ gs) :
    ∃ e ∈ es, g.key = e.name.getD "" := by
  induction h with
  | nil => cases hg
  | @cons e run post gs hrun hpost h ih =>
    rcases List.mem_cons.1 hg with rfl | hg
    · exact ⟨e, .head _, rfl⟩
    · obtain ⟨d, hd, hkey⟩ := ih hg
      exact ⟨d, .tail _ (List.mem_append_right _ hd), hkey⟩

theorem key_ne_of_unlike (h : Grouping gs es) (hne : name ≠ "")
    (hunlike : ∀ e ∈ es, e.name ≠ some name) : ∀ g ∈ gs, g.key ≠ name := by
  intro g hg hkey
  obtain ⟨e, he, hkey'⟩ := h.exists_of_mem hg
  apply hunlike e he
  rw [hkey'] at hkey
  cases hname : e.name with
  | none =>
    rw [hname] at hkey
    exact absurd hkey.symm hne
  | some other =>
    rw [hname] at hkey
    exact congrArg some hkey

theorem key_ne (h : Grouping gs es) (hn : ∀ e ∈ es, e.name ≠ some "")
    (hhead : ∀ e ∈ es.head?, e.name ≠ none) : ∀ g ∈ gs, g.key ≠ "" := by
  induction h with
  | nil => exact List.forall_mem_nil _
  | @cons e run post gs hrun hpost h ih =>
    obtain ⟨he, hrest⟩ := List.forall_mem_cons.1 hn
    intro g hg
    rcases List.mem_cons.1 hg with rfl | hg
    · obtain ⟨name, hname⟩ := Option.ne_none_iff_exists'.1 (hhead e rfl)
      rw [hname, ne_eq, Option.some.injEq] at he
      simpa [hname] using he
    · exact ih (fun d hd => hrest d (List.mem_append_right _ hd)) hpost g hg

theorem key_ne_of_mem_tail (h : Grouping gs es) (hn : ∀ e ∈ es, e.name ≠ some "") :
    ∀ g ∈ gs.tail, g.key ≠ "" := by
  cases h with
  | nil => exact List.forall_mem_nil _
  | cons hrun hpost h =>
    obtain ⟨-, hrest⟩ := List.forall_mem_cons.1 hn
    exact h.key_ne (fun d hd => hrest d (List.mem_append_right _ hd)) hpost

end Grouping

/-- The first group of a name, the entries it is made of, and those before and after it. -/
structure FirstGroup (name : String) (before : List Group) (g : Group) (after : List Group)
    (pre sec post : List Entry) : Prop where
  before : Grouping before pre
  after : Grouping after post
  unlike : ∀ e ∈ pre, e.name ≠ some name
  group : ∃ e run, sec = e :: run ∧ e.name = some name ∧ (∀ d ∈ run, d.name = none) ∧
    g = ⟨e.name.getD "", e.value, run.map (·.value)⟩
  named : ∀ e ∈ post.head?, e.name ≠ none

theorem Grouping.exists_firstGroup (h : Grouping gs es) (hname : ∃ e ∈ es, e.name = some name) :
    ∃ before g after pre sec post, gs = before ++ g :: after ∧ es = pre ++ sec ++ post ∧
      FirstGroup name before g after pre sec post := by
  induction h with
  | nil => simp at hname
  | @cons e run post gs hrun hpost h ih =>
    by_cases he : e.name = some name
    · refine ⟨[], _, gs, [], e :: run, post, rfl, rfl, .nil, h, List.forall_mem_nil _, ?_, hpost⟩
      exact ⟨e, run, rfl, he, hrun, rfl⟩
    · have hlater : ∃ d ∈ post, d.name = some name := by
        obtain ⟨d, hd, hdname⟩ := hname
        rcases List.mem_cons.1 hd with rfl | hd
        · exact absurd hdname he
        rcases List.mem_append.1 hd with hd | hd
        · rw [hrun d hd] at hdname
          cases hdname
        · exact ⟨d, hd, hdname⟩
      obtain ⟨before, g, after, pre, sec, post, rfl, rfl, hf⟩ := ih hlater
      refine ⟨_ :: before, g, after, e :: (run ++ pre), sec, post, rfl, by simp, ?_, hf.after, ?_,
        hf.group, hf.named⟩
      · apply Grouping.cons hrun _ hf.before
        intro d hd
        apply hpost
        cases pre with
        | nil => cases hd
        | cons c pre => exact hd
      · intro d hd
        rcases List.mem_cons.1 hd with rfl | hd
        · exact he
        rcases List.mem_append.1 hd with hd | hd
        · rw [hrun d hd]
          exact (Option.some_ne_none name).symm
        · exact hf.unlike d hd

theorem FirstGroup.sectioned {before after : List Group} {g : Group} {pre sec post : List Entry}
    (h : FirstGroup name before g after pre sec post) :
    Sectioned name (pre.map Entry.pair) (sec.map Entry.pair) (post.map Entry.pair) := by
  obtain ⟨e, run, rfl, he, hrun, -⟩ := h.group
  rw [List.map_cons, Entry.pair, he]
  apply Sectioned.present
  · intro pair hpair
    obtain ⟨d, hd, rfl⟩ := List.mem_map.1 hpair
    exact h.unlike d hd
  · intro pair hpair
    obtain ⟨d, hd, rfl⟩ := List.mem_map.1 hpair
    exact hrun d hd
  · intro pair hpair
    rw [List.head?_map] at hpair
    obtain ⟨d, hd, rfl⟩ := Option.map_eq_some_iff.1 hpair
    exact h.named d hd

theorem located_of_append {p : Nat} {pairs : List Pair} (h : located p pairs = xs ++ ys) :
    xs = located p (xs.map Entry.pair) ∧
      ys = located (p + pairsSize (xs.map Entry.pair)) (ys.map Entry.pair) := by
  have hpairs : pairs = xs.map Entry.pair ++ ys.map Entry.pair := by
    rw [← List.map_append, ← h, map_pair_located]
  rw [hpairs, located_append] at h
  have hlength : (located p (xs.map Entry.pair)).length = xs.length := by
    rw [length_located, List.length_map]
  obtain ⟨hxs, hys⟩ := List.append_inj h hlength
  exact ⟨hxs.symm, hys.symm⟩

theorem head_located (p : Nat) (pairs : List Pair) :
    ((located p pairs).head?.map (·.position)).getD (p + pairsSize pairs) = p := by
  cases pairs with
  | nil => rfl
  | cons pair pairs => rfl

theorem FirstGroup.section_eq {before after : List Group} {g : Group} {pre sec post : List Entry}
    (h : FirstGroup name before g after pre sec post)
    (hs : Packed src ((entries src).map Entry.pair)) (he : entries src = pre ++ sec ++ post) :
    sectionEntries src name = sec ∧
      ∃ start next, find? src name = some start ∧ advance src start = .ok next ∧
        skipUnnamed src next = .ok ((post.head?.map (·.position)).getD src.size) := by
  have hsec := h.sectioned
  have hne : sec.map Entry.pair ≠ [] := by
    obtain ⟨e, run, rfl, -⟩ := h.group
    exact List.cons_ne_nil _ _
  have hplaces : located 0 ((entries src).map Entry.pair) = pre ++ sec ++ post := by
    rw [← entries_of_packed hs, he]
  obtain ⟨hleft, hpost⟩ := located_of_append hplaces
  obtain ⟨-, hmiddle⟩ := located_of_append hleft.symm
  rw [Nat.zero_add] at hpost hmiddle
  rw [he, List.map_append, List.map_append] at hs
  obtain ⟨hfind, hend⟩ := sectionEnd_of_sectioned hsec hne hs
  obtain ⟨next, hnext, hskip⟩ := bind_eq_ok.1 hend
  constructor
  · rw [sectionEntries_of_packed hsec hs, ← hmiddle]
  · refine ⟨_, next, hfind, hnext, ?_⟩
    have hhead := head_located (pairsSize ((pre ++ sec).map Entry.pair)) (post.map Entry.pair)
    rw [← pairsSize_append, ← hpost, List.map_append, ← hs.size] at hhead
    rw [hhead]
    exact hskip

theorem name_ne_empty {e : Entry} (h : e ∈ entries src) : e.name ≠ some "" := by
  intro hname
  have hc := checkName_ok_iff.1 ((checkEntry_ok_iff.1 (storable_of_mem h).2).1 "" hname)
  simp at hc

theorem sectionValue_eq (src : Bytes) (name : String) (k : Nat) :
    sectionValue src name k = (sectionValues src name)[k]?.getD .unknown := by
  rw [sectionValues, List.getElem?_map]
  exact getKey_of_picked (fun e he => sectionEntries_subset src name (List.mem_of_getElem? he)) rfl

end Content

open Content

/-- The groups, the section of a name, its slots and the scan for its end part valid content at the
same places. -/
theorem sections_agree {src : Bytes} {n : Nat} (hs : validate src = .ok n) :
    (groups src).flatMap Group.pairs = (entries src).map Entry.pair ∧
    (∀ e ∈ entries src, e.name ≠ some "") ∧
    (∀ g ∈ (groups src).tail, g.key ≠ "") ∧
    ∀ name, contains src name = true → ∃ before g after pre sec post,
      groups src = before ++ g :: after ∧ g.key = name ∧ (∀ g' ∈ before, g'.key ≠ name) ∧
      entries src = pre ++ sec ++ post ∧ before.flatMap Group.pairs = pre.map Entry.pair ∧
      g.pairs = sec.map Entry.pair ∧ after.flatMap Group.pairs = post.map Entry.pair ∧
      sectionEntries src name = sec ∧ sectionValues src name = g.values ∧
      (sectionEntries src name).length = g.values.length ∧
      (∀ k, positionOf? src (.slot name k) = sec[k]?.map (·.position) ∧
        sectionValue src name k = g.values[k]?.getD .unknown) ∧
      (∀ v, findInSection? src name v = (sec.find? (·.value.sameGroup v)).map (·.position)) ∧
      ∃ start next, find? src name = some start ∧ advance src start = .ok next ∧
        skipUnnamed src next = .ok ((post.head?.map (·.position)).getD src.size) := by
  have hgroups : Grouping (groups src) (entries src) := grouping_groupsOf _
  have hnames : ∀ e ∈ entries src, e.name ≠ some "" := fun e => name_ne_empty
  refine ⟨hgroups.flatMap_pairs hnames, hnames, hgroups.key_ne_of_mem_tail hnames, ?_⟩
  intro name hname
  have hoccurs : ∃ e ∈ entries src, e.name = some name := by
    rw [contains, find?, Option.isSome_map, List.find?_isSome] at hname
    simpa only [Entry.hasName, decide_eq_true_eq] using hname
  have hne : name ≠ "" := by
    rintro rfl
    obtain ⟨e, he, hempty⟩ := hoccurs
    exact hnames e he hempty
  obtain ⟨before, g, after, pre, sec, post, hgs, hes, hf⟩ := hgroups.exists_firstGroup hoccurs
  obtain ⟨hsection, hend⟩ := hf.section_eq (packed_of_validate hs) hes
  have hpre : ∀ e ∈ pre, e.name ≠ some "" := fun e he =>
    hnames e (hes ▸ List.mem_append_left _ (List.mem_append_left _ he))
  have hpost : ∀ e ∈ post, e.name ≠ some "" := fun e he =>
    hnames e (hes ▸ List.mem_append_right _ he)
  obtain ⟨e, run, rfl, he, hrun, rfl⟩ := hf.group
  have hvalues : sectionValues src name = (e :: run).map (·.value) := by
    rw [sectionValues, hsection]
  refine ⟨before, _, after, pre, e :: run, post, hgs, ?key,
    hf.before.key_ne_of_unlike hne hf.unlike, hes, hf.before.flatMap_pairs hpre, ?pairs,
    hf.after.flatMap_pairs hpost, hsection, hvalues, ?length, ?slots, ?found, hend⟩
  case key =>
    rw [he]
    rfl
  case pairs =>
    apply pairs_of_run _ hrun
    rw [he]
    simpa using hne
  case length =>
    rw [hsection]
    simp [Group.values]
  case slots =>
    intro k
    rw [sectionValue_eq, hvalues, positionOf?, hsection]
    exact ⟨rfl, rfl⟩
  case found =>
    intro v
    rw [findInSection?, hsection]

/-- An unnamed entry in front, and a name that comes again right after its section. -/
theorem sections_agree_repeated :
    let pairs : List Pair :=
      [(none, .unknown), (some "a", .bool true), (none, .unknown), (some "a", .bool false)]
    validate (encoded pairs) = .ok 4 ∧ contains (encoded pairs) "a" = true ∧
      (groups (encoded pairs)).flatMap Group.pairs = pairs ∧
      sectionValues (encoded pairs) "a" = [.bool true, .unknown] ∧
      ∃ g ∈ groups (encoded pairs), g.key = "a" ∧ g.values = [.bool true, .unknown] := by
  intro pairs
  have hstorable : ∀ pair ∈ pairs, Storable pair := by
    simp only [pairs, List.forall_mem_cons]
    exact ⟨⟨trivial, rfl⟩, ⟨trivial, rfl⟩, ⟨trivial, rfl⟩, ⟨trivial, rfl⟩, List.forall_mem_nil _⟩
  have hp := packed_encoded hstorable
  have hvalid : validate (encoded pairs) = .ok 4 := validate_ok_iff.2 ⟨_, hp, rfl⟩
  have hcontains : contains (encoded pairs) "a" = true := by
    rw [contains, find?, entries_of_packed hp]
    rfl
  have hsec : Sectioned "a" [(none, .unknown)] [(some "a", .bool true), (none, .unknown)]
      [(some "a", .bool false)] := .present _ (by simp) (by simp) (by simp)
  have hvalues : sectionValues (encoded pairs) "a" = [.bool true, .unknown] :=
    sectionValues_of_packed hsec hp
  obtain ⟨hpairs, -, -, hnamed⟩ := sections_agree hvalid
  obtain ⟨before, g, after, pre, sec, post, hgs, hkey, -, -, -, -, -, -, hg, -⟩ :=
    hnamed "a" hcontains
  rw [map_pair_entries hp] at hpairs
  refine ⟨hvalid, hcontains, hpairs, hvalues, g, ?_, hkey, hg.symm.trans hvalues⟩
  rw [hgs]
  exact List.mem_append_right _ (.head _)

end TaggedBuffer
