import TaggedBuffer.Proofs.Buffer.SetSection
import TaggedBuffer.Proofs.Buffer.Simulation

namespace TaggedBuffer

open Content
open Buffer (pairsSize checkEntry)

namespace Key

/-- The entry that a key addresses, and those before and after it. -/
inductive Addresses : Key → List Pair → Pair → List Pair → Prop
  | name {name : String} {v : Value} {pre post : List Pair} :
      (∀ pair ∈ pre, pair.1 ≠ some name) → Addresses (.name name) pre (some name, v) post
  | index {pair : Pair} {pre post : List Pair} : Addresses (.index pre.length) pre pair post
  | slot {name : String} {pair : Pair} {pre front back post : List Pair} :
      Sectioned name pre (front ++ pair :: back) post →
      Addresses (.slot name front.length) (pre ++ front) pair (back ++ post)

/-- A key that addresses nothing yet, but would address an entry of that name made in between. -/
inductive Opens : Key → Option String → List Pair → List Pair → Prop
  | name {name : String} {pairs : List Pair} : (∀ pair ∈ pairs, pair.1 ≠ some name) →
      Opens (.name name) (some name) pairs []
  | start {name : String} {pairs : List Pair} : (∀ pair ∈ pairs, pair.1 ≠ some name) →
      Opens (.slot name 0) (some name) pairs []
  | next {name : String} {pre sec post : List Pair} : Sectioned name pre sec post → sec ≠ [] →
      Opens (.slot name sec.length) none (pre ++ sec) post

/-- Where a value that is written through the key comes to lie: in the entry that is addressed, which
keeps its name, or in one made where the key opens the list. -/
inductive Admits (key : Key) : List Pair → List Pair → Option String → List Pair → Prop
  | found {name : Option String} {w : Value} {pre post : List Pair} :
      key.Addresses pre (name, w) post → Admits key (pre ++ (name, w) :: post) pre name post
  | between {name : Option String} {pre post : List Pair} : key.Opens name pre post →
      Admits key (pre ++ post) pre name post

/-- The number in the key is too large for as many entries as there are. -/
inductive Beyond : Key → List Pair → Nat → Nat → Prop
  | index {index : Nat} {pairs : List Pair} : pairs.length ≤ index →
      Beyond (.index index) pairs index pairs.length
  | slot {name : String} {number : Nat} {pre sec post : List Pair} : Sectioned name pre sec post →
      sec.length < number → Beyond (.slot name number) (pre ++ sec ++ post) number sec.length

def name? : Key → Option String
  | .name n | .slot n _ => some n
  | .index _ => none

variable {key : Key} {name : Option String} {pair : Pair} {pre post pairs : List Pair}
variable {v w : Value} {src : Bytes}

theorem exists_split {α : Type} {l : List α} {i : Nat} (h : i < l.length) :
    ∃ front x back, l = front ++ x :: back ∧ front.length = i := by
  refine ⟨l.take i, l[i], l.drop (i + 1), ?_, List.length_take_of_le (Nat.le_of_lt h)⟩
  rw [← List.drop_eq_getElem_cons h, List.take_append_drop]

theorem target (key : Key) (pairs : List Pair) :
    (∃ pre name post, key.Admits pairs pre name post) ∨
      ∃ number length, key.Beyond pairs number length := by
  cases key with
  | name name =>
    obtain ⟨pre, sec, post, rfl, hsec⟩ := exists_sectioned name pairs
    left
    cases hsec with
    | absent hpre => exact ⟨_, _, _, .between (.name (by simpa using hpre))⟩
    | present v hpre hrun hpost =>
      rw [List.append_assoc]
      exact ⟨_, _, _, .found (.name hpre)⟩
  | index index =>
    by_cases hi : index < pairs.length
    · obtain ⟨pre, pair, post, rfl, rfl⟩ := exists_split hi
      exact .inl ⟨_, _, _, .found .index⟩
    · exact .inr ⟨_, _, .index (Nat.le_of_not_lt hi)⟩
  | slot name number =>
    obtain ⟨pre, sec, post, rfl, hsec⟩ := exists_sectioned name pairs
    rcases Nat.lt_trichotomy number sec.length with hlt | rfl | hgt
    · obtain ⟨front, pair, back, rfl, rfl⟩ := exists_split hlt
      left
      rw [← List.append_assoc, List.append_assoc]
      exact ⟨_, _, _, .found (.slot hsec)⟩
    · left
      by_cases hne : sec = []
      · cases hsec with
        | absent hpre => exact ⟨_, _, _, .between (.start (by simpa using hpre))⟩
        | present => cases hne
      · exact ⟨_, _, _, .between (.next hsec hne)⟩
    · exact .inr ⟨_, _, .slot hsec hgt⟩

end Key

theorem Content.sectionEnd_of_sectioned {name : String} {src : Bytes} {pre sec post : List Pair}
    (h : Sectioned name pre sec post) (hne : sec ≠ []) (hs : Packed src (pre ++ sec ++ post)) :
    find? src name = some (pairsSize pre) ∧
      Buffer.sectionEnd src (pairsSize pre) = .ok (pairsSize (pre ++ sec)) := by
  rw [List.append_assoc] at hs
  obtain ⟨a, b, rfl, ha, hb⟩ := hs.split
  cases h with
  | absent hpre => exact (hne rfl).elim
  | present v hpre hrun hpost =>
    rw [List.cons_append] at hb
    have hstop := sectionEnd_of_packed ha.size_mod hb
    rw [takeWhile_of_section hrun hpost, ha.size, ← pairsSize_append] at hstop
    exact ⟨(find?_present ha hb hpre).trans (congrArg some ha.size), hstop⟩

theorem Content.Sectioned.write {x : String} {name : Option String} {w : Value}
    {pre front back post : List Pair} (h : Sectioned x pre (front ++ (name, w) :: back) post)
    (v : Value) : Sectioned x pre (front ++ (name, v) :: back) post := by
  cases front with
  | nil =>
    cases h with
    | present w hpre hrun hpost => exact .present v hpre hrun hpost
  | cons pair front =>
    cases h with
    | present u hpre hrun hpost =>
      have hname := hrun (name, w) (List.mem_append_right _ (.head _))
      refine .present u hpre ?_ hpost
      intro pair hmem
      rcases List.mem_append.1 hmem with hfront | hback
      · exact hrun pair (List.mem_append_left _ hfront)
      · rcases List.mem_cons.1 hback with rfl | hback
        · exact hname
        · exact hrun pair (List.mem_append_right _ (.tail _ hback))

namespace Key

variable {key : Key} {name : Option String} {pair : Pair} {pre post pairs : List Pair}
variable {v w : Value} {src : Bytes}

theorem Addresses.write (h : key.Addresses pre (name, w) post) (v : Value) :
    key.Addresses pre (name, v) post := by
  generalize hpair : (name, w) = pair at h
  cases h with
  | name hpre =>
    cases hpair
    exact .name hpre
  | index => exact .index
  | slot hsec =>
    subst hpair
    exact .slot (hsec.write v)

theorem Opens.addresses (h : key.Opens name pre post) (v : Value) :
    key.Addresses pre (name, v) post := by
  cases h with
  | name hpre => exact .name hpre
  | @start x _ hpre =>
    have hsec : Sectioned x pre ([] ++ (some x, v) :: []) [] :=
      .present v hpre (fun _ h => absurd h List.not_mem_nil) fun _ h => nomatch h
    simpa using Addresses.slot hsec
  | @next x pre sec post hsec hne =>
    have hlonger : Sectioned x pre (sec ++ (none, v) :: []) post := by
      cases hsec with
      | absent hpre => exact (hne rfl).elim
      | present u hpre hrun hpost =>
        refine .present u hpre ?_ hpost
        intro pair hmem
        rcases List.mem_append.1 hmem with h | h
        · exact hrun pair h
        · rw [List.mem_singleton.1 h]
    exact .slot hlonger

theorem Admits.addresses (h : key.Admits pairs pre name post) (v : Value) :
    key.Addresses pre (name, v) post := by
  cases h with
  | found haddress => exact haddress.write v
  | between hopen => exact hopen.addresses v

theorem Opens.eq_name? {x : String} (h : key.Opens (some x) pre post) : key.name? = some x := by
  cases h with
  | name => rfl
  | start => rfl

theorem Addresses.positionOf? (h : key.Addresses pre pair post)
    (hs : Packed src (pre ++ pair :: post)) :
    Content.positionOf? src key = some (pairsSize pre) := by
  cases h with
  | name hpre =>
    obtain ⟨a, b, rfl, ha, hb⟩ := hs.split
    exact (find?_present ha hb hpre).trans (congrArg some ha.size)
  | index =>
    have hlt : pre.length < (pre ++ pair :: post).length := by simp
    rw [Content.positionOf?, findIndex?_of_packed hs, if_pos hlt, offset, List.take_left]
  | @slot x pair pre front back post hsec =>
    have hs' : Packed src (pre ++ (front ++ pair :: back) ++ post) := by simpa using hs
    rw [Content.positionOf?, sectionEntries_of_packed hsec hs', getElem?_located]
    simp [offset]

theorem Addresses.getKey (h : key.Addresses pre pair post)
    (hs : Packed src (pre ++ pair :: post)) : Content.getKey src key = pair.2 := by
  have hp := h.positionOf? hs
  obtain ⟨a, b, rfl, ha, hb⟩ := hs.split
  have hget : Content.get (a ++ b) a.size = .ok pair.2 :=
    bind_eq_ok.2 ⟨_, entryAt_of_packed ha hb, rfl⟩
  rw [Content.getKey, hp, ← ha.size, Option.bind_some, Content.get?, hget]
  rfl

end Key

variable {σ : Type} [Store σ]

section SetKey

variable {key : Key} {name : Option String} {v : Value} {s : σ} {pre post pairs : List Pair}

theorem setKey_of_position {p : Nat} (h : positionOf? (Store.content s) key = some p) :
    Buffer.setKey key v s = Buffer.set p v s := by
  cases key with
  | name name =>
    have hfind : find? (Store.content s) name = some p := h
    rw [Buffer.setKey, Buffer.setNamed, Buffer.bind_content, hfind]
  | index index =>
    have hfind : findIndex? (Store.content s) index = some p := h
    have hat : Buffer.positionAt index s = .ok p s := by
      rw [Buffer.positionAt, Buffer.bind_content, hfind]
      rfl
    rw [Buffer.setKey, Buffer.setIndex, Update.bind_of_ok hat]
  | slot name number => rw [Buffer.setKey, Buffer.bind_content, h]

theorem setKey_of_beyond {number length : Nat} (h : key.Beyond pairs number length)
    (hs : Packed (Store.content s) pairs) :
    Buffer.setKey key v s = .error (.indexOutOfRange number length) s := by
  cases h with
  | index hle =>
    have hfind : findIndex? (Store.content s) number = none := by
      rw [findIndex?_of_packed hs, if_neg (Nat.not_lt_of_le hle)]
    have hat : Buffer.positionAt number s = .error (.indexOutOfRange number pairs.length) s := by
      rw [Buffer.positionAt, Buffer.bind_content, hfind, entries_of_packed hs, length_located]
      rfl
    rw [Buffer.setKey, Buffer.setIndex, Update.bind_of_error hat]
  | @slot x number pre sec post hsec hlt =>
    have hentries := sectionEntries_of_packed hsec hs
    have hnone : positionOf? (Store.content s) (.slot x number) = none := by
      rw [positionOf?, hentries, getElem?_located, List.getElem?_eq_none (Nat.le_of_lt hlt)]
      rfl
    rw [Buffer.setKey, Buffer.bind_content, hnone, hentries, length_located]
    dsimp only
    rw [if_neg (by omega), if_neg (by omega)]
    rfl

theorem insert_refused {p : Nat} {e : Error} (hc : checkEntry name v = .error e) :
    Buffer.insert p name v s = .error e s := by
  rw [Buffer.insert, Update.bind_get]
  split
  · rw [Buffer.append, Update.bind_check_error hc]
  · rw [Update.bind_check_error hc]

variable [LawfulStore σ]

theorem setKey_of_opens (h : key.Opens name pre post) (hs : Packed (Store.content s) (pre ++ post)) :
    Buffer.setKey key v s = Buffer.insert (pairsSize pre) name v s := by
  cases h with
  | @name x pairs hpre =>
    rw [List.append_nil] at hs
    have hend : pairsSize pre = Store.used s := by rw [← hs.size, Store.size_content]
    rw [hend, Buffer.insert_of_end, Buffer.setKey, Buffer.setNamed, Buffer.bind_content,
      find?_absent hs hpre]
  | @start x _ hpre =>
    have hsec : Sectioned x pre [] [] := .absent hpre
    have hentries := sectionEntries_of_packed hsec (by simpa using hs)
    have hnone : positionOf? (Store.content s) (.slot x 0) = none := by
      rw [positionOf?, hentries]
      rfl
    rw [List.append_nil] at hs
    have hend : pairsSize pre = Store.used s := by rw [← hs.size, Store.size_content]
    rw [hend, Buffer.insert_of_end, Buffer.setKey, Buffer.bind_content, hnone, hentries]
    rfl
  | @next x pre sec post hsec hne =>
    have hentries := sectionEntries_of_packed hsec hs
    have hnone : positionOf? (Store.content s) (.slot x sec.length) = none := by
      rw [positionOf?, hentries, getElem?_located, List.getElem?_eq_none (Nat.le_refl _)]
      rfl
    rw [Buffer.setKey, Buffer.bind_content, hnone, hentries, length_located]
    dsimp only
    obtain ⟨hfind, hstop⟩ := sectionEnd_of_sectioned hsec hne hs
    rw [if_neg (fun h => hne (List.length_eq_zero_iff.1 h.1)), if_pos rfl, hfind]
    exact Update.bind_check_ok hstop

variable {bound : Nat}

theorem set_over_within {w : Value} (hs : Packed (Store.content s) (pre ++ (name, w) :: post))
    (hw : v.WellFormed) (hv : checkValue v = .ok ())
    (hb : Store.used s + v.recordSize ≤ bound) :
    Within bound s (fun p s' => p = pairsSize pre ∧
      Packed (Store.content s') (pre ++ (name, v) :: post)) (Buffer.set (pairsSize pre) v s) := by
  obtain ⟨a, b, hsrc, ha, hb⟩ := hs.split
  obtain ⟨d, c, rfl, ⟨np, vp, hn, hvp, rfl⟩, hc⟩ := hb.uncons
  have hsize : (a ++ (np ++ valueRecord v) ++ c).size ≤ bound := by
    have hused : Store.used s = (a ++ (np ++ vp ++ c)).size := by rw [← hsrc, Store.size_content]
    simp only [ByteArray.size_append, size_valueRecord] at hused ⊢
    omega
  rw [← ha.size]
  apply (Buffer.set_within hsrc ha.framed hn hvp hc hv hsize).mono
  rintro p s' ⟨hp, hs'⟩
  have hentry : IsEntry name v (np ++ valueRecord v) :=
    ⟨np, _, hn, isValueRecord_valueRecord hw hv, rfl⟩
  refine ⟨hp, ?_⟩
  rw [hs', ByteArray.append_assoc]
  exact ha.append (.cons hentry hc)

theorem insert_between_within (hs : Packed (Store.content s) (pre ++ post)) (hw : v.WellFormed)
    (hc : checkEntry name v = .ok ()) (hb : Store.used s + entrySize name v ≤ bound) :
    Within bound s (fun p s' => p = pairsSize pre ∧
      Packed (Store.content s') (pre ++ (name, v) :: post))
      (Buffer.insert (pairsSize pre) name v s) := by
  obtain ⟨a, b, hsrc, ha, hpost⟩ := hs.split
  have hsize : (a ++ entryRecord name v ++ b).size ≤ bound := by
    have hused : Store.used s = (a ++ b).size := by rw [← hsrc, Store.size_content]
    simp only [ByteArray.size_append, size_entryRecord] at hused ⊢
    omega
  rw [← ha.size]
  apply (Buffer.insert_within hsrc ha.framed hpost hc hsize).mono
  rintro p s' ⟨hp, hs'⟩
  refine ⟨hp, ?_⟩
  rw [hs', ByteArray.append_assoc]
  exact ha.append (.cons (isEntry_entryRecord hw hc) hpost)

theorem setKey_admitted (h : key.Admits pairs pre name post) (hs : Packed (Store.content s) pairs)
    (hw : v.WellFormed) (hv : checkValue v = .ok ())
    (hb : Store.used s + entrySize key.name? v ≤ bound) :
    Within bound s (fun p s' => p = pairsSize pre ∧
      Packed (Store.content s') (pre ++ (name, v) :: post)) (Buffer.setKey key v s) ∨
    ∃ x e, key.name? = some x ∧ checkName x = .error e ∧ Buffer.setKey key v s = .error e s := by
  have hvalue (name : Option String) : v.recordSize ≤ entrySize name v := Nat.le_add_left _ _
  cases h with
  | found haddress =>
    left
    have hsize := hvalue key.name?
    rw [setKey_of_position (haddress.positionOf? hs)]
    exact set_over_within hs hw hv (by omega)
  | between hopen =>
    rw [setKey_of_opens hopen hs]
    cases name with
    | none =>
      left
      have hsize := hvalue key.name?
      have hplain : entrySize none v = v.recordSize := Nat.zero_add _
      exact insert_between_within hs hw hv (by omega)
    | some x =>
      rw [hopen.eq_name?] at hb ⊢
      cases hx : checkName x with
      | error e => exact .inr ⟨x, e, rfl, hx, insert_refused (by rw [checkEntry, hx]; rfl)⟩
      | ok u =>
        have hchecked : checkEntry (some x) v = .ok () :=
          checkEntry_ok_iff.2 ⟨by rintro _ ⟨⟩; exact hx, hv⟩
        exact .inl (insert_between_within hs hw hchecked hb)

end SetKey

theorem checkName_error {name : String} {e : Error} (h : checkName name = .error e)
    (number length : Nat) : e ≠ .indexOutOfRange number length := by
  rintro rfl
  rw [checkName] at h
  split at h
  · cases h
  · split at h
    · cases h
    · cases h

/-- What was written through a key is read through it, among the other entries as they were. A
number that is too large changes nothing, and else only room or a bad name or value is in the way.
-/
theorem setKey_reads_back (f : Flavor) (s : f.Storage) (key : Key) {pairs : List Pair} {v : Value}
    (hs : Lists (Store.content s) pairs) (hw : v.WellFormed) (hv : checkValue v = .ok ()) :
    (∀ p s', Buffer.setKey key v s = .ok p s' →
      positionOf? (Store.content s') key = some p ∧ getKey (Store.content s') key = v ∧
      ∃ pre name post, key.Admits pairs pre name post ∧
        Lists (Store.content s') (pre ++ (name, v) :: post)) ∧
    (∀ number length s', Buffer.setKey key v s = .error (.indexOutOfRange number length) s' ↔
      s' = s ∧ key.Beyond pairs number length) ∧
    ((∀ number length, ¬ key.Beyond pairs number length) →
      (∀ name, key.name? = some name → checkName name = .ok ()) →
      HasRoom (Store.capacity s) (Store.used s + entrySize key.name? v) →
      ∃ p s', Buffer.setKey key v s = .ok p s') := by
  have hpacked := lists_iff_packed.1 hs
  have hbound := Nat.le_refl (Store.used s + entrySize key.name? v)
  refine ⟨?read, ?refused, ?written⟩
  case read =>
    intro p s' hrun
    rcases key.target pairs with ⟨pre, name, post, hadmits⟩ | ⟨number, length, hbeyond⟩
    · rcases setKey_admitted hadmits hpacked hw hv hbound with hwithin | ⟨x, e, -, -, herror⟩
      · obtain ⟨rfl, hpacked'⟩ := hwithin.of_ok hrun
        have haddress := hadmits.addresses v
        exact ⟨haddress.positionOf? hpacked', haddress.getKey hpacked', pre, name, post, hadmits,
          lists_iff_packed.2 hpacked'⟩
      · cases herror.symm.trans hrun
    · cases (setKey_of_beyond hbeyond hpacked).symm.trans hrun
  case refused =>
    intro number length s'
    constructor
    · intro hrun
      rcases key.target pairs with ⟨pre, name, post, hadmits⟩ | ⟨number', length', hbeyond⟩
      · rcases setKey_admitted hadmits hpacked hw hv hbound with hwithin | ⟨x, e, -, hx, herror⟩
        · exact (hwithin.of_error hrun).elim
        · cases herror.symm.trans hrun
          exact (checkName_error hx number length rfl).elim
      · cases (setKey_of_beyond hbeyond hpacked).symm.trans hrun
        exact ⟨rfl, hbeyond⟩
    · rintro ⟨rfl, hbeyond⟩
      exact setKey_of_beyond hbeyond hpacked
  case written =>
    intro hnone hname hroom
    rcases key.target pairs with ⟨pre, name, post, hadmits⟩ | ⟨number, length, hbeyond⟩
    · rcases setKey_admitted hadmits hpacked hw hv hbound with hwithin | ⟨x, e, hx, he, -⟩
      · obtain ⟨p, s', hrun, -⟩ := hwithin.exists_ok hroom
        exact ⟨p, s', hrun⟩
      · cases (hname x hx).symm.trans he
    · exact (hnone number length hbeyond).elim

/-- A slot just past the end of a section, which ends before another name, and one further on. -/
theorem setKey_reads_back_slot :
    let old : List Pair := [(some "list", .bool true), (none, .unknown), (some "tail", .unknown)]
    let start : Flavor.owned.Storage := Update.final (Buffer.appendAll old Owned.empty)
    Lists (Store.content start) old ∧
    (∃ s', Buffer.setKey (.slot "list" 2) (.bool false) start = .ok 20 s' ∧
      positionOf? (Store.content s') (.slot "list" 2) = some 20 ∧
      getKey (Store.content s') (.slot "list" 2) = .bool false) ∧
    Buffer.setKey (.slot "list" 9) (.bool false) start = .error (.indexOutOfRange 9 2) start := by
  intro old start
  have hstorable : ∀ pair ∈ old, Storable pair := by
    simp only [old, Storable, Value.WellFormed, List.forall_mem_cons, true_and]
    exact ⟨rfl, rfl, rfl, fun _ h => absurd h List.not_mem_nil⟩
  have hcontent : Store.content start = encoded old := by decide +kernel
  have hlists : Lists (Store.content start) old :=
    lists_iff_packed.2 (hcontent ▸ packed_encoded hstorable)
  have hwell : (Value.bool false).WellFormed := trivial
  refine ⟨hlists, ?inserted, ?refused⟩
  case inserted =>
    obtain ⟨hread, -, -⟩ := setKey_reads_back .owned start (.slot "list" 2) hlists hwell rfl
    have hanswer : (Update.answer (Buffer.setKey (.slot "list" 2) (.bool false) start)).toOption =
        some 20 := by
      decide +kernel
    cases hrun : Buffer.setKey (.slot "list" 2) (.bool false) start with
    | error e s' =>
      rw [hrun] at hanswer
      cases hanswer
    | ok p s' =>
      rw [hrun] at hanswer
      cases hanswer
      obtain ⟨hp, hv, -⟩ := hread 20 s' hrun
      exact ⟨s', rfl, hp, hv⟩
  case refused =>
    have hsection : Sectioned "list" [] [(some "list", .bool true), (none, .unknown)]
        [(some "tail", .unknown)] := by
      apply Sectioned.present
      · exact fun _ h => absurd h List.not_mem_nil
      · simp
      · rintro pair ⟨⟩
        exact Option.some_ne_none "tail"
    have hbeyond : (Key.slot "list" 9).Beyond old 9 2 := .slot hsection (by decide)
    obtain ⟨-, hrefused, -⟩ := setKey_reads_back .owned start (.slot "list" 9) hlists hwell rfl
    exact (hrefused 9 2 start).2 ⟨rfl, hbeyond⟩

end TaggedBuffer
