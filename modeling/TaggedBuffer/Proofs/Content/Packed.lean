import TaggedBuffer.Buffer.Items
import TaggedBuffer.Proofs.Record.Grammar

namespace TaggedBuffer

open Buffer (pairsSize checkEntry)

/-- What an entry holds, wherever it lies. -/
abbrev Pair := Option String × Value

def Entry.pair (e : Entry) : Pair := (e.name, e.value)

namespace Content

/-- Bytes that are the records of these entries and nothing else. -/
inductive Packed : Bytes → List Pair → Prop
  | nil : Packed .empty []
  | cons {name v b rest pairs} :
      IsEntry name v b → Packed rest pairs → Packed (b ++ rest) ((name, v) :: pairs)

/-- The entries with their places, the first at offset `p`. -/
def located (p : Nat) : List Pair → List Entry
  | [] => []
  | (name, v) :: rest =>
    ⟨p, name, p + namePartSize name, v, p + entrySize name v⟩ ::
      located (p + entrySize name v) rest

/-- The records of these entries with zeros as padding. -/
def encoded : List Pair → Bytes
  | [] => .empty
  | (name, v) :: rest => entryRecord name v ++ encoded rest

@[simp] theorem pairsSize_nil : pairsSize [] = 0 := rfl

@[simp] theorem pairsSize_cons (pair : Pair) (pairs : List Pair) :
    pairsSize (pair :: pairs) = entrySize pair.1 pair.2 + pairsSize pairs := rfl

@[simp] theorem pairsSize_append (xs ys : List Pair) :
    pairsSize (xs ++ ys) = pairsSize xs + pairsSize ys := by
  induction xs with
  | nil => simp
  | cons pair xs ih => rw [List.cons_append, pairsSize_cons, pairsSize_cons, ih, Nat.add_assoc]

theorem pairsSize_mod (pairs : List Pair) : pairsSize pairs % 4 = 0 := by
  induction pairs with
  | nil => rfl
  | cons pair pairs ih =>
    have := entrySize_mod pair.1 pair.2
    rw [pairsSize_cons]
    omega

theorem entrySize_pos (name : Option String) (v : Value) : 4 ≤ entrySize name v := by
  simp only [entrySize, Value.recordSize, headerSize]
  omega

@[simp] theorem map_pair_located (p : Nat) (pairs : List Pair) :
    (located p pairs).map Entry.pair = pairs := by
  induction pairs generalizing p with
  | nil => rfl
  | cons pair pairs ih => simp [located, Entry.pair, ih]

theorem length_located (p : Nat) (pairs : List Pair) : (located p pairs).length = pairs.length := by
  rw [← List.length_map (f := Entry.pair), map_pair_located]

theorem encoded_append (xs ys : List Pair) : encoded (xs ++ ys) = encoded xs ++ encoded ys := by
  induction xs with
  | nil => simp [encoded]
  | cons x xs ih => simp [encoded, ih, ByteArray.append_assoc]

@[simp] theorem encoded_singleton (name : Option String) (v : Value) :
    encoded [(name, v)] = entryRecord name v := by
  simp [encoded]

theorem size_encoded (pairs : List Pair) : (encoded pairs).size = pairsSize pairs := by
  induction pairs with
  | nil => rfl
  | cons pair pairs ih => simp [encoded, size_entryRecord, ih]

namespace Packed

theorem size {src : Bytes} {pairs : List Pair} (h : Packed src pairs) :
    src.size = pairsSize pairs := by
  induction h with
  | nil => rfl
  | cons hb _ ih => simp [hb.size, ih]

theorem size_mod {src : Bytes} {pairs : List Pair} (h : Packed src pairs) : src.size % 4 = 0 := by
  rw [h.size, pairsSize_mod]

theorem append {a b : Bytes} {xs ys : List Pair} (ha : Packed a xs) (hb : Packed b ys) :
    Packed (a ++ b) (xs ++ ys) := by
  induction ha with
  | nil => simpa using hb
  | cons he _ ih =>
    rw [ByteArray.append_assoc]
    exact .cons he ih

theorem singleton {name : Option String} {v : Value} {b : Bytes} (h : IsEntry name v b) :
    Packed b [(name, v)] := by
  simpa using cons h nil

theorem uncons {src : Bytes} {pair : Pair} {pairs : List Pair} (h : Packed src (pair :: pairs)) :
    ∃ b rest, src = b ++ rest ∧ IsEntry pair.1 pair.2 b ∧ Packed rest pairs := by
  cases h with
  | cons hb hr => exact ⟨_, _, rfl, hb, hr⟩

theorem split {src : Bytes} {xs ys : List Pair} (h : Packed src (xs ++ ys)) :
    ∃ a b, src = a ++ b ∧ Packed a xs ∧ Packed b ys := by
  induction xs generalizing src with
  | nil => exact ⟨.empty, src, by simp, .nil, h⟩
  | cons x xs ih =>
    cases h with
    | cons he hr =>
      obtain ⟨a, b, rfl, ha, hb⟩ := ih hr
      exact ⟨_, b, (ByteArray.append_assoc).symm, .cons he ha, hb⟩

end Packed

theorem walk_of_decodeEntry {src : Bytes} {p : Nat} {e : Entry} (hp : p < src.size)
    (h : decodeEntry src p = .ok e) :
    walk src p = (e :: (walk src e.next).1, (walk src e.next).2) := by
  rw [walk, if_pos hp]
  split
  next e' h' =>
    cases h.symm.trans h'
    rfl
  next fault h' => cases h.symm.trans h'

theorem walk_of_fault {src : Bytes} {p : Nat} {fault : Error} (hp : p < src.size)
    (h : decodeEntry src p = .error fault) : walk src p = ([], some fault) := by
  rw [walk, if_pos hp]
  split
  next e h' => cases h.symm.trans h'
  next fault' h' =>
    cases h.symm.trans h'
    rfl

theorem walk_of_packed {src b : Bytes} {p : Nat} {pairs : List Pair} (h : Packed b pairs)
    (ha : src.At p b) (hp : p % 4 = 0) (he : p + b.size = src.size) :
    walk src p = (located p pairs, none) := by
  induction h generalizing p with
  | nil =>
    rw [walk, if_neg (by simp only [ByteArray.size_empty] at he; omega)]
    rfl
  | @cons name v b rest pairs hb hr ih =>
    obtain ⟨hab, har⟩ := Bytes.At.append_iff.1 ha
    rw [ByteArray.size_append, hb.size, ← Nat.add_assoc] at he
    rw [hb.size] at har
    have hpos := entrySize_pos name v
    have hmod := entrySize_mod name v
    have hd : decodeEntry src p =
        .ok ⟨p, name, p + namePartSize name, v, p + entrySize name v⟩ :=
      decodeEntry_ok_iff.2 ⟨hp, rfl, b, hb, hab⟩
    rw [walk_of_decodeEntry (by omega) hd]
    simp only [ih har (by omega) he, located]

theorem packed_of_walk {src : Bytes} {p : Nat} {es : List Entry} (h : walk src p = (es, none))
    (hp : p ≤ src.size) : Packed (src.extract p src.size) (es.map Entry.pair) := by
  induction p using walk.induct src generalizing es with
  | case1 p hlt e hd ih =>
    obtain ⟨_, hpl, b, hb, ha⟩ := decodeEntry_ok_iff.1 hd
    have hnext : e.next = p + b.size := by
      rw [hb.size]
      exact congrArg Entry.next hpl
    have hbound := ha.bound
    obtain ⟨rfl, hrest⟩ := by simpa [walk_of_decodeEntry hlt hd] using h
    have hr := ih (Prod.ext rfl hrest) (by omega)
    rw [ha.extract_append, ← hnext]
    exact .cons hb hr
  | case2 p hlt fault hd => simp [walk_of_fault hlt hd] at h
  | case3 p hge =>
    rw [walk, if_neg hge] at h
    cases h
    have : src.extract p src.size = .empty := by
      rw [ByteArray.extract_eq_empty_iff]
      omega
    rw [this]
    exact .nil

theorem entriesFrom_of_packed {a b : Bytes} {xs ys : List Pair} (ha : Packed a xs)
    (hb : Packed b ys) : entriesFrom (a ++ b) a.size = located a.size ys := by
  have hat : Bytes.At (a ++ b) a.size b := by simpa using Bytes.at_middle a b .empty
  rw [entriesFrom, walk_of_packed hb hat ha.size_mod ByteArray.size_append.symm]

theorem entries_of_packed {src : Bytes} {pairs : List Pair} (h : Packed src pairs) :
    entries src = located 0 pairs := by
  simpa [entries] using entriesFrom_of_packed .nil h

theorem map_pair_entries {src : Bytes} {pairs : List Pair} (h : Packed src pairs) :
    (entries src).map Entry.pair = pairs := by
  rw [entries_of_packed h, map_pair_located]

theorem validate_ok_iff {src : Bytes} {n : Nat} :
    validate src = .ok n ↔ ∃ pairs, Packed src pairs ∧ pairs.length = n := by
  simp only [validate, bind_eq_ok, checkAlignment_ok_iff]
  constructor
  · rintro ⟨_, _, h⟩
    split at h
    next es hw =>
      cases h
      have hp := packed_of_walk hw (Nat.zero_le _)
      rw [ByteArray.extract_zero_size] at hp
      exact ⟨_, hp, List.length_map _⟩
    · cases h
  · rintro ⟨pairs, hp, rfl⟩
    have ha : src.At 0 src := by simpa using Bytes.at_middle .empty src .empty
    refine ⟨(), hp.size_mod, ?_⟩
    rw [walk_of_packed hp ha rfl (Nat.zero_add _)]
    exact congrArg _ (length_located 0 pairs)

/-- Valid content whose entries hold these names and values, in order. -/
def Lists (src : Bytes) (pairs : List Pair) : Prop :=
  validate src = .ok pairs.length ∧ (entries src).map Entry.pair = pairs

theorem lists_iff_packed {src : Bytes} {pairs : List Pair} : Lists src pairs ↔ Packed src pairs := by
  constructor
  · rintro ⟨hvalid, rfl⟩
    obtain ⟨pairs, hp, -⟩ := validate_ok_iff.1 hvalid
    rwa [map_pair_entries hp]
  · intro hp
    exact ⟨validate_ok_iff.2 ⟨pairs, hp, rfl⟩, map_pair_entries hp⟩

theorem checkEntry_ok_iff {name : Option String} {v : Value} :
    checkEntry name v = .ok () ↔
      (∀ n, name = some n → checkName n = .ok ()) ∧ checkValue v = .ok () := by
  cases name with
  | none => simp [checkEntry]
  | some n =>
    simp only [checkEntry, bind_eq_ok, Option.some.injEq]
    constructor
    · rintro ⟨_, hn, hv⟩
      exact ⟨by rintro m rfl; exact hn, hv⟩
    · rintro ⟨hn, hv⟩
      exact ⟨(), hn n rfl, hv⟩

theorem isEntry_entryRecord {name : Option String} {v : Value} (hw : v.WellFormed)
    (hc : checkEntry name v = .ok ()) : IsEntry name v (entryRecord name v) := by
  obtain ⟨hn, hv⟩ := checkEntry_ok_iff.1 hc
  have hval := isValueRecord_valueRecord hw hv
  cases name with
  | none => exact ⟨.empty, _, isNamePart_none, hval, rfl⟩
  | some name => exact ⟨_, _, isNameRecord_nameRecord (hn name rfl), hval, rfl⟩

theorem IsEntry.wellFormed {name : Option String} {v : Value} {b : Bytes}
    (h : IsEntry name v b) : v.WellFormed := by
  obtain ⟨_, _, _, hv, _⟩ := h
  exact hv.1

end Content

end TaggedBuffer
