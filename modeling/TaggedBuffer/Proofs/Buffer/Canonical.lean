import TaggedBuffer.Proofs.Buffer.Agreement

namespace TaggedBuffer

open Content
open Buffer (pairsSize checkEntry)

def Storable (pair : Pair) : Prop := pair.2.WellFormed ∧ checkEntry pair.1 pair.2 = .ok ()

def Canonical (b : Bytes) : Prop := ∃ pairs, b = encoded pairs ∧ ∀ pair ∈ pairs, Storable pair

theorem packed_encoded {pairs : List Pair} (h : ∀ pair ∈ pairs, Storable pair) :
    Packed (encoded pairs) pairs := by
  induction pairs with
  | nil => exact .nil
  | cons pair pairs ih =>
    obtain ⟨hw, hc⟩ := h pair (.head _)
    exact .cons (isEntry_entryRecord hw hc) (ih fun pair h' => h pair (.tail _ h'))

theorem Canonical.eq_encoded {b : Bytes} (h : Canonical b) :
    b = encoded ((entries b).map Entry.pair) := by
  obtain ⟨pairs, rfl, hs⟩ := h
  rw [map_pair_entries (packed_encoded hs)]

def namePart (name : Option String) : Bytes := (name.map nameRecord).getD .empty

theorem size_namePart (name : Option String) : (namePart name).size = namePartSize name := by
  cases name with
  | none => rfl
  | some name => exact size_nameRecord name

theorem encoded_cons (name : Option String) (v : Value) (pairs : List Pair) :
    encoded ((name, v) :: pairs) = namePart name ++ valueRecord v ++ encoded pairs := rfl

theorem exists_split {pairs : List Pair} {p : Nat} {e : Entry} (h : ∀ pair ∈ pairs, Storable pair)
    (hb : boundary (encoded pairs) p = .ok e) : ∃ xs ys, pairs = xs ++ e.pair :: ys ∧
      p = pairsSize xs ∧ e.valuePosition = p + namePartSize e.name ∧
        e.next = e.valuePosition + e.value.recordSize := by
  obtain ⟨_, hv, hn, _⟩ := decodeEntry_place (boundary_ok_iff.1 hb).2.2.2
  obtain ⟨a, b, xs, ys, _, rfl, hpairs, ha, _⟩ := (packed_encoded h).split_of_boundary hb
  exact ⟨xs, ys, hpairs, ha.size, hv, hn⟩

namespace Canonical

variable {b : Bytes} {p q : Nat} {name : Option String} {v : Value} {e : Entry}

theorem append (h : Canonical b) (hc : checkEntry name v = .ok ()) (hv : v.WellFormed) :
    Canonical (b ++ entryRecord name v) := by
  obtain ⟨pairs, rfl, hs⟩ := h
  refine ⟨pairs ++ [(name, v)], ?_, ?_⟩
  · rw [encoded_append, encoded_singleton]
  · exact List.forall_mem_append.2 ⟨hs, List.forall_mem_singleton.2 ⟨hv, hc⟩⟩

theorem replace (h : Canonical b) (hb : boundary b p = .ok e) (hc : checkValue v = .ok ())
    (hv : v.WellFormed) : Canonical (spliced b e.valuePosition e.next (valueRecord v)) := by
  obtain ⟨pairs, rfl, hs⟩ := h
  obtain ⟨xs, ys, rfl, rfl, hvp, hn⟩ := exists_split hs hb
  have hmem := List.forall_mem_append.1 hs
  refine ⟨xs ++ (e.name, v) :: ys, ?_, ?_⟩
  · have hsize := size_encoded xs
    have hname := size_namePart e.name
    rw [encoded_append, Entry.pair, encoded_cons, encoded_append, encoded_cons,
      ← ByteArray.append_assoc, ← ByteArray.append_assoc, ← ByteArray.append_assoc,
      ← ByteArray.append_assoc, spliced_middle]
    · rw [ByteArray.size_append]
      omega
    · rw [ByteArray.size_append, size_valueRecord]
      omega
  · have hcheck := checkEntry_ok_iff.1 (hmem.2 e.pair (.head _)).2
    refine List.forall_mem_append.2 ⟨hmem.1, List.forall_mem_cons.2 ⟨⟨hv, ?_⟩, ?_⟩⟩
    · exact checkEntry_ok_iff.2 ⟨hcheck.1, hc⟩
    · exact fun pair h => hmem.2 pair (.tail _ h)

theorem insert (h : Canonical b) (hb : boundary b p = .ok e) (hc : checkEntry name v = .ok ())
    (hv : v.WellFormed) : Canonical (spliced b p p (entryRecord name v)) := by
  obtain ⟨pairs, rfl, hs⟩ := h
  obtain ⟨xs, ys, rfl, rfl, hvp, hn⟩ := exists_split hs hb
  have hmem := List.forall_mem_append.1 hs
  refine ⟨xs ++ (name, v) :: e.pair :: ys, ?_, ?_⟩
  · have hsize := size_encoded xs
    have hmid : spliced (encoded xs ++ .empty ++ encoded (e.pair :: ys)) (pairsSize xs)
        (pairsSize xs) (entryRecord name v) = _ := spliced_middle hsize.symm hsize.symm
    rw [ByteArray.append_empty] at hmid
    rw [encoded_append, hmid, encoded_append, ByteArray.append_assoc]
    rfl
  · exact List.forall_mem_append.2 ⟨hmem.1, List.forall_mem_cons.2 ⟨⟨hv, hc⟩, hmem.2⟩⟩

theorem cut (h : Canonical b) (hp : Steps b 0 p) (hq : Steps b p q) :
    Canonical (spliced b p q .empty) := by
  obtain ⟨pairs, rfl, hs⟩ := h
  obtain ⟨a₁, _, xs, rest, rfl, _, h₁, _, rfl⟩ :=
    Packed.of_steps hp (ByteArray.empty_append).symm rfl .nil (packed_encoded hs)
  obtain ⟨hxs, hrest⟩ := List.forall_mem_append.1 hs
  have hp' : ByteArray.empty.size + a₁.size = (encoded xs).size := by
    rw [ByteArray.size_empty, Nat.zero_add, h₁.size, size_encoded]
  obtain ⟨a₂, _, ys, zs, rfl, _, h₂, _, rfl⟩ :=
    Packed.of_steps hq (encoded_append xs rest) hp' (packed_encoded hxs) (packed_encoded hrest)
  refine ⟨xs ++ zs, ?_, ?_⟩
  · rw [encoded_append, encoded_append, ← ByteArray.append_assoc, spliced_middle hp'
      (by rw [h₂.size, size_encoded ys]), ByteArray.append_empty, encoded_append]
  · exact List.forall_mem_append.2 ⟨hxs, (List.forall_mem_append.1 hrest).2⟩

end Canonical

theorem canonical_closed : Closed Canonical Value.WellFormed where
  wellFormed h := h
  empty := ⟨[], rfl, fun _ h => absurd h List.not_mem_nil⟩
  append := Canonical.append
  replace := Canonical.replace
  insert := Canonical.insert
  cut := Canonical.cut

end TaggedBuffer
