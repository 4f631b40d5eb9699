import TaggedBuffer.Proofs.Buffer.Edits
import TaggedBuffer.Proofs.Store.Flavor

namespace TaggedBuffer

/-- The offset `i` is one of padding after the name or after the value. -/
def Entry.IsPadding (e : Entry) (i : Nat) : Prop :=
  (∃ name, e.name = some name ∧ e.position + headerSize + name.utf8ByteSize ≤ i ∧
    i < e.valuePosition) ∨
  (e.valuePosition + headerSize + (lengthField e.value).size + e.value.byteLength ≤ i ∧
    i < e.next)

/-- The byte `x` at offset `i` is slack of the entry where its encoding has `y`. -/
def Entry.Slack (e : Entry) (i : Nat) (x y : UInt8) : Prop :=
  e.IsPadding i ∨ e.value = .bool true ∧ i = e.valuePosition + headerSize ∧ x ≠ 0 ∧ y = 1

theorem le_of_getElem?_ne {xs ys zs : List UInt8} {i : Nat} {x y : UInt8}
    (hx : (xs ++ ys)[i]? = some x) (hy : (xs ++ zs)[i]? = some y) (hne : x ≠ y) :
    xs.length ≤ i := by
  rcases Nat.lt_or_ge i xs.length with hlt | hge
  · rw [List.getElem?_append_left hlt] at hx hy
    exact absurd (Option.some.inj (hx.symm.trans hy)) hne
  · exact hge

theorem IsNameRecord.le_of_ne {name : String} {b : Bytes} (h : IsNameRecord name b) {i : Nat}
    {x y : UInt8} (hx : (Bytes.list b)[i]? = some x)
    (hy : (Bytes.list (nameRecord name))[i]? = some y) (hne : x ≠ y) :
    headerSize + name.utf8ByteSize ≤ i := by
  obtain ⟨_, _, padding, rfl⟩ := h
  rw [nameRecord, Bytes.list_append] at hy
  rw [Bytes.list_append] at hx
  have := le_of_getElem?_ne hx hy hne
  rwa [Bytes.length_list, ByteArray.size_append, size_headerWord, String.size_toByteArray] at this

theorem IsValueRecord.slack_of_ne {v : Value} {b : Bytes} (h : IsValueRecord v b) {i : Nat}
    {x y : UInt8} (hx : (Bytes.list b)[i]? = some x)
    (hy : (Bytes.list (valueRecord v))[i]? = some y) (hne : x ≠ y) :
    headerSize + (lengthField v).size + v.byteLength ≤ i ∨
      v = .bool true ∧ i = headerSize ∧ x ≠ 0 ∧ y = 1 := by
  obtain ⟨_, _, _, content, padding, hp, rfl⟩ := h
  have hs := size_valueHead v hp
  rcases hp with rfl | ⟨rfl, byte, hbyte, rfl⟩
  · rw [valueRecord, Bytes.list_append] at hy
    rw [Bytes.list_append] at hx
    have := le_of_getElem?_ne hx hy hne
    rw [Bytes.length_list, hs] at this
    exact .inl this
  · -- Up to the payload byte both are the header word.
    rw [valueRecord, ByteArray.append_assoc, Bytes.list_append] at hy
    rw [ByteArray.append_assoc, Bytes.list_append] at hx
    have hle := le_of_getElem?_ne hx hy hne
    rw [List.getElem?_append_right hle] at hx hy
    change 4 ≤ i at hle
    rcases Nat.lt_or_eq_of_le hle with hlt | rfl
    · exact .inl hlt
    · refine .inr ⟨rfl, rfl, ?_, ?_⟩
      · cases hx.symm.trans (show _ = some byte from rfl)
        exact hbyte
      · cases hy.symm.trans (show _ = some 1 from rfl)
        rfl

theorem getElem?_append_cases {a a' b b' : Bytes} (hs : a.size = a'.size) {i : Nat} {x y : UInt8}
    (hx : (Bytes.list (a ++ b))[i]? = some x) (hy : (Bytes.list (a' ++ b'))[i]? = some y) :
    (i < a.size ∧ (Bytes.list a)[i]? = some x ∧ (Bytes.list a')[i]? = some y) ∨
      (a.size ≤ i ∧ (Bytes.list b)[i - a.size]? = some x ∧
        (Bytes.list b')[i - a.size]? = some y) := by
  rw [Bytes.list_append] at hx hy
  rw [List.getElem?_append, Bytes.length_list] at hx hy
  rw [← hs] at hy
  split at hx
  next hlt =>
    rw [if_pos hlt] at hy
    exact .inl ⟨hlt, hx, hy⟩
  next hge =>
    rw [if_neg hge] at hy
    exact .inr ⟨Nat.le_of_not_lt hge, hx, hy⟩

theorem IsEntry.slack_of_ne {name : Option String} {v : Value} {b : Bytes}
    (h : IsEntry name v b) (p : Nat) {i : Nat} {x y : UInt8} (hx : (Bytes.list b)[i]? = some x)
    (hy : (Bytes.list (entryRecord name v))[i]? = some y) (hne : x ≠ y) :
    Entry.Slack ⟨p, name, p + namePartSize name, v, p + entrySize name v⟩ (p + i) x y := by
  have hlt : i < entrySize name v := by
    rw [← h.size, ← Bytes.length_list]
    exact (List.getElem?_eq_some_iff.1 hx).1
  obtain ⟨np, vp, hn, hv, rfl⟩ := h
  have hnp : np.size = ((name.map nameRecord).getD .empty).size := by
    rw [hn.size]
    cases name with
    | none => rfl
    | some name => exact (size_nameRecord name).symm
  rcases getElem?_append_cases hnp hx hy with ⟨hi, hx, hy⟩ | ⟨hi, hx, hy⟩
  · cases name with
    | none =>
      rw [hn.size] at hi
      exact absurd hi (Nat.not_lt_zero i)
    | some name =>
      have hle := IsNameRecord.le_of_ne hn hx hy hne
      rw [hn.size] at hi
      refine .inl (.inl ⟨name, rfl, ?_, ?_⟩) <;> dsimp only <;> omega
  · rw [hn.size] at hi hx hy
    rcases hv.slack_of_ne hx hy hne with hle | ⟨rfl, hi', hx, hy⟩
    · refine .inl (.inr ⟨?_, ?_⟩) <;> dsimp only <;> omega
    · refine .inr ⟨rfl, ?_, hx, hy⟩
      dsimp only
      omega

open Content in
theorem Content.Packed.slack_of_ne {src : Bytes} {pairs : List Pair} (h : Packed src pairs)
    (p : Nat) {i : Nat} {x y : UInt8} (hx : (Bytes.list src)[i]? = some x)
    (hy : (Bytes.list (encoded pairs))[i]? = some y) (hne : x ≠ y) :
    ∃ e ∈ located p pairs, e.Slack (p + i) x y := by
  induction h generalizing p i with
  | nil => cases hx
  | @cons name v b rest pairs hb _ ih =>
    have hs : b.size = (entryRecord name v).size := by rw [hb.size, size_entryRecord]
    rcases getElem?_append_cases hs hx hy with ⟨_, hx, hy⟩ | ⟨hi, hx, hy⟩
    · exact ⟨_, .head _, hb.slack_of_ne p hx hy hne⟩
    · obtain ⟨e, he, hslack⟩ := ih (p + entrySize name v) hx hy
      rw [hb.size] at hi hslack
      refine ⟨e, .tail _ he, ?_⟩
      rwa [Nat.add_assoc, Nat.add_sub_cancel' hi] at hslack

namespace Content

open Buffer (fromBytes)

/-- Valid bytes are the concatenations of entries. A buffer holds them as they are, and the encoding
of their entries differs from them in slack only. -/
theorem validate_grammar (src : Bytes) :
    (∀ n, validate src = .ok n ↔ ∃ pairs, Packed src pairs ∧ pairs.length = n) ∧
    ∀ pairs, Packed src pairs →
      (∀ (f : Flavor) (s : f.Storage),
        (∃ s', fromBytes src s = .ok () s' ∧ Store.content s' = src) ↔
          src.size ≤ Store.capacity s ∨ (src.size + src.size / 2 + 63) / 64 * 64 < 2 ^ 63) ∧
      entries src = located 0 pairs ∧
      (encoded pairs).size = src.size ∧
      ∀ i x y, (Bytes.list src)[i]? = some x → (Bytes.list (encoded pairs))[i]? = some y → x ≠ y →
        ∃ e ∈ entries src, e.Slack i x y := by
  refine ⟨fun n => validate_ok_iff, fun pairs h => ⟨?_, entries_of_packed h, ?_, ?_⟩⟩
  · intro f s
    have hload : fromBytes src s = Buffer.load src s :=
      Update.bind_check_ok (validate_ok_iff.2 ⟨pairs, h, rfl⟩)
    rw [hload, ← roomFor_ok_iff]
    cases hr : roomFor (Store.capacity s) src.size with
    | error fault => simp [(Buffer.load_edits src s).full rfl hr]
    | ok c =>
      obtain ⟨s', hs', hcontent, -, -⟩ := (Buffer.load_edits src s).done rfl hr
      simpa using ⟨s', hs', hcontent⟩
  · rw [size_encoded, h.size]
  · intro i x y hx hy hne
    have hslack := h.slack_of_ne 0 hx hy hne
    rwa [Nat.zero_add, ← entries_of_packed h] at hslack

end Content

end TaggedBuffer
