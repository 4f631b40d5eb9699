import TaggedBuffer.Proofs.Content.Prefix

namespace TaggedBuffer.Content

open Buffer (pairsSize)

/-- What the records hold does not matter, only that each header leads to the next. -/
structure Framed (a : Bytes) : Prop where
  aligned : a.size % 4 = 0
  steps : Steps a 0 a.size

theorem Packed.framed {a : Bytes} {pairs : List Pair} (h : Packed a pairs) : Framed a := by
  have hs := h.steps_zero .nil
  rw [ByteArray.append_empty] at hs
  exact ⟨h.size_mod, hs⟩

theorem readHeader_valueRecord {src : Bytes} {p : Nat} {v : Value} (hp : p % 4 = 0)
    (hc : checkValue v = .ok ()) (ha : src.At p (valueRecord v)) :
    readHeader src p = .ok ⟨v.type.tag, v.encodedLength⟩ := by
  simp only [valueRecord, ByteArray.append_assoc] at ha
  exact readHeader_ok_iff.2 ⟨hp, checkValue_ok_iff.1 hc, (Bytes.At.append_iff.1 ha).1⟩

theorem advance_record {a np : Bytes} {name : Option String} {v : Value} (ha : a.size % 4 = 0)
    (hn : IsNamePart name np) (hc : checkValue v = .ok ()) (b : Bytes) :
    advance (a ++ (np ++ valueRecord v) ++ b) a.size =
      .ok (a ++ (np ++ valueRecord v)).size := by
  have hat := Bytes.at_middle a (np ++ valueRecord v) b
  have hbound := hat.bound
  obtain ⟨hnp, hval⟩ := Bytes.At.append_iff.1 hat
  have hheader := readHeader_valueRecord (hn.aligned ha) hc hval
  have hsize : (a ++ (np ++ valueRecord v)).size = a.size + np.size + v.recordSize := by
    rw [ByteArray.size_append, ByteArray.size_append, size_valueRecord, Nat.add_assoc]
  rw [hsize]
  apply advance_of_header hn ha hnp hheader
  rwa [ByteArray.size_append, size_valueRecord, ← Nat.add_assoc] at hbound

namespace Framed

variable {a b np : Bytes} {pairs : List Pair} {name : Option String} {v : Value}

theorem steps_append (h : Framed a) (b : Bytes) : Steps (a ++ b) 0 a.size := by
  apply h.steps.congr (Nat.le_refl _)
  · rw [ByteArray.size_append]
    exact Nat.le_add_right _ _
  · rw [ByteArray.extract_append_eq_left rfl, ByteArray.extract_zero_size]

theorem append (h : Framed a) (hn : IsNamePart name np) (hc : checkValue v = .ok ()) :
    Framed (a ++ (np ++ valueRecord v)) := by
  constructor
  · have hmod := h.aligned
    have hname := namePartSize_mod name
    have hvalue := recordSize_mod v
    rw [ByteArray.size_append, ByteArray.size_append, hn.size, size_valueRecord]
    omega
  · have hadv := advance_record h.aligned hn hc .empty
    rw [ByteArray.append_empty] at hadv
    exact (h.steps_append _).trans (.single hadv)

theorem boundary (h : Framed a) (hb : Packed b ((name, v) :: pairs)) :
    Content.boundary (a ++ b) a.size =
      .ok ⟨a.size, name, a.size + namePartSize name, v, a.size + entrySize name v⟩ := by
  have hpos := entrySize_pos name v
  have hlt : a.size < (a ++ b).size := by
    simp only [ByteArray.size_append, hb.size, pairsSize_cons]
    omega
  exact boundary_ok_iff.2 ⟨hlt, h.aligned, h.steps_append b, hb.decode_after h.aligned⟩

end Framed

def isUnnamed (pair : Pair) : Bool := pair.1.isNone

section

variable {a b : Bytes} {pairs : List Pair}

theorem isUnnamedAt_of_packed (ha : a.size % 4 = 0) (hb : Packed b pairs) :
    isUnnamedAt (a ++ b) a.size = .ok (pairs.head?.any isUnnamed) := by
  cases hb with
  | nil =>
    rw [ByteArray.append_empty]
    exact if_pos (Nat.le_refl _)
  | @cons name v c rest pairs hc hr =>
    have hpos := entrySize_pos name v
    have hlt : ¬ (a ++ (c ++ rest)).size ≤ a.size := by
      rw [ByteArray.size_append, ByteArray.size_append, hc.size]
      omega
    obtain ⟨np, vp, hn, hv, rfl⟩ := hc
    have hat : Bytes.At (a ++ (np ++ vp ++ rest)) a.size (np ++ vp) := by
      simpa only [ByteArray.append_assoc] using Bytes.at_middle a (np ++ vp) rest
    obtain ⟨hnp, hvp⟩ := Bytes.At.append_iff.1 hat
    rw [isUnnamedAt, if_neg hlt]
    cases name with
    | none =>
      obtain rfl : np = .empty := hn
      refine bind_eq_ok.2 ⟨_, hv.header ha hvp, ?_⟩
      simp [isUnnamed, tag_ne_nameMarker, pure, Except.pure]
    | some name =>
      refine bind_eq_ok.2 ⟨_, IsNameRecord.header hn ha hnp, ?_⟩
      simp [isUnnamed, pure, Except.pure]

theorem skipUnnamed_of_named {src : Bytes} {p : Nat} (h : isUnnamedAt src p = .ok false) :
    skipUnnamed src p = .ok p := by
  rw [skipUnnamed, h]

theorem skipUnnamed_of_unnamed {src : Bytes} {p q : Nat} (h : isUnnamedAt src p = .ok true)
    (ha : advance src p = .ok q) : skipUnnamed src p = skipUnnamed src q := by
  rw [skipUnnamed, h]
  dsimp only
  split
  next q' ha' => cases ha.symm.trans ha'; rfl
  next fault ha' => cases ha.symm.trans ha'

theorem skipUnnamed_of_packed (ha : a.size % 4 = 0) (hb : Packed b pairs) :
    skipUnnamed (a ++ b) a.size = .ok (a.size + pairsSize (pairs.takeWhile isUnnamed)) := by
  induction hb generalizing a with
  | nil => exact skipUnnamed_of_named (isUnnamedAt_of_packed ha .nil)
  | @cons name v c rest pairs hc hr ih =>
    have hat := isUnnamedAt_of_packed ha (.cons hc hr)
    rw [List.head?_cons, Option.any_some] at hat
    cases hu : isUnnamed (name, v) with
    | false =>
      rw [hu] at hat
      rw [List.takeWhile_cons, hu]
      exact skipUnnamed_of_named hat
    | true =>
      rw [hu] at hat
      have hadv := advance_of_decodeEntry ((Packed.cons hc hr).decode_after ha)
      have hsize : (a ++ c).size = a.size + entrySize name v := by
        rw [ByteArray.size_append, hc.size]
      have hmod : (a ++ c).size % 4 = 0 := by
        have := entrySize_mod name v
        omega
      have hrest := ih hmod
      rw [ByteArray.append_assoc, hsize] at hrest
      rw [skipUnnamed_of_unnamed hat hadv, hrest, List.takeWhile_cons, hu, if_pos rfl,
        pairsSize_cons, Nat.add_assoc]

theorem sectionEnd_of_packed (ha : a.size % 4 = 0) {pair : Pair} (hb : Packed b (pair :: pairs)) :
    Buffer.sectionEnd (a ++ b) a.size =
      .ok (a.size + pairsSize (pair :: pairs.takeWhile isUnnamed)) := by
  have hadv := advance_of_decodeEntry (hb.decode_after ha)
  obtain ⟨c, rest, rfl, hc, hr⟩ := hb.uncons
  have hsize : (a ++ c).size = a.size + entrySize pair.1 pair.2 := by
    rw [ByteArray.size_append, hc.size]
  have hmod : (a ++ c).size % 4 = 0 := by
    have := entrySize_mod pair.1 pair.2
    omega
  have hskip := skipUnnamed_of_packed hmod hr
  rw [ByteArray.append_assoc, hsize] at hskip
  rw [Buffer.sectionEnd, hadv, pairsSize_cons, ← Nat.add_assoc]
  exact hskip

end

end TaggedBuffer.Content
