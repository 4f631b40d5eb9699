import TaggedBuffer.Buffer.Section
import TaggedBuffer.Proofs.Content.Boundary

namespace TaggedBuffer

section

variable {src src' : Bytes} {n : Nat}

theorem readHeader_congr {p : Nat} {h : Header} (hr : readHeader src p = .ok h) (hp : p + 4 ≤ n)
    (hn : n ≤ src'.size) (he : src.extract 0 n = src'.extract 0 n) :
    readHeader src' p = .ok h := by
  obtain ⟨hm, hl, ha⟩ := readHeader_ok_iff.1 hr
  exact readHeader_ok_iff.2 ⟨hm, hl, ha.congr (by rwa [size_headerWord]) hn he⟩

theorem skipName_congr {p q : Nat} (h : skipName src p = .ok q) (hq : q + 4 ≤ n)
    (hn : n ≤ src'.size) (he : src.extract 0 n = src'.extract 0 n) : skipName src' p = .ok q := by
  have hle := skipName_le h
  obtain ⟨header, hh, h⟩ := bind_eq_ok.1 h
  refine bind_eq_ok.2 ⟨header, readHeader_congr hh (by omega) hn he, ?_⟩
  split at h
  next ht =>
    rw [if_pos ht]
    obtain ⟨_, hs, h⟩ := bind_eq_ok.1 h
    obtain ⟨_, hroom, h⟩ := bind_eq_ok.1 h
    cases h
    refine bind_eq_ok.2 ⟨(), hs, bind_eq_ok.2 ⟨(), checkRoom_ok_iff.2 ?_, rfl⟩⟩
    omega
  next ht =>
    rw [if_neg ht]
    exact h

theorem advance_congr {p q : Nat} (h : advance src p = .ok q) (hq : q ≤ n) (hn : n ≤ src'.size)
    (he : src.extract 0 n = src'.extract 0 n) : advance src' p = .ok q := by
  simp only [advance, bind_eq_ok] at h ⊢
  obtain ⟨v, hv, header, hh, t, ht, _, hroom, h⟩ := h
  cases h
  have hsize : 4 ≤ headerSize + header.length := Nat.le_add_right _ _
  refine ⟨v, skipName_congr hv (by omega) hn he, header, readHeader_congr hh (by omega) hn he, t, ht,
    (), checkRoom_ok_iff.2 ?_, rfl⟩
  omega

namespace Content

theorem Steps.congr {p q : Nat} (h : Steps src p q) (hq : q ≤ n) (hn : n ≤ src'.size)
    (he : src.extract 0 n = src'.extract 0 n) : Steps src' p q := by
  induction h with
  | refl p => exact .refl p
  | head ha hs ih =>
    have := hs.le
    exact .head (advance_congr ha (by omega) hn he) (ih hq)

theorem mem_walk {p : Nat} {e : Entry} (h : e ∈ (walk src p).1) :
    Steps src p e.position ∧ decodeEntry src e.position = .ok e := by
  induction p using walk.induct src with
  | case1 p hlt e' hd ih =>
    obtain ⟨_, he', _⟩ := decodeEntry_ok_iff.1 hd
    have hp : e'.position = p := congrArg Entry.position he'
    rw [walk_of_decodeEntry hlt hd] at h
    cases h with
    | head =>
      rw [hp]
      exact ⟨.refl p, hd⟩
    | tail _ h =>
      obtain ⟨hs, hd'⟩ := ih h
      exact ⟨.head (advance_of_decodeEntry hd) hs, hd'⟩
  | case2 p hlt fault hd =>
    rw [walk_of_fault hlt hd] at h
    cases h
  | case3 p hge =>
    rw [walk, if_neg hge] at h
    cases h

theorem entriesFrom_wellFormed (src : Bytes) (p : Nat) :
    ∀ e ∈ entriesFrom src p, e.value.WellFormed := by
  intro e he
  obtain ⟨_, _, _, hb, _⟩ := decodeEntry_ok_iff.1 (mem_walk he).2
  exact IsEntry.wellFormed hb

theorem find?_ok {name : String} {p : Nat} (h : find? src name = some p) :
    Steps src 0 p ∧ ∃ e, decodeEntry src p = .ok e := by
  obtain ⟨e, he, rfl⟩ := Option.map_eq_some_iff.1 h
  obtain ⟨hs, hd⟩ := mem_walk (List.mem_of_find?_eq_some he)
  exact ⟨hs, e, hd⟩

theorem skipUnnamed_ok {p q : Nat} (h : skipUnnamed src p = .ok q) : Steps src p q := by
  induction p using skipUnnamed.induct src with
  | case1 p fault hu =>
    rw [skipUnnamed, hu] at h
    cases h
  | case2 p hu =>
    rw [skipUnnamed, hu] at h
    cases h
    exact .refl _
  | case3 p hu r ha ih =>
    rw [skipUnnamed, hu] at h
    dsimp only at h
    split at h
    next r' ha' =>
      cases ha.symm.trans ha'
      exact .head ha (ih h)
    · cases h
  | case4 p hu fault ha =>
    rw [skipUnnamed, hu] at h
    dsimp only at h
    split at h
    next r ha' => cases ha.symm.trans ha'
    · cases h

theorem sectionEnd_ok {p q : Nat} (h : Buffer.sectionEnd src p = .ok q) : Steps src p q := by
  obtain ⟨r, ha, h⟩ := bind_eq_ok.1 h
  exact .head ha (skipUnnamed_ok h)

end Content

end

end TaggedBuffer
