import TaggedBuffer.Proofs.Content.Packed

namespace TaggedBuffer.Content

open Buffer (pairsSize)

/-- Going from entry to entry by the headers alone. -/
inductive Steps (src : Bytes) : Nat → Nat → Prop
  | refl (p : Nat) : Steps src p p
  | head {p q r : Nat} : advance src p = .ok q → Steps src q r → Steps src p r

theorem Steps.trans {src : Bytes} {p q r : Nat} (h : Steps src p q) (h' : Steps src q r) :
    Steps src p r := by
  induction h with
  | refl => exact h'
  | head ha _ ih => exact .head ha (ih h')

theorem Steps.single {src : Bytes} {p q : Nat} (h : advance src p = .ok q) : Steps src p q :=
  .head h (.refl q)

theorem Steps.le {src : Bytes} {p q : Nat} (h : Steps src p q) : p ≤ q := by
  induction h with
  | refl => exact Nat.le_refl _
  | head ha _ ih =>
    have := (advance_bounds ha).1
    omega

theorem Steps.le_size {src : Bytes} {p q : Nat} (h : Steps src p q) (hp : p ≤ src.size) :
    q ≤ src.size := by
  induction h with
  | refl => exact hp
  | head ha _ ih => exact ih (advance_bounds ha).2

theorem seek_ok {src : Bytes} {target p q : Nat} (h : seek src target p = .ok q) :
    Steps src p q := by
  induction p using seek.induct src target with
  | case1 p hlt q' ha ih =>
    rw [seek, if_pos hlt] at h
    split at h
    next q'' ha' =>
      cases ha.symm.trans ha'
      exact .head ha (ih h)
    · cases h
  | case2 p hlt fault ha =>
    rw [seek, if_pos hlt] at h
    split at h
    next q'' ha' => cases ha.symm.trans ha'
    · cases h
  | case3 p hge =>
    rw [seek, if_neg hge] at h
    cases h
    exact .refl _

theorem seek_of_advance {src : Bytes} {target p q : Nat} (hp : p < target)
    (ha : advance src p = .ok q) : seek src target p = seek src target q := by
  rw [seek, if_pos hp]
  split
  next q' ha' => cases ha.symm.trans ha'; rfl
  next fault ha' => cases ha.symm.trans ha'

theorem seek_of_steps {src : Bytes} {p q : Nat} (h : Steps src p q) : seek src q p = .ok q := by
  induction h with
  | refl p => rw [seek, if_neg (Nat.lt_irrefl _)]
  | head ha hs ih =>
    have := (advance_bounds ha).1
    have := hs.le
    rw [seek_of_advance (by omega) ha, ih]

theorem checkPosition_ok {src : Bytes} {p : Nat} (hp : p < src.size) (hm : p % 4 = 0) :
    checkPosition src p = .ok () := by
  rw [checkPosition, if_neg (Nat.not_le_of_lt hp)]
  exact checkAlignment_ok_iff.2 hm

theorem boundary_ok_iff {src : Bytes} {p : Nat} {e : Entry} :
    boundary src p = .ok e ↔
      p < src.size ∧ p % 4 = 0 ∧ Steps src 0 p ∧ decodeEntry src p = .ok e := by
  simp only [boundary, checkPosition, bind_eq_ok]
  constructor
  · rintro ⟨_, hc, q, hs, h⟩
    split at hc
    · cases hc
    next hp =>
      split at h
      · cases h
      next hq =>
        rw [Decidable.not_not] at hq
        subst hq
        exact ⟨by omega, checkAlignment_ok_iff.1 hc, seek_ok hs, h⟩
  · rintro ⟨hp, hm, hs, hd⟩
    refine ⟨(), ?_, p, seek_of_steps hs, ?_⟩
    · rw [if_neg (by omega)]
      exact checkAlignment_ok_iff.2 hm
    · simpa using hd

/-- The place of the entry with that many before it. -/
def offset (pairs : List Pair) (i : Nat) : Nat := pairsSize (pairs.take i)

theorem Packed.decode_after {a b : Bytes} {pairs : List Pair} {name : Option String} {v : Value}
    (hb : Packed b ((name, v) :: pairs)) (ha : a.size % 4 = 0) :
    decodeEntry (a ++ b) a.size =
      .ok ⟨a.size, name, a.size + namePartSize name, v, a.size + entrySize name v⟩ := by
  cases hb with
  | @cons _ _ c rest _ hc _ =>
    have hat : Bytes.At (a ++ (c ++ rest)) a.size c := by
      simpa [ByteArray.append_assoc] using Bytes.at_middle a c rest
    exact decodeEntry_ok_iff.2 ⟨ha, rfl, c, hc, hat⟩

theorem Packed.decode {a b : Bytes} {xs ys : List Pair} {name : Option String} {v : Value}
    (ha : Packed a xs) (hb : Packed b ((name, v) :: ys)) :
    decodeEntry (a ++ b) a.size =
      .ok ⟨a.size, name, a.size + namePartSize name, v, a.size + entrySize name v⟩ :=
  hb.decode_after ha.size_mod

theorem Packed.advance {a b : Bytes} {xs ys : List Pair} {name : Option String} {v : Value}
    (ha : Packed a xs) (hb : Packed b ((name, v) :: ys)) :
    advance (a ++ b) a.size = .ok (a.size + entrySize name v) :=
  advance_of_decodeEntry (ha.decode hb)

theorem entryAt_of_packed {a b : Bytes} {xs ys : List Pair} {pair : Pair} (ha : Packed a xs)
    (hb : Packed b (pair :: ys)) :
    entryAt (a ++ b) a.size = .ok ⟨a.size, pair.1, a.size + namePartSize pair.1, pair.2,
      a.size + entrySize pair.1 pair.2⟩ := by
  have hdec := ha.decode hb
  have hlt : a.size < (a ++ b).size := by
    have := advance_bounds (advance_of_decodeEntry hdec)
    omega
  rw [entryAt, checkPosition_ok hlt ha.size_mod]
  exact hdec

theorem advance_size (src : Bytes) (q : Nat) : advance src src.size ≠ .ok q := by
  intro h
  have := advance_bounds h
  omega

theorem Packed.steps {a b c : Bytes} {xs ys zs : List Pair} (ha : Packed a xs) (hb : Packed b ys)
    (hc : Packed c zs) : Steps (a ++ (b ++ c)) a.size (a.size + b.size) := by
  induction hb generalizing a xs with
  | nil => exact .refl a.size
  | @cons name v b rest pairs he hr ih =>
    have hadv := ha.advance (.cons he (hr.append hc))
    have hrest := ih (ha.append (.singleton he))
    rw [ByteArray.size_append, ByteArray.append_assoc, he.size, Nat.add_assoc] at hrest
    rw [ByteArray.size_append, he.size, ByteArray.append_assoc]
    exact .head hadv hrest

theorem Packed.steps_zero {a b : Bytes} {xs ys : List Pair} (ha : Packed a xs) (hb : Packed b ys) :
    Steps (a ++ b) 0 a.size := by
  simpa using Packed.nil.steps ha hb

theorem Packed.of_steps {src : Bytes} {p q : Nat} (h : Steps src p q) {a b : Bytes}
    {xs ys : List Pair} (hsrc : src = a ++ b) (hp : p = a.size) (ha : Packed a xs)
    (hb : Packed b ys) : ∃ a' b' ys₁ ys₂, ys = ys₁ ++ ys₂ ∧ b = a' ++ b' ∧ Packed a' ys₁ ∧
      Packed b' ys₂ ∧ q = a.size + a'.size := by
  induction h generalizing a b xs ys with
  | refl p => exact ⟨.empty, b, [], ys, rfl, by simp, .nil, hb, by simpa using hp⟩
  | @head p q r hadv _ ih =>
    subst hsrc hp
    cases hb with
    | nil =>
      rw [ByteArray.append_empty] at hadv
      exact (advance_size _ _ hadv).elim
    | @cons name v b rest pairs he hr =>
      have hq : q = a.size + entrySize name v := by
        have := ha.advance (.cons he hr)
        rw [hadv] at this
        exact Except.ok.inj this
      obtain ⟨a', b', ys₁, ys₂, rfl, rfl, h₁, h₂, rfl⟩ :=
        ih (ByteArray.append_assoc).symm (by rw [hq, ByteArray.size_append, he.size])
          (ha.append (.singleton he)) hr
      refine ⟨b ++ a', b', _, ys₂, rfl, (ByteArray.append_assoc).symm, .cons he h₁, h₂, ?_⟩
      simp only [ByteArray.size_append, Nat.add_assoc]

theorem Packed.split_at {src : Bytes} {pairs : List Pair} (h : Packed src pairs) (i : Nat) :
    ∃ a b, src = a ++ b ∧ Packed a (pairs.take i) ∧ Packed b (pairs.drop i) :=
  Packed.split ((List.take_append_drop i pairs).symm ▸ h)

theorem offset_lt {pairs : List Pair} {i : Nat} (h : i < pairs.length) :
    offset pairs i < pairsSize pairs := by
  have hs : pairsSize pairs = offset pairs i + pairsSize (pairs.drop i) := by
    rw [offset, ← pairsSize_append, List.take_append_drop]
  have hpos := entrySize_pos pairs[i].1 pairs[i].2
  rw [List.drop_eq_getElem_cons h, pairsSize_cons] at hs
  omega

theorem getElem?_located (p : Nat) (pairs : List Pair) (i : Nat) :
    (located p pairs)[i]? = pairs[i]?.map fun pair =>
      ⟨p + offset pairs i, pair.1, p + offset pairs i + namePartSize pair.1, pair.2,
        p + offset pairs i + entrySize pair.1 pair.2⟩ := by
  induction pairs generalizing p i with
  | nil => rfl
  | cons x xs ih =>
    cases i with
    | zero => simp [located, offset]
    | succ i => simp [located, offset, ih, Nat.add_assoc]

theorem boundary_offset {src : Bytes} {pairs : List Pair} (h : Packed src pairs) {i : Nat}
    (hi : i < pairs.length) :
    boundary src (offset pairs i) = .ok ⟨offset pairs i, pairs[i].1,
      offset pairs i + namePartSize pairs[i].1, pairs[i].2,
      offset pairs i + entrySize pairs[i].1 pairs[i].2⟩ := by
  have hlt : offset pairs i < src.size := h.size ▸ offset_lt hi
  obtain ⟨a, b, rfl, ha, hb⟩ := h.split_at i
  have hoff : offset pairs i = a.size := ha.size.symm
  have hdec := ha.decode (List.drop_eq_getElem_cons hi ▸ hb)
  rw [hoff] at hlt ⊢
  exact boundary_ok_iff.2 ⟨hlt, ha.size_mod, ha.steps_zero hb, hdec⟩

theorem Packed.exists_offset {src : Bytes} {pairs : List Pair} (h : Packed src pairs) {p : Nat}
    (hs : Steps src 0 p) : ∃ i, i ≤ pairs.length ∧ offset pairs i = p := by
  obtain ⟨a', b', ys₁, ys₂, rfl, rfl, h₁, _, hq⟩ :=
    Packed.of_steps hs (ByteArray.empty_append).symm rfl .nil h
  refine ⟨ys₁.length, by simp, ?_⟩
  simp [offset, h₁.size, hq]

theorem Packed.split_of_boundary {src : Bytes} {pairs : List Pair} (h : Packed src pairs) {p : Nat}
    {e : Entry} (he : boundary src p = .ok e) : ∃ a b xs ys, src = a ++ b ∧ p = a.size ∧
      pairs = xs ++ e.pair :: ys ∧ Packed a xs ∧ Packed b (e.pair :: ys) := by
  obtain ⟨hlt, -, hs, hd⟩ := boundary_ok_iff.1 he
  obtain ⟨a, b, xs, ys, rfl, rfl, ha, hb, hp⟩ :=
    Packed.of_steps hs (ByteArray.empty_append).symm rfl .nil h
  rw [ByteArray.size_empty, Nat.zero_add] at hp
  subst hp
  cases ys with
  | nil =>
    rw [ByteArray.size_append, hb.size, pairsSize_nil] at hlt
    exact absurd hlt (Nat.lt_irrefl _)
  | cons pair ys =>
    obtain rfl : e.pair = pair := by
      cases hd.symm.trans (hb.decode_after ha.size_mod)
      rfl
    exact ⟨a, b, xs, ys, rfl, rfl, rfl, ha, hb⟩

theorem exists_seek {a b : Bytes} {xs ys : List Pair} (ha : Packed a xs) (hb : Packed b ys)
    {target : Nat} (ht : target ≤ (a ++ b).size) :
    ∃ q, seek (a ++ b) target a.size = .ok q := by
  by_cases hlt : a.size < target
  · induction hb generalizing a xs with
    | nil => simp at ht; omega
    | @cons name v b rest pairs he hr ih =>
      rw [seek_of_advance hlt (ha.advance (.cons he hr))]
      by_cases hlt' : a.size + entrySize name v < target
      · have := ih (ha.append (.singleton he)) (by simpa [ByteArray.append_assoc] using ht)
          (by simpa [he.size] using hlt')
        simpa [ByteArray.append_assoc, he.size] using this
      · exact ⟨_, by rw [seek, if_neg hlt']⟩
  · exact ⟨_, by rw [seek, if_neg hlt]⟩

/-- Why a position in content of that size is not the place of an entry. -/
def positionFault (p size : Nat) : Error :=
  if size ≤ p then .positionOutOfRange p size
  else if p % 4 = 0 then .notAnEntry p else .misalignedPosition p

theorem boundary_error {src : Bytes} {pairs : List Pair} (h : Packed src pairs) {p : Nat}
    (hp : ∀ i < pairs.length, offset pairs i ≠ p) :
    boundary src p = .error (positionFault p src.size) := by
  simp only [boundary, checkPosition, positionFault]
  by_cases hs : src.size ≤ p
  · simp [hs, bind, Except.bind]
  · by_cases hm : p % 4 = 0
    · obtain ⟨q, hq⟩ : ∃ q, seek src p 0 = .ok q := by
        simpa using exists_seek .nil h (show p ≤ (.empty ++ src : Bytes).size by simp; omega)
      have hne : q ≠ p := by
        rintro rfl
        obtain ⟨i, hi, rfl⟩ := h.exists_offset (seek_ok hq)
        rcases Nat.lt_or_eq_of_le hi with hlt | rfl
        · exact hp i hlt rfl
        · rw [offset, List.take_length, ← h.size] at hs
          exact hs (Nat.le_refl _)
      simp [hs, hm, hq, hne, checkAlignment, alignment, bind, Except.bind, throw, throwThe,
        MonadExceptOf.throw]
    · simp [hs, hm, checkAlignment, alignment, bind, Except.bind]

end TaggedBuffer.Content
