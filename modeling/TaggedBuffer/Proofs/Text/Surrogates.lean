import TaggedBuffer.Proofs.Text.Utf16

namespace TaggedBuffer.Utf16

def IsSurrogate (u : UInt16) : Prop := isHigh u = true ∨ isLow u = true

/-- A high surrogate and behind it a low one. -/
def IsPairAt (us : List UInt16) (i : Nat) : Prop :=
  ∃ u v, us[i]? = some u ∧ us[i + 1]? = some v ∧ isHigh u = true ∧ isLow v = true

/-- A surrogate that neither begins a pair nor ends one. Pairs share no unit (`IsPairAt.not_succ`), so
they are those that reading from the left finds. -/
def IsStrayAt (us : List UInt16) (i : Nat) : Prop :=
  (∃ u, us[i]? = some u ∧ IsSurrogate u) ∧ ¬ IsPairAt us i ∧ ∀ j, j + 1 = i → ¬ IsPairAt us j

variable {u v : UInt16} {us : List UInt16} {i : Nat}

theorem isLow_of_isHigh (h : isHigh u = true) : isLow u = false := by
  rw [isHigh_iff] at h
  rw [Bool.eq_false_iff, ne_eq, isLow_iff]
  omega

theorem ofUnit_eq_none_iff : ofUnit u = none ↔ IsSurrogate u := by
  rw [ofUnit, IsSurrogate, ← Bool.or_eq_true]
  split <;> simp_all

theorem IsPairAt.not_succ (h : IsPairAt us i) : ¬ IsPairAt us (i + 1) := by
  rintro ⟨w, _, hw, _, hhigh, _⟩
  obtain ⟨_, v, _, hv, _, hlow⟩ := h
  obtain rfl : v = w := Option.some.inj (hv.symm.trans hw)
  rw [isLow_of_isHigh hhigh] at hlow
  cases hlow

theorem isPairAt_zero : IsPairAt (u :: us) 0 ↔ isHigh u = true ∧ ∃ v ∈ us.head?, isLow v = true := by
  cases us with
  | nil => simp [IsPairAt]
  | cons v us => simp [IsPairAt]

theorem isStrayAt_zero : IsStrayAt (u :: us) 0 ↔ IsSurrogate u ∧ ¬ IsPairAt (u :: us) 0 := by
  simp [IsStrayAt]

/-- For the units behind the first it only matters whether a pair begins there. -/
theorem isStrayAt_succ : IsStrayAt (u :: us) (i + 1) ↔
    IsStrayAt us i ∧ (i = 0 → ¬ IsPairAt (u :: us) 0) := by
  constructor
  · rintro ⟨hunit, hpair, hbefore⟩
    refine ⟨⟨hunit, hpair, fun j hj => hbefore (j + 1) (by omega)⟩, ?_⟩
    rintro rfl
    exact hbefore 0 rfl
  · rintro ⟨⟨hunit, hpair, hbefore⟩, hfirst⟩
    refine ⟨hunit, hpair, fun j hj => ?_⟩
    cases j with
    | zero => exact hfirst (by omega)
    | succ j => exact hbefore j (by omega)

theorem exists_isStrayAt_cons (h : ¬ IsPairAt (u :: us) 0) :
    (∃ i, IsStrayAt (u :: us) i) ↔ IsSurrogate u ∨ ∃ i, IsStrayAt us i := by
  rw [← Nat.or_exists_add_one, isStrayAt_zero]
  simp only [isStrayAt_succ, h, not_false_eq_true, implies_true, and_true]

theorem exists_isStrayAt_pair (hu : isHigh u = true) (hv : isLow v = true) :
    (∃ i, IsStrayAt (u :: v :: us) i) ↔ ∃ i, IsStrayAt us i := by
  have hpair : IsPairAt (u :: v :: us) 0 := ⟨u, v, rfl, rfl, hu, hv⟩
  have hnext : ¬ IsPairAt (v :: us) 0 := hpair.not_succ
  constructor
  · rintro ⟨i, hi⟩
    match i with
    | 0 => exact (hi.2.1 hpair).elim
    | 1 => exact (hi.2.2 0 rfl hpair).elim
    | i + 2 => exact ⟨i, (isStrayAt_succ.1 (isStrayAt_succ.1 hi).1).1⟩
  · rintro ⟨i, hi⟩
    have hbehind : IsStrayAt (v :: us) (i + 1) := isStrayAt_succ.2 ⟨hi, fun _ => hnext⟩
    exact ⟨i + 2, isStrayAt_succ.2 ⟨hbehind, fun h => by omega⟩⟩

theorem none_mem_scalars_iff : none ∈ scalars us ↔ ∃ i, IsStrayAt us i := by
  fun_induction scalars us with
  | case1 => simp [IsStrayAt]
  | case2 u =>
    have hpair : ¬ IsPairAt [u] 0 := by simp [isPairAt_zero]
    have hnil : ¬ ∃ i, IsStrayAt [] i := by simp [IsStrayAt]
    rw [exists_isStrayAt_cons hpair, List.mem_singleton, eq_comm, ofUnit_eq_none_iff,
      or_iff_left hnil]
  | case3 u v rest hp ih =>
    obtain ⟨hu, hv⟩ := Bool.and_eq_true_iff.1 hp
    rw [exists_isStrayAt_pair hu hv, ← ih]
    simp
  | case4 u v rest hp ih =>
    have hpair : ¬ IsPairAt (u :: v :: rest) 0 := by simpa [isPairAt_zero] using hp
    rw [exists_isStrayAt_cons hpair, List.mem_cons, eq_comm, ofUnit_eq_none_iff, ih]

theorem mapM_id_eq_none_iff {α : Type} {os : List (Option α)} : os.mapM id = none ↔ none ∈ os := by
  induction os with
  | nil => simp
  | cons o os ih =>
    rw [List.mapM_cons, List.mem_cons, ← ih]
    cases o with
    | none => simp
    | some a => cases os.mapM id <;> simp

theorem decode?_eq_none_iff {b : Bytes} :
    decode? b = none ↔ ∃ i, IsStrayAt (units (Bytes.list b)) i := by
  rw [decode?, Option.map_eq_none_iff, mapM_id_eq_none_iff, none_mem_scalars_iff]

theorem units_append_singleton {bs : List UInt8} (h : bs.length % 2 = 0) (x : UInt8) :
    units (bs ++ [x]) = units bs := by
  fun_induction units bs with
  | case1 lo hi rest ih =>
    rw [List.length_cons, List.length_cons] at h
    rw [List.cons_append, List.cons_append, units, ih (by omega)]
  | case2 bs hshort =>
    cases bs with
    | nil => rfl
    | cons lo rest =>
      cases rest with
      | nil => simp at h
      | cons hi rest => exact (hshort lo hi rest rfl).elim

theorem units_push {b : Bytes} (h : b.size % 2 = 0) (x : UInt8) :
    units (Bytes.list (b.push x)) = units (Bytes.list b) := by
  have hlist : Bytes.list (b.push x) = Bytes.list b ++ [x] := Array.toList_push
  rw [hlist]
  exact units_append_singleton h x

/-- Text and the units without a stray surrogate stand for each other one to one, and half a unit at
the end is not read. -/
theorem transcoding_bijective :
    (∀ s, decode? (encode s) = some s ∧ decodeLossy (encode s) = s) ∧
    (∀ b s, b.size % 2 = 0 → decode? b = some s → encode s = b ∧ decodeLossy b = s) ∧
    (∀ b, decode? b = none ↔ ∃ i, IsStrayAt (units (Bytes.list b)) i) ∧
    ∀ b x, b.size % 2 = 0 → decode? (b.push x) = decode? b ∧ decodeLossy (b.push x) = decodeLossy b := by
  refine ⟨fun s => ⟨decode?_encode s, decodeLossy_encode s⟩, ?_, fun _ => decode?_eq_none_iff, ?_⟩
  · intro b s heven h
    exact ⟨encode_of_decode? heven h, decodeLossy_of_decode? h⟩
  · intro b x heven
    constructor
    · rw [decode?, decode?, units_push heven]
    · rw [← String.toList_inj, toList_decodeLossy, toList_decodeLossy, units_push heven]

theorem transcoding_bijective_pair :
    let b : Bytes := [0x3D, 0xD8, 0x09, 0xDE].toByteArray
    b.size % 2 = 0 ∧ decode? b = some "😉" ∧ encode "😉" = b ∧
      decode? (b.push 0xD8) = some "😉" := by
  intro b
  have heven : b.size % 2 = 0 := by decide
  have hread : decode? b = some "😉" := by decide
  refine ⟨heven, hread, (transcoding_bijective.2.1 b _ heven hread).1, ?_⟩
  rw [(transcoding_bijective.2.2.2 b 0xD8 heven).1, hread]

end TaggedBuffer.Utf16
