import TaggedBuffer.Proofs.Store.Flavor

namespace TaggedBuffer

/-- A region in memory of its handle, in memory that was lent, or in a block on the heap. -/
inductive Place where
  | own
  | lent
  | block (id : Option Nat)
  deriving DecidableEq

class Placed (σ : Type) [Store σ] where
  place : σ → Place
  /-- No other handle is on the region. -/
  Alone : σ → Prop
  reserve_ok [Allocator] {s s' : σ} {needed : Nat} {moved : Bool} :
    Store.reserve needed s = .ok moved s' →
      Alone s' ∧ (moved = false ∧ s' = s ∨ moved = true ∧ (Store.capacity s < needed ∨ ¬ Alone s))
  reserve_alone [Allocator] {s : σ} {needed : Nat} :
    Alone s → needed ≤ Store.capacity s → Store.reserve needed s = .ok false s
  setRegion {s : σ} (r : Bytes) : Alone s →
    Alone (Store.setRegion r s) ∧ place (Store.setRegion r s) = place s
  setUsed {s : σ} (n : Nat) : Alone s →
    Alone (Store.setUsed n s) ∧ place (Store.setUsed n s) = place s

section

variable [Allocator] {needed : Nat} {moved : Bool}

theorem Owned.reserve_cases {s s' : Owned} (h : Store.reserve needed s = .ok moved s') :
    moved = false ∧ s' = s ∨ moved = true ∧ Store.capacity s < needed := by
  rcases relocate_cases (needed ≤ s.region.size) (grow needed) s.content moveTo s with
    ⟨-, hr⟩ | ⟨hn, ⟨r, -, hr⟩ | ⟨e, -, hr⟩⟩ <;> cases hr.symm.trans h
  · exact .inl ⟨rfl, rfl⟩
  · exact .inr ⟨rfl, Nat.lt_of_not_le hn⟩

namespace Borrowed

variable {b b' : Borrowed}

theorem reserve_cases (h : Store.reserve needed b = .ok moved b') :
    moved = false ∧ b' = b ∨ moved = true ∧ Store.capacity b < needed ∧ b'.isBorrowed = false ∧
      b'.lent = b.lent := by
  rcases relocate_cases (needed ≤ b.region.size) (grow needed) b.content moveTo b with
    ⟨-, hr⟩ | ⟨hn, ⟨r, -, hr⟩ | ⟨e, -, hr⟩⟩ <;> cases hr.symm.trans h
  · exact .inl ⟨rfl, rfl⟩
  · exact .inr ⟨rfl, Nat.lt_of_not_le hn, rfl, rfl⟩

omit [Allocator] in
theorem isBorrowed_setRegion (r : Bytes) (b : Borrowed) :
    (Store.setRegion r b).isBorrowed = b.isBorrowed := by
  obtain ⟨_, moved, _, _⟩ := b
  cases moved <;> rfl

end Borrowed

namespace Shared

omit [Allocator] in
theorem holders_moveIn (s : Shared) (r : Bytes) : (s.moveIn r).holders = 1 := by
  rw [holders, moveIn, block?_moveTo]
  rfl

omit [Allocator] in
theorem write_alone {s : Shared} (h : s.holders ≤ 1) (r : Bytes) (u : Nat) :
    (s.write r u).holders ≤ 1 ∧ (s.write r u).id = s.id := by
  rw [write]
  split
  next id b hid hb =>
    have hb1 : b.holders ≤ 1 := by
      rw [holders, hb] at h
      exact h
    rw [if_pos hb1]
    refine ⟨?_, rfl⟩
    rw [block?, hid] at hb
    simp only [holders, block?, hid]
    rw [Option.bind_some, Heap.block?_put hb]
    exact hb1
  · exact ⟨h, rfl⟩

theorem reserve_cases {s s' : Shared} (h : Store.reserve needed s = .ok moved s') :
    moved = false ∧ s' = s ∧ s.holders ≤ 1 ∨
      moved = true ∧ s'.holders = 1 ∧ (Store.capacity s < needed ∨ ¬ s.holders ≤ 1) := by
  rcases relocate_cases (needed ≤ s.region.size ∧ s.holders ≤ 1)
      (if needed ≤ s.region.size then acquire s.region.size else grow needed) s.content moveIn s with
    ⟨hstays, hr⟩ | ⟨hn, ⟨r, -, hr⟩ | ⟨e, -, hr⟩⟩ <;> cases hr.symm.trans h
  · exact .inl ⟨rfl, rfl, hstays.2⟩
  · refine .inr ⟨rfl, s.holders_moveIn r, ?_⟩
    rcases Decidable.not_and_iff_or_not.1 hn with hn | h1
    · exact .inl (Nat.lt_of_not_le hn)
    · exact .inr h1

end Shared

end

instance : Placed Owned where
  place _ := .own
  Alone _ := True
  reserve_ok h := ⟨trivial, (Owned.reserve_cases h).imp_right (.imp_right .inl)⟩
  reserve_alone _ hn := relocate_of_stays hn
  setRegion _ _ := ⟨trivial, rfl⟩
  setUsed _ _ := ⟨trivial, rfl⟩

instance : Placed Borrowed where
  place b := if b.isBorrowed then .lent else .own
  Alone _ := True
  reserve_ok h := ⟨trivial, (Borrowed.reserve_cases h).imp_right fun ⟨hmoved, hlt, _⟩ =>
    ⟨hmoved, .inl hlt⟩⟩
  reserve_alone _ hn := relocate_of_stays hn
  setRegion r _ := ⟨trivial, by rw [Borrowed.isBorrowed_setRegion]⟩
  setUsed _ _ := ⟨trivial, rfl⟩

instance : Placed Shared where
  place s := .block s.id
  Alone s := s.holders ≤ 1
  reserve_ok := by
    intro _ s s' needed moved h
    rcases Shared.reserve_cases h with ⟨hmoved, rfl, h1⟩ | ⟨hmoved, h1, hwhy⟩
    · exact ⟨h1, .inl ⟨hmoved, rfl⟩⟩
    · exact ⟨Nat.le_of_eq h1, .inr ⟨hmoved, hwhy⟩⟩
  reserve_alone h hn := relocate_of_stays ⟨hn, h⟩
  setRegion {s} r h := by
    obtain ⟨h1, hid⟩ := Shared.write_alone h r s.used
    exact ⟨h1, congrArg Place.block hid⟩
  setUsed {s} n h := by
    obtain ⟨h1, hid⟩ := Shared.write_alone h s.region n
    exact ⟨h1, congrArg Place.block hid⟩

instance : (f : Flavor) → Placed f.Storage
  | .owned => inferInstanceAs (Placed Owned)
  | .shared => inferInstanceAs (Placed Shared)
  | .borrowed => inferInstanceAs (Placed Borrowed)

/-- On one region alone, with this capacity and in this place. -/
structure Stays {σ : Type} [Store σ] [Placed σ] (capacity : Nat) (place : Place) (s : σ) : Prop where
  alone : Placed.Alone s
  capacity : Store.capacity s = capacity
  place : Placed.place s = place

theorem Stays.reserve [Allocator] {σ : Type} [Store σ] [Placed σ] {c needed : Nat} {l : Place} {s : σ}
    (hs : Stays c l s) (hn : needed ≤ c) : Store.reserve needed s = .ok false s :=
  Placed.reserve_alone hs.alone (hs.capacity ▸ hn)

namespace Store

variable {σ : Type} [Store σ] [LawfulStore σ] {s s' : σ} {needed : Nat} {moved : Bool}

/-- There is a new region just if there was too little room, or another handle was on the region. -/
theorem moved_iff [Placed σ] (h : reserve needed s = .ok moved s') :
    moved = true ↔ capacity s < needed ∨ ¬ Placed.Alone s := by
  obtain ⟨halone, ⟨rfl, rfl⟩ | ⟨rfl, hwhy⟩⟩ := Placed.reserve_ok h
  · have hroom := (of_reserve_ok h).2.2
    refine iff_of_false Bool.false_ne_true fun hwhy => ?_
    rcases hwhy with hlt | hshared
    · omega
    · exact hshared halone
  · exact iff_of_true rfl hwhy

theorem capacity_reserve (h : reserve needed s = .ok moved s') : capacity s' =
    if capacity s < needed then (needed + needed / 2 + 63) / 64 * 64 else capacity s := by
  have hroom := (room_of_reserve_ok h).1
  rw [roomFor_eq] at hroom
  split at hroom
  next hle => rw [if_neg (Nat.not_lt.2 hle), Except.ok.inj hroom]
  next hlt =>
    rw [if_pos (Nat.lt_of_not_le hlt)]
    split at hroom
    · exact (Except.ok.inj hroom).symm
    · cases hroom

theorem of_reserve_error {e : Error} (h : reserve needed s = .error e s') :
    s' = s ∧ e = if (needed + needed / 2 + 63) / 64 * 64 < 2 ^ 64
      then .regionLimit ((needed + needed / 2 + 63) / 64 * 64) else .addressSpace needed := by
  obtain ⟨hroom, hs⟩ := room_of_reserve_error h
  refine ⟨hs, ?_⟩
  rw [roomFor_eq] at hroom
  split at hroom
  · cases hroom
  · split at hroom
    · cases hroom
    · exact (Except.error.inj hroom).symm

theorem reserve_error_iff : (∃ e s', reserve needed s = .error e s') ↔
    capacity s < needed ∧ 2 ^ 63 ≤ (needed + needed / 2 + 63) / 64 * 64 := by
  have hnone : (∃ e s', reserve needed s = .error e s') ↔
      ¬ ∃ c, roomFor (capacity s) needed = .ok c := by
    constructor
    · rintro ⟨e, s', h⟩ ⟨c, hc⟩
      cases (room_of_reserve_error h).1.symm.trans hc
    · intro h
      cases hr : roomFor (capacity s) needed with
      | ok c => exact (h ⟨c, hr⟩).elim
      | error e => exact ⟨e, s, LawfulStore.reserve_error hr⟩
  rw [hnone, roomFor_ok_iff]
  omega

end Store

end TaggedBuffer
