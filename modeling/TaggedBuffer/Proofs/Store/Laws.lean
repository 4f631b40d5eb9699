import TaggedBuffer.Proofs.Buffer.Outcome
import TaggedBuffer.Proofs.Bytes.Location
import TaggedBuffer.Store.Basic

namespace TaggedBuffer

/-- The capacity after making room for that many bytes. -/
def roomFor (capacity needed : Nat) : Except Error Nat :=
  if needed ≤ capacity then .ok capacity
  else do
    let padded ← growCapacity needed
    if padded < 2 ^ 63 then .ok padded else .error (.regionLimit padded)

theorem roomFor_of_le {capacity needed : Nat} (h : needed ≤ capacity) :
    roomFor capacity needed = .ok capacity := if_pos h

theorem le_of_roomFor {capacity needed c : Nat} (h : roomFor capacity needed = .ok c) :
    needed ≤ c := by
  rw [roomFor] at h
  split at h
  · cases h
    assumption
  · obtain ⟨padded, hg, h⟩ := bind_eq_ok.1 h
    split at h
    · cases h
      exact le_growCapacity hg
    · cases h

theorem roomFor_eq (capacity needed : Nat) :
    let padded := (needed + needed / 2 + 63) / 64 * 64
    roomFor capacity needed =
      if needed ≤ capacity then .ok capacity
      else if padded < 2 ^ 63 then .ok padded
      else .error (if padded < 2 ^ 64 then .regionLimit padded else .addressSpace needed) := by
  intro padded
  rw [roomFor, growCapacity]
  split
  · rfl
  · by_cases hlimit : padded < 2 ^ 63
    · rw [if_pos hlimit, if_pos (show padded < 2 ^ 64 by omega)]
      exact if_pos hlimit
    · rw [if_neg hlimit]
      by_cases hspace : padded < 2 ^ 64
      · rw [if_pos hspace, if_pos hspace]
        exact if_neg hlimit
      · rw [if_neg hspace, if_neg hspace]
        rfl

theorem roomFor_ok_iff {capacity needed : Nat} : (∃ c, roomFor capacity needed = .ok c) ↔
    needed ≤ capacity ∨ (needed + needed / 2 + 63) / 64 * 64 < 2 ^ 63 := by
  rw [roomFor_eq]
  split
  next hn => exact iff_of_true ⟨_, rfl⟩ (.inl hn)
  next hn =>
    split
    next hp => exact iff_of_true ⟨_, rfl⟩ (.inr hp)
    next hp => exact iff_of_false (fun ⟨_, h⟩ => nomatch h) fun h => h.elim hn hp

theorem growCapacity_error {needed : Nat} {e : Error} (h : growCapacity needed = .error e) :
    e.IsAllocation := by
  dsimp only [growCapacity] at h
  split at h
  · cases h
  · cases h
    trivial

theorem roomFor_error {capacity needed : Nat} {e : Error}
    (h : roomFor capacity needed = .error e) : e.IsAllocation := by
  rw [roomFor] at h
  split at h
  · cases h
  · cases hg : growCapacity needed with
    | error e' =>
      rw [hg] at h
      cases h
      exact growCapacity_error hg
    | ok padded =>
      rw [hg] at h
      dsimp only [bind, Except.bind] at h
      split at h
      · cases h
      · cases h
        trivial

section Allocation

variable [Allocator]

def Allocator.Ample : Prop := ∀ n, Allocator.serves n = true

/-- Why there is no region of the capacity that there is room for: there is no such room, or the
allocator refused it. -/
inductive Denied : Except Error Nat → Error → Prop
  | limit (e : Error) : Denied (.error e) e
  | memory {c : Nat} : Allocator.serves c = false → Denied (.ok c) (.outOfMemory c)

namespace Denied

variable {capacity needed c : Nat} {e : Error}

theorem not_ample (h : Denied (.ok c) e) : ¬ Allocator.Ample := by
  cases h with
  | memory hc => exact fun hample => Bool.noConfusion (hc.symm.trans (hample c))

theorem isAllocation (h : Denied (roomFor capacity needed) e) : e.IsAllocation := by
  generalize hr : roomFor capacity needed = room at h
  cases h with
  | limit => exact roomFor_error hr
  | memory => trivial

end Denied

/-- A region of the capacity that there is room for, which starts with the content, or the reason why
there is none. -/
inductive Provides (content : Bytes) : Except Error Nat → Except Error Bytes → Prop
  | region {r : Bytes} : r.extract 0 content.size = content → Provides content (.ok r.size) (.ok r)
  | denied {room : Except Error Nat} {e : Error} : Denied room e → Provides content room (.error e)

theorem acquire_provides {capacity : Nat} {content : Bytes} (h : content.size ≤ capacity) :
    Provides content (.ok capacity) (acquire capacity content) := by
  rw [acquire]
  split
  · have hsize : (content ++ Bytes.zeros (capacity - content.size)).size = capacity := by
      rw [ByteArray.size_append, Bytes.size_zeros]
      omega
    have hregion : Provides content _ (.ok (content ++ Bytes.zeros (capacity - content.size))) :=
      .region (ByteArray.extract_append_eq_left rfl)
    rwa [hsize] at hregion
  next hserved => exact .denied (.memory (Bool.eq_false_iff.2 (not_or.1 hserved).2))

theorem grow_provides {capacity needed : Nat} {content : Bytes} (hn : ¬ needed ≤ capacity)
    (h : content.size ≤ capacity) :
    Provides content (roomFor capacity needed) (grow needed content) := by
  rw [roomFor, if_neg hn, grow]
  cases hg : growCapacity needed with
  | error e => exact .denied (.limit e)
  | ok padded =>
    have hle := le_growCapacity hg
    simp only [bind, Except.bind, allocate]
    split
    · exact acquire_provides (by omega)
    · exact .denied (.limit _)

end Allocation

theorem Allocator.ample_unbounded : Allocator.Ample := fun _ => rfl

variable {σ : Type}

theorem relocate_cases (stays : Prop) [Decidable stays] (make : Bytes → Except Error Bytes)
    (content : Bytes) (move : Bytes → σ → σ) (s : σ) :
    stays ∧ relocate stays make content move s = .ok false s ∨
      ¬ stays ∧ ((∃ r, make content = .ok r ∧
        relocate stays make content move s = .ok true (move r s)) ∨
      ∃ e, make content = .error e ∧ relocate stays make content move s = .error e s) := by
  rw [relocate]
  by_cases h : stays
  · rw [if_pos h]
    exact .inl ⟨h, rfl⟩
  · rw [if_neg h]
    refine .inr ⟨h, ?_⟩
    cases make content with
    | ok r => exact .inl ⟨r, rfl, rfl⟩
    | error e => exact .inr ⟨e, rfl, rfl⟩

theorem of_relocate_ok {stays : Prop} [Decidable stays] {make : Bytes → Except Error Bytes}
    {content : Bytes} {move : Bytes → σ → σ} {s s' : σ} {moved : Bool}
    (h : relocate stays make content move s = .ok moved s') : s' = s ∨ ∃ r, s' = move r s := by
  rcases relocate_cases stays make content move s with
    ⟨-, hr⟩ | ⟨-, ⟨r, -, hr⟩ | ⟨e, -, hr⟩⟩ <;> cases hr.symm.trans h
  · exact .inl rfl
  · exact .inr ⟨r, rfl⟩

theorem relocate_of_stays {stays : Prop} [Decidable stays] {make : Bytes → Except Error Bytes}
    {content : Bytes} {move : Bytes → σ → σ} {s : σ} (h : stays) :
    relocate stays make content move s = .ok false s := by
  rw [relocate, if_pos h]
  rfl

variable [Store σ]

/-- The update gives the content the capacity that there is room for, or changes nothing. -/
structure MakesRoom [Allocator] {α : Type} (m : Update σ α) (room : Except Error Nat) (s : σ) :
    Prop where
  ok {a : α} {s' : σ} : m s = .ok a s' → room = .ok (Store.capacity s') ∧
    Store.content s' = Store.content s ∧ Store.used s' = Store.used s
  error {e : Error} {s' : σ} : m s = .error e s' → s' = s ∧ Denied room e

namespace MakesRoom

variable [Allocator] {α β : Type} {room : Except Error Nat} {s : σ}

theorem of_ok {m : Update σ α} {a : α} {s' : σ} (hm : m s = .ok a s')
    (h : room = .ok (Store.capacity s') ∧ Store.content s' = Store.content s ∧
      Store.used s' = Store.used s) : MakesRoom m room s := by
  constructor
  · intro a' s'' hr
    cases hm.symm.trans hr
    exact h
  · intro e s'' hr
    cases hm.symm.trans hr

theorem of_error {m : Update σ α} {e : Error} (hm : m s = .error e s) (h : Denied room e) :
    MakesRoom m room s := by
  constructor
  · intro a s' hr
    cases hm.symm.trans hr
  · intro e' s' hr
    cases hm.symm.trans hr
    exact ⟨rfl, h⟩

theorem map (f : α → β) {m : Update σ α} (h : MakesRoom m room s) : MakesRoom (f <$> m) room s := by
  cases hm : m s with
  | ok a s' => exact .of_ok (Update.map_of_ok hm) (h.ok hm)
  | error e s' =>
    obtain ⟨rfl, he⟩ := h.error hm
    exact .of_error (Update.map_of_error hm) he

theorem relocate {stays : Prop} [Decidable stays] {make : Bytes → Except Error Bytes}
    {move : Bytes → σ → σ} (hused : Store.used s ≤ Store.capacity s)
    (hstays : stays → room = .ok (Store.capacity s))
    (hmake : ¬ stays → Provides (Store.content s) room (make (Store.content s)))
    (hmove : ∀ r, Store.used s ≤ r.size →
      Store.region (move r s) = r ∧ Store.used (move r s) = Store.used s) :
    MakesRoom (TaggedBuffer.relocate stays make (Store.content s) move) room s := by
  have hsize : (Store.content s).size = Store.used s := Bytes.size_extract_of_le hused
  rcases relocate_cases stays make (Store.content s) move s with
    ⟨h, hrun⟩ | ⟨h, ⟨r, hr, hrun⟩ | ⟨e, he, hrun⟩⟩
  · exact .of_ok hrun ⟨hstays h, rfl, rfl⟩
  · have hprovides := hmake h
    rw [hr] at hprovides
    cases hprovides with
    | region hprefix =>
      rw [hsize] at hprefix
      have hfits : Store.used s ≤ r.size := by
        have := congrArg ByteArray.size hprefix
        rw [ByteArray.size_extract, hsize] at this
        omega
      obtain ⟨hregion, hused'⟩ := hmove r hfits
      refine .of_ok hrun ⟨by rw [Store.capacity, hregion], ?_, hused'⟩
      rw [Store.content, hregion, hused', hprefix]
  · have hprovides := hmake h
    rw [he] at hprovides
    cases hprovides with
    | denied hdenied => exact .of_error hrun hdenied

end MakesRoom

/-- What storage of every kind does, said of its content and its capacity only. -/
class LawfulStore (σ : Type) [Store σ] : Prop where
  used_le (s : σ) : Store.used s ≤ (Store.region s).size
  reserve_room [Allocator] (needed : Nat) (s : σ) :
    MakesRoom (Store.reserve needed) (roomFor (Store.capacity s) needed) s
  region_setRegion {s : σ} {r : Bytes} :
    r.size = (Store.region s).size → Store.region (Store.setRegion r s) = r
  used_setRegion {s : σ} {r : Bytes} :
    r.size = (Store.region s).size → Store.used (Store.setRegion r s) = Store.used s
  region_setUsed {s : σ} {n : Nat} :
    n ≤ (Store.region s).size → Store.region (Store.setUsed n s) = Store.region s
  used_setUsed {s : σ} {n : Nat} :
    n ≤ (Store.region s).size → Store.used (Store.setUsed n s) = n
  shrinkToFit_room [Allocator] (s : σ) : MakesRoom Store.shrinkToFit (.ok (Store.used s)) s
  content_release (s : σ) : Store.content (Store.release s) = .empty
  capacity_release (s : σ) : Store.capacity (Store.release s) = 0

variable [LawfulStore σ] {s s' : σ} {needed c : Nat} {moved : Bool} {e : Error}

namespace Store

theorem used_le_capacity (s : σ) : used s ≤ capacity s := LawfulStore.used_le s

theorem size_content (s : σ) : (content s).size = used s :=
  Bytes.size_extract_of_le (used_le_capacity s)

theorem used_release (s : σ) : used (release s) = 0 := by
  rw [← size_content, LawfulStore.content_release, ByteArray.size_empty]

section

variable [Allocator]

theorem room_of_reserve_ok (h : reserve needed s = .ok moved s') :
    roomFor (capacity s) needed = .ok (capacity s') ∧ content s' = content s ∧ used s' = used s :=
  (LawfulStore.reserve_room needed s).ok h

theorem denied_of_reserve_error (h : reserve needed s = .error e s') :
    s' = s ∧ Denied (roomFor (capacity s) needed) e :=
  (LawfulStore.reserve_room needed s).error h

theorem of_reserve_ok (h : reserve needed s = .ok moved s') :
    content s' = content s ∧ used s' = used s ∧ needed ≤ capacity s' := by
  obtain ⟨hroom, hcontent, hused⟩ := room_of_reserve_ok h
  exact ⟨hcontent, hused, le_of_roomFor hroom⟩

theorem of_shrinkToFit_ok {u : Unit} (h : shrinkToFit s = .ok u s') :
    content s' = content s ∧ used s' = used s ∧ capacity s' = used s := by
  obtain ⟨hroom, hcontent, hused⟩ := (LawfulStore.shrinkToFit_room s).ok h
  exact ⟨hcontent, hused, (Except.ok.inj hroom).symm⟩

theorem of_shrinkToFit_error (h : shrinkToFit s = .error e s') : s' = s :=
  ((LawfulStore.shrinkToFit_room s).error h).1

end

theorem room_of_reserve_error (h : reserve needed s = .error e s') :
    roomFor (capacity s) needed = .error e ∧ s' = s := by
  obtain ⟨hs, hdenied⟩ := denied_of_reserve_error h
  generalize roomFor (capacity s) needed = room at hdenied ⊢
  cases room with
  | error e' =>
    cases hdenied
    exact ⟨rfl, hs⟩
  | ok c => exact (hdenied.not_ample Allocator.ample_unbounded).elim

end Store

namespace LawfulStore

theorem reserve_error [Allocator] (h : roomFor (Store.capacity s) needed = .error e) :
    Store.reserve needed s = .error e s := by
  cases hr : Store.reserve needed s with
  | ok moved s' => cases h.symm.trans (Store.room_of_reserve_ok hr).1
  | error e' s' =>
    obtain ⟨rfl, hdenied⟩ := Store.denied_of_reserve_error hr
    rw [h] at hdenied
    cases hdenied
    rfl

theorem reserve_ok (h : roomFor (Store.capacity s) needed = .ok c) :
    ∃ moved s', Store.reserve needed s = .ok moved s' ∧ Store.content s' = Store.content s ∧
      Store.used s' = Store.used s ∧ Store.capacity s' = c := by
  cases hr : Store.reserve needed s with
  | ok moved s' =>
    obtain ⟨hroom, hcontent, hused⟩ := Store.room_of_reserve_ok hr
    exact ⟨moved, s', rfl, hcontent, hused, Except.ok.inj (hroom.symm.trans h)⟩
  | error e s' => cases h.symm.trans (Store.room_of_reserve_error hr).1

theorem shrinkToFit_ok (s : σ) : ∃ s', Store.shrinkToFit s = .ok () s' ∧
    Store.content s' = Store.content s ∧ Store.capacity s' = Store.used s := by
  cases hr : Store.shrinkToFit s with
  | ok u s' =>
    obtain ⟨hcontent, -, hcapacity⟩ := Store.of_shrinkToFit_ok hr
    exact ⟨s', rfl, hcontent, hcapacity⟩
  | error e s' =>
    have hdenied := ((shrinkToFit_room s).error hr).2
    exact (hdenied.not_ample Allocator.ample_unbounded).elim

end LawfulStore

end TaggedBuffer
