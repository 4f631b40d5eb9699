import TaggedBuffer.Proofs.Buffer.Room
import TaggedBuffer.Proofs.Buffer.Splices
import TaggedBuffer.Proofs.Content.Cursor

namespace TaggedBuffer

open Content
open Buffer (checkEntry)

variable {σ : Type} [Store σ] {α : Type}

/-- The call at position `p` succeeds if it may, unless there is no room for what it needs, and is
refused with the reason if it may not. Where it does not succeed it changes nothing. -/
structure Guarded (m : Update σ α) (a : α) (may : Prop) (needed p : Nat) (s : σ) : Prop where
  taken : may → (∃ s', m s = .ok a s') ∨ ∃ e, e.IsAllocation ∧ m s = .error e s
  roomy : may → HasRoom (Store.capacity s) needed → ∃ s', m s = .ok a s'
  refused : ¬ may → m s = .error (positionFault p (Store.used s)) s

theorem Guarded.of_edits {m : Update σ α} {f : Bytes → Except Error (α × Bytes)} {s : σ} {a : α}
    {may : Prop} {needed p : Nat} (h : Edits m f s)
    (hmay : may → ∃ b, f (Store.content s) = .ok (a, b) ∧ b.size ≤ needed)
    (hnot : ¬ may → f (Store.content s) = .error (positionFault p (Store.used s))) :
    Guarded m a may needed p s where
  taken hm := by
    obtain ⟨b, hf, -⟩ := hmay hm
    cases hr : roomFor (Store.capacity s) b.size with
    | error e => exact .inr ⟨e, roomFor_error hr, h.full hf hr⟩
    | ok c =>
      obtain ⟨s', hs', -⟩ := h.done hf hr
      exact .inl ⟨s', hs'⟩
  roomy hm hroom := by
    obtain ⟨b, hf, hb⟩ := hmay hm
    obtain ⟨_, s', hs', rfl, -⟩ := (h.within hf hb).exists_ok hroom
    exact ⟨s', hs'⟩
  refused hm := h.refused (hnot hm)

namespace Content

variable {src : Bytes} {pairs : List Pair} {p : Nat}

theorem boundary_of_not_mem (h : Packed src pairs) (hp : p ∉ positions src) :
    boundary src p = .error (positionFault p src.size) := by
  apply boundary_error h
  intro i hi hoff
  apply hp
  rw [← boundary_iff_mem_positions h, ← hoff]
  exact ⟨_, boundary_offset h hi⟩

end Content

namespace Buffer

variable [LawfulStore σ] {s : σ} {pairs : List Pair} {p : Nat} {name : Option String} {v : Value}

theorem remove_guarded (hs : Packed (Store.content s) pairs) (p : Nat) :
    Guarded (remove p) () (p ∈ positions (Store.content s)) (Store.used s) p s := by
  apply Guarded.of_edits (remove_edits p s)
  · intro hp
    obtain ⟨e, he⟩ := (boundary_iff_mem_positions hs p).2 hp
    obtain ⟨-, hv, hn, hle⟩ := decodeEntry_place (boundary_ok_iff.1 he).2.2.2
    refine ⟨_, bind_eq_ok.2 ⟨e, he, rfl⟩, ?_⟩
    have hsize := size_spliced .empty (show p ≤ e.next by omega) hle
    rw [ByteArray.size_empty, Store.size_content] at hsize
    omega
  · intro hp
    rw [removed, boundary_of_not_mem hs hp, Store.size_content]
    rfl

theorem set_guarded (hs : Packed (Store.content s) pairs) (hv : checkValue v = .ok ()) (p : Nat) :
    Guarded (set p v) p (p ∈ positions (Store.content s)) (Store.used s + v.recordSize) p s := by
  apply Guarded.of_edits (set_edits p v s)
  · intro hp
    obtain ⟨e, he⟩ := (boundary_iff_mem_positions hs p).2 hp
    obtain ⟨-, -, hn, hle⟩ := decodeEntry_place (boundary_ok_iff.1 he).2.2.2
    refine ⟨_, bind_eq_ok.2 ⟨(), hv, bind_eq_ok.2 ⟨e, he, rfl⟩⟩, ?_⟩
    have hsize := size_spliced (valueRecord v) (show e.valuePosition ≤ e.next by omega) hle
    rw [size_valueRecord, Store.size_content] at hsize
    omega
  · intro hp
    rw [replaced, hv, boundary_of_not_mem hs hp, Store.size_content]
    rfl

/-- The end of the content is no place of an entry, and yet a position for this call. -/
theorem insert_guarded (hs : Packed (Store.content s) pairs) (hc : checkEntry name v = .ok ())
    (p : Nat) : Guarded (insert p name v) p (p ∈ positions (Store.content s) ∨ p = Store.used s)
      (Store.used s + entrySize name v) p s := by
  by_cases hend : p = Store.used s
  · have hmod : Store.used s % 4 = 0 := by rw [← Store.size_content, hs.size_mod]
    have happend : Edits (insert p name v) (appended name v) s := by
      apply (append_edits name v hmod).congr
      rw [hend, insert_of_end]
    apply Guarded.of_edits happend
    · intro _
      refine ⟨Store.content s ++ entryRecord name v, bind_eq_ok.2 ⟨(), hc, ?_⟩, ?_⟩
      · rw [hend, ← Store.size_content]
        rfl
      · apply Nat.le_of_eq
        rw [ByteArray.size_append, size_entryRecord, Store.size_content]
    · intro hnot
      exact (hnot (.inr hend)).elim
  · apply Guarded.of_edits (insert_edits hend)
    · intro hp
      obtain ⟨e, he⟩ := (boundary_iff_mem_positions hs p).2 (hp.resolve_right hend)
      have hle := Nat.le_of_lt (boundary_ok_iff.1 he).1
      refine ⟨_, bind_eq_ok.2 ⟨(), hc, bind_eq_ok.2 ⟨e, he, rfl⟩⟩, ?_⟩
      have hsize := size_spliced (entryRecord name v) (Nat.le_refl p) hle
      rw [size_entryRecord, Store.size_content] at hsize
      omega
    · intro hp
      rw [inserted, hc, boundary_of_not_mem hs fun h => hp (.inl h), Store.size_content]
      rfl

end Buffer

/-- In storage of any kind that holds valid entries, where an entry starts and nowhere else one can be
removed, replaced and put in front of; a new one may also come after the last. -/
theorem positions_guarded (f : Flavor) (s : f.Storage) {n : Nat}
    (hs : validate (Store.content s) = .ok n) (p : Nat) :
    let places := positions (Store.content s)
    (Guarded (Buffer.remove p) () (p ∈ places) (Store.used s) p s ∧
      ((∃ s', Buffer.remove p s = .ok () s') ↔ p ∈ places)) ∧
    (∀ v, checkValue v = .ok () →
      Guarded (Buffer.set p v) p (p ∈ places) (Store.used s + v.recordSize) p s) ∧
    ∀ name v, checkEntry name v = .ok () →
      Guarded (Buffer.insert p name v) p (p ∈ places ∨ p = Store.used s)
        (Store.used s + entrySize name v) p s ∧
      (p = Store.used s → ∀ q s', Buffer.insert p name v s = .ok q s' →
        Store.content s' = Store.content s ++ entryRecord name v) := by
  intro places
  obtain ⟨pairs, hpacked, -⟩ := validate_ok_iff.1 hs
  refine ⟨⟨Buffer.remove_guarded hpacked p, ?removed⟩, ?replaced, ?inserted⟩
  case removed =>
    have hguard := Buffer.remove_guarded hpacked p
    constructor
    · rintro ⟨s', hs'⟩
      by_cases hp : p ∈ places
      · exact hp
      · cases (hguard.refused hp).symm.trans hs'
    · intro hp
      exact hguard.roomy hp (.inl (Store.used_le_capacity s))
  case replaced =>
    intro v hv
    exact Buffer.set_guarded hpacked hv p
  case inserted =>
    intro name v hc
    refine ⟨Buffer.insert_guarded hpacked hc p, ?_⟩
    rintro rfl q s' hrun
    rw [Buffer.insert_of_end] at hrun
    exact Buffer.append_run_eq hrun

/-- At 8 lies the value record of the only entry and at 16, in its content, a whole entry. Both are
read there, and neither is taken for an entry. -/
theorem positions_guarded_forged :
    let forged := entryRecord none (.bool true)
    let start : Flavor.owned.Storage :=
      Update.final (Buffer.append (some "a") (.binary forged) Owned.empty)
    validate (Store.content start) = .ok 1 ∧
    (decodeEntry (Store.content start) 8).toOption = some ⟨8, none, 8, .binary forged, 24⟩ ∧
    (decodeEntry (Store.content start) 16).toOption = some ⟨16, none, 16, .bool true, 24⟩ ∧
    Buffer.remove 8 start = .error (.notAnEntry 8) start ∧
    Buffer.set 16 .unknown start = .error (.notAnEntry 16) start ∧
    Buffer.insert 18 (some "b") .unknown start = .error (.misalignedPosition 18) start ∧
    Buffer.insert 28 none .unknown start = .error (.positionOutOfRange 28 24) start ∧
    ∃ s', Buffer.remove 0 start = .ok () s' := by
  intro forged start
  have hchecked : checkEntry (some "a") (.binary forged) = .ok () := by
    refine checkEntry_ok_iff.2 ⟨?_, checkValue_ok_iff.2 (by decide +kernel)⟩
    rintro _ ⟨⟩
    rfl
  have hstorable : ∀ pair ∈ [(some "a", Value.binary forged)], Storable pair :=
    List.forall_mem_singleton.2 ⟨trivial, hchecked⟩
  have hcontent : Store.content start = encoded [(some "a", .binary forged)] := by decide +kernel
  have hpacked := hcontent ▸ packed_encoded hstorable
  have hvalid : validate (Store.content start) = .ok 1 := validate_ok_iff.2 ⟨_, hpacked, rfl⟩
  have hused : Store.used start = 24 := by decide +kernel
  have hplaces : positions (Store.content start) = [0] := by
    rw [positions, entries_of_packed hpacked]
    rfl
  have hguard := positions_guarded .owned start hvalid
  rw [hplaces, hused] at hguard
  refine ⟨hvalid, ?_, ?_, ?_, ?_, ?_, ?_, ?_⟩
  · decide +kernel
  · decide +kernel
  · have h := (hguard 8).1.1.refused (by decide)
    rwa [hused] at h
  · have h := ((hguard 16).2.1 .unknown rfl).refused (by decide)
    rwa [hused] at h
  · have h := ((hguard 18).2.2 (some "b") .unknown rfl).1.refused (by decide)
    rwa [hused] at h
  · have h := ((hguard 28).2.2 none .unknown rfl).1.refused (by decide)
    rwa [hused] at h
  · exact (hguard 0).1.2.2 (by decide)

end TaggedBuffer
