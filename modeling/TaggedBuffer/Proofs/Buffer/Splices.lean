import TaggedBuffer.Proofs.Buffer.Edits
import TaggedBuffer.Proofs.Store.Flavor

namespace TaggedBuffer

open Content (spliced)

theorem Content.size_spliced {src : Bytes} {p q : Nat} (new : Bytes) (hp : p ≤ q)
    (hq : q ≤ src.size) : (spliced src p q new).size + (q - p) = src.size + new.size := by
  simp only [spliced, ByteArray.size_append, ByteArray.size_extract]
  omega

theorem Content.spliced_end (src new : Bytes) : spliced src src.size src.size new = src ++ new := by
  rw [spliced, ByteArray.extract_zero_size, ByteArray.extract_same, ByteArray.append_empty]

namespace Buffer

variable {σ : Type} [Store σ] {p a : Nat} {s s' : σ}

theorem append_answer {name : Option String} {v : Value} (h : append name v s = .ok a s') :
    a = Store.used s := by
  obtain ⟨_, _, h⟩ := Update.exists_of_check_ok h
  rw [Update.bind_get] at h
  obtain ⟨_, s₁, _, h⟩ := Update.exists_of_bind_ok h
  obtain ⟨_, s₂, _, h⟩ := Update.exists_of_bind_ok h
  cases h
  rfl

variable [LawfulStore σ]

theorem set_run_eq {v : Value} (h : set p v s = .ok a s') :
    a = p ∧ ∃ e, decodeEntry (Store.content s) p = .ok e ∧
      Store.content s' = spliced (Store.content s) e.valuePosition e.next (valueRecord v) := by
  obtain ⟨_, _, hf⟩ := bind_eq_ok.1 ((set_edits p v s).of_ok h)
  obtain ⟨e, hb, hf⟩ := bind_eq_ok.1 hf
  obtain ⟨ha, hc⟩ := Prod.mk.inj (Except.ok.inj hf)
  exact ⟨ha.symm, e, (Content.boundary_ok_iff.1 hb).2.2.2, hc.symm⟩

theorem append_run_eq {name : Option String} {v : Value}
    (h : append name v s = .ok a s') : Store.content s' = Store.content s ++ entryRecord name v := by
  by_cases hs : Store.used s % 4 = 0
  · obtain ⟨_, _, hf⟩ := bind_eq_ok.1 ((append_edits name v hs).of_ok h)
    exact (Prod.mk.inj (Except.ok.inj hf)).2.symm
  · cases hc : checkEntry name v with
    | error e => cases (Update.bind_check_error hc).symm.trans h
    | ok u =>
      cases hr : roomFor (Store.capacity s) (Store.used s + entrySize name v) with
      | error e => cases (append_full hc hr).symm.trans h
      | ok c =>
        obtain ⟨_, hs', -⟩ := append_misaligned hc hs hr
        cases hs'.symm.trans h

theorem insert_run_eq {name : Option String} {v : Value} (h : insert p name v s = .ok a s') :
    a = p ∧ p ≤ (Store.content s).size ∧
      Store.content s' = spliced (Store.content s) p p (entryRecord name v) := by
  by_cases hp : p = Store.used s
  · subst hp
    rw [insert_of_end] at h
    refine ⟨append_answer h, Nat.le_of_eq (Store.size_content s).symm, ?_⟩
    rw [append_run_eq h, ← Store.size_content s, Content.spliced_end]
  · obtain ⟨_, _, hf⟩ := bind_eq_ok.1 ((insert_edits hp).of_ok h)
    obtain ⟨e, hb, hf⟩ := bind_eq_ok.1 hf
    obtain ⟨ha, hc⟩ := Prod.mk.inj (Except.ok.inj hf)
    exact ⟨ha.symm, Nat.le_of_lt (Content.boundary_ok_iff.1 hb).1, hc.symm⟩

theorem remove_run_eq {u : Unit} (h : remove p s = .ok u s') :
    ∃ e, decodeEntry (Store.content s) p = .ok e ∧
      Store.content s' = spliced (Store.content s) p e.next .empty := by
  obtain ⟨e, hb, hf⟩ := bind_eq_ok.1 ((remove_edits p s).of_ok h)
  obtain ⟨-, hc⟩ := Prod.mk.inj (Except.ok.inj hf)
  exact ⟨e, (Content.boundary_ok_iff.1 hb).2.2.2, hc.symm⟩

end Buffer

/-- Nothing is asked of the content: the parts that are kept are kept byte by byte. -/
theorem splices_verbatim (f : Flavor) (s : f.Storage) (p : Nat) :
    let src := Store.content s
    (∀ v a s', Buffer.set p v s = .ok a s' → a = p ∧ ∃ e, decodeEntry src p = .ok e ∧
      p ≤ e.valuePosition ∧ e.valuePosition ≤ e.next ∧ e.next ≤ src.size ∧
      Store.content s' =
        src.extract 0 e.valuePosition ++ valueRecord v ++ src.extract e.next src.size ∧
      Store.used s' + e.value.recordSize = Store.used s + v.recordSize ∧
      (e.value.type = v.type → v.type.isFixedSize → Store.used s' = Store.used s)) ∧
    (∀ name v a s', Buffer.insert p name v s = .ok a s' → a = p ∧ p ≤ src.size ∧
      Store.content s' = src.extract 0 p ++ ((name.map nameRecord).getD .empty ++ valueRecord v) ++
        src.extract p src.size) ∧
    ∀ u s', Buffer.remove p s = .ok u s' → ∃ e, decodeEntry src p = .ok e ∧
      p < e.next ∧ e.next ≤ src.size ∧
      Store.content s' = src.extract 0 p ++ src.extract e.next src.size := by
  dsimp only
  refine ⟨?set, ?insert, ?remove⟩
  case set =>
    intro v a s' h
    obtain ⟨ha, e, hd, hc⟩ := Buffer.set_run_eq h
    obtain ⟨-, hv, hn, hle⟩ := decodeEntry_place hd
    have hused : Store.used s' + e.value.recordSize = Store.used s + v.recordSize := by
      have hspan : e.valuePosition ≤ e.next := by omega
      have hsize := Content.size_spliced (valueRecord v) hspan hle
      rw [← hc, Store.size_content, Store.size_content, size_valueRecord] at hsize
      omega
    refine ⟨ha, e, hd, by omega, by omega, hle, hc, hused, fun ht hf => ?_⟩
    rw [recordSize_of_isFixedSize ht hf] at hused
    exact Nat.add_right_cancel hused
  case insert =>
    intro name v a s' h
    exact Buffer.insert_run_eq h
  case remove =>
    intro u s' h
    obtain ⟨e, hd, hc⟩ := Buffer.remove_run_eq h
    refine ⟨e, hd, decodeEntry_lt hd, (decodeEntry_place hd).2.2.2, ?_⟩
    rw [hc, Content.spliced, ByteArray.append_empty]

/-- The other bytes stay although they are padding that is not zero and a truth value of 7. -/
example :
    let dirty : Bytes := headerWord nameMarker 1 ++ ⟨#[97, 9, 9, 9]⟩ ++
      headerWord (Value.bool true).type.tag 4 ++ ⟨#[7, 1, 2, 3]⟩
    let src := dirty ++ valueRecord (.bool true) ++ dirty
    let start : Owned := Update.final (Buffer.load src Owned.empty)
    let changed := Update.final (Buffer.set 16 (.utf8 "ab") start)
    Store.content changed = dirty ++ valueRecord (.utf8 "ab") ++ dirty := by
  decide +kernel

end TaggedBuffer
