import TaggedBuffer.Proofs.Buffer.Traversal

namespace TaggedBuffer

class Note (ν : Type) where
  /-- Room was made for that many bytes, in a new region or in the old one. -/
  reserved : Nat → Bool → ν → ν
  used : Nat → ν → ν

/-- Storage of any kind with notes beside it. -/
structure Noted (ν σ : Type) where
  store : σ
  note : ν

variable {ν σ : Type}

namespace Noted

def lift {α : Type} (change : α → ν → ν) (m : Update σ α) : Update (Noted ν σ) α := fun t =>
  match m t.store with
  | .ok a s => .ok a ⟨s, change a t.note⟩
  | .error e s => .error e ⟨s, t.note⟩

section Lift

variable {α : Type} {change : α → ν → ν} {m : Update σ α} {t t' : Noted ν σ} {s : σ} {a : α}
  {e : Error}

theorem lift_of_ok (h : m t.store = .ok a s) : lift change m t = .ok a ⟨s, change a t.note⟩ := by
  rw [lift, h]

theorem lift_of_error (h : m t.store = .error e s) : lift change m t = .error e ⟨s, t.note⟩ := by
  rw [lift, h]

theorem of_lift_ok (h : lift change m t = .ok a t') :
    m t.store = .ok a t'.store ∧ t'.note = change a t.note := by
  cases hm : m t.store with
  | ok a' s =>
    cases (lift_of_ok hm).symm.trans h
    exact ⟨rfl, rfl⟩
  | error e s => cases (lift_of_error hm).symm.trans h

end Lift

variable [Store σ] [Note ν]

instance : Store (Noted ν σ) where
  region t := Store.region t.store
  used t := Store.used t.store
  reserve needed := lift (Note.reserved needed) (Store.reserve needed)
  setRegion r t := ⟨Store.setRegion r t.store, t.note⟩
  setUsed n t :=
    let s := Store.setUsed n t.store
    ⟨s, Note.used (Store.used s) t.note⟩
  shrinkToFit := lift (fun _ => id) Store.shrinkToFit
  release t := ⟨Store.release t.store, t.note⟩
  isOwner t := Store.isOwner t.store

theorem region_store (t : Noted ν σ) : Store.region t.store = Store.region t := rfl

theorem used_store (t : Noted ν σ) : Store.used t.store = Store.used t := rfl

theorem content_store (t : Noted ν σ) : Store.content t.store = Store.content t := rfl

theorem capacity_store (t : Noted ν σ) : Store.capacity t.store = Store.capacity t := rfl

theorem setRegion_store (r : Bytes) (t : Noted ν σ) :
    Store.setRegion r t.store = (Store.setRegion r t).store := rfl

theorem setUsed_store (n : Nat) (t : Noted ν σ) :
    Store.setUsed n t.store = (Store.setUsed n t).store := rfl

theorem of_reserve_ok [Allocator] {t t' : Noted ν σ} {needed : Nat} {moved : Bool}
    (h : Store.reserve needed t = .ok moved t') : Store.reserve needed t.store = .ok moved t'.store ∧
      t'.note = Note.reserved needed moved t.note :=
  of_lift_ok h

theorem lift_room [Allocator] {α : Type} {change : α → ν → ν} {m : Update σ α}
    {room : Except Error Nat} {t : Noted ν σ} (h : MakesRoom m room t.store) :
    MakesRoom (lift change m) room t := by
  cases hm : m t.store with
  | ok a s => exact .of_ok (lift_of_ok hm) (h.ok hm)
  | error e s =>
    obtain ⟨rfl, he⟩ := h.error hm
    exact .of_error (lift_of_error hm) he

/-- Notes leave the laws as they are. -/
instance [LawfulStore σ] : LawfulStore (Noted ν σ) where
  used_le t := LawfulStore.used_le t.store
  reserve_room needed t := lift_room (LawfulStore.reserve_room needed t.store)
  region_setRegion {t _} := LawfulStore.region_setRegion (s := t.store)
  used_setRegion {t _} := LawfulStore.used_setRegion (s := t.store)
  region_setUsed {t _} := LawfulStore.region_setUsed (s := t.store)
  used_setUsed {t _} := LawfulStore.used_setUsed (s := t.store)
  shrinkToFit_room t := lift_room (LawfulStore.shrinkToFit_room t.store)
  content_release t := LawfulStore.content_release t.store
  capacity_release t := LawfulStore.capacity_release t.store

end Noted

/-- The storage is that without the notes, and `Q` is known of it. -/
def Traced (Q : Noted ν σ → Prop) (s : σ) (t : Noted ν σ) : Prop := t.store = s ∧ Q t

theorem Noted.lift_traced {α : Type} {change : α → ν → ν} {m : Update σ α} {t : Noted ν σ}
    {R : Noted ν σ → Prop} (hm : Intact m t.store) (ht : R t)
    (hR : ∀ {t' a}, Noted.lift change m t = .ok a t' → R t') :
    Outcome (Traced R) (m t.store) (Noted.lift change m t) := by
  cases hs : m t.store with
  | error e s =>
    obtain rfl := hm e s hs
    rw [Noted.lift_of_error hs]
    exact .error ⟨rfl, ht⟩
  | ok a s =>
    have hlift : Noted.lift change m t = _ := Noted.lift_of_ok hs
    rw [hlift]
    exact .ok ⟨rfl, hR hlift⟩

variable [Store σ] [Note ν]

/-- What is known of storage before an update of one entry in place (`Q`) and after any change (`Q'`),
as far as making room and writing below a used length keep it. -/
structure Upheld (Q Q' : Noted ν σ → Prop) : Prop where
  le {t : Noted ν σ} : Q t → Q' t
  reserve {t t' : Noted ν σ} {needed : Nat} {moved : Bool} : Q t →
    Store.reserve needed t = .ok moved t' → Q t'
  reserve' {t t' : Noted ν σ} {needed : Nat} {moved : Bool} : Q' t →
    Store.reserve needed t = .ok moved t' → Q' t'
  /-- The used length may become smaller here. -/
  write {t : Noted ν σ} {p n : Nat} {new : Bytes} : Q t → p + new.size ≤ n → n ≤ Store.capacity t →
    Q' (Store.setUsed n (Store.setRegion ((Store.region t).overwrite p new) t))
  grow {t : Noted ν σ} {p n : Nat} {new : Bytes} : Q' t → Store.used t ≤ n → p + new.size ≤ n →
    n ≤ Store.capacity t →
      Q' (Store.setUsed n (Store.setRegion ((Store.region t).overwrite p new) t))
  patch {t : Noted ν σ} {p : Nat} {new : Bytes} : Q' t → p + new.size ≤ Store.used t →
    Q' (Store.setRegion ((Store.region t).overwrite p new) t)

theorem Upheld.of_invariant {Q : Noted ν σ → Prop}
    (hreserve : ∀ {t t' : Noted ν σ} {needed : Nat} {moved : Bool}, Q t →
      Store.reserve needed t = .ok moved t' → Q t')
    (hwrite : ∀ {t : Noted ν σ} {p n : Nat} {new : Bytes}, Q t → p + new.size ≤ n →
      n ≤ Store.capacity t → Q (Store.setUsed n (Store.setRegion ((Store.region t).overwrite p new) t)))
    (hpatch : ∀ {t : Noted ν σ} {p : Nat} {new : Bytes}, Q t → p + new.size ≤ Store.used t →
      Q (Store.setRegion ((Store.region t).overwrite p new) t)) : Upheld Q Q where
  le := id
  reserve := hreserve
  reserve' := hreserve
  write := hwrite
  grow h _ := hwrite h
  patch := hpatch

theorem Upheld.always : Upheld (fun _ : Noted ν σ => True) (fun _ => True) :=
  of_invariant (fun _ _ => trivial) (fun _ _ _ => trivial) fun _ _ => trivial

variable [LawfulStore σ]

theorem Buffer.used_resizeSpan {s s' : σ} {p old new : Nat} (hp : p + old ≤ Store.used s)
    (h : Buffer.resizeSpan p old new s = .ok () s') :
    Store.used s' = Store.used s - old + new := by
  rw [Buffer.resizeSpan, Update.bind_get] at h
  dsimp only at h
  split at h
  next hn =>
    cases h
    omega
  · obtain ⟨moved, s₁, h₁, h⟩ := Update.exists_of_bind_ok h
    rw [Update.bind_of_ok (writeRegion_modify _ s₁)] at h
    cases h
    exact (Store.setUsed_overwrite (Bytes.size_tail hp) (Store.of_reserve_ok h₁).2.2).1

namespace Upheld

open Noted (region_store used_store content_store capacity_store setRegion_store setUsed_store)

variable {Q Q' : Noted ν σ → Prop} {t : Noted ν σ} {α : Type}

theorem reserve_traced {R : Noted ν σ → Prop} {needed : Nat} (ht : R t)
    (hR : ∀ {t' moved}, Store.reserve needed t = .ok moved t' → R t') :
    Outcome (Traced R) (Store.reserve needed t.store) (Store.reserve needed t) :=
  Noted.lift_traced (fun _ _ h => (Store.denied_of_reserve_error h).1) ht hR

omit [LawfulStore σ] in
theorem writeRegion_store {w : Update Bytes α} {a : α} {r : Bytes}
    (hw : w (Store.region t) = .ok a r) :
    Buffer.writeRegion w t.store = .ok a (Store.setRegion r t).store := by
  rw [← region_store] at hw
  rw [writeRegion_run hw, setRegion_store]

variable (h : Upheld Q Q')

include h

omit [LawfulStore σ] in
theorem le_traced {s : σ} (hs : Traced Q s t) : Traced Q' s t := ⟨hs.1, h.le hs.2⟩

theorem append_traced (name : Option String) (v : Value) :
    Matches (Traced Q') (Buffer.append name v) (Buffer.append name v) := by
  rintro _ t ⟨rfl, ht⟩
  refine .check ⟨rfl, ht⟩ fun _ hc => ?_
  rw [Update.bind_get, Update.bind_get, used_store]
  apply Outcome.bind_of_run (reserve_traced ht (h.reserve' ht))
  rintro moved _ t₁ hs ⟨rfl, ht₁⟩
  obtain ⟨-, hu, hle⟩ := Store.of_reserve_ok hs
  rw [used_store, used_store] at hu
  rw [capacity_store] at hle
  by_cases hal : Store.used t % 4 = 0
  · have hw := writeEntry_run hc hal hle
    rw [Update.bind_of_ok (writeRegion_store hw), Update.bind_of_ok (writeRegion_run hw)]
    have hfit := Nat.le_of_eq (congrArg (Store.used t + ·) (size_entryRecord name v))
    exact .ok ⟨(setUsed_store _ _).symm, h.grow ht₁ (hu ▸ Nat.le_add_right _ _) hfit hle⟩
  · -- The record is refused, and the region is the handle's own all the same.
    have hw := writeEntry_misaligned hc hal hle
    have hw' := hw
    rw [← region_store] at hw'
    rw [Update.bind_of_error (writeRegion_fault hw'), Update.bind_of_error (writeRegion_fault hw)]
    have hsame : Q' (Store.setRegion ((Store.region t₁).overwrite 0 .empty) t₁) :=
      h.patch ht₁ (Nat.zero_le _)
    rw [Bytes.overwrite_empty] at hsame
    rw [setRegion_store, region_store]
    exact .error ⟨rfl, hsame⟩

theorem resizeSpan_traced {p old new : Nat} (ht : Q t) (hp : p + old ≤ Store.used t) :
    Outcome (Traced Q') (Buffer.resizeSpan p old new t.store) (Buffer.resizeSpan p old new t) := by
  rw [Buffer.resizeSpan, Buffer.resizeSpan, Update.bind_get, Update.bind_get, used_store]
  by_cases hn : new = old
  · rw [if_pos hn, if_pos hn]
    exact .ok ⟨rfl, h.le ht⟩
  · rw [if_neg hn, if_neg hn]
    apply Outcome.bind_of_le (reserve_traced ht (h.reserve ht)) fun _ _ => h.le_traced
    rintro moved _ t₁ hs ⟨rfl, ht₁⟩
    have hle := (Store.of_reserve_ok hs).2.2
    rw [capacity_store] at hle
    rw [Update.bind_of_ok (writeRegion_modify _ t₁.store),
      Update.bind_of_ok (writeRegion_modify _ t₁), region_store, setRegion_store]
    exact .ok ⟨(setUsed_store _ _).symm, h.write ht₁ (Bytes.size_tail hp) hle⟩

theorem splice_traced {β : Type} {p old : Nat} {record : Bytes} {w : Update Bytes α} {a : α}
    (r : β) (ht : Q t) (hp : p + old ≤ Store.used t)
    (hw : ∀ dest : Bytes, p + record.size ≤ dest.size → w dest = .ok a (dest.overwrite p record)) :
    Outcome (Traced Q')
      ((Buffer.resizeSpan p old record.size >>= fun _ => Buffer.writeRegion w >>= fun _ =>
        pure r : Update σ β) t.store)
      ((Buffer.resizeSpan p old record.size >>= fun _ => Buffer.writeRegion w >>= fun _ =>
        pure r : Update (Noted ν σ) β) t) := by
  apply (h.resizeSpan_traced ht hp).bind_of_run
  rintro ⟨⟩ _ t₁ hs ⟨rfl, ht₁⟩
  have hused := Buffer.used_resizeSpan (used_store t ▸ hp) hs
  rw [used_store, used_store] at hused
  have hroom : p + record.size ≤ Store.used t₁ := by omega
  have hrun := hw (Store.region t₁) (Nat.le_trans hroom (Store.used_le_capacity t₁))
  rw [Update.bind_of_ok (writeRegion_store hrun), Update.bind_of_ok (writeRegion_run hrun)]
  exact .ok ⟨rfl, h.patch ht₁ hroom⟩

theorem set_traced (p : Nat) (v : Value) :
    Leads (Traced Q) (Traced Q') (Buffer.set p v) (Buffer.set p v) := by
  rintro _ t ⟨rfl, ht⟩
  have hsize := Store.size_content t
  cases hc : checkValue v with
  | error e =>
    rw [Buffer.set, Buffer.set, Update.bind_check_error hc, Update.bind_check_error hc]
    exact .error ⟨rfl, h.le ht⟩
  | ok u =>
    cases hb : Content.boundary (Store.content t) p with
    | error e =>
      have hb' := hb
      rw [← content_store] at hb'
      rw [Buffer.set_of_no_boundary hc hb, Buffer.set_of_no_boundary hc hb']
      exact .error ⟨rfl, h.le ht⟩
    | ok e =>
      obtain ⟨hal, hv, hn, hle⟩ := decodeEntry_place (Content.boundary_ok_iff.1 hb).2.2.2
      have hname := namePartSize_mod e.name
      have hb' := hb
      rw [← content_store] at hb'
      rw [Buffer.set_of_boundary hc hb, Buffer.set_of_boundary hc hb', ← size_valueRecord v]
      exact h.splice_traced p ht (by omega) fun dest hd =>
        writeValue_run hc (by omega) (size_valueRecord v ▸ hd)

theorem insert_traced (p : Nat) (name : Option String) (v : Value) :
    Leads (Traced Q) (Traced Q') (Buffer.insert p name v) (Buffer.insert p name v) := by
  rintro _ t ⟨rfl, ht⟩
  have hsize := Store.size_content t
  rw [Buffer.insert, Buffer.insert, Update.bind_get, Update.bind_get, used_store]
  by_cases hp : p = Store.used t
  · rw [if_pos hp, if_pos hp]
    exact h.append_traced name v t.store t ⟨rfl, h.le ht⟩
  · rw [if_neg hp, if_neg hp]
    refine .check ⟨rfl, h.le ht⟩ fun _ hc => ?_
    rw [Buffer.bind_content, Buffer.bind_content, content_store]
    refine .check ⟨rfl, h.le ht⟩ fun e hb => ?_
    obtain ⟨hal, hv, hn, hle⟩ := decodeEntry_place (Content.boundary_ok_iff.1 hb).2.2.2
    rw [← size_entryRecord name v]
    exact h.splice_traced p ht (by omega) fun dest hd =>
      writeEntry_run hc hal (size_entryRecord name v ▸ hd)

theorem remove_traced (p : Nat) :
    Leads (Traced Q) (Traced Q') (Buffer.remove p) (Buffer.remove p) := by
  rintro _ t ⟨rfl, ht⟩
  have hsize := Store.size_content t
  rw [Buffer.remove, Buffer.bind_content, Buffer.remove, Buffer.bind_content, content_store]
  refine .check ⟨rfl, h.le ht⟩ fun e hb => ?_
  obtain ⟨hal, hv, hn, hle⟩ := decodeEntry_place (Content.boundary_ok_iff.1 hb).2.2.2
  exact h.resizeSpan_traced ht (by omega)

theorem cut_traced {p q : Nat} {s : σ} (hs : Traced Q s t)
    (hp : Content.Steps (Store.content s) 0 p) (hq : Content.Steps (Store.content s) p q) :
    Outcome (Traced Q') (Buffer.resizeSpan p (q - p) 0 s) (Buffer.resizeSpan p (q - p) 0 t) := by
  obtain ⟨rfl, ht⟩ := hs
  have hsize := Store.size_content t.store
  have hpq := hq.le
  have hle := (hp.trans hq).le_size (Nat.zero_le _)
  rw [hsize, used_store] at hle
  exact h.resizeSpan_traced ht (by omega)

theorem parallel : Parallel (Traced Q) (Traced Q') (fun _ => True) where
  wellFormed _ := trivial
  le := h.le_traced
  content := by
    rintro _ t ⟨rfl, -⟩
    exact content_store t
  used := by
    rintro _ t ⟨rfl, -⟩
    exact used_store t
  reserve needed f g hf := by
    apply Matches.bind _ fun moved => hf moved moved
    rintro _ t ⟨rfl, ht⟩
    exact reserve_traced ht (h.reserve' ht)
  append name v _ := h.append_traced name v
  set p v _ := h.set_traced p v
  insert p name v _ := h.insert_traced p name v
  remove := h.remove_traced
  cut := h.cut_traced

end Upheld

theorem Noted.shrinkToFit_traced {t : Noted ν σ} {R : Noted ν σ → Prop} (ht : R t)
    (hR : ∀ {t'}, Store.shrinkToFit t = .ok () t' → R t') :
    Outcome (Traced R) (Store.shrinkToFit t.store) (Store.shrinkToFit t) :=
  lift_traced (fun _ _ => Store.of_shrinkToFit_error) ht hR

/-- Notes change nothing of a call. -/
theorem Call.run_noted (c : Call) : Matches (Traced (ν := ν) (σ := σ) fun _ => True) c.run c.run := by
  refine c.run_parallel Upheld.always.parallel (fun _ _ => trivial) ?_ fun _ _ _ => id
  rintro hroom _ t ⟨rfl, -⟩
  rcases c.eq_of_givesUpRoom hroom with rfl | rfl
  · exact (Noted.shrinkToFit_traced trivial fun _ => trivial).map _
  · exact .ok ⟨rfl, trivial⟩

end TaggedBuffer
