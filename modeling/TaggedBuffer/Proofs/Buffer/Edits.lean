import TaggedBuffer.Buffer.Splice
import TaggedBuffer.Proofs.Buffer.Write
import TaggedBuffer.Proofs.Content.Boundary

namespace TaggedBuffer

namespace Content

/-- The content with other bytes in place of those between two offsets. -/
def spliced (src : Bytes) (p q : Nat) (new : Bytes) : Bytes :=
  src.extract 0 p ++ new ++ src.extract q src.size

theorem spliced_middle {x y z new : Bytes} {p q : Nat} (hp : p = x.size)
    (hq : q = x.size + y.size) : spliced (x ++ y ++ z) p q new = x ++ new ++ z := by
  subst hp hq
  have hl : (x ++ y ++ z).extract 0 x.size = x := by
    rw [ByteArray.append_assoc, ByteArray.extract_append_eq_left rfl]
  rw [spliced, hl, ← ByteArray.size_append, ByteArray.extract_append_eq_right rfl
    ByteArray.size_append]

open Buffer (checkEntry)

def appended (name : Option String) (v : Value) (src : Bytes) : Except Error (Nat × Bytes) := do
  checkEntry name v
  return (src.size, src ++ entryRecord name v)

def replaced (p : Nat) (v : Value) (src : Bytes) : Except Error (Nat × Bytes) := do
  checkValue v
  let e ← boundary src p
  return (p, spliced src e.valuePosition e.next (valueRecord v))

def inserted (p : Nat) (name : Option String) (v : Value) (src : Bytes) :
    Except Error (Nat × Bytes) := do
  checkEntry name v
  let _ ← boundary src p
  return (p, spliced src p p (entryRecord name v))

def removed (p : Nat) (src : Bytes) : Except Error (Unit × Bytes) := do
  let e ← boundary src p
  return ((), spliced src p e.next .empty)

end Content

variable {σ : Type} [Store σ] {α : Type}

/-- The content has become these bytes, in as much room as there is for them, or that room was denied
and nothing has changed. -/
inductive Edited [Allocator] (s : σ) (a : α) (b : Bytes) : EStateM.Result Error σ α → Prop
  | done {s' : σ} : Store.content s' = b →
      roomFor (Store.capacity s) b.size = .ok (Store.capacity s') → Reaches s s' →
        Edited s a b (.ok a s')
  | denied {e : Error} : Denied (roomFor (Store.capacity s) b.size) e → Edited s a b (.error e s)

/-- From this state the update changes the content by the rule. What the rule refuses changes
nothing. -/
structure Edits [Allocator] (m : Update σ α) (f : Bytes → Except Error (α × Bytes)) (s : σ) :
    Prop where
  refused {e : Error} : f (Store.content s) = .error e → m s = .error e s
  accepted {a : α} {b : Bytes} : f (Store.content s) = .ok (a, b) → Edited s a b (m s)

namespace Edits

variable [Allocator] {β : Type} {s : σ}

theorem of_run {m : Update σ α} {f : Bytes → Except Error (α × Bytes)} {a : α} {b : Bytes}
    (hf : f (Store.content s) = .ok (a, b)) (h : Edited s a b (m s)) : Edits m f s := by
  constructor
  · intro e he
    cases hf.symm.trans he
  · intro a' b' hok
    cases hf.symm.trans hok
    exact h

theorem check {x : Except Error β} {m : β → Update σ α}
    {f : β → Bytes → Except Error (α × Bytes)} (h : ∀ b, x = .ok b → Edits (m b) (f b) s) :
    Edits (ofExcept x >>= m) (fun src => x >>= fun b => f b src) s := by
  cases x with
  | error e =>
    constructor
    · intro e' h
      cases h
      rfl
    · intro a b h
      cases h
  | ok b => exact h b rfl

theorem read {g : Bytes → Except Error β} {m : β → Update σ α}
    {f : β → Bytes → Except Error (α × Bytes)}
    (h : ∀ b, g (Store.content s) = .ok b → Edits (m b) (f b) s) :
    Edits (Buffer.content >>= fun src => ofExcept (g src) >>= m)
      (fun src => g src >>= fun b => f b src) s := by
  have hc := check h
  exact ⟨hc.refused, hc.accepted⟩

theorem congr {m n : Update σ α} {f : Bytes → Except Error (α × Bytes)} (h : Edits n f s)
    (he : m s = n s) : Edits m f s :=
  ⟨fun hf => he.trans (h.refused hf), fun hf => he ▸ h.accepted hf⟩

variable {m : Update σ α} {f : Bytes → Except Error (α × Bytes)} {a : α} {b : Bytes} {e : Error}
  {s' : σ}

theorem of_ok (h : Edits m f s) (hm : m s = .ok a s') :
    f (Store.content s) = .ok (a, Store.content s') := by
  cases hf : f (Store.content s) with
  | error e => cases (h.refused hf).symm.trans hm
  | ok r =>
    have hrun := h.accepted hf
    rw [hm] at hrun
    cases hrun with
    | done hcontent => rw [hcontent]

theorem unchanged (h : Edits m f s) (hm : m s = .error e s') : s' = s := by
  cases hf : f (Store.content s) with
  | error e' =>
    cases (h.refused hf).symm.trans hm
    rfl
  | ok r =>
    have hrun := h.accepted hf
    rw [hm] at hrun
    cases hrun with
    | denied => rfl

theorem full (h : Edits m f s) (hf : f (Store.content s) = .ok (a, b))
    (hr : roomFor (Store.capacity s) b.size = .error e) : m s = .error e s := by
  have hrun := h.accepted hf
  generalize m s = r at hrun
  cases hrun with
  | done _ hroom => cases hr.symm.trans hroom
  | denied hdenied =>
    rw [hr] at hdenied
    cases hdenied
    rfl

end Edits

theorem Edits.done {m : Update σ α} {f : Bytes → Except Error (α × Bytes)} {s : σ} {a : α}
    {b : Bytes} {c : Nat} (h : Edits m f s) (hf : f (Store.content s) = .ok (a, b))
    (hr : roomFor (Store.capacity s) b.size = .ok c) :
    ∃ s', m s = .ok a s' ∧ Store.content s' = b ∧ Store.capacity s' = c ∧ Reaches s s' := by
  have hrun := h.accepted hf
  generalize m s = r at hrun
  cases hrun with
  | done hcontent hroom hreach =>
    exact ⟨_, rfl, hcontent, Except.ok.inj (hroom.symm.trans hr), hreach⟩
  | denied hdenied =>
    rw [hr] at hdenied
    exact (hdenied.not_ample Allocator.ample_unbounded).elim

namespace Buffer

section

variable [Allocator]

theorem resizeSpan_same (p n : Nat) (s : σ) : resizeSpan p n n s = .ok () s := by
  rw [resizeSpan, Update.bind_get, if_pos rfl]
  rfl

theorem insert_of_end (name : Option String) (v : Value) (s : σ) :
    insert (Store.used s) name v s = append name v s := by
  rw [insert, Update.bind_get, if_pos rfl]

theorem set_of_boundary {p : Nat} {v : Value} {s : σ} {e : Entry} (hc : checkValue v = .ok ())
    (hb : Content.boundary (Store.content s) p = .ok e) :
    set p v s = (resizeSpan e.valuePosition (e.next - e.valuePosition) v.recordSize >>= fun _ =>
      writeRegion (writeValue e.valuePosition v) >>= fun _ => pure p : Update σ Nat) s := by
  rw [set, Update.bind_check_ok hc, bind_content, Update.bind_check_ok hb]
  dsimp only
  split
  next h =>
    obtain ⟨_, _, hn, _⟩ := decodeEntry_place (Content.boundary_ok_iff.1 hb).2.2.2
    have hsame : e.next - e.valuePosition = v.recordSize := by
      rw [← recordSize_of_isFixedSize h.1 h.2]
      omega
    rw [hsame, Update.bind_of_ok (resizeSpan_same _ _ s)]
  · rfl

theorem set_of_no_boundary {p : Nat} {v : Value} {s : σ} {e : Error} (hc : checkValue v = .ok ())
    (hb : Content.boundary (Store.content s) p = .error e) : set p v s = .error e s := by
  rw [set, Update.bind_check_ok hc, bind_content, Update.bind_check_error hb]

variable [LawfulStore σ]

theorem append_full {name : Option String} {v : Value} {s : σ} {e : Error}
    (hc : checkEntry name v = .ok ())
    (hr : roomFor (Store.capacity s) (Store.used s + entrySize name v) = .error e) :
    append name v s = .error e s := by
  rw [append, Update.bind_check_ok hc, Update.bind_get,
    Update.bind_of_error (LawfulStore.reserve_error hr)]

theorem edited_of_reserve {n : Nat} {f : Bool → Update σ α} {s : σ} {a : α} {b : Bytes}
    (hb : b.size = n)
    (h : ∀ moved s₁, Store.reserve n s = .ok moved s₁ → ∃ s', f moved s₁ = .ok a s' ∧
      Store.content s' = b ∧ Store.capacity s' = Store.capacity s₁ ∧ Reaches s₁ s') :
    Edited s a b ((Store.reserve n >>= f) s) := by
  subst hb
  cases hr : Store.reserve b.size s with
  | ok moved s₁ =>
    obtain ⟨s', hs', hcontent, hcap, hreach⟩ := h moved s₁ hr
    rw [Update.bind_of_ok hr, hs']
    refine .done hcontent ?_ (.trans (.reserve (.refl s) hr) hreach)
    rw [hcap, (Store.room_of_reserve_ok hr).1]
  | error e s₁ =>
    obtain ⟨rfl, hdenied⟩ := Store.denied_of_reserve_error hr
    rw [Update.bind_of_error hr]
    exact .denied hdenied

theorem append_edits (name : Option String) (v : Value) {s : σ} (hs : Store.used s % 4 = 0) :
    Edits (append name v) (Content.appended name v) s := by
  have hsize := Store.size_content s
  refine Edits.check fun _ hc => Edits.of_run rfl ?_
  rw [Update.bind_get, hsize]
  apply edited_of_reserve
  · rw [ByteArray.size_append, hsize, size_entryRecord]
  · intro moved s₁ h₁
    obtain ⟨hc₁, hu₁, hle⟩ := Store.of_reserve_ok h₁
    have hw := writeEntry_run hc hs hle
    have hover : ((Store.region s₁).overwrite (Store.used s) (entryRecord name v)).size =
        Store.capacity s₁ := Bytes.size_overwrite (by rw [size_entryRecord]; exact hle)
    obtain ⟨hcont, hcap⟩ := Store.content_setUsed_setRegion hover hle
    refine ⟨_, ?_, ?_, hcap, .setUsed _ (.setRegion _ (.refl s₁))⟩
    · rw [Update.bind_of_ok (writeRegion_run hw), Update.bind_modify]
      rfl
    · have hext := Bytes.extract_overwrite (b := Store.region s₁) (size_entryRecord name v ▸ hle)
      rw [size_entryRecord] at hext
      rw [hcont, hext, ← hc₁, Store.content, hu₁]

theorem of_resizeSpan_ok {s s' : σ} {x y z : Bytes} {p old n : Nat} {u : Unit}
    (hs : Store.content s = x ++ y ++ z) (hp : x.size = p) (hold : y.size = old)
    (h : resizeSpan p old n s = .ok u s') :
    ∃ gap, gap.size = n ∧ Store.content s' = x ++ gap ++ z ∧
      roomFor (Store.capacity s) (x.size + n + z.size) = .ok (Store.capacity s') ∧ Reaches s s' := by
  subst hp hold
  have hsize := Store.size_content s
  have hcap := Store.used_le_capacity s
  simp only [hs, ByteArray.size_append] at hsize
  by_cases hn : n = y.size
  · subst hn
    cases (resizeSpan_same x.size y.size s).symm.trans h
    exact ⟨y, rfl, hs, roomFor_of_le (by omega), .refl s⟩
  · have hnew : Store.used s - y.size + n = x.size + n + z.size := by omega
    rw [resizeSpan, Update.bind_get, if_neg hn, hnew] at h
    obtain ⟨moved, s₁, h₁, h⟩ := Update.exists_of_bind_ok h
    obtain ⟨hroom, hc₁, hu₁⟩ := Store.room_of_reserve_ok h₁
    obtain ⟨slack, hreg, _⟩ := Store.exists_region s₁
    have hregion : Store.region s₁ = x ++ y ++ z ++ slack := by rw [hreg, hc₁, hs]
    have htail : (Store.region s₁).extract (x.size + y.size) (Store.used s) = z := by
      rw [hregion, ← ByteArray.size_append]
      exact (Bytes.at_middle (x ++ y) z slack).extract_eq (by rw [ByteArray.size_append]; omega)
    have hfit : x.size + n + z.size ≤ (Store.region s₁).size := le_of_roomFor hroom
    obtain ⟨gap, hg, hgap⟩ := Bytes.exists_gap (hregion ▸ hfit)
    rw [← hregion] at hgap
    obtain ⟨hcont, hcap'⟩ := Store.content_setUsed_setRegion (Bytes.size_overwrite hfit) hfit
    rw [Update.bind_of_ok (writeRegion_modify _ s₁), htail] at h
    cases h
    refine ⟨gap, hg, hcont.trans hgap, ?_, .setUsed _ (.setRegion _ (.reserve (.refl s) h₁))⟩
    rw [hcap', hroom]

theorem of_resizeSpan_error {s s' : σ} {x y z : Bytes} {p old n : Nat} {e : Error}
    (hs : Store.content s = x ++ y ++ z) (hp : x.size = p) (hold : y.size = old)
    (h : resizeSpan p old n s = .error e s') :
    s' = s ∧ Denied (roomFor (Store.capacity s) (x.size + n + z.size)) e := by
  subst hp hold
  have hsize := Store.size_content s
  simp only [hs, ByteArray.size_append] at hsize
  by_cases hn : n = y.size
  · subst hn
    cases (resizeSpan_same x.size y.size s).symm.trans h
  · have hnew : Store.used s - y.size + n = x.size + n + z.size := by omega
    rw [resizeSpan, Update.bind_get, if_neg hn, hnew] at h
    cases hr : Store.reserve (x.size + n + z.size) s with
    | ok moved s₁ => cases (Update.bind_of_ok hr).symm.trans h
    | error e' s₁ =>
      cases (Update.bind_of_error hr).symm.trans h
      exact Store.denied_of_reserve_error hr

theorem splice_edits {p q : Nat} {record : Bytes} {s : σ} {w : Update Bytes α} {a : α} {β : Type}
    (r : β) (hp : p ≤ q) (hq : q ≤ (Store.content s).size)
    (hw : ∀ dest : Bytes, p + record.size ≤ dest.size → w dest = .ok a (dest.overwrite p record)) :
    Edits (resizeSpan p (q - p) record.size >>= fun _ => writeRegion w >>= fun _ => pure r)
      (fun src => .ok (r, Content.spliced src p q record)) s := by
  have hcut := Bytes.extract_cut hp hq
  have hx : ((Store.content s).extract 0 p).size = p := Bytes.size_extract_of_le (Nat.le_trans hp hq)
  have hy := Bytes.size_extract_of_le (p := p) hq
  refine Edits.of_run rfl ?_
  cases h₁ : resizeSpan p (q - p) record.size s with
  | error e s₁ =>
    obtain ⟨rfl, hdenied⟩ := of_resizeSpan_error hcut hx hy h₁
    rw [Update.bind_of_error h₁]
    refine .denied ?_
    rwa [Content.spliced, ByteArray.size_append, ByteArray.size_append]
  | ok u s₁ =>
    obtain ⟨gap, hg, hc₁, hroom, hreach⟩ := of_resizeSpan_ok hcut hx hy h₁
    have hused := Store.size_content s₁
    have hcap : Store.used s₁ ≤ (Store.region s₁).size := Store.used_le_capacity s₁
    simp only [hc₁, ByteArray.size_append, hg, hx] at hused
    obtain ⟨s', hs', hcontent, hcap', hreach'⟩ :=
      writeRegion_over hc₁ hg (hx.symm ▸ hw (Store.region s₁) (by omega))
    rw [Update.bind_of_ok h₁, Update.bind_of_ok hs']
    refine .done hcontent ?_ (hreach.trans hreach')
    rw [Content.spliced, ByteArray.size_append, ByteArray.size_append, hcap', hroom]

theorem cut_edits {p q : Nat} {s : σ} (hp : p ≤ q) (hq : q ≤ (Store.content s).size) :
    Edits (resizeSpan p (q - p) 0) (fun src => .ok ((), Content.spliced src p q .empty)) s := by
  have hcut := Bytes.extract_cut hp hq
  have hx : ((Store.content s).extract 0 p).size = p := Bytes.size_extract_of_le (Nat.le_trans hp hq)
  have hy := Bytes.size_extract_of_le (p := p) hq
  have hspliced : (Content.spliced (Store.content s) p q .empty).size =
      ((Store.content s).extract 0 p).size + 0 +
        ((Store.content s).extract q (Store.content s).size).size := by
    rw [Content.spliced, ByteArray.size_append, ByteArray.size_append, ByteArray.size_empty]
  refine Edits.of_run rfl ?_
  cases h₁ : resizeSpan p (q - p) 0 s with
  | error e s₁ =>
    obtain ⟨rfl, hdenied⟩ := of_resizeSpan_error hcut hx hy h₁
    exact .denied (hspliced ▸ hdenied)
  | ok u s₁ =>
    obtain ⟨gap, hg, hc₁, hroom, hreach⟩ := of_resizeSpan_ok hcut hx hy h₁
    rw [ByteArray.size_eq_zero_iff.1 hg] at hc₁
    exact .done hc₁ (hspliced ▸ hroom) hreach

theorem set_edits (p : Nat) (v : Value) (s : σ) : Edits (set p v) (Content.replaced p v) s := by
  refine Edits.check fun _ hc => Edits.read fun e hb => ?_
  obtain ⟨hm, hv, hn, hle⟩ := decodeEntry_place (Content.boundary_ok_iff.1 hb).2.2.2
  have hmod : e.valuePosition % 4 = 0 := by
    have := namePartSize_mod e.name
    omega
  have hcore := splice_edits (s := s) p (show e.valuePosition ≤ e.next by omega) hle
    fun dest hd => writeValue_run hc hmod (size_valueRecord v ▸ hd)
  rw [size_valueRecord] at hcore
  apply hcore.congr
  have hset := set_of_boundary hc hb
  rw [set, Update.bind_check_ok hc, bind_content, Update.bind_check_ok hb] at hset
  exact hset

theorem remove_edits (p : Nat) (s : σ) : Edits (remove p) (Content.removed p) s := by
  apply Edits.read
  intro e hb
  obtain ⟨_, hv, hn, hle⟩ := decodeEntry_place (Content.boundary_ok_iff.1 hb).2.2.2
  exact cut_edits (by omega) hle

theorem insert_edits {p : Nat} {name : Option String} {v : Value} {s : σ}
    (hp : p ≠ Store.used s) : Edits (insert p name v) (Content.inserted p name v) s := by
  have hcore : Edits (ofExcept (checkEntry name v) >>= fun _ => content >>= fun src =>
      ofExcept (Content.boundary src p) >>= fun _ => resizeSpan p 0 (entrySize name v) >>= fun _ =>
        writeRegion (writeEntry p name v) >>= fun _ => pure p) (Content.inserted p name v) s := by
    refine Edits.check fun _ hc => Edits.read fun e hb => ?_
    obtain ⟨hm, hv, hn, hle⟩ := decodeEntry_place (Content.boundary_ok_iff.1 hb).2.2.2
    have h := splice_edits (s := s) p (Nat.le_refl p) (by omega)
      fun dest hd => writeEntry_run hc hm (size_entryRecord name v ▸ hd)
    rwa [size_entryRecord, Nat.sub_self] at h
  apply hcore.congr
  rw [insert, Update.bind_get, if_neg hp]

theorem load_edits (bytes : Bytes) (s : σ) : Edits (load bytes) (fun _ => .ok ((), bytes)) s := by
  refine Edits.of_run rfl (edited_of_reserve rfl fun moved s₁ h₁ => ?_)
  have hle := (Store.of_reserve_ok h₁).2.2
  have hroom : 0 + bytes.size ≤ (Store.region s₁).size := by
    rw [Nat.zero_add]
    exact hle
  have hover := Bytes.size_overwrite hroom
  obtain ⟨hcont, hcap⟩ := Store.content_setUsed_setRegion hover hle
  refine ⟨_, ?_, ?_, hcap, .setUsed _ (.setRegion _ (.refl s₁))⟩
  · rw [Update.bind_of_ok (writeRegion_modify _ s₁)]
    rfl
  · have hext := Bytes.extract_overwrite hroom
    rw [Nat.zero_add, ByteArray.extract_same, ByteArray.empty_append] at hext
    rw [hcont, hext]

end

variable [LawfulStore σ]

/-- At the end of content that is no whole number of words the record is refused, after making
room. -/
theorem append_misaligned {s : σ} {name : Option String} {v : Value} {c : Nat}
    (hc : checkEntry name v = .ok ()) (hs : Store.used s % 4 ≠ 0)
    (hr : roomFor (Store.capacity s) (Store.used s + entrySize name v) = .ok c) :
    ∃ s', append name v s = .error (.misalignedPosition (Store.used s)) s' ∧
      Store.content s' = Store.content s ∧ Store.capacity s' = c ∧ Reaches s s' := by
  have hle := le_of_roomFor hr
  obtain ⟨moved, s₁, h₁, hc₁, hu₁, rfl⟩ := LawfulStore.reserve_ok hr
  have hw := writeEntry_misaligned hc hs hle
  refine ⟨Store.setRegion (Store.region s₁) s₁, ?_, ?_, Store.capacity_setRegion rfl,
    .setRegion _ (.reserve (.refl s) h₁)⟩
  · rw [append, Update.bind_check_ok hc, Update.bind_get, Update.bind_of_ok h₁,
      Update.bind_of_error (writeRegion_fault hw)]
  · rw [Store.content_setRegion rfl, ← hc₁, Store.content]

end Buffer

end TaggedBuffer
