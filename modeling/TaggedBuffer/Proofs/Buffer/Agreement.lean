import TaggedBuffer.Proofs.Buffer.Traversal

namespace TaggedBuffer

open Content (Steps boundary spliced entries)
open Buffer (checkEntry)

/-- What is known of content and kept by the rules, for values of that kind. -/
structure Closed (P : Bytes → Prop) (ok : Value → Prop) : Prop where
  wellFormed {v : Value} : v.WellFormed → ok v
  empty : P .empty
  append {b : Bytes} {name : Option String} {v : Value} : P b → checkEntry name v = .ok () → ok v →
    P (b ++ entryRecord name v)
  replace {b : Bytes} {p : Nat} {v : Value} {e : Entry} : P b → boundary b p = .ok e →
    checkValue v = .ok () → ok v → P (spliced b e.valuePosition e.next (valueRecord v))
  insert {b : Bytes} {p : Nat} {name : Option String} {v : Value} {e : Entry} : P b →
    boundary b p = .ok e → checkEntry name v = .ok () → ok v → P (spliced b p p (entryRecord name v))
  cut {b : Bytes} {p q : Nat} : P b → Steps b 0 p → Steps b p q → P (spliced b p q .empty)

theorem closed_true : Closed (fun _ => True) (fun _ => True) where
  wellFormed _ := trivial
  empty := trivial
  append _ _ _ := trivial
  replace _ _ _ _ := trivial
  insert _ _ _ _ := trivial
  cut _ _ _ := trivial

variable {σ τ : Type} [Store σ] [Store τ]

/-- The same content and the same capacity, with what is known of the content and of one side. -/
structure Agree (P : Bytes → Prop) (Q : σ → Prop) (s : σ) (t : τ) : Prop where
  content : Store.content s = Store.content t
  capacity : Store.capacity s = Store.capacity t
  holds : P (Store.content s)
  side : Q s

variable {P : Bytes → Prop} {ok : Value → Prop} {Q : σ → Prop}

theorem Agree.used [LawfulStore σ] [LawfulStore τ] {s : σ} {t : τ} (h : Agree P Q s t) :
    Store.used s = Store.used t := by
  rw [← Store.size_content, h.content, Store.size_content]

theorem Edits.agree {α : Type} {m : Update σ α} {n : Update τ α}
    {f : Bytes → Except Error (α × Bytes)} {s : σ} {t : τ} (hm : Edits m f s) (hn : Edits n f t)
    (hQ : Stable Q) (h : Agree P Q s t)
    (hf : ∀ a b, f (Store.content s) = .ok (a, b) → P b) :
    Outcome (Agree P Q) (m s) (n t) := by
  cases hx : f (Store.content s) with
  | error e =>
    rw [hm.refused hx, hn.refused (h.content ▸ hx)]
    exact .error h
  | ok r =>
    obtain ⟨a, b⟩ := r
    cases hr : roomFor (Store.capacity s) b.size with
    | error e =>
      rw [hm.full hx hr, hn.full (h.content ▸ hx) (h.capacity ▸ hr)]
      exact .error h
    | ok c =>
      obtain ⟨s', hs, rfl, rfl, hreach⟩ := hm.done hx hr
      obtain ⟨t', ht, hc, hcap, -⟩ := hn.done (h.content ▸ hx) (h.capacity ▸ hr)
      rw [hs, ht]
      exact .ok ⟨hc.symm, hcap.symm, hf a _ hx, hQ _ _ hreach h.side⟩

namespace Buffer

variable [LawfulStore σ] [LawfulStore τ]

variable (hP : Closed P ok) (hQ : Stable Q)

include hP hQ

theorem append_agrees (name : Option String) {v : Value} (hv : ok v) :
    Matches (Agree P Q) (append name v : Update σ Nat) (append name v : Update τ Nat) := by
  intro s t h
  by_cases hs : Store.used s % 4 = 0
  · apply (append_edits name v hs).agree (append_edits name v (h.used ▸ hs)) hQ h
    intro a b hf
    obtain ⟨_, hc, hf⟩ := bind_eq_ok.1 hf
    cases hf
    exact hP.append h.holds hc hv
  · cases hc : checkEntry name v with
    | error e =>
      rw [append, append, Update.bind_check_error hc, Update.bind_check_error hc]
      exact .error h
    | ok u =>
      cases hr : roomFor (Store.capacity s) (Store.used s + entrySize name v) with
      | error e =>
        rw [append_full hc hr, append_full hc (h.capacity ▸ h.used ▸ hr)]
        exact .error h
      | ok c =>
        obtain ⟨s', hs', hcs, rfl, hreach⟩ := append_misaligned hc hs hr
        obtain ⟨t', ht', hct, hcap, -⟩ :=
          append_misaligned hc (h.used ▸ hs) (h.capacity ▸ h.used ▸ hr)
        rw [hs', ht', h.used]
        exact .error ⟨by rw [hcs, hct, h.content], hcap.symm, hcs ▸ h.holds, hQ _ _ hreach h.side⟩

theorem set_agrees (p : Nat) {v : Value} (hv : ok v) :
    Matches (Agree P Q) (set p v : Update σ Nat) (set p v : Update τ Nat) := by
  intro s t h
  apply (set_edits p v s).agree (set_edits p v t) hQ h
  intro a b hf
  obtain ⟨_, hc, hf⟩ := bind_eq_ok.1 hf
  obtain ⟨e, hb, hf⟩ := bind_eq_ok.1 hf
  cases hf
  exact hP.replace h.holds hb hc hv

theorem insert_agrees (p : Nat) (name : Option String) {v : Value} (hv : ok v) :
    Matches (Agree P Q) (insert p name v : Update σ Nat) (insert p name v : Update τ Nat) := by
  intro s t h
  by_cases hp : p = Store.used s
  · subst hp
    rw [insert_of_end, h.used, insert_of_end]
    exact append_agrees hP hQ name hv s t h
  · apply (insert_edits hp).agree (insert_edits (h.used ▸ hp)) hQ h
    intro a b hf
    obtain ⟨_, hc, hf⟩ := bind_eq_ok.1 hf
    obtain ⟨e, hb, hf⟩ := bind_eq_ok.1 hf
    cases hf
    exact hP.insert h.holds hb hc hv

theorem remove_agrees (p : Nat) :
    Matches (Agree P Q) (remove p : Update σ Unit) (remove p : Update τ Unit) := by
  intro s t h
  apply (remove_edits p s).agree (remove_edits p t) hQ h
  intro a b hf
  obtain ⟨e, hb, hf⟩ := bind_eq_ok.1 hf
  cases hf
  obtain ⟨_, _, hs, hd⟩ := Content.boundary_ok_iff.1 hb
  exact hP.cut h.holds hs (.single (advance_of_decodeEntry hd))

theorem cut_agrees {p q : Nat} {s : σ} {t : τ} (h : Agree P Q s t)
    (hp : Steps (Store.content s) 0 p) (hq : Steps (Store.content s) p q) :
    Outcome (Agree P Q) (resizeSpan p (q - p) 0 s) (resizeSpan p (q - p) 0 t) := by
  have hpq := hq.le
  have hle := (hp.trans hq).le_size (Nat.zero_le _)
  apply (cut_edits hpq hle).agree (cut_edits hpq (h.content ▸ hle)) hQ h
  intro a b hf
  cases hf
  exact hP.cut h.holds hp hq

omit hP in
theorem reserve_agrees {α : Type} (needed : Nat) {f : Bool → Update σ α} {g : Bool → Update τ α}
    (hf : ∀ a b, Matches (Agree P Q) (f a) (g b)) :
    Matches (Agree P Q) (Store.reserve needed >>= f) (Store.reserve needed >>= g) := by
  intro s t h
  cases hr : roomFor (Store.capacity s) needed with
  | error e =>
    rw [Update.bind_of_error (LawfulStore.reserve_error hr),
      Update.bind_of_error (LawfulStore.reserve_error (h.capacity ▸ hr))]
    exact .error h
  | ok c =>
    obtain ⟨a, s', hs, hcs, -, rfl⟩ := LawfulStore.reserve_ok hr
    obtain ⟨b, t', ht, hct, -, hcap⟩ := LawfulStore.reserve_ok (h.capacity ▸ hr)
    rw [Update.bind_of_ok hs, Update.bind_of_ok ht]
    exact hf a b s' t' ⟨by rw [hcs, hct, h.content], hcap.symm, hcs ▸ h.holds,
      hQ _ _ (.reserve (.refl s) hs) h.side⟩

omit hP in
theorem load_agrees {bytes : Bytes} (hb : P bytes) :
    Matches (Agree P Q) (load bytes : Update σ Unit) (load bytes : Update τ Unit) := by
  intro s t h
  apply (load_edits bytes s).agree (load_edits bytes t) hQ h
  intro a b hf
  cases hf
  exact hb

end Buffer

variable [LawfulStore σ] [LawfulStore τ]

open Buffer in
theorem Agree.parallel (hP : Closed P ok) (hQ : Stable Q) :
    Parallel (Agree (σ := σ) (τ := τ) P Q) (Agree P Q) ok where
  wellFormed := hP.wellFormed
  le := id
  content h := h.content
  used h := h.used
  reserve needed := reserve_agrees hQ needed
  append name _ := append_agrees hP hQ name
  set p _ := set_agrees hP hQ p
  insert p name _ := insert_agrees hP hQ p name
  remove := remove_agrees hP hQ
  cut := cut_agrees hP hQ

theorem Agree.shrinkToFit (hQ : Stable Q) :
    Matches (Agree P Q) (Store.shrinkToFit : Update σ Unit) (Store.shrinkToFit : Update τ Unit) := by
  intro s t h
  obtain ⟨s', hs, hcs, hcaps⟩ := LawfulStore.shrinkToFit_ok s
  obtain ⟨t', ht, hct, hcapt⟩ := LawfulStore.shrinkToFit_ok t
  rw [hs, ht]
  exact .ok ⟨by rw [hcs, hct, h.content], by rw [hcaps, hcapt, h.used], hcs ▸ h.holds,
    hQ _ _ (.shrinkToFit (.refl s) hs) h.side⟩

theorem Agree.release (hP : Closed P ok) (hQ : Stable Q) {s : σ} {t : τ} (h : Agree P Q s t) :
    Agree P Q (Store.release s) (Store.release t) := by
  constructor
  · rw [LawfulStore.content_release, LawfulStore.content_release]
  · rw [LawfulStore.capacity_release, LawfulStore.capacity_release]
  · rw [LawfulStore.content_release]
    exact hP.empty
  · exact hQ _ _ (.release (.refl s)) h.side

theorem Call.run_agrees (hP : Closed P ok) (hQ : Stable Q) {c : Call} (hv : ∀ v ∈ c.values, ok v) :
    Matches (Agree P Q) (c.run : Update σ Answer) (c.run : Update τ Answer) := by
  refine c.run_parallel (Agree.parallel hP hQ) hv (fun hroom s t h => ?_) fun _ _ _ => id
  rcases c.eq_of_givesUpRoom hroom with rfl | rfl
  · exact (Agree.shrinkToFit hQ).map _ s t h
  · exact .ok (h.release hP hQ)

open Buffer in
/-- The same of makers. Bytes that are taken as they are have to be what is known of content. -/
theorem Maker.run_agrees (hP : Closed P ok) (hQ : Stable Q) {m : Maker} (hv : ∀ v ∈ m.values, ok v)
    (hm : m.IsFresh ∨ ∀ b, P b) :
    Matches (Agree P Q) (m.run : Update σ Unit) (m.run : Update τ Unit) := by
  have hpairs : ∀ {pairs : List Pair}, (∀ v ∈ pairs.map (·.2), ok v) →
      Matches (Agree P Q) (appendAll pairs : Update σ Unit) (appendAll pairs : Update τ Unit) :=
    fun hv => (Agree.parallel hP hQ).appendAll fun pair h => hv pair.2 (List.mem_map_of_mem h)
  cases m with
  | new => exact .pure ()
  | withCapacity capacity => exact reserve_agrees hQ capacity fun _ _ => .pure ()
  | fromBytes bytes =>
    exact fun s t h => .check h fun _ _ => load_agrees hQ (hm.resolve_left id bytes) s t h
  | readFrom source =>
    exact fun s t h => .check h fun bytes _ => .check h fun _ _ =>
      load_agrees hQ (hm.resolve_left id bytes) s t h
  | fromPairs pairs => exact hpairs hv
  | build b =>
    exact (reserve_agrees hQ _ fun _ _ => Matches.pure ()).bind fun _ => hpairs hv
  | importLegacy bytes =>
    have hlegacy := (Agree.parallel (σ := σ) (τ := τ) hP hQ).appendAll fun pair h =>
      hP.wellFormed (Legacy.walk_wellFormed bytes 0 pair h)
    apply Matches.bind hlegacy
    intro _
    cases (Legacy.walk bytes 0).2 with
    | some fault => exact .throw fault
    | none => exact .pure ()

end TaggedBuffer
