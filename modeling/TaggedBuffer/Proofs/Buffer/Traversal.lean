import TaggedBuffer.Proofs.Buffer.Call
import TaggedBuffer.Proofs.Buffer.Splices
import TaggedBuffer.Proofs.Content.Prefix
import TaggedBuffer.Proofs.Value.WellFormed

namespace TaggedBuffer

open Content (Steps spliced)

variable {σ τ α β : Type}

/-- From all states that `R` relates both updates have the same outcome, and `R'` relates what they
leave. -/
def Leads (R R' : σ → τ → Prop) (m : Update σ α) (n : Update τ α) : Prop :=
  ∀ s t, R s t → Outcome R' (m s) (n t)

namespace Leads

variable {R R' : σ → τ → Prop} {m : Update σ α} {n : Update τ α}

theorem of_matches (h : Matches R' m n) (hle : ∀ {s t}, R s t → R' s t) : Leads R R' m n :=
  fun s t hR => h s t (hle hR)

theorem bind {f : α → Update σ β} {g : α → Update τ β} (h : Leads R R' m n)
    (hf : ∀ a, Matches R' (f a) (g a)) : Leads R R' (m >>= f) (n >>= g) :=
  fun s t hR => (h s t hR).bind hf

theorem map (f : α → β) (h : Leads R R' m n) : Leads R R' (f <$> m) (f <$> n) :=
  h.bind fun a => .pure (f a)

end Leads

variable [Store σ] [Store τ]

namespace Buffer

variable [LawfulStore σ]

theorem steps_spliced {src new : Bytes} {p q r : Nat} (h : Steps src 0 p) (hp : p ≤ q)
    (hq : q ≤ src.size) : Steps (spliced src q r new) 0 p := by
  have hl : (src.extract 0 q).size = q := Bytes.size_extract_of_le hq
  refine h.congr (Nat.le_refl p) ?_ ?_
  · rw [spliced, ByteArray.size_append, ByteArray.size_append, hl]
    omega
  · rw [spliced, ByteArray.append_assoc, ByteArray.extract_append, hl, Nat.sub_eq_zero_of_le hp,
      Nat.zero_sub, ByteArray.extract_same, ByteArray.append_empty, ByteArray.extract_extract, Nat.zero_add,
      Nat.zero_add, Nat.min_eq_left hp]

theorem set_keeps {p a : Nat} {v : Value} {s s' : σ} (h : set p v s = .ok a s')
    (hs : Steps (Store.content s) 0 p) : Steps (Store.content s') 0 p := by
  obtain ⟨-, e, hd, hc⟩ := set_run_eq h
  obtain ⟨_, hv, hn, hle⟩ := decodeEntry_place hd
  rw [hc]
  exact steps_spliced hs (by omega) (by omega)

theorem insert_keeps {p a : Nat} {name : Option String} {v : Value} {s s' : σ}
    (h : insert p name v s = .ok a s') (hs : Steps (Store.content s) 0 p) :
    Steps (Store.content s') 0 p := by
  obtain ⟨-, hle, hc⟩ := insert_run_eq h
  rw [hc]
  exact steps_spliced hs (Nat.le_refl p) hle

theorem layValues_steps {vs : List Value} {cursor stop : Nat} {s s' : σ}
    (h : layValues cursor vs s = .ok stop s') (hs : Steps (Store.content s) 0 cursor) :
    Steps (Store.content s') 0 stop := by
  induction vs generalizing cursor s with
  | nil =>
    cases h
    exact hs
  | cons v vs ih =>
    -- Whatever was done at the cursor, the cursor is still reached, and the next one from it.
    have hrest : ∀ s₁ : σ, Steps (Store.content s₁) 0 cursor →
        (content >>= fun src => ofExcept (advance src cursor) >>= fun next =>
          layValues next vs : Update σ Nat) s₁ = .ok stop s' → Steps (Store.content s') 0 stop := by
      intro s₁ hs₁ h
      rw [bind_content] at h
      obtain ⟨next, ha, h⟩ := Update.exists_of_check_ok h
      exact ih h (hs₁.trans (.single ha))
    rw [layValues, bind_content] at h
    obtain ⟨unnamed, _, h⟩ := Update.exists_of_check_ok h
    dsimp only at h
    split at h
    · obtain ⟨a, s₁, hset, h⟩ := Update.exists_of_bind_ok h
      exact hrest s₁ (set_keeps hset hs) h
    · obtain ⟨a, s₁, hins, h⟩ := Update.exists_of_bind_ok h
      exact hrest s₁ (insert_keeps hins hs) h

end Buffer

/-- Storage of two kinds on which updates of one entry run alike. `R` relates the two sides before an
update of one entry in place, `R'` after any change. -/
structure Parallel (R R' : σ → τ → Prop) (ok : Value → Prop) : Prop where
  wellFormed {v : Value} : v.WellFormed → ok v
  le {s : σ} {t : τ} : R s t → R' s t
  content {s : σ} {t : τ} : R' s t → Store.content s = Store.content t
  used {s : σ} {t : τ} : R' s t → Store.used s = Store.used t
  reserve {α : Type} (needed : Nat) {f : Bool → Update σ α} {g : Bool → Update τ α} :
    (∀ a b, Matches R' (f a) (g b)) →
      Matches R' (Store.reserve needed >>= f) (Store.reserve needed >>= g)
  append (name : Option String) {v : Value} : ok v →
    Matches R' (Buffer.append name v) (Buffer.append name v)
  set (p : Nat) {v : Value} : ok v → Leads R R' (Buffer.set p v) (Buffer.set p v)
  insert (p : Nat) (name : Option String) {v : Value} : ok v →
    Leads R R' (Buffer.insert p name v) (Buffer.insert p name v)
  remove (p : Nat) : Leads R R' (Buffer.remove p) (Buffer.remove p)
  cut {p q : Nat} {s : σ} {t : τ} : R s t → Steps (Store.content s) 0 p →
    Steps (Store.content s) p q →
      Outcome R' (Buffer.resizeSpan p (q - p) 0 s) (Buffer.resizeSpan p (q - p) 0 t)

namespace Parallel

variable {R R' : σ → τ → Prop} {ok : Value → Prop} (h : Parallel R R' ok) {v : Value}
variable {s : σ} {t : τ}

include h

theorem read {S : σ → τ → Prop} {f : Bytes → Update σ α} {g : Bytes → Update τ α} (hs : R' s t)
    (hf : ∀ src, src = Store.content s → Outcome S (f src s) (g src t)) :
    Outcome S ((Buffer.content >>= f) s) ((Buffer.content >>= g) t) := by
  rw [Buffer.bind_content, Buffer.bind_content, ← h.content hs]
  exact hf _ rfl

theorem appendAll {pairs : List Pair} (hv : ∀ pair ∈ pairs, ok pair.2) :
    Matches R' (Buffer.appendAll pairs) (Buffer.appendAll pairs) := by
  induction pairs with
  | nil => exact .pure ()
  | cons pair pairs ih =>
    have hrest := ih fun pair hp => hv pair (.tail _ hp)
    exact (h.append pair.1 (hv pair (.head _))).bind fun _ => hrest

theorem appendPairs {pairs : List Pair} (hv : ∀ pair ∈ pairs, ok pair.2) :
    Matches R' (Buffer.appendPairs pairs) (Buffer.appendPairs pairs) := by
  cases pairs with
  | nil => exact .pure none
  | cons pair pairs =>
    have hrest := h.appendAll fun pair hp => hv pair (.tail _ hp)
    exact (h.append pair.1 (hv pair (.head _))).bind fun p => hrest.bind fun _ => .pure (some p)

theorem appendSection (name : String) {vs : List Value} (hv : ∀ v ∈ vs, ok v) :
    Matches R' (Buffer.appendSection name vs) (Buffer.appendSection name vs) := by
  refine h.appendPairs fun pair hp => hv pair.2 ?_
  rw [← Buffer.map_sectionPairs name vs]
  exact List.mem_map_of_mem hp

theorem appendParsed (text : String) :
    Matches R' (Buffer.appendParsed text) (Buffer.appendParsed text) := by
  intro s t hs
  apply Outcome.check hs
  intro pairs hp
  have hv : ∀ pair ∈ pairs, ok pair.2 := fun pair hmem =>
    h.wellFormed (parseItems_storable hp pair hmem).1
  split
  · exact .ok hs
  · rw [Update.bind_get, Update.bind_get, ← h.used hs]
    exact h.reserve _ (fun _ _ => (h.appendAll hv).bind fun _ => .pure pairs.length) s t hs

theorem mergeEntries {es : List Entry} (hv : ∀ e ∈ es, ok e.value) :
    Matches R' (Buffer.mergeEntries es) (Buffer.mergeEntries es) := by
  induction es with
  | nil => exact .pure ()
  | cons e es ih =>
    have hrest := ih fun e he => hv e (.tail _ he)
    intro s t hs
    unfold Buffer.mergeEntries
    cases e.name with
    | none => exact hrest s t hs
    | some name =>
      apply h.read hs
      intro src _
      dsimp only
      split
      · exact hrest s t hs
      · exact ((h.append _ (hv e (.head _))).bind fun _ => hrest) s t hs

theorem appendAt (name : Option String) (hv : ok v) :
    Leads R R' (Buffer.append name v) (Buffer.append name v) :=
  .of_matches (h.append name hv) h.le

theorem setNamed (name : String) (hv : ok v) :
    Leads R R' (Buffer.setNamed name v) (Buffer.setNamed name v) := by
  intro s t hs
  apply h.read (h.le hs)
  intro src _
  cases Content.find? src name with
  | some p => exact h.set p hv s t hs
  | none => exact h.appendAt _ hv s t hs

theorem atIndex (index : Nat) {f : Nat → Update σ α} {g : Nat → Update τ α}
    (hf : ∀ p, Leads R R' (f p) (g p)) :
    Leads R R' (Buffer.positionAt index >>= f) (Buffer.positionAt index >>= g) := by
  intro s t hs
  refine Outcome.bind_of_le (R := R) ?_ (fun _ _ => h.le) fun p s t _ hs => hf p s t hs
  apply h.read (h.le hs)
  intro src _
  cases Content.findIndex? src index with
  | some p => exact .ok hs
  | none => exact .error hs

theorem insertAt (index : Nat) (name : Option String) (hv : ok v) :
    Leads R R' (Buffer.insertAt index name v) (Buffer.insertAt index name v) := by
  intro s t hs
  apply h.read (h.le hs)
  intro src _
  cases Content.findIndex? src index with
  | some p => exact h.insert p name hv s t hs
  | none =>
    dsimp only
    split
    · rw [Update.bind_get, Update.bind_get, ← h.used (h.le hs)]
      exact h.insert _ name hv s t hs
    · exact .error (h.le hs)

theorem removeFound (p? : Option Nat) :
    Leads R R' (Buffer.removeFound p?) (Buffer.removeFound p?) := by
  cases p? with
  | some p => exact (h.remove p).bind fun _ => .pure true
  | none => exact .of_matches (.pure false) h.le

theorem setKey (key : Key) (hv : ok v) :
    Leads R R' (Buffer.setKey key v) (Buffer.setKey key v) := by
  cases key with
  | name name => exact h.setNamed name hv
  | index index => exact h.atIndex index fun p => h.set p hv
  | slot name number =>
    intro s t hs
    apply h.read (h.le hs)
    intro src _
    cases Content.positionOf? src (.slot name number) with
    | some p => exact h.set p hv s t hs
    | none =>
      dsimp only
      split
      · exact h.appendAt _ hv s t hs
      · split
        · exact .check (h.le hs) fun stop _ => h.insert stop none hv s t hs
        · exact .error (h.le hs)

section Section

variable (hback : ∀ s t, R' s t → R s t)

include hback

theorem layValues {vs : List Value} (hv : ∀ v ∈ vs, ok v) (cursor : Nat) :
    Matches R' (Buffer.layValues cursor vs) (Buffer.layValues cursor vs) := by
  induction vs generalizing cursor with
  | nil => exact .pure cursor
  | cons v vs ih =>
    have hrest := ih fun v hmem => hv v (.tail _ hmem)
    have hnext : Matches R'
        (Buffer.content >>= fun src => ofExcept (advance src cursor) >>= fun next =>
          Buffer.layValues next vs : Update σ Nat)
        (Buffer.content >>= fun src => ofExcept (advance src cursor) >>= fun next =>
          Buffer.layValues next vs) :=
      fun s t hs => h.read hs fun src _ => .check hs fun next _ => hrest next s t hs
    refine fun s t hs => h.read hs fun src _ => .check hs fun unnamed _ => ?_
    dsimp only
    split
    · exact ((h.set cursor (hv v (.head _))).bind fun _ => hnext) s t (hback s t hs)
    · exact ((h.insert cursor none (hv v (.head _))).bind fun _ => hnext) s t (hback s t hs)

variable [LawfulStore σ]

theorem setSection (name : String) {vs : List Value} (hv : ∀ v ∈ vs, ok v) :
    Matches R' (Buffer.setSection name vs) (Buffer.setSection name vs) := by
  refine fun s t hs => .check hs fun _ _ => .check hs fun _ _ => h.read hs fun src hsrc => ?_
  cases hfind : Content.find? src name with
  | none => exact ((h.appendSection name hv).bind fun _ => .pure ()) s t hs
  | some start =>
    obtain ⟨hstart, -⟩ := Content.find?_ok hfind
    subst hsrc
    cases vs with
    | nil =>
      refine h.read hs fun src hsrc => .check hs fun stop hstop => ?_
      subst hsrc
      exact h.cut (hback s t hs) hstart (Content.sectionEnd_ok hstop)
    | cons v rest =>
      apply (h.set start (hv v (.head _)) s t (hback s t hs)).bind_of_run
      intro a s₁ t₁ hset h₁
      refine h.read h₁ fun src hsrc => .check h₁ fun cursor hcursor => ?_
      subst hsrc
      have hsteps := (Buffer.set_keeps hset hstart).trans (.single hcursor)
      refine (h.layValues hback (fun v hmem => hv v (.tail _ hmem)) cursor s₁ t₁ h₁).bind_of_run
        fun stop s₂ t₂ hlay h₂ => ?_
      refine h.read h₂ fun src hsrc => .check h₂ fun last hlast => ?_
      subst hsrc
      exact h.cut (hback s₂ t₂ h₂) (Buffer.layValues_steps hlay hsteps) (Content.skipUnnamed_ok hlast)

end Section

end Parallel

variable {R R' : σ → τ → Prop} {ok : Value → Prop}

def Edit.GivesUpRoom : Edit → Prop
  | shrinkToFit | clear => True
  | _ => False

def Call.GivesUpRoom : Call → Prop
  | edit e => e.GivesUpRoom
  | _ => False

theorem Call.eq_of_givesUpRoom {c : Call} (h : c.GivesUpRoom) :
    c = .edit .shrinkToFit ∨ c = .edit .clear := by
  cases c with
  | edit e =>
    cases e with
    | shrinkToFit => exact .inl rfl
    | clear => exact .inr rfl
    | _ => exact h.elim
  | _ => exact h.elim

def Call.SetsSection : Call → Prop
  | setSection _ _ => True
  | _ => False

theorem Edit.run_parallel (h : Parallel R R' ok) {e : Edit} (hv : ∀ v ∈ e.values, ok v)
    (hroom : e.GivesUpRoom → Leads R R' e.run e.run) : Leads R R' e.run e.run := by
  cases e with
  | append name v => exact (h.appendAt name (hv v (.head _))).map _
  | appendRaw name t payload =>
    refine Leads.map _ fun s t hs => .check (h.le hs) fun v hvalue => ?_
    exact h.appendAt name (h.wellFormed (Value.ofPayload_ok hvalue).2.1) s t hs
  | appendSection name vs => exact (Leads.of_matches (h.appendSection name hv) h.le).map _
  | appendMany vs =>
    refine Leads.map _ (.of_matches (h.appendPairs fun pair hp => ?_) h.le)
    obtain ⟨v, hmem, rfl⟩ := List.mem_map.1 hp
    exact hv v hmem
  | set p v => exact (h.set p (hv v (.head _))).map _
  | setNamed name v => exact (h.setNamed name (hv v (.head _))).map _
  | setIndex index v => exact (h.atIndex index fun p => h.set p (hv v (.head _))).map _
  | insert p name v => exact (h.insert p name (hv v (.head _))).map _
  | insertAt index name v => exact (h.insertAt index name (hv v (.head _))).map _
  | remove p => exact (h.remove p).map _
  | removeNamed name =>
    refine Leads.map _ fun s t hs => h.read (h.le hs) fun src _ => ?_
    exact h.removeFound _ s t hs
  | removeIndex index => exact (h.atIndex index fun p => h.remove p).map _
  | reserve needed => exact .of_matches (h.reserve needed fun _ _ => .pure Answer.done) h.le
  | shrinkToFit => exact hroom trivial
  | clear => exact hroom trivial

/-- What updates of one entry keep, every call keeps. A call that gives up room is none of them, and
one that sets a section makes such updates one after the other. -/
theorem Call.run_parallel [LawfulStore σ] (h : Parallel R R' ok) {c : Call}
    (hv : ∀ v ∈ c.values, ok v) (hroom : c.GivesUpRoom → Leads R R' c.run c.run)
    (hback : c.SetsSection → ∀ s t, R' s t → R s t) : Leads R R' c.run c.run := by
  cases c with
  | edit e => exact e.run_parallel h hv hroom
  | setKey key v => exact (h.setKey key (hv v (.head _))).map _
  | removeKey key =>
    refine Leads.map _ fun s t hs => h.read (h.le hs) fun src _ => ?_
    exact h.removeFound _ s t hs
  | setSection name vs =>
    exact (Leads.of_matches (h.setSection (hback trivial) name hv) h.le).map _
  | appendInferred name text =>
    exact (h.appendAt _ (h.wellFormed (Value.infer_wellFormed text))).map _
  | appendParsed text => exact (Leads.of_matches (h.appendParsed text) h.le).map _
  | merge other =>
    have hmerge := h.mergeEntries fun e he =>
      h.wellFormed (Content.entriesFrom_wellFormed other 0 e he)
    exact (Leads.of_matches hmerge h.le).map _

end TaggedBuffer
