import TaggedBuffer.Record.Writer

namespace TaggedBuffer

variable {σ τ α β : Type}

namespace Update

/-- What an update leaves, whether it failed or not. -/
def final : EStateM.Result Error σ α → σ
  | .ok _ s | .error _ s => s

def answer : EStateM.Result Error σ α → Except Error α
  | .ok a _ => .ok a
  | .error e _ => .error e

theorem bind_of_ok {m : Update σ α} {f : α → Update σ β} {s s' : σ} {a : α}
    (h : m s = .ok a s') : (m >>= f) s = f a s' := by
  simp only [bind, EStateM.bind, h]

theorem bind_of_error {m : Update σ α} {f : α → Update σ β} {s s' : σ} {e : Error}
    (h : m s = .error e s') : (m >>= f) s = .error e s' := by
  simp only [bind, EStateM.bind, h]

theorem map_of_ok {m : Update σ α} {f : α → β} {s s' : σ} {a : α} (h : m s = .ok a s') :
    (f <$> m) s = .ok (f a) s' :=
  bind_of_ok h

theorem map_of_error {m : Update σ α} {f : α → β} {s s' : σ} {e : Error}
    (h : m s = .error e s') : (f <$> m) s = .error e s' :=
  bind_of_error h

theorem of_map_ok {m : Update σ α} {f : α → β} {s s' : σ} {b : β} (h : (f <$> m) s = .ok b s') :
    ∃ a, m s = .ok a s' ∧ f a = b := by
  cases hm : m s with
  | ok a s₁ =>
    cases (map_of_ok hm).symm.trans h
    exact ⟨a, rfl, rfl⟩
  | error e s₁ => cases (map_of_error hm).symm.trans h

theorem of_map_error {m : Update σ α} {f : α → β} {s s' : σ} {e : Error}
    (h : (f <$> m) s = .error e s') : m s = .error e s' := by
  cases hm : m s with
  | ok a s₁ => cases (map_of_ok hm).symm.trans h
  | error e' s₁ =>
    cases (map_of_error hm).symm.trans h
    rfl

theorem ofExcept_ok (a : α) (s : σ) :
    (ofExcept (.ok a : Except Error α) : Update σ α) s = .ok a s := rfl

theorem ofExcept_error (e : Error) (s : σ) :
    (ofExcept (.error e : Except Error α) : Update σ α) s = .error e s := rfl

theorem bind_get (f : σ → Update σ β) (s : σ) : (get >>= f : Update σ β) s = f s s := rfl

theorem bind_modify (g : σ → σ) (f : Unit → Update σ β) (s : σ) :
    (modify g >>= f : Update σ β) s = f () (g s) := rfl

theorem bind_check_error {x : Except Error α} {f : α → Update σ β} {s : σ} {e : Error}
    (h : x = .error e) : (ofExcept x >>= f : Update σ β) s = .error e s := by
  rw [h]
  exact bind_of_error (ofExcept_error e s)

theorem bind_check_ok {x : Except Error α} {f : α → Update σ β} {s : σ} {a : α}
    (h : x = .ok a) : (ofExcept x >>= f : Update σ β) s = f a s := by
  rw [h]
  exact bind_of_ok (ofExcept_ok a s)

theorem exists_of_bind_ok {m : Update σ α} {f : α → Update σ β} {s s'' : σ} {b : β}
    (h : (m >>= f) s = .ok b s'') : ∃ a s', m s = .ok a s' ∧ f a s' = .ok b s'' := by
  cases hm : m s with
  | ok a s' => exact ⟨a, s', rfl, (bind_of_ok hm).symm.trans h⟩
  | error e s' => cases (bind_of_error hm).symm.trans h

theorem exists_of_check_ok {x : Except Error α} {f : α → Update σ β} {s s' : σ} {b : β}
    (h : (ofExcept x >>= f : Update σ β) s = .ok b s') : ∃ a, x = .ok a ∧ f a s = .ok b s' := by
  cases x with
  | ok a => exact ⟨a, rfl, h⟩
  | error e => cases h

/-- Runs updates one after the other, failed ones included, and collects their answers. -/
def runAll {ι : Type} (f : ι → Update σ α) : List ι → σ → List (Except Error α) × σ
  | [], s => ([], s)
  | i :: is, s =>
    let rest := runAll f is (final (f i s))
    (answer (f i s) :: rest.1, rest.2)

end Update

/-- A failure leaves the state as it was. -/
def Intact (m : Update σ α) (s : σ) : Prop := ∀ e s', m s = .error e s' → s' = s

namespace Intact

variable {s : σ}

theorem map (f : α → β) {m : Update σ α} (h : Intact m s) : Intact (f <$> m) s :=
  fun e s' hr => h e s' (Update.of_map_error hr)

theorem check {x : Except Error β} {f : β → Update σ α} (h : ∀ b, Intact (f b) s) :
    Intact (ofExcept x >>= f) s := by
  cases x with
  | ok b => exact h b
  | error e =>
    intro e' s' hr
    cases hr
    rfl

theorem throw (e : Error) : Intact (throw e : Update σ α) s := by
  intro e' s' hr
  cases hr
  rfl

end Intact

/-- Two runs that both succeed with the same answer or both fail with the same error, and leave
related states. -/
inductive Outcome (R : σ → τ → Prop) :
    EStateM.Result Error σ α → EStateM.Result Error τ α → Prop
  | ok {a : α} {s : σ} {t : τ} : R s t → Outcome R (.ok a s) (.ok a t)
  | error {e : Error} {s : σ} {t : τ} : R s t → Outcome R (.error e s) (.error e t)

namespace Outcome

variable {R : σ → τ → Prop}

/-- The second steps have to match from the states that the first steps end in. They may end in states
of which less is known. -/
theorem bind_of_le {S : σ → τ → Prop} {m : Update σ α} {n : Update τ α} {f : α → Update σ β}
    {g : α → Update τ β} {s : σ} {t : τ} (h : Outcome R (m s) (n t))
    (hle : ∀ s t, R s t → S s t)
    (hf : ∀ a s' t', m s = .ok a s' → R s' t' → Outcome S (f a s') (g a t')) :
    Outcome S ((m >>= f) s) ((n >>= g) t) := by
  cases hm : m s <;> cases hn : n t <;> rw [hm, hn] at h <;> cases h
  next h => rw [Update.bind_of_ok hm, Update.bind_of_ok hn]; exact hf _ _ _ hm h
  next h => rw [Update.bind_of_error hm, Update.bind_of_error hn]; exact .error (hle _ _ h)

theorem bind_of_run {m : Update σ α} {n : Update τ α} {f : α → Update σ β} {g : α → Update τ β}
    {s : σ} {t : τ} (h : Outcome R (m s) (n t))
    (hf : ∀ a s' t', m s = .ok a s' → R s' t' → Outcome R (f a s') (g a t')) :
    Outcome R ((m >>= f) s) ((n >>= g) t) :=
  h.bind_of_le (fun _ _ => id) hf

theorem bind {m : Update σ α} {n : Update τ α} {f : α → Update σ β} {g : α → Update τ β} {s : σ}
    {t : τ} (h : Outcome R (m s) (n t)) (hf : ∀ a s t, R s t → Outcome R (f a s) (g a t)) :
    Outcome R ((m >>= f) s) ((n >>= g) t) :=
  h.bind_of_run fun a s' t' _ => hf a s' t'

theorem map (f : α → β) {m : Update σ α} {n : Update τ α} {s : σ} {t : τ}
    (h : Outcome R (m s) (n t)) : Outcome R ((f <$> m) s) ((f <$> n) t) :=
  h.bind fun _ _ _ => .ok

theorem check {x : Except Error α} {f : α → Update σ β} {g : α → Update τ β} {s : σ} {t : τ}
    (h : R s t) (hf : ∀ a, x = .ok a → Outcome R (f a s) (g a t)) :
    Outcome R ((ofExcept x >>= f : Update σ β) s) ((ofExcept x >>= g : Update τ β) t) := by
  cases x with
  | error e => exact .error h
  | ok a => exact hf a rfl

theorem answer_eq {r : EStateM.Result Error σ α} {r' : EStateM.Result Error τ α}
    (h : Outcome R r r') : Update.answer r = Update.answer r' := by
  cases h <;> rfl

theorem final {r : EStateM.Result Error σ α} {r' : EStateM.Result Error τ α}
    (h : Outcome R r r') : R (Update.final r) (Update.final r') := by
  cases h <;> assumption

end Outcome

/-- Updates with the same outcome from all related states. -/
def Matches (R : σ → τ → Prop) (m : Update σ α) (n : Update τ α) : Prop :=
  ∀ s t, R s t → Outcome R (m s) (n t)

namespace Matches

variable {R : σ → τ → Prop}

theorem pure (a : α) : Matches R (Pure.pure a) (Pure.pure a) := fun _ _ h => .ok h

theorem throw (e : Error) : Matches R (throw e : Update σ α) (MonadExcept.throw e) :=
  fun _ _ h => .error h

theorem bind {m : Update σ α} {n : Update τ α} {f : α → Update σ β} {g : α → Update τ β}
    (h : Matches R m n) (hf : ∀ a, Matches R (f a) (g a)) : Matches R (m >>= f) (n >>= g) :=
  fun s t hR => (h s t hR).bind hf

theorem map (f : α → β) {m : Update σ α} {n : Update τ α} (h : Matches R m n) :
    Matches R (f <$> m) (f <$> n) :=
  fun s t hR => (h s t hR).map f

theorem runAll {ι : Type} {f : ι → Update σ α} {g : ι → Update τ α} {is : List ι}
    (h : ∀ i ∈ is, Matches R (f i) (g i)) {s : σ} {t : τ} (hR : R s t) :
    (Update.runAll f is s).1 = (Update.runAll g is t).1 ∧
      R (Update.runAll f is s).2 (Update.runAll g is t).2 := by
  induction is generalizing s t with
  | nil => exact ⟨rfl, hR⟩
  | cons i is ih =>
    have hi := h i (.head _) s t hR
    obtain ⟨ha, hs⟩ := ih (fun j hj => h j (.tail _ hj)) hi.final
    exact ⟨List.cons_eq_cons.2 ⟨hi.answer_eq, ha⟩, hs⟩

end Matches

end TaggedBuffer
