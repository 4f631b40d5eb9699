import TaggedBuffer.Buffer.Items
import TaggedBuffer.Buffer.Legacy
import TaggedBuffer.Proofs.Value.Payload

namespace TaggedBuffer

theorem Value.wellFormed_of_type {v : Value} (h : v.type ≠ .text .unicode) : v.WellFormed := by
  cases v with
  | text e content =>
    cases e with
    | unicode => exact (h rfl).elim
    | _ => trivial
  | _ => trivial

theorem Utf16.length_bytes (us : List UInt16) : (bytes us).length = 2 * us.length := by
  induction us with
  | nil => rfl
  | cons u us ih =>
    rw [bytes, List.flatMap_cons, List.length_append, ← bytes, ih, List.length_cons]
    simp only [unitBytes, List.length_cons, List.length_nil]
    omega

namespace Value

theorem wide_wellFormed (s : String) : (wide s).WellFormed := by
  change (Utf16.encode s).size % 2 = 0
  rw [Utf16.encode, List.size_toByteArray, Utf16.length_bytes]
  exact Nat.mul_mod_right 2 _

theorem wellFormed_of_bind {α : Type} {x : Except Error α} {f : α → Value} {v : Value}
    (h : (x >>= fun a => .ok (f a)) = .ok v) (hf : ∀ a, (f a).WellFormed) : v.WellFormed := by
  obtain ⟨a, -, heq⟩ := bind_eq_ok.1 h
  cases heq
  exact hf a

theorem parse_wellFormed {t : ValueType} {s : String} {v : Value} (h : parse t s = .ok v) :
    v.WellFormed := by
  unfold parse at h
  dsimp only at h
  split at h
  · cases h
  · exact wellFormed_of_bind h fun _ => trivial
  · exact wellFormed_of_bind h fun _ => trivial
  · exact wellFormed_of_bind h fun _ => trivial
  · exact wellFormed_of_bind h fun _ => trivial
  · exact wellFormed_of_bind h fun _ => trivial
  · split at h
    · split at h
      · cases h
        trivial
      · cases h
    · cases h
  · cases h
    exact wide_wellFormed s
  next e he =>
    cases h
    exact wellFormed_of_type fun hu => he (ValueType.text.inj hu)
  · split at h
    · cases h
      trivial
    · cases h

theorem infer_wellFormed (s : String) : (infer s).WellFormed := by
  unfold infer
  dsimp only
  split
  · split
    · trivial
    · split <;> trivial
  · trivial

end Value

theorem exists_of_mapError_ok {ε ε' α : Type} {f : ε → ε'} {x : Except ε α} {a : α}
    (h : x.mapError f = .ok a) : x = .ok a := by
  cases x with
  | error e => cases h
  | ok b =>
    cases h
    rfl

theorem parseItem_storable {item : List Char} {pair : Option String × Value}
    (h : parseItem item = .ok pair) :
    pair.2.WellFormed ∧ Buffer.checkEntry pair.1 pair.2 = .ok () := by
  rw [parseItem] at h
  dsimp only at h
  split at h
  · cases h
  split at h
  · cases h
  split at h
  · cases h
  next t _ =>
    obtain ⟨v, hv, h⟩ := bind_eq_ok.1 h
    have hw := Value.parse_wellFormed (exists_of_mapError_ok hv)
    split at h
    next name hname =>
      obtain ⟨_, hn, h⟩ := bind_eq_ok.1 h
      obtain ⟨_, hc, h⟩ := bind_eq_ok.1 h
      cases h
      refine ⟨hw, ?_⟩
      rw [hname]
      exact bind_eq_ok.2 ⟨_, exists_of_mapError_ok hn, hc⟩
    next hname =>
      obtain ⟨_, hc, h⟩ := bind_eq_ok.1 h
      cases h
      refine ⟨hw, ?_⟩
      rw [hname]
      exact hc

theorem mem_mapM {α β : Type} {f : α → Except Error β} {xs : List α} {ys : List β}
    (h : xs.mapM f = .ok ys) {y : β} (hy : y ∈ ys) : ∃ x ∈ xs, f x = .ok y := by
  induction xs generalizing ys with
  | nil =>
    cases h
    cases hy
  | cons x xs ih =>
    rw [List.mapM_cons] at h
    obtain ⟨z, hz, h⟩ := bind_eq_ok.1 h
    obtain ⟨zs, hzs, h⟩ := bind_eq_ok.1 h
    cases h
    cases hy with
    | head => exact ⟨x, .head _, hz⟩
    | tail _ hy =>
      obtain ⟨x', hx', hy⟩ := ih hzs hy
      exact ⟨x', .tail _ hx', hy⟩

theorem parseItems_storable {s : String} {pairs : List (Option String × Value)}
    (h : parseItems s = .ok pairs) :
    ∀ pair ∈ pairs, pair.2.WellFormed ∧ Buffer.checkEntry pair.1 pair.2 = .ok () := by
  unfold parseItems at h
  dsimp only at h
  generalize (if s.toList.getLast? = some ';' then s.toList.dropLast else s.toList) = body at h
  split at h
  · cases h
    intro pair hp
    cases hp
  · intro pair hp
    obtain ⟨item, _, hitem⟩ := mem_mapM h hp
    exact parseItem_storable hitem

namespace Legacy

theorem readValue_wellFormed {src : Bytes} {p q : Nat} {v : Value}
    (h : readValue src p = .ok (v, q)) : v.WellFormed := by
  obtain ⟨⟨number, p'⟩, _, h⟩ := bind_eq_ok.1 h
  dsimp only at h
  split at h
  · cases h
  · obtain ⟨⟨content, p''⟩, _, h⟩ := bind_eq_ok.1 h
    dsimp only at h
    split at h
    next v' hv =>
      cases h
      exact (Value.ofPayload_ok hv).2.1
    · cases h
    · cases h

theorem walk_wellFormed (src : Bytes) (p : Nat) : ∀ pair ∈ (walk src p).1, pair.2.WellFormed := by
  induction p using walk.induct src with
  | case1 p hlt pair q hr ih =>
    have hpair : pair.2.WellFormed := by
      obtain ⟨⟨name, p'⟩, _, h⟩ := bind_eq_ok.1 hr
      obtain ⟨⟨v, p''⟩, hv, h⟩ := bind_eq_ok.1 h
      cases h
      exact readValue_wellFormed hv
    rw [walk, if_pos hlt]
    split
    next pair' q' hr' =>
      cases hr.symm.trans hr'
      exact List.forall_mem_cons.2 ⟨hpair, ih⟩
    next fault hr' => cases hr.symm.trans hr'
  | case2 p hlt fault hr =>
    rw [walk, if_pos hlt]
    split
    next pair q hr' => cases hr.symm.trans hr'
    · intro pair hp
      cases hp
  | case3 p hge =>
    rw [walk, if_neg hge]
    intro pair hp
    cases hp

end Legacy

end TaggedBuffer
