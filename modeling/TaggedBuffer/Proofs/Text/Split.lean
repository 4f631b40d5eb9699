import TaggedBuffer.Buffer.Items

namespace TaggedBuffer

namespace Text

variable {separator : Char}

theorem splitAll_of_not_mem {cs : List Char} (h : separator ∉ cs) :
    splitAll separator cs = [cs] := by
  induction cs with
  | nil => rfl
  | cons c cs ih =>
    rw [List.mem_cons, not_or] at h
    rw [splitAll, if_neg (Ne.symm h.1), ih h.2]

theorem splitAll_append_cons {part : List Char} (h : separator ∉ part) (rest : List Char) :
    splitAll separator (part ++ separator :: rest) = part :: splitAll separator rest := by
  induction part with
  | nil => rw [List.nil_append, splitAll, if_pos rfl]
  | cons c part ih =>
    rw [List.mem_cons, not_or] at h
    rw [List.cons_append, splitAll, if_neg (Ne.symm h.1), ih h.2]

theorem splitAll_intercalate {part : List Char} {parts : List (List Char)}
    (h : ∀ p ∈ part :: parts, separator ∉ p) :
    splitAll separator ([separator].intercalate (part :: parts)) = part :: parts := by
  induction parts generalizing part with
  | nil =>
    rw [List.intercalate_singleton]
    exact splitAll_of_not_mem (h part (.head _))
  | cons next parts ih =>
    obtain ⟨hpart, hrest⟩ := List.forall_mem_cons.1 h
    rw [List.intercalate_cons_cons, List.append_assoc, List.singleton_append,
      splitAll_append_cons hpart, ih hrest]

theorem intercalate_ne_nil {part : List Char} (h : part ≠ []) (parts : List (List Char)) :
    [separator].intercalate (part :: parts) ≠ [] := by
  cases parts with
  | nil => rwa [List.intercalate_singleton]
  | cons next parts =>
    rw [List.intercalate_cons_cons, List.append_assoc]
    exact List.append_ne_nil_of_left_ne_nil h _

theorem mem_intercalate {c : Char} {parts : List (List Char)}
    (h : c ∈ [separator].intercalate parts) : c = separator ∨ ∃ part ∈ parts, c ∈ part := by
  induction parts with
  | nil => cases h
  | cons part parts ih =>
    cases parts with
    | nil =>
      rw [List.intercalate_singleton] at h
      exact .inr ⟨part, .head _, h⟩
    | cons next parts =>
      rw [List.intercalate_cons_cons, List.append_assoc, List.mem_append, List.singleton_append,
        List.mem_cons] at h
      rcases h with hc | hc | hc
      · exact .inr ⟨part, .head _, hc⟩
      · exact .inl hc
      · obtain hc | ⟨p, hp, hc⟩ := ih hc
        · exact .inl hc
        · exact .inr ⟨p, .tail _ hp, hc⟩

theorem getLast?_intercalate {part : List Char} {parts : List (List Char)}
    (h : ∀ p ∈ part :: parts, p ≠ [] ∧ separator ∉ p) :
    ([separator].intercalate (part :: parts)).getLast? ≠ some separator := by
  induction parts generalizing part with
  | nil =>
    rw [List.intercalate_singleton]
    exact fun hlast => (h part (.head _)).2 (List.mem_of_getLast? hlast)
  | cons next parts ih =>
    obtain ⟨-, hrest⟩ := List.forall_mem_cons.1 h
    have hne : [separator].intercalate (next :: parts) ≠ [] :=
      intercalate_ne_nil (hrest next (.head _)).1 parts
    rw [List.intercalate_cons_cons, List.getLast?_append, List.getLast?_eq_some_getLast hne,
      Option.some_or, ← List.getLast?_eq_some_getLast hne]
    exact ih hrest

theorem cut?_append_cons {before : List Char} (h : separator ∉ before) (after : List Char) :
    cut? separator (before ++ separator :: after) = some (before, after) := by
  induction before with
  | nil => rw [List.nil_append, cut?, if_pos rfl]
  | cons c before ih =>
    rw [List.mem_cons, not_or] at h
    rw [List.cons_append, cut?, if_neg (Ne.symm h.1), ih h.2]
    rfl

end Text

theorem mapM_map {m : Type → Type} [Monad m] [LawfulMonad m] {α β γ : Type} {read : α → m β}
    {part : γ → α} {result : γ → β} {items : List γ}
    (h : ∀ item ∈ items, read (part item) = pure (result item)) :
    (items.map part).mapM read = pure (items.map result) := by
  induction items with
  | nil => rw [List.map_nil, List.mapM_nil, List.map_nil]
  | cons item items ih =>
    obtain ⟨hitem, hrest⟩ := List.forall_mem_cons.1 h
    rw [List.map_cons, List.mapM_cons, hitem, pure_bind, ih hrest, pure_bind, List.map_cons]

end TaggedBuffer
