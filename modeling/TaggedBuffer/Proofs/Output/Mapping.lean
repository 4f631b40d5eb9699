import TaggedBuffer.Proofs.Output.Literal
import TaggedBuffer.Proofs.Output.Scalar
import TaggedBuffer.Proofs.Text.Split

namespace TaggedBuffer.Yaml

open Content (Group groups)
open Text (trim splitAll)

/-- A line: a key with its only value, a key whose values follow, or one of these. -/
inductive Line (α : Type) where
  | pair (key : String) (value : α)
  | key (key : String)
  | item (value : α)

def lines (cs : List Char) : List (List Char) := (splitAll '\n' cs).dropLast

/-- A scalar that begins with a quote is a literal to its end, any other is itself. -/
def readScalar? (cs : List Char) : Option String :=
  if cs.head? = some '"' then
    match Json.readLiteral? cs with
    | some (s, []) => some s
    | _ => none
  else some (String.ofList cs)

/-- A key, a literal or the characters up to the first colon, and what follows it. -/
def readKey? (cs : List Char) : Option (String × List Char) :=
  if cs.head? = some '"' then Json.readLiteral? cs
  else some (String.ofList (cs.takeWhile (· ≠ ':')), cs.dropWhile (· ≠ ':'))

/-- Two blanks, a dash and a blank begin the line of an item. -/
def readLine? : List Char → Option (Line String)
  | ' ' :: ' ' :: '-' :: ' ' :: cs => (readScalar? cs).map .item
  | cs =>
    match readKey? cs with
    | some (key, [':']) => some (.key key)
    | some (key, ':' :: ' ' :: cs) => (readScalar? cs).map (.pair key)
    | _ => none

/-- The items before the first key, and the keys with their values. A key with its only value has no
items. -/
def gather? {α : Type} : List (Line α) → Option (List α × List (String × List α))
  | [] => some ([], [])
  | .item value :: rest => (gather? rest).map fun r => (value :: r.1, r.2)
  | .key key :: rest => (gather? rest).map fun r => ([], (key, r.1) :: r.2)
  | .pair key value :: rest =>
    match gather? rest with
    | some ([], keys) => some ([], (key, [value]) :: keys)
    | _ => none

/-- The keys of a mapping with the texts of their values; no item stands before the first key. -/
def readMapping? (text : String) : Option (List (String × List String)) :=
  match ((lines text.toList).mapM readLine?).bind gather? with
  | some ([], keys) => some keys
  | _ => none

def scalarText : Value → String
  | .unknown => "~"
  | .bool b => if b then "true" else "false"
  | v => v.display

theorem lines_flatMap {ls : List (List Char)} (h : ∀ l ∈ ls, '\n' ∉ l) :
    lines (ls.flatMap (· ++ ['\n'])) = ls := by
  have hsplit : splitAll '\n' (ls.flatMap (· ++ ['\n'])) = ls ++ [[]] := by
    induction ls with
    | nil => rfl
    | cons l ls ih =>
      obtain ⟨hl, hls⟩ := List.forall_mem_cons.1 h
      rw [List.flatMap_cons, List.append_assoc, List.singleton_append,
        Text.splitAll_append_cons hl, ih hls, List.cons_append]
  rw [lines, hsplit, List.dropLast_concat]

section Plain

variable {s : String}

theorem toList_quote : (Json.quote s).toList = Json.quoteChars s.toList := String.toList_ofList

theorem head?_quote : (Json.quote s).toList.head? = some '"' := by
  rw [toList_quote]
  rfl

theorem head?_of_not_needsQuotes (h : needsQuotes s = false) : s.toList.head? ≠ some '"' := by
  intro hhead
  have hmem := (needsQuotes_eq_false_iff.1 h).2.2.2.2.1 '"' (List.mem_of_head? hhead)
  exact hmem (by decide)

theorem readScalar?_plain (s : String) : readScalar? (plain s).toList = some s := by
  rw [plain]
  cases hq : needsQuotes s with
  | true =>
    have hread := Json.readLiteral?_quoteChars s.toList []
    rw [List.append_nil, ← toList_quote, String.ofList_toList] at hread
    rw [if_pos rfl, readScalar?, if_pos head?_quote, hread]
  | false =>
    rw [if_neg Bool.false_ne_true, readScalar?, if_neg (head?_of_not_needsQuotes hq),
      String.ofList_toList]

theorem newline_not_mem_plain (s : String) : '\n' ∉ (plain s).toList := by
  rw [plain]
  intro h
  cases hq : needsQuotes s with
  | true =>
    rw [hq, if_pos rfl, toList_quote] at h
    have hcontrol := Json.mem_quoteChars h
    simp at hcontrol
  | false =>
    rw [hq, if_neg Bool.false_ne_true] at h
    exact (needsQuotes_eq_false_iff.1 hq).2.2.2.2.1 '\n' h (by decide)

theorem readKey?_plain (s : String) (rest : List Char) :
    readKey? ((plain s).toList ++ ':' :: rest) = some (s, ':' :: rest) := by
  rw [plain]
  cases hq : needsQuotes s with
  | true =>
    have hhead : (Json.quoteChars s.toList ++ ':' :: rest).head? = some '"' := rfl
    rw [if_pos rfl, toList_quote, readKey?, if_pos hhead, Json.readLiteral?_quoteChars,
      String.ofList_toList]
  | false =>
    obtain ⟨hne, -, -, -, hindicators, -⟩ := needsQuotes_eq_false_iff.1 hq
    have hhead : (s.toList ++ ':' :: rest).head? ≠ some '"' := by
      have hs := head?_of_not_needsQuotes hq
      obtain ⟨c, cs, hcs⟩ := List.exists_cons_of_ne_nil hne
      rwa [hcs] at hs ⊢
    have hcolon : ∀ c ∈ s.toList, decide (c ≠ ':') = true := by
      intro c hc
      rw [decide_eq_true_eq]
      rintro rfl
      exact hindicators ':' hc (by decide)
    rw [if_neg Bool.false_ne_true, readKey?, if_neg hhead, List.takeWhile_append_of_pos hcolon,
      List.dropWhile_append_of_pos hcolon]
    simp

theorem exists_head_plain (s : String) : ∃ c cs, (plain s).toList = c :: cs ∧ c ≠ ' ' := by
  rw [plain]
  cases hq : needsQuotes s with
  | true => exact ⟨'"', _, toList_quote, by decide⟩
  | false =>
    obtain ⟨hne, htrim, -⟩ := needsQuotes_eq_false_iff.1 hq
    obtain ⟨c, cs, hs⟩ := List.exists_cons_of_ne_nil hne
    refine ⟨c, cs, hs, ?_⟩
    rintro rfl
    rw [hs] at htrim
    cases Text.isBlank_of_trim htrim

theorem readLine?_plain (s : String) (rest : List Char) :
    readLine? ((plain s).toList ++ rest) =
      match readKey? ((plain s).toList ++ rest) with
      | some (k, [':']) => some (.key k)
      | some (k, ':' :: ' ' :: cs) => (readScalar? cs).map (.pair k)
      | _ => none := by
  obtain ⟨c, cs, hs, hc⟩ := exists_head_plain s
  rw [hs, List.cons_append, readLine?]
  intro cs' h
  exact hc (List.cons.inj h).1

end Plain

theorem readScalar?_scalar (v : Value) : readScalar? (scalar v).toList = some (scalarText v) := by
  have hbare (hv : IsBare v) : readScalar? (scalar v).toList = some (scalar v) := by
    have hhead : (scalar v).toList.head? ≠ some '"' := by
      intro hhead
      cases mem_scalar hv (List.mem_of_head? hhead)
    rw [readScalar?, if_neg hhead, String.ofList_toList]
  cases v with
  | guid | text | binary => exact readScalar?_plain _
  | _ => exact hbare trivial

theorem newline_not_mem_scalar (v : Value) : '\n' ∉ (scalar v).toList := by
  have hbare (hv : IsBare v) : '\n' ∉ (scalar v).toList := by
    intro h
    cases mem_scalar hv h
  cases v with
  | guid | text | binary => exact newline_not_mem_plain _
  | _ => exact hbare trivial

namespace Line

variable {α β : Type}

def map (f : α → β) : Line α → Line β
  | pair k value => .pair k (f value)
  | key k => .key k
  | item value => .item (f value)

def chars : Line Value → List Char
  | pair k v => (plain k).toList ++ ':' :: ' ' :: (scalar v).toList
  | key k => (plain k).toList ++ [':']
  | item v => ' ' :: ' ' :: '-' :: ' ' :: (scalar v).toList

theorem newline_not_mem_chars (l : Line Value) : '\n' ∉ l.chars := by
  cases l with
  | pair k v => simp [chars, newline_not_mem_plain, newline_not_mem_scalar]
  | key k => simp [chars, newline_not_mem_plain]
  | item v => simp [chars, newline_not_mem_scalar]

theorem readLine?_chars (l : Line Value) : readLine? l.chars = some (l.map scalarText) := by
  cases l with
  | pair k v =>
    rw [chars, readLine?_plain, readKey?_plain]
    simp only [readScalar?_scalar]
    rfl
  | key k =>
    rw [chars, readLine?_plain, readKey?_plain]
    rfl
  | item v =>
    rw [chars, readLine?, readScalar?_scalar]
    rfl

end Line

def groupLines {α : Type} (f : Value → α) (g : Group) : List (Line α) :=
  match g.rest with
  | [] => [.pair g.key (f g.first)]
  | _ => .key g.key :: g.values.map fun v => .item (f v)

theorem toList_group (g : Group) :
    (group g).toList = (groupLines id g).flatMap fun l => l.chars ++ ['\n'] := by
  obtain ⟨key, first, rest⟩ := g
  cases rest with
  | nil => simp [group, groupLines, Group.values, Line.chars]
  | cons v rest => simp [group, groupLines, Group.values, Line.chars, List.flatMap_map]

theorem toList_mapping (src : Bytes) : (mapping src).toList =
    (((groups src).flatMap (groupLines id)).map Line.chars).flatMap (· ++ ['\n']) := by
  simp [mapping, List.flatMap_map, List.flatMap_assoc, toList_group]

section Gather

variable {α : Type}

theorem map_groupLines (f : Value → α) (g : Group) :
    (groupLines id g).map (Line.map f) = groupLines f g := by
  obtain ⟨key, first, rest⟩ := g
  cases rest with
  | nil => rfl
  | cons v rest => simp [groupLines, Line.map, Function.comp_def]

theorem gather?_items {rest : List (Line α)} {vs : List α} {keys : List (String × List α)}
    (h : gather? rest = some (vs, keys)) (items : List α) :
    gather? (items.map .item ++ rest) = some (items ++ vs, keys) := by
  induction items with
  | nil => exact h
  | cons item items ih =>
    rw [List.map_cons, List.cons_append, gather?, ih]
    rfl

theorem gather?_groupLines {f : Value → α} {g : Group} {rest : List (Line α)}
    {keys : List (String × List α)} (h : gather? rest = some ([], keys)) :
    gather? (groupLines f g ++ rest) = some ([], (g.key, g.values.map f) :: keys) := by
  obtain ⟨key, first, more⟩ := g
  cases more with
  | nil =>
    simp only [groupLines, List.singleton_append, gather?, h]
    rfl
  | cons v more =>
    have hitems := gather?_items h ((first :: v :: more).map f)
    rw [List.append_nil, List.map_map] at hitems
    have hlines : groupLines f ⟨key, first, v :: more⟩ =
        .key key :: (first :: v :: more).map (Line.item ∘ f) := rfl
    rw [hlines, List.cons_append, gather?, hitems]
    rfl

theorem gather?_groups (f : Value → α) (gs : List Group) :
    gather? (gs.flatMap (groupLines f)) = some ([], gs.map fun g => (g.key, g.values.map f)) := by
  induction gs with
  | nil => rfl
  | cons g gs ih => exact gather?_groupLines ih

end Gather

/-- The lines of a mapping give every key and the texts of its values, in order, whatever names and
values hold. -/
theorem mapping_reads (src : Bytes) : readMapping? (mapping src) =
    some ((groups src).map fun g => (g.key, g.values.map scalarText)) := by
  have hlines : lines (mapping src).toList =
      ((groups src).flatMap (groupLines id)).map Line.chars := by
    rw [toList_mapping]
    apply lines_flatMap
    intro l hl
    obtain ⟨line, -, rfl⟩ := List.mem_map.1 hl
    exact line.newline_not_mem_chars
  have hread : (lines (mapping src).toList).mapM readLine? =
      some ((groups src).flatMap (groupLines scalarText)) := by
    rw [hlines, mapM_map fun line _ => line.readLine?_chars, List.map_flatMap]
    simp only [map_groupLines]
    rfl
  rw [readMapping?, hread, Option.bind_some, gather?_groups]

end TaggedBuffer.Yaml
