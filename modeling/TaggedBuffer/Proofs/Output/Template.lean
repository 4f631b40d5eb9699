import TaggedBuffer.Output.Template
import TaggedBuffer.Proofs.Content.Lookups
import TaggedBuffer.Proofs.Text.Split

namespace TaggedBuffer.Template

open Content (entries value valueAt value_eq valueAt_eq)

/-- A name that can stand between braces. -/
structure Label where
  text : String
  ne_empty : text ≠ ""
  not_closing : '\x7d' ∉ text.toList
  not_opening : text.toList.head? ≠ some '\x7b'

inductive Segment where
  | literal (text : String)
  | named (label : Label)
  /-- The next value by position. -/
  | hole

def escapeChar (c : Char) : List Char := if c = '\x7b' ∨ c = '\x7d' then [c, c] else [c]

def escape (text : String) : String := String.ofList (text.toList.flatMap escapeChar)

def Segment.written : Segment → String
  | literal text => escape text
  | named label => "\x7b" ++ label.text ++ "\x7d"
  | hole => "\x7b\x7d"

def written : List Segment → String
  | [] => ""
  | segment :: rest => segment.written ++ written rest

/-- What segments show, the next hole being the one of that number. -/
def shown (src : Bytes) (position : Nat) : List Segment → String
  | [] => ""
  | .literal text :: rest => text ++ shown src position rest
  | .named label :: rest => (value src label.text).display ++ shown src position rest
  | .hole :: rest => (valueAt src position).display ++ shown src (position + 1) rest

section Fill

variable {keyed : List Char → List Char} {nth : Nat → List Char} {n : Nat}

theorem fill_nil : fill keyed nth n [] = [] := by
  rw [fill]

theorem fill_doubled {c : Char} (h : c = '\x7b' ∨ c = '\x7d') (rest : List Char) :
    fill keyed nth n (c :: c :: rest) = c :: fill keyed nth n rest := by
  rcases h with rfl | rfl
  · rw [fill]
  · rw [fill]

theorem fill_plain {c : Char} (h : ¬ (c = '\x7b' ∨ c = '\x7d')) (rest : List Char) :
    fill keyed nth n (c :: rest) = c :: fill keyed nth n rest := by
  rw [not_or] at h
  rw [fill.eq_def]
  simp [h.1, h.2]

theorem fill_opening {key : List Char} (hopen : key.head? ≠ some '\x7b') (hclose : '\x7d' ∉ key)
    (rest : List Char) : fill keyed nth n ('\x7b' :: (key ++ '\x7d' :: rest)) =
      if key = [] then nth n ++ fill keyed nth (n + 1) rest else keyed key ++ fill keyed nth n rest := by
  have hcut := Text.cut?_append_cons hclose rest
  have hsingle : ∀ after, key ++ '\x7d' :: rest ≠ '\x7b' :: after := by
    intro after h
    cases key with
    | nil => cases h
    | cons c key => exact hopen (congrArg List.head? h)
  rw [fill]
  -- The cut is known, so one branch is left, by whether the key is empty.
  · split
    next h =>
      rw [hcut] at h
      cases h
    next after h =>
      rw [hcut] at h
      cases h
      rw [if_pos rfl]
    next key' after hne h =>
      rw [hcut] at h
      cases h
      rw [if_neg hne]
  · exact hsingle

theorem fill_escapeChar (c : Char) (rest : List Char) :
    fill keyed nth n (escapeChar c ++ rest) = c :: fill keyed nth n rest := by
  by_cases h : c = '\x7b' ∨ c = '\x7d'
  · rw [escapeChar, if_pos h]
    exact fill_doubled h rest
  · rw [escapeChar, if_neg h]
    exact fill_plain h rest

theorem fill_escape (text : String) (rest : List Char) :
    fill keyed nth n ((escape text).toList ++ rest) = text.toList ++ fill keyed nth n rest := by
  rw [escape, String.toList_ofList]
  induction text.toList with
  | nil => rfl
  | cons c cs ih => rw [List.flatMap_cons, List.append_assoc, fill_escapeChar, ih, List.cons_append]

theorem fill_label (label : Label) (rest : List Char) :
    fill keyed nth n ('\x7b' :: (label.text.toList ++ '\x7d' :: rest)) =
      keyed label.text.toList ++ fill keyed nth n rest := by
  have hne : label.text.toList ≠ [] := fun h => label.ne_empty (String.toList_eq_nil_iff.1 h)
  rw [fill_opening label.not_opening label.not_closing, if_neg hne]

theorem fill_hole (rest : List Char) :
    fill keyed nth n ('\x7b' :: '\x7d' :: rest) = nth n ++ fill keyed nth (n + 1) rest :=
  @fill_opening keyed nth n [] (nomatch ·) List.not_mem_nil rest

end Fill

section Written

variable (src : Bytes)

def keyedText (key : List Char) : List Char := (value src (String.ofList key)).display.toList

def nthText (n : Nat) : List Char := (valueAt src n).display.toList

theorem fill_written (segments : List Segment) (n : Nat) :
    fill (keyedText src) (nthText src) n (written segments).toList =
      (shown src n segments).toList := by
  induction segments generalizing n with
  | nil => exact fill_nil
  | cons segment rest ih =>
    rw [written, String.toList_append]
    cases segment with
    | literal text => rw [Segment.written, fill_escape, ih, shown, String.toList_append]
    | named label =>
      have hlabel : ("\x7b" ++ label.text ++ "\x7d").toList ++ (written rest).toList =
          '\x7b' :: (label.text.toList ++ '\x7d' :: (written rest).toList) := by
        simp
      rw [Segment.written, hlabel, fill_label, ih, keyedText, String.ofList_toList, shown,
        String.toList_append]
    | hole =>
      have hhole : "\x7b\x7d".toList ++ (written rest).toList =
          '\x7b' :: '\x7d' :: (written rest).toList := rfl
      rw [Segment.written, hhole, fill_hole, ih, nthText, shown, String.toList_append]

theorem format_written_eq (segments : List Segment) :
    format src (written segments) = shown src 0 segments :=
  (congrArg String.ofList (fill_written src segments 0)).trans String.ofList_toList

end Written

theorem written_literal (text : String) : written [.literal text] = escape text := String.append_empty

theorem shown_literal (src : Bytes) (text : String) : shown src 0 [.literal text] = text :=
  String.append_empty

theorem display_value (src : Bytes) (name : String) : (value src name).display =
    (((entries src).find? (·.hasName name)).map (·.value.display)).getD "" := by
  rw [value_eq]
  cases (entries src).find? (·.hasName name) <;> rfl

theorem display_valueAt (src : Bytes) (i : Nat) :
    (valueAt src i).display = ((entries src)[i]?.map (·.value.display)).getD "" := by
  rw [valueAt_eq]
  cases (entries src)[i]? <;> rfl

/-- A template is filled segment by segment, so that escaped text is shown as it is and shown values
are not read again. -/
theorem format_written (src : Bytes) :
    (∀ segments, format src (written segments) = shown src 0 segments) ∧
    (∀ text, format src (escape text) = text) ∧
    (∀ name, (value src name).display =
      (((entries src).find? (·.hasName name)).map (·.value.display)).getD "") ∧
    ∀ i, (valueAt src i).display = ((entries src)[i]?.map (·.value.display)).getD "" := by
  refine ⟨format_written_eq src, fun text => ?_, display_value src, display_valueAt src⟩
  rw [← written_literal, format_written_eq, shown_literal]

end TaggedBuffer.Template
