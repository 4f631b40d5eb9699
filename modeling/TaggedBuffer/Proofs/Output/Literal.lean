import TaggedBuffer.Output.Json
import TaggedBuffer.Proofs.Text.Hex
import TaggedBuffer.Proofs.Text.Utf16

namespace TaggedBuffer.Json

open Utf16 (encodeChar scalars)

/-- The character that a mark stands for behind a backslash. -/
def marked? : Char → Option Char
  | '"' => some '"'
  | '\\' => some '\\'
  | '/' => some '/'
  | 'b' => some '\x08'
  | 'f' => some '\x0c'
  | 'n' => some '\n'
  | 'r' => some '\r'
  | 't' => some '\t'
  | _ => none

def unit? (digits : List Char) : Option UInt16 :=
  match Hex.decodeChars digits with
  | some [high, low] => some (UInt16.ofNat (256 * high.toNat + low.toNat))
  | _ => none

def before (us : List UInt16) (r : List UInt16 × List Char) : List UInt16 × List Char := (us ++ r.1, r.2)

/-- The code units up to the closing quote, and what follows it. Controls stand behind a backslash
only. -/
def readUnits? : List Char → Option (List UInt16 × List Char)
  | [] => none
  | '"' :: rest => some ([], rest)
  | '\\' :: 'u' :: a :: b :: c :: d :: rest =>
    (unit? [a, b, c, d]).bind fun u => (readUnits? rest).map (before [u])
  | '\\' :: mark :: rest =>
    (marked? mark).bind fun c => (readUnits? rest).map (before (encodeChar c))
  | c :: rest => if c.toNat < 0x20 then none else (readUnits? rest).map (before (encodeChar c))

/-- The text of a literal, and what follows it. Surrogates stand in pairs only. -/
def readLiteral? : List Char → Option (String × List Char)
  | '"' :: rest => do
    let (us, rest) ← readUnits? rest
    let cs ← (scalars us).mapM id
    return (String.ofList cs, rest)
  | _ => none

theorem readUnits?_marked {mark c : Char} (h : marked? mark = some c) (rest : List Char) :
    readUnits? ('\\' :: mark :: rest) = (readUnits? rest).map (before (encodeChar c)) := by
  have hu : mark ≠ 'u' := by
    rintro rfl
    cases h
  rw [readUnits?]
  · rw [h, Option.bind_some]
  · intro a b c d rest' hmark
    exact (hu hmark).elim

theorem readUnits?_control {n : Nat} (h : n < 0x20) (rest : List Char) :
    readUnits? ('\\' :: 'u' :: '0' :: '0' :: Hex.lowerDigit (n / 16) :: Hex.lowerDigit (n % 16) :: rest) =
      (readUnits? rest).map (before [UInt16.ofNat n]) := by
  have hunit : ∀ n : Fin 0x20, unit? ['0', '0', Hex.lowerDigit (n / 16), Hex.lowerDigit (n % 16)] =
      some (UInt16.ofNat n) := by decide
  rw [readUnits?, hunit ⟨n, h⟩, Option.bind_some]

theorem readUnits?_plain {c : Char} (hquote : c ≠ '"') (hslash : c ≠ '\\') (hc : ¬ c.toNat < 0x20)
    (rest : List Char) :
    readUnits? (c :: rest) = (readUnits? rest).map (before (encodeChar c)) := by
  rw [readUnits?.eq_def]
  simp [hslash, hc]

/-- A character is written as a mark, as four digits if it is another control, or as itself. -/
theorem escapeChar_cases (c : Char) :
    (∃ mark, marked? mark = some c ∧ 0x20 ≤ mark.toNat ∧ escapeChar c = ['\\', mark]) ∨
    (c.toNat < 0x20 ∧ escapeChar c =
      ['\\', 'u', '0', '0', Hex.lowerDigit (c.toNat / 16), Hex.lowerDigit (c.toNat % 16)]) ∨
    (c ≠ '"' ∧ c ≠ '\\' ∧ ¬ c.toNat < 0x20 ∧ escapeChar c = [c]) := by
  by_cases hmark : c ∈ ['"', '\\', '\x08', '\x0c', '\n', '\r', '\t']
  · left
    simp only [List.mem_cons, List.not_mem_nil, or_false] at hmark
    rcases hmark with rfl | rfl | rfl | rfl | rfl | rfl | rfl
    · exact ⟨'"', rfl, by decide, rfl⟩
    · exact ⟨'\\', rfl, by decide, rfl⟩
    · exact ⟨'b', rfl, by decide, rfl⟩
    · exact ⟨'f', rfl, by decide, rfl⟩
    · exact ⟨'n', rfl, by decide, rfl⟩
    · exact ⟨'r', rfl, by decide, rfl⟩
    · exact ⟨'t', rfl, by decide, rfl⟩
  · right
    simp only [List.mem_cons, List.not_mem_nil, or_false, not_or] at hmark
    obtain ⟨hquote, hslash, hback, hfeed, hline, hreturn, htab⟩ := hmark
    rw [escapeChar, if_neg hquote, if_neg hslash, if_neg hback, if_neg hfeed, if_neg hline,
      if_neg hreturn, if_neg htab]
    split
    next h =>
      have hbyte : (UInt8.ofNat c.toNat).toNat = c.toNat := by
        rw [UInt8.toNat_ofNat', Nat.mod_eq_of_lt (by omega)]
      refine .inl ⟨h, ?_⟩
      rw [Hex.digits, List.flatMap_singleton, hbyte]
    next h => exact .inr ⟨hquote, hslash, h, rfl⟩

theorem readUnits?_escapeChar (c : Char) (rest : List Char) :
    readUnits? (escapeChar c ++ rest) = (readUnits? rest).map (before (encodeChar c)) := by
  rcases escapeChar_cases c with ⟨mark, hmark, -, he⟩ | ⟨hc, he⟩ | ⟨hquote, hslash, hc, he⟩
  · rw [he]
    exact readUnits?_marked hmark rest
  · have hunit : encodeChar c = [UInt16.ofNat c.toNat] := by rw [encodeChar, if_pos (by omega)]
    rw [he, hunit]
    exact readUnits?_control hc rest
  · rw [he]
    exact readUnits?_plain hquote hslash hc rest

theorem readUnits?_escaped (cs rest : List Char) :
    readUnits? (cs.flatMap escapeChar ++ '"' :: rest) = some (cs.flatMap encodeChar, rest) := by
  induction cs with
  | nil => rw [List.flatMap_nil, List.nil_append, readUnits?]; rfl
  | cons c cs ih =>
    rw [List.flatMap_cons, List.append_assoc, readUnits?_escapeChar, ih]
    rfl

theorem readLiteral?_quoteChars (cs rest : List Char) :
    readLiteral? (quoteChars cs ++ rest) = some (String.ofList cs, rest) := by
  have hscalars : (scalars (cs.flatMap encodeChar)).mapM id = some cs :=
    Utf16.mapM_id_eq_some_iff.2 (Utf16.scalars_encodeChars cs)
  rw [quoteChars, List.cons_append, List.append_assoc, List.singleton_append, readLiteral?,
    readUnits?_escaped]
  simp only [Option.bind_eq_bind, Option.bind_some, hscalars]
  rfl

theorem mem_quoteChars {cs : List Char} {c : Char} (h : c ∈ quoteChars cs) : 0x20 ≤ c.toNat := by
  have hcontrol : ∀ n : Fin 0x20, (['\\', 'u', '0', '0', Hex.lowerDigit (n / 16),
      Hex.lowerDigit (n % 16)].all fun c => 0x20 ≤ c.toNat) = true := by decide
  rw [quoteChars, List.mem_cons, List.mem_append, List.mem_singleton] at h
  rcases h with rfl | h | rfl
  · decide
  · obtain ⟨d, -, hd⟩ := List.mem_flatMap.1 h
    rcases escapeChar_cases d with ⟨mark, -, hmark, he⟩ | ⟨hlt, he⟩ | ⟨-, -, hge, he⟩
    · rw [he, List.mem_cons, List.mem_singleton] at hd
      rcases hd with rfl | rfl
      · decide
      · exact hmark
    · exact of_decide_eq_true (List.all_eq_true.1 (hcontrol ⟨d.toNat, hlt⟩) c (he ▸ hd))
    · rw [he, List.mem_singleton] at hd
      subst hd
      omega
  · decide

end TaggedBuffer.Json
