import TaggedBuffer.Output.Uri
import TaggedBuffer.Proofs.Text.Hex
import TaggedBuffer.Proofs.Text.Split

namespace TaggedBuffer.Uri

open Content (entries)

/-- Percent decoding. A percent sign without two digits is refused, and so is what is not ASCII. -/
def decode? : List Char → Option (List UInt8)
  | [] => some []
  | '%' :: high :: low :: rest => do
    let h ← Hex.digit? high
    let l ← Hex.digit? low
    let bs ← decode? rest
    return UInt8.ofNat (16 * h + l) :: bs
  | '%' :: _ => none
  | c :: rest => if c.toNat < 128 then (decode? rest).map (UInt8.ofNat c.toNat :: ·) else none

def decodePair? (piece : List Char) : Option (List UInt8 × List UInt8) :=
  match Text.splitAll '=' piece with
  | [name, words] => do
    let name ← decode? name
    let words ← decode? words
    return (name, words)
  | _ => none

/-- The pairs between ampersands; no text is no pair. -/
def decodeQuery? (query : String) : Option (List (List UInt8 × List UInt8)) :=
  if query = "" then some [] else (Text.splitAll '&' query.toList).mapM decodePair?

def isUnreservedChar (c : Char) : Bool :=
  c.isAlphanum || c = '-' || c = '_' || c = '.' || c = '~'

def isQueryChar (c : Char) : Bool := isUnreservedChar c || c = '%' || c = '&' || c = '='

def fields (src : Bytes) : List (String × String) :=
  (entries src).filterMap fun e => e.name.map fun name => (name, e.value.words)

def utf8 (s : String) : List UInt8 := Bytes.list s.toByteArray

theorem unreserved_ofNat {b : UInt8} (h : isUnreserved b = true) :
    isUnreservedChar (Char.ofNat b.toNat) = true ∧ (Char.ofNat b.toNat).toNat = b.toNat ∧
      b.toNat < 128 := by
  have hall : ∀ n : Fin 256, isUnreserved (UInt8.ofNat n) = true →
      isUnreservedChar (Char.ofNat n) = true ∧ (Char.ofNat n).toNat = n ∧ n.val < 128 := by
    decide +kernel
  apply hall ⟨b.toNat, b.toNat_lt⟩
  rwa [UInt8.ofNat_toNat]

theorem isUnreservedChar_upperDigit {n : Nat} (h : n < 16) :
    isUnreservedChar (Hex.upperDigit n) = true := by
  have hall : ∀ n : Fin 16, isUnreservedChar (Hex.upperDigit n) = true := by decide
  exact hall ⟨n, h⟩

theorem decode?_plain {c : Char} (hmark : c ≠ '%') (hascii : c.toNat < 128) (rest : List Char) :
    decode? (c :: rest) = (decode? rest).map (UInt8.ofNat c.toNat :: ·) := by
  rw [decode?.eq_def]
  simp [hmark, hascii]

theorem decode?_escaped (b : UInt8) (rest : List Char) :
    decode? ('%' :: Hex.upperDigit (b.toNat / 16) :: Hex.upperDigit (b.toNat % 16) :: rest) =
      (decode? rest).map (b :: ·) := by
  have hb := b.toNat_lt
  rw [decode?, Hex.digit?_upperDigit (by omega), Hex.digit?_upperDigit (by omega)]
  simp only [Option.bind_eq_bind, Option.bind_some, Hex.ofNat_digits]
  cases decode? rest <;> rfl

theorem decode?_encodeByte (b : UInt8) (rest : List Char) :
    decode? (encodeByte b ++ rest) = (decode? rest).map (b :: ·) := by
  rw [encodeByte]
  split
  next h =>
    obtain ⟨hplain, hnat, hascii⟩ := unreserved_ofNat h
    have hmark : Char.ofNat b.toNat ≠ '%' := by
      intro hc
      rw [hc] at hplain
      cases hplain
    rw [List.singleton_append, decode?_plain hmark (hnat.symm ▸ hascii), hnat, UInt8.ofNat_toNat]
  next => exact decode?_escaped b rest

theorem decode?_encode (s : String) : decode? (encode s) = some (utf8 s) := by
  rw [encode, utf8]
  induction Bytes.list s.toByteArray with
  | nil => rfl
  | cons b bs ih =>
    rw [List.flatMap_cons, decode?_encodeByte, ih]
    rfl

theorem mem_encode {s : String} {c : Char} (h : c ∈ encode s) :
    isUnreservedChar c = true ∨ c = '%' := by
  obtain ⟨b, -, hc⟩ := List.mem_flatMap.1 h
  have hb := b.toNat_lt
  rw [encodeByte] at hc
  split at hc
  next hplain =>
    rw [List.mem_singleton] at hc
    exact .inl (hc ▸ (unreserved_ofNat hplain).1)
  next =>
    simp only [Hex.digits, List.flatMap_cons, List.flatMap_nil, List.append_nil, List.mem_cons,
      List.not_mem_nil, or_false] at hc
    rcases hc with rfl | rfl | rfl
    · exact .inr rfl
    · exact .inl (isUnreservedChar_upperDigit (by omega))
    · exact .inl (isUnreservedChar_upperDigit (by omega))

theorem not_mem_encode {separator : Char} (h : separator = '&' ∨ separator = '=') (s : String) :
    separator ∉ encode s := by
  intro hc
  rcases h with rfl | rfl
  · rcases mem_encode hc with hc | hc <;> cases hc
  · rcases mem_encode hc with hc | hc <;> cases hc

def pairChars (field : String × String) : List Char := encode field.1 ++ '=' :: encode field.2

theorem decodePair?_pairChars (field : String × String) :
    decodePair? (pairChars field) = some (utf8 field.1, utf8 field.2) := by
  have hsplit : Text.splitAll '=' (pairChars field) = [encode field.1, encode field.2] := by
    rw [pairChars, Text.splitAll_append_cons (not_mem_encode (.inr rfl) _),
      Text.splitAll_of_not_mem (not_mem_encode (.inr rfl) _)]
  simp only [decodePair?, hsplit, decode?_encode]
  rfl

theorem ampersand_not_mem_pairChars (field : String × String) : '&' ∉ pairChars field := by
  rw [pairChars, List.mem_append, List.mem_cons, not_or, not_or]
  exact ⟨not_mem_encode (.inl rfl) _, by decide, not_mem_encode (.inl rfl) _⟩

theorem pairChars_ne_nil (field : String × String) : pairChars field ≠ [] :=
  List.append_ne_nil_of_right_ne_nil _ (List.cons_ne_nil _ _)

theorem toList_query (src : Bytes) :
    (query src).toList = ['&'].intercalate ((fields src).map pairChars) := by
  rw [query, String.toList_ofList, fields, List.map_filterMap]
  congr 2
  funext e
  rw [pair?, Option.map_map]
  rfl

theorem query_eq_empty_iff (src : Bytes) : query src = "" ↔ fields src = [] := by
  rw [← String.toList_eq_nil_iff, toList_query]
  cases fields src with
  | nil => simp
  | cons field rest => simp [Text.intercalate_ne_nil (pairChars_ne_nil field)]

theorem splitAll_pairs {pairs : List (String × String)} (h : pairs ≠ []) :
    Text.splitAll '&' (['&'].intercalate (pairs.map pairChars)) = pairs.map pairChars := by
  obtain ⟨field, rest, rfl⟩ := List.exists_cons_of_ne_nil h
  apply Text.splitAll_intercalate
  rw [← List.map_cons]
  intro part hpart
  obtain ⟨field', -, rfl⟩ := List.mem_map.1 hpart
  exact ampersand_not_mem_pairChars field'

theorem decodeQuery?_query (src : Bytes) :
    decodeQuery? (query src) = some ((fields src).map fun field => (utf8 field.1, utf8 field.2)) := by
  -- The join of no pairs and that of one empty pair are the same text, so no text is told apart first.
  by_cases h : fields src = []
  · rw [decodeQuery?, if_pos ((query_eq_empty_iff src).2 h), h, List.map_nil]
  · rw [decodeQuery?, if_neg (mt (query_eq_empty_iff src).1 h), toList_query, splitAll_pairs h]
    exact mapM_map fun field _ => decodePair?_pairChars field

theorem utf8_inj {s t : String} (h : utf8 s = utf8 t) : s = t :=
  String.toByteArray_inj.1 (ByteArray.ext (Array.toList_inj.1 h))

theorem query_eq_iff (src other : Bytes) : query src = query other ↔ fields src = fields other := by
  constructor
  · intro h
    have hdecoded := congrArg decodeQuery? h
    rw [decodeQuery?_query, decodeQuery?_query, Option.some.injEq] at hdecoded
    refine (List.map_inj_right fun field field' hfield => ?_).1 hdecoded
    obtain ⟨hname, hwords⟩ := Prod.mk.inj hfield
    exact Prod.ext (utf8_inj hname) (utf8_inj hwords)
  · intro h
    rw [← String.toList_inj, toList_query, toList_query, h]

theorem isQueryChar_pairChars {field : String × String} {c : Char} (h : c ∈ pairChars field) :
    isQueryChar c = true := by
  have hencoded : ∀ {s}, c ∈ encode s → isQueryChar c = true := by
    intro s hc
    rcases mem_encode hc with hc | rfl
    · simp [isQueryChar, hc]
    · rfl
  rw [pairChars, List.mem_append, List.mem_cons] at h
  rcases h with hc | rfl | hc
  · exact hencoded hc
  · rfl
  · exact hencoded hc

theorem query_all_isQueryChar (src : Bytes) : (query src).toList.all isQueryChar = true := by
  rw [toList_query, List.all_eq_true]
  intro c hc
  obtain rfl | ⟨part, hpart, hc⟩ := Text.mem_intercalate hc
  · rfl
  · obtain ⟨field, -, rfl⟩ := List.mem_map.1 hpart
    exact isQueryChar_pairChars hc

/-- Cutting a query at its separators and decoding the parts gives the names and the words of the
named entries in order, whatever they hold. -/
theorem query_decodes (src : Bytes) :
    decodeQuery? (query src) =
      some ((fields src).map fun field => (utf8 field.1, utf8 field.2)) ∧
    (query src = "" ↔ fields src = []) ∧
    (∀ other, query src = query other ↔ fields src = fields other) ∧
    (query src).toList.all isQueryChar = true :=
  ⟨decodeQuery?_query src, query_eq_empty_iff src, query_eq_iff src, query_all_isQueryChar src⟩

end TaggedBuffer.Uri
