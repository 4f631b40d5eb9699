import TaggedBuffer.Proofs.Buffer.Canonical
import TaggedBuffer.Proofs.Buffer.Room
import TaggedBuffer.Proofs.Store.Flavor
import TaggedBuffer.Proofs.Text.Split
import TaggedBuffer.Proofs.Value.Printed
import TaggedBuffer.Proofs.Value.WellFormed

namespace TaggedBuffer

open Content (encoded entries validate Packed Lists)
open Buffer (pairsSize checkEntry appendParsed)

def itemText (pair : Pair) : String :=
  pair.1.getD "" ++ "," ++ pair.2.type.name ++ "," ++ pair.2.display

def itemsText (pairs : List Pair) : String := ";".intercalate (pairs.map itemText)

/-- Entries that an item can hold and a buffer can store. -/
structure IsItem (pair : Pair) : Prop where
  name : ∀ name, pair.1 = some name → 1 ≤ name.utf8ByteSize ∧ name.utf8ByteSize ≤ 255 ∧
    ',' ∉ name.toList ∧ ';' ∉ name.toList
  value : pair.2.Printable
  size : pair.2.encodedLength ≤ maxEncodedLength

theorem toList_itemText (pair : Pair) : (itemText pair).toList =
    (pair.1.getD "").toList ++ ',' :: (pair.2.type.name.toList ++ ',' :: pair.2.display.toList) := by
  simp [itemText]

namespace IsItem

variable {pair : Pair}

theorem named {name : String} {v : Value} (hname : 1 ≤ name.utf8ByteSize ∧
    name.utf8ByteSize ≤ 255 ∧ ',' ∉ name.toList ∧ ';' ∉ name.toList) (hv : v.Printable)
    (hsize : v.encodedLength ≤ maxEncodedLength) : IsItem (some name, v) := by
  refine ⟨?_, hv, hsize⟩
  rintro _ ⟨⟩
  exact hname

theorem unnamed {v : Value} (hv : v.Printable) (hsize : v.encodedLength ≤ maxEncodedLength) :
    IsItem (none, v) := by
  refine ⟨?_, hv, hsize⟩
  rintro _ ⟨⟩

theorem separators (h : IsItem pair) :
    ',' ∉ (pair.1.getD "").toList ∧ ';' ∉ (pair.1.getD "").toList := by
  obtain ⟨name?, v⟩ := pair
  cases name? with
  | none => exact ⟨List.not_mem_nil, List.not_mem_nil⟩
  | some name => exact (h.name name rfl).2.2

theorem semicolon (h : IsItem pair) : ';' ∉ (itemText pair).toList := by
  rw [toList_itemText]
  simp only [List.mem_append, List.mem_cons, not_or]
  exact ⟨h.separators.2, by decide, fun hc => (ValueType.mem_name hc).2.2 rfl, by decide,
    h.value.semicolon_display⟩

theorem checkEntry (h : IsItem pair) : checkEntry pair.1 pair.2 = .ok () := by
  refine Content.checkEntry_ok_iff.2 ⟨fun name hname => ?_, checkValue_ok_iff.2 h.size⟩
  obtain ⟨hlo, hhi, -⟩ := h.name name hname
  exact checkName_ok_iff.2 ⟨hlo, hhi⟩

/-- An item is cut at its first two commas, whatever its value holds. -/
theorem parseItem (h : IsItem pair) : parseItem (itemText pair).toList = .ok pair := by
  obtain ⟨name?, v⟩ := pair
  have htype : ',' ∉ v.type.name.toList := fun hc => (ValueType.mem_name hc).2.1 rfl
  have htrim : Text.trim v.type.name.toList = v.type.name.toList :=
    Text.trim_eq_self fun _ hc => (ValueType.mem_name hc).1
  obtain ⟨hnames, hvalue⟩ := Content.checkEntry_ok_iff.1 h.checkEntry
  rw [toList_itemText, TaggedBuffer.parseItem]
  simp only [Text.cut?_append_cons h.separators.1, Text.cut?_append_cons htype, htrim,
    String.ofList_toList, ValueType.ofName?_name, h.value.parse_display]
  refine bind_eq_ok.2 ⟨v, rfl, ?_⟩
  cases name? with
  | none =>
    have hnone : (if ((none : Option String).getD "").toList = [] then none
        else some ((none : Option String).getD "")) = none := if_pos rfl
    simp only [hnone]
    exact bind_eq_ok.2 ⟨(), hvalue, rfl⟩
  | some name =>
    have hname : checkName name = .ok () := hnames name rfl
    have hne : name.toList ≠ [] := by
      intro hnil
      rw [String.toList_eq_nil_iff] at hnil
      rw [hnil] at hname
      cases hname
    simp only [Option.getD_some, if_neg hne, hname]
    exact bind_eq_ok.2 ⟨(), rfl, bind_eq_ok.2 ⟨(), hvalue, rfl⟩⟩

end IsItem

theorem toList_itemsText (pairs : List Pair) :
    (itemsText pairs).toList = [';'].intercalate ((pairs.map itemText).map String.toList) := by
  rw [itemsText, String.toList_intercalate]
  rfl

theorem toList_itemText_ne_nil (pair : Pair) : (itemText pair).toList ≠ [] := by
  rw [toList_itemText]
  simp

theorem getLast?_itemsText {pairs : List Pair} (h : ∀ pair ∈ pairs, IsItem pair) :
    (itemsText pairs).toList.getLast? ≠ some ';' := by
  rw [toList_itemsText]
  cases pairs with
  | nil => simp
  | cons pair pairs =>
    apply Text.getLast?_intercalate
    rw [← List.map_cons, ← List.map_cons, List.map_map]
    intro part hpart
    obtain ⟨pair', hp, rfl⟩ := List.mem_map.1 hpart
    exact ⟨toList_itemText_ne_nil pair', (h pair' hp).semicolon⟩

theorem splitAll_itemsText {pair : Pair} {pairs : List Pair}
    (h : ∀ p ∈ pair :: pairs, IsItem p) : Text.splitAll ';' (itemsText (pair :: pairs)).toList =
      (pair :: pairs).map fun p => (itemText p).toList := by
  rw [toList_itemsText, List.map_map]
  apply Text.splitAll_intercalate
  rw [← List.map_cons]
  intro part hpart
  obtain ⟨pair', hp, rfl⟩ := List.mem_map.1 hpart
  exact (h pair' hp).semicolon

theorem parseItems_itemsText {pairs : List Pair} {text : String} (h : ∀ pair ∈ pairs, IsItem pair)
    (ht : text = itemsText pairs ∨ text = itemsText pairs ++ ";") : parseItems text = .ok pairs := by
  have hbody : (if text.toList.getLast? = some ';' then text.toList.dropLast else text.toList) =
      (itemsText pairs).toList := by
    rcases ht with rfl | rfl
    · exact if_neg (getLast?_itemsText h)
    · have htext : (itemsText pairs ++ ";").toList = (itemsText pairs).toList ++ [';'] :=
        String.toList_append
      rw [htext, List.getLast?_concat, if_pos rfl, List.dropLast_concat]
  simp only [parseItems, hbody]
  cases pairs with
  | nil => rfl
  | cons pair pairs =>
    have hne : (itemsText (pair :: pairs)).toList ≠ [] := by
      rw [toList_itemsText]
      exact Text.intercalate_ne_nil (toList_itemText_ne_nil pair) _
    rw [if_neg hne, splitAll_itemsText h]
    exact (mapM_map fun p hp => (h p hp).parseItem).trans (congrArg Except.ok (List.map_id _))

section Parsed

variable [Allocator] {σ : Type} [Store σ] [LawfulStore σ] [Placed σ] {s : σ}

/-- Once the items are read they are added, or more room was denied and nothing is done. The room is
asked for once, for all of them. -/
theorem appendParsed_parsed {text : String} {pairs : List Pair} (hp : parseItems text = .ok pairs)
    (hs : (Store.content s).size % 4 = 0) :
    (∃ s', appendParsed text s = .ok pairs.length s' ∧
      Store.content s' = Store.content s ++ encoded pairs) ∨
    ∃ e, appendParsed text s = .error e s ∧ e.IsAllocation ∧
      (Allocator.Ample → ¬ HasRoom (Store.capacity s) (Store.used s + pairsSize pairs)) := by
  have hstorable := parseItems_storable hp
  rw [appendParsed, Update.bind_check_ok hp]
  by_cases hempty : pairs = []
  · subst hempty
    exact .inl ⟨s, rfl, ByteArray.append_empty.symm⟩
  · rw [if_neg hempty, Update.bind_get]
    cases hr : Store.reserve (Store.used s + pairsSize pairs) s with
    | error e s' =>
      obtain ⟨rfl, hdenied⟩ := Store.denied_of_reserve_error hr
      refine .inr ⟨e, Update.bind_of_error hr, hdenied.isAllocation, fun hample hroom => ?_⟩
      obtain ⟨c, hc⟩ := hasRoom_iff.1 hroom
      rw [hc] at hdenied
      exact hdenied.not_ample hample
    | ok moved s₁ =>
      -- From here on no entry asks for more room, so what the allocator serves no longer matters.
      left
      obtain ⟨hc₁, -, hcap⟩ := Store.of_reserve_ok hr
      have hbound : (Store.content s₁).size + pairsSize pairs ≤ Store.capacity s₁ := by
        rwa [hc₁, Store.size_content]
      obtain ⟨s₂, h₂, -, hc₂⟩ := Buffer.appendAll_in_place ⟨(Placed.reserve_ok hr).1, rfl, rfl⟩
        (hc₁ ▸ hs) (fun pair h => (hstorable pair h).2) hbound
      refine ⟨s₂, ?_, ?_⟩
      · rw [Update.bind_of_ok hr, Update.bind_of_ok h₂]
        rfl
      · rw [hc₂, hc₁]

end Parsed

/-- The text of items adds just the entries it is written from, behind those that are there. Only
room can be missing, and then nothing changes. -/
theorem appendParsed_itemsText (f : Flavor) (s : f.Storage) {n : Nat} {pairs : List Pair}
    {text : String} (hs : validate (Store.content s) = .ok n) (h : ∀ pair ∈ pairs, IsItem pair)
    (ht : text = itemsText pairs ∨ text = itemsText pairs ++ ";") :
    (∃ s', appendParsed text s = .ok pairs.length s' ∧
      Lists (Store.content s') ((entries (Store.content s)).map Entry.pair ++ pairs)) ∨
    ∃ e, appendParsed text s = .error e s ∧ e.IsAllocation ∧
      ¬ HasRoom (Store.capacity s) (Store.used s + pairsSize pairs) := by
  obtain ⟨old, hold, -⟩ := Content.validate_ok_iff.1 hs
  have hparsed := parseItems_itemsText h ht
  refine (appendParsed_parsed hparsed hold.size_mod).imp ?_ fun ⟨e, hrun, he, hroom⟩ =>
    ⟨e, hrun, he, hroom Allocator.ample_unbounded⟩
  rintro ⟨s', hrun, hcontent⟩
  refine ⟨s', hrun, ?_⟩
  rw [hcontent, Content.map_pair_entries hold, Content.lists_iff_packed]
  exact hold.append (packed_encoded (parseItems_storable hparsed))

/-- The lowest integer, wide text with a surrogate pair and a comma, text between blanks, no text and
bytes, behind an entry that is there. -/
theorem appendParsed_itemsText_mixed :
    let start : Flavor.owned.Storage := Update.final (Buffer.append (some "z") .unknown Owned.empty)
    let pairs : List Pair := [(some "a b", .integer .int64 (BitVec.intMin 64)), (none, .wide "😀,x"),
      (some "t", .utf8 " lead, "), (none, .ascii ""), (some "g", .binary [0xCA, 0xFE].toByteArray)]
    let text := "a b,int64,-9223372036854775808;,unicode,😀,x;t,utf8, lead, ;,ascii,;g,binary,CAFE;"
    ∃ s', appendParsed text start = .ok 5 s' ∧
      Lists (Store.content s') ((some "z", .unknown) :: pairs) := by
  intro start pairs text
  have htext : text = itemsText pairs ++ ";" := by decide +kernel
  have hcontent : Store.content start = encoded [(some "z", .unknown)] := by decide +kernel
  have hstorable : ∀ pair ∈ [(some "z", Value.unknown)], Storable pair :=
    List.forall_mem_singleton.2 ⟨trivial, rfl⟩
  have hpacked : Packed (Store.content start) [(some "z", .unknown)] :=
    hcontent ▸ packed_encoded hstorable
  have hvalid : validate (Store.content start) = .ok 1 :=
    Content.validate_ok_iff.2 ⟨_, hpacked, rfl⟩
  have hitems : ∀ pair ∈ pairs, IsItem pair := by
    have hwide : (Value.wide "😀,x").Printable :=
      ⟨Value.wide_wellFormed _, _, Utf16.decode?_encode _, by decide⟩
    simp only [pairs, List.forall_mem_cons]
    refine ⟨.named (by decide) trivial (by decide), .unnamed hwide (by decide),
      .named (by decide) ⟨" lead, ", Utf8.fromUTF8?_eq_some_iff.2 rfl, by decide⟩ (by decide),
      .unnamed ⟨"", Utf8.fromUTF8?_eq_some_iff.2 rfl, by decide⟩ (by decide),
      .named (by decide) trivial (by decide), List.forall_mem_nil _⟩
  rcases appendParsed_itemsText .owned start hvalid hitems (.inr htext) with
    ⟨s', hrun, hlists⟩ | ⟨_, _, _, hroom⟩
  · rw [Content.map_pair_entries hpacked] at hlists
    exact ⟨s', hrun, hlists⟩
  · exact (hroom (.inr (by decide +kernel))).elim

end TaggedBuffer
