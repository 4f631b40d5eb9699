import TaggedBuffer.Text.Utf16

namespace TaggedBuffer.Utf16

theorem units_bytes (us : List UInt16) : units (bytes us) = us := by
  induction us with
  | nil => rfl
  | cons u us ih =>
    have hu := u.toNat_lt
    have hunit : UInt16.ofNat ((UInt8.ofNat u.toNat).toNat +
        256 * (UInt8.ofNat (u.toNat / 256)).toNat) = u := by
      rw [UInt8.toNat_ofNat', UInt8.toNat_ofNat', Nat.mod_eq_of_lt (by omega : u.toNat / 256 < 2 ^ 8),
        Nat.mod_add_div, UInt16.ofNat_toNat]
    simp only [bytes, List.flatMap_cons, unitBytes, List.cons_append, List.nil_append, units, hunit]
    rw [← bytes, ih]

theorem bytes_units {bs : List UInt8} (h : bs.length % 2 = 0) : bytes (units bs) = bs := by
  fun_induction units bs with
  | case1 lo hi rest ih =>
    have hlo := lo.toNat_lt
    have hhi := hi.toNat_lt
    have hsum : (UInt16.ofNat (lo.toNat + 256 * hi.toNat)).toNat = lo.toNat + 256 * hi.toNat := by
      rw [UInt16.toNat_ofNat', Nat.mod_eq_of_lt (by omega)]
    have hlow : UInt8.ofNat (lo.toNat + 256 * hi.toNat) = lo := by
      rw [← UInt8.toNat_inj, UInt8.toNat_ofNat']
      omega
    have hhigh : UInt8.ofNat ((lo.toNat + 256 * hi.toNat) / 256) = hi := by
      rw [← UInt8.toNat_inj, UInt8.toNat_ofNat']
      omega
    have hrest : rest.length % 2 = 0 := by
      rw [List.length_cons, List.length_cons] at h
      omega
    rw [bytes, List.flatMap_cons, unitBytes, hsum, hlow, hhigh, ← bytes, ih hrest]
    rfl
  | case2 bs hshort =>
    match bs, hshort with
    | [], _ => rfl
    | [_], _ => simp at h
    | lo :: hi :: rest, hshort => exact (hshort lo hi rest rfl).elim

theorem isHigh_iff {u : UInt16} : isHigh u = true ↔ 0xD800 ≤ u.toNat ∧ u.toNat ≤ 0xDBFF := by
  simp [isHigh, UInt16.le_iff_toNat_le]

theorem isLow_iff {u : UInt16} : isLow u = true ↔ 0xDC00 ≤ u.toNat ∧ u.toNat ≤ 0xDFFF := by
  simp [isLow, UInt16.le_iff_toNat_le]

theorem toNat_ofNat_of_valid {n : Nat} (h : n.isValidChar) : (Char.ofNat n).toNat = n := by
  rw [Char.ofNat, dif_pos h]
  rfl

theorem toNat_valid (c : Char) : c.toNat < 0xD800 ∨ 0xDFFF < c.toNat ∧ c.toNat < 0x110000 := c.valid

theorem ofUnit_eq_some_iff {u : UInt16} {c : Char} : ofUnit u = some c ↔ c.toNat = u.toNat := by
  have hvalid := toNat_valid c
  rw [ofUnit]
  split
  next hs =>
    rw [Bool.or_eq_true, isHigh_iff, isLow_iff] at hs
    constructor
    · intro h
      cases h
    · intro h
      omega
  next hs =>
    rw [Bool.or_eq_true, isHigh_iff, isLow_iff] at hs
    have hu := u.toNat_lt
    constructor
    · intro h
      cases h
      exact toNat_ofNat_of_valid (by omega)
    · intro h
      rw [← h, Char.ofNat_toNat]

theorem toNat_ofPair {u v : UInt16} (hu : isHigh u = true) (hv : isLow v = true) :
    (ofPair u v).toNat = 0x10000 + (u.toNat - 0xD800) * 0x400 + (v.toNat - 0xDC00) := by
  rw [isHigh_iff] at hu
  rw [isLow_iff] at hv
  apply toNat_ofNat_of_valid
  right
  omega

theorem encodeChar_of_toNat {u : UInt16} {c : Char} (h : c.toNat = u.toNat) : encodeChar c = [u] := by
  have hu := u.toNat_lt
  rw [encodeChar, if_pos (by omega), h, UInt16.ofNat_toNat]

theorem encodeChar_ofPair {u v : UInt16} (hu : isHigh u = true) (hv : isLow v = true) :
    encodeChar (ofPair u v) = [u, v] := by
  have hc := toNat_ofPair hu hv
  rw [isHigh_iff] at hu
  rw [isLow_iff] at hv
  have hhigh : 0xD800 + ((ofPair u v).toNat - 0x10000) / 0x400 = u.toNat := by omega
  have hlow : 0xDC00 + ((ofPair u v).toNat - 0x10000) % 0x400 = v.toNat := by omega
  rw [encodeChar, if_neg (by omega)]
  simp only [hhigh, hlow, UInt16.ofNat_toNat]

theorem encodeChar_cases (c : Char) :
    (∃ u, encodeChar c = [u] ∧ ofUnit u = some c) ∨
    ∃ u v, encodeChar c = [u, v] ∧ isHigh u = true ∧ isLow v = true ∧ ofPair u v = c := by
  have hvalid := toNat_valid c
  rw [encodeChar]
  split
  next h =>
    left
    exact ⟨_, rfl, ofUnit_eq_some_iff.2 (by rw [UInt16.toNat_ofNat', Nat.mod_eq_of_lt h])⟩
  next h =>
    right
    have hhigh : (UInt16.ofNat (0xD800 + (c.toNat - 0x10000) / 0x400)).toNat =
        0xD800 + (c.toNat - 0x10000) / 0x400 := by
      rw [UInt16.toNat_ofNat', Nat.mod_eq_of_lt (by omega)]
    have hlow : (UInt16.ofNat (0xDC00 + (c.toNat - 0x10000) % 0x400)).toNat =
        0xDC00 + (c.toNat - 0x10000) % 0x400 := by
      rw [UInt16.toNat_ofNat', Nat.mod_eq_of_lt (by omega)]
    refine ⟨_, _, rfl, isHigh_iff.2 (by omega), isLow_iff.2 (by omega), ?_⟩
    have hsum : 0x10000 + (0xD800 + (c.toNat - 0x10000) / 0x400 - 0xD800) * 0x400 +
        (0xDC00 + (c.toNat - 0x10000) % 0x400 - 0xDC00) = c.toNat := by omega
    rw [ofPair, hhigh, hlow, hsum, Char.ofNat_toNat]

theorem scalars_encodeChar (c : Char) (us : List UInt16) :
    scalars (encodeChar c ++ us) = some c :: scalars us := by
  rcases encodeChar_cases c with ⟨u, he, hu⟩ | ⟨u, v, he, hu, hv, rfl⟩
  · have hhigh : isHigh u = false := by
      cases hb : isHigh u with
      | false => rfl
      | true =>
        rw [ofUnit, hb] at hu
        cases hu
    rw [he, List.singleton_append, scalars_cons_of_not_pair, hu]
    intro v _
    rw [hhigh, Bool.false_and]
  · rw [he]
    exact scalars_pair hu hv

theorem scalars_encodeChars (cs : List Char) :
    scalars (cs.flatMap encodeChar) = cs.map some := by
  induction cs with
  | nil => rfl
  | cons c cs ih => rw [List.flatMap_cons, scalars_encodeChar, ih, List.map_cons]

theorem encodeChars_of_scalars {us : List UInt16} {cs : List Char}
    (h : scalars us = cs.map some) : cs.flatMap encodeChar = us := by
  fun_induction scalars us generalizing cs with
  | case1 =>
    obtain rfl : cs = [] := List.map_eq_nil_iff.1 h.symm
    rfl
  | case2 u =>
    obtain ⟨c, rfl, hc⟩ := List.map_eq_singleton_iff.1 h.symm
    rw [List.flatMap_singleton, encodeChar_of_toNat (ofUnit_eq_some_iff.1 hc.symm)]
  | case3 u v rest hp ih =>
    obtain ⟨c, cs, rfl, hc, hrest⟩ := List.map_eq_cons_iff.1 h.symm
    rw [Option.some.injEq] at hc
    rw [Bool.and_eq_true] at hp
    rw [List.flatMap_cons, hc, encodeChar_ofPair hp.1 hp.2, ih hrest.symm]
    rfl
  | case4 u v rest hp ih =>
    obtain ⟨c, cs, rfl, hc, hrest⟩ := List.map_eq_cons_iff.1 h.symm
    rw [List.flatMap_cons, encodeChar_of_toNat (ofUnit_eq_some_iff.1 hc.symm), ih hrest.symm]
    rfl

theorem mapM_id_eq_some_iff {α : Type} {os : List (Option α)} {as : List α} :
    os.mapM id = some as ↔ os = as.map some := by
  induction os generalizing as with
  | nil => cases as <;> simp
  | cons o os ih =>
    rw [List.mapM_cons, Option.bind_eq_bind, Option.bind_eq_some_iff]
    constructor
    · rintro ⟨a, rfl, h⟩
      obtain ⟨rest, hrest, h⟩ := Option.bind_eq_some_iff.1 h
      cases h
      rw [ih.1 hrest, List.map_cons]
    · intro h
      obtain ⟨a, rest, rfl, rfl, hrest⟩ := List.map_eq_cons_iff.1 h.symm
      exact ⟨a, rfl, Option.bind_eq_some_iff.2 ⟨rest, ih.2 hrest.symm, rfl⟩⟩

theorem decode?_eq_some_iff {b : Bytes} {s : String} :
    decode? b = some s ↔ scalars (units (Bytes.list b)) = s.toList.map some := by
  rw [decode?, Option.map_eq_some_iff]
  constructor
  · rintro ⟨cs, hcs, rfl⟩
    rw [String.toList_ofList]
    exact mapM_id_eq_some_iff.1 hcs
  · intro h
    exact ⟨s.toList, mapM_id_eq_some_iff.2 h, String.ofList_toList⟩

theorem scalars_encode (s : String) :
    scalars (units (Bytes.list (encode s))) = s.toList.map some := by
  rw [encode, Bytes.list_toByteArray, units_bytes, scalars_encodeChars]

theorem decode?_encode (s : String) : decode? (encode s) = some s :=
  decode?_eq_some_iff.2 (scalars_encode s)

theorem decodeLossy_of_decode? {b : Bytes} {s : String} (h : decode? b = some s) :
    decodeLossy b = s := by
  rw [← String.toList_inj, toList_decodeLossy, decode?_eq_some_iff.1 h, List.map_map]
  exact List.map_id _

theorem decodeLossy_encode (s : String) : decodeLossy (encode s) = s :=
  decodeLossy_of_decode? (decode?_encode s)

theorem encode_of_decode? {b : Bytes} {s : String} (he : b.size % 2 = 0) (h : decode? b = some s) :
    encode s = b := by
  have hbytes : bytes (units (Bytes.list b)) = Bytes.list b := bytes_units he
  rw [encode, encodeChars_of_scalars (decode?_eq_some_iff.1 h), hbytes, Bytes.toByteArray_list]

end TaggedBuffer.Utf16
