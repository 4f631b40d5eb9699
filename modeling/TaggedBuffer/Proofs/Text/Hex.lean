import TaggedBuffer.Proofs.Text.Utf8
import TaggedBuffer.Text.Hex

namespace TaggedBuffer.Hex

open Utf8 (IsAscii)

/-- The text is an even number of ASCII digits and letters up to F, in either case. -/
structure IsHex (s : String) : Prop where
  even : s.length % 2 = 0
  digits : ∀ c ∈ s.toList, c ∈ "0123456789ABCDEFabcdef".toList

def value (c : Char) : Nat := "0123456789ABCDEF".toList.idxOf c

/-- The number with these digits, the highest first. -/
def positional (base : Nat) (ds : List Nat) : Nat := ds.foldl (fun n d => base * n + d) 0

def decodeChars : List Char → Option (List UInt8)
  | [] => some []
  | [_] => none
  | hi :: lo :: rest => do
    let h ← digit? hi
    let l ← digit? lo
    let bs ← decodeChars rest
    return UInt8.ofNat (16 * h + l) :: bs

variable {c high low : Char} {cs : List Char} {bs : List UInt8} {s : String}

section Digits

theorem digit?_upperDigit {n : Nat} (h : n < 16) : digit? (upperDigit n) = some n := by
  have hall : ∀ n : Fin 16, digit? (upperDigit n) = some n.val := by decide
  exact hall ⟨n, h⟩

theorem toNat_upperDigit {n : Nat} (h : n < 16) : 48 ≤ (upperDigit n).toNat ∧
    (upperDigit n).toNat ≤ 57 ∨ 65 ≤ (upperDigit n).toNat ∧ (upperDigit n).toNat ≤ 70 := by
  have hall : ∀ n : Fin 16, 48 ≤ (upperDigit n).toNat ∧
      (upperDigit n).toNat ≤ 57 ∨ 65 ≤ (upperDigit n).toNat ∧ (upperDigit n).toNat ≤ 70 := by decide
  exact hall ⟨n, h⟩

theorem ofNat_digits (b : UInt8) : UInt8.ofNat (16 * (b.toNat / 16) + b.toNat % 16) = b := by
  rw [Nat.div_add_mod, UInt8.ofNat_toNat]

theorem toNat_lt_of_digit? {n : Nat} (h : digit? c = some n) : c.toNat < 128 := by
  have hbound {hi : Char} (hle : c ≤ hi) (hhi : hi.toNat < 128) : c.toNat < 128 :=
    Nat.lt_of_le_of_lt (UInt32.le_iff_toNat_le.1 hle) hhi
  rw [digit?] at h
  split at h
  next hc => exact hbound hc.2 (by decide)
  next =>
    split at h
    next hc => exact hbound hc.2 (by decide)
    next =>
      split at h
      next hc => exact hbound hc.2 (by decide)
      next => cases h

theorem of_ascii {p : Char → Nat → Prop} {n : Nat}
    (hall : ∀ i : Fin 128, ∀ n ∈ digit? (Char.ofNat i), p (Char.ofNat i) n)
    (h : digit? c = some n) : p c n := by
  have hc := hall ⟨c.toNat, toNat_lt_of_digit? h⟩ n
  rw [Char.ofNat_toNat] at hc
  exact hc h

theorem digit?_eq_some {n : Nat} (h : digit? c = some n) : n < 16 ∧ upperDigit n = c.toUpper := by
  apply of_ascii _ h
  decide

theorem isSome_digit?_iff : (digit? c).isSome = true ↔ c ∈ "0123456789ABCDEFabcdef".toList := by
  have hlist : ("0123456789ABCDEFabcdef".toList.all fun c => (digit? c).isSome) = true := by decide
  constructor
  · intro h
    obtain ⟨n, hn⟩ := Option.isSome_iff_exists.1 h
    apply of_ascii _ hn
    decide
  · exact List.all_eq_true.1 hlist c

theorem value_upperDigit {n : Nat} (h : n < 16) : value (upperDigit n) = n := by
  have hall : ∀ n : Fin 16, value (upperDigit n) = n.val := by decide
  exact hall ⟨n, h⟩

end Digits

section Characters

theorem digits_cons (digit : Nat → Char) (b : UInt8) (bs : List UInt8) :
    digits digit (b :: bs) = digit (b.toNat / 16) :: digit (b.toNat % 16) :: digits digit bs :=
  rfl

theorem length_digits (digit : Nat → Char) (bs : List UInt8) :
    (digits digit bs).length = 2 * bs.length := by
  induction bs with
  | nil => rfl
  | cons b bs ih =>
    rw [digits_cons, List.length_cons, List.length_cons, List.length_cons, ih]
    omega

theorem mem_digits {bs : List UInt8} {c : Char} (h : c ∈ digits upperDigit bs) :
    48 ≤ c.toNat ∧ c.toNat ≤ 57 ∨ 65 ≤ c.toNat ∧ c.toNat ≤ 70 := by
  obtain ⟨b, -, hc⟩ := List.mem_flatMap.1 h
  have hb := b.toNat_lt
  rw [List.mem_cons, List.mem_singleton] at hc
  rcases hc with rfl | rfl
  · exact toNat_upperDigit (by omega)
  · exact toNat_upperDigit (by omega)

theorem foldl_digits (bs : List UInt8) (n : Nat) :
    ((digits upperDigit bs).map value).foldl (fun n d => 16 * n + d) n =
      (bs.map UInt8.toNat).foldl (fun n d => 256 * n + d) n := by
  induction bs generalizing n with
  | nil => rfl
  | cons b bs ih =>
    have hb := b.toNat_lt
    have hstep : 16 * (16 * n + b.toNat / 16) + b.toNat % 16 = 256 * n + b.toNat := by omega
    rw [digits_cons, List.map_cons, List.map_cons, List.map_cons, value_upperDigit (by omega),
      value_upperDigit (by omega), List.foldl_cons, List.foldl_cons, List.foldl_cons, hstep, ih]

theorem decodeChars_pair_eq_some_iff : decodeChars (high :: low :: cs) = some bs ↔
    ∃ h l bs', digit? high = some h ∧ digit? low = some l ∧ decodeChars cs = some bs' ∧
      bs = UInt8.ofNat (16 * h + l) :: bs' := by
  rw [decodeChars]
  simp only [Option.bind_eq_bind, Option.bind_eq_some_iff]
  constructor
  · rintro ⟨h, hh, l, hl, bs', hbs, heq⟩
    cases heq
    exact ⟨h, l, bs', hh, hl, hbs, rfl⟩
  · rintro ⟨h, l, bs', hh, hl, hbs, rfl⟩
    exact ⟨h, hh, l, hl, bs', hbs, rfl⟩

theorem isSome_decodeChars_pair_iff : (decodeChars (high :: low :: cs)).isSome = true ↔
    (digit? high).isSome = true ∧ (digit? low).isSome = true ∧ (decodeChars cs).isSome = true := by
  simp only [Option.isSome_iff_exists]
  constructor
  · rintro ⟨bs, hbs⟩
    obtain ⟨h, l, bs', hh, hl, hbs', -⟩ := decodeChars_pair_eq_some_iff.1 hbs
    exact ⟨⟨h, hh⟩, ⟨l, hl⟩, bs', hbs'⟩
  · rintro ⟨⟨h, hh⟩, ⟨l, hl⟩, bs, hbs⟩
    exact ⟨_, decodeChars_pair_eq_some_iff.2 ⟨h, l, bs, hh, hl, hbs, rfl⟩⟩

theorem isSome_decodeChars_iff : (decodeChars cs).isSome = true ↔
    cs.length % 2 = 0 ∧ ∀ c ∈ cs, (digit? c).isSome = true := by
  induction cs using decodeChars.induct with
  | case1 => simp [decodeChars]
  | case2 c => simp [decodeChars]
  | case3 high low cs ih =>
    have hlength : (high :: low :: cs).length % 2 = cs.length % 2 := Nat.add_mod_right _ 2
    rw [isSome_decodeChars_pair_iff, ih, hlength, List.forall_mem_cons, List.forall_mem_cons]
    constructor
    · rintro ⟨hhigh, hlow, heven, hcs⟩
      exact ⟨heven, hhigh, hlow, hcs⟩
    · rintro ⟨heven, hhigh, hlow, hcs⟩
      exact ⟨hhigh, hlow, heven, hcs⟩

theorem decodeChars_digits (bs : List UInt8) : decodeChars (digits upperDigit bs) = some bs := by
  induction bs with
  | nil => rfl
  | cons b bs ih =>
    have hb := b.toNat_lt
    rw [digits_cons, decodeChars_pair_eq_some_iff]
    refine ⟨b.toNat / 16, b.toNat % 16, bs, digit?_upperDigit (by omega), digit?_upperDigit (by omega),
      ih, ?_⟩
    rw [ofNat_digits]

theorem digits_of_decodeChars (hcs : decodeChars cs = some bs) :
    digits upperDigit bs = cs.map Char.toUpper := by
  induction cs using decodeChars.induct generalizing bs with
  | case1 =>
    cases hcs
    rfl
  | case2 => cases hcs
  | case3 high low cs ih =>
    obtain ⟨h, l, bs', hh, hl, hbs, rfl⟩ := decodeChars_pair_eq_some_iff.1 hcs
    obtain ⟨hh16, hhigh⟩ := digit?_eq_some hh
    obtain ⟨hl16, hlow⟩ := digit?_eq_some hl
    have hbyte : (UInt8.ofNat (16 * h + l)).toNat = 16 * h + l :=
      UInt8.toNat_ofNat_of_lt (show 16 * h + l < 256 by omega)
    have hdiv : (16 * h + l) / 16 = h := by omega
    have hmod : (16 * h + l) % 16 = l := by omega
    rw [digits_cons, hbyte, hdiv, hmod, hhigh, hlow, ih hbs, List.map_cons, List.map_cons]

end Characters

section Bytes

theorem addDigit?_eq_some {v : UInt8} {d : Nat} (hc : digit? c = some d)
    (hlt : 16 * v.toNat + d < 256) : addDigit? v c = some (UInt8.ofNat (16 * v.toNat + d)) := by
  rw [addDigit?, hc]
  exact if_pos hlt

theorem number?_digits {h l : Nat} (hh : digit? high = some h) (hl : digit? low = some l) :
    number? [high, low] = some (UInt8.ofNat (16 * h + l)) := by
  have hh16 := (digit?_eq_some hh).1
  have hl16 := (digit?_eq_some hl).1
  have hfirst : addDigit? 0 high = some (UInt8.ofNat h) := by
    have hzero : 16 * (0 : UInt8).toNat + h = h := Nat.zero_add h
    rw [addDigit?_eq_some hh (by omega), hzero]
  have hbyte : (UInt8.ofNat h).toNat = h := UInt8.toNat_ofNat_of_lt (show h < 256 by omega)
  have hsecond : addDigit? (UInt8.ofNat h) low = some (UInt8.ofNat (16 * h + l)) := by
    rw [addDigit?_eq_some hl (by omega), hbyte]
  rw [number?]
  · rw [List.foldlM_cons, hfirst, Option.bind_eq_bind, Option.bind_some, List.foldlM_cons, hsecond]
    rfl
  · intro hnil
    cases hnil
  · -- The plus sign is no digit.
    intro c rest hplus
    cases hplus
    cases hh

def byte (c : Char) : UInt8 := UInt8.ofNat c.toNat

theorem char_byte (h : c.toNat < 128) : Char.ofNat (byte c).toNat = c := by
  have hbyte : (byte c).toNat = c.toNat := UInt8.toNat_ofNat_of_lt (show c.toNat < 256 by omega)
  rw [hbyte, Char.ofNat_toNat]

theorem isDigit_byte (h : c.toNat < 128) : isDigit (byte c) = (digit? c).isSome := by
  rw [isDigit, char_byte h]

theorem toNat_lt_of_isDigit {b : UInt8} (h : isDigit b = true) : b.toNat < 128 := by
  have hall : ∀ n : Fin 256, isDigit (UInt8.ofNat n) = true → n.val < 128 := by decide +kernel
  apply hall ⟨b.toNat, b.toNat_lt⟩
  rwa [UInt8.ofNat_toNat]

theorem isAscii_of_digits (h : ∀ c ∈ s.toList, (digit? c).isSome = true) : IsAscii s := by
  intro c hc
  obtain ⟨n, hn⟩ := Option.isSome_iff_exists.1 (h c hc)
  exact toNat_lt_of_digit? hn

/-- Bytes of longer sequences are no digits, so where all bytes are digits all characters are. -/
theorem all_isDigit_iff : (Bytes.list s.toByteArray).all isDigit = true ↔
    ∀ c ∈ s.toList, (digit? c).isSome = true := by
  -- Either side makes the text ASCII, and then there is one byte for each character.
  have hbytes (hascii : IsAscii s) : (Bytes.list s.toByteArray).all isDigit = true ↔
      ∀ c ∈ s.toList, (digit? c).isSome = true := by
    rw [Utf8.list_toByteArray_of_isAscii hascii, List.all_map, List.all_eq_true]
    apply forall₂_congr
    intro c hc
    rw [← isDigit_byte (hascii c hc)]
    rfl
  constructor
  · intro h
    apply (hbytes _).1 h
    apply Utf8.isAscii_of_bytes
    intro b hb
    exact toNat_lt_of_isDigit (List.all_eq_true.1 h b hb)
  · intro h
    exact (hbytes (isAscii_of_digits h)).2 h

/-- Two digits are text on their own, and the number that they write has no sign. -/
theorem pair?_digits {h l : Nat} (hh : digit? high = some h) (hl : digit? low = some l) :
    pair? (byte high) (byte low) = some (UInt8.ofNat (16 * h + l)) := by
  have hascii : IsAscii (String.ofList [high, low]) := by
    apply isAscii_of_digits
    simp [hh, hl]
  have htext : String.fromUTF8? [byte high, byte low].toByteArray = some (String.ofList [high, low]) := by
    apply Utf8.fromUTF8?_eq_some_iff.2
    apply Bytes.list_injective
    rw [Bytes.list_toByteArray, Utf8.list_toByteArray_of_isAscii hascii, String.toList_ofList]
    rfl
  rw [pair?, htext, Option.bind_eq_bind, Option.bind_some, String.toList_ofList, number?_digits hh hl]

theorem pairs?_digits (heven : cs.length % 2 = 0) (h : ∀ c ∈ cs, (digit? c).isSome = true) :
    pairs? (cs.map byte) = decodeChars cs := by
  induction cs using decodeChars.induct with
  | case1 => rfl
  | case2 => cases heven
  | case3 high low cs ih =>
    obtain ⟨hhigh, hrest⟩ := List.forall_mem_cons.1 h
    obtain ⟨hlow, hcs⟩ := List.forall_mem_cons.1 hrest
    obtain ⟨h, hh⟩ := Option.isSome_iff_exists.1 hhigh
    obtain ⟨l, hl⟩ := Option.isSome_iff_exists.1 hlow
    have hlength : cs.length % 2 = 0 := by
      rw [← heven]
      exact (Nat.add_mod_right _ 2).symm
    rw [List.map_cons, List.map_cons, pairs?, pair?_digits hh hl, ih hlength hcs, decodeChars, hh, hl]
    rfl

theorem guard_iff : (Bytes.list s.toByteArray).length % 2 = 0 ∧
      (Bytes.list s.toByteArray).all isDigit = true ↔
    s.toList.length % 2 = 0 ∧ ∀ c ∈ s.toList, (digit? c).isSome = true := by
  rw [all_isDigit_iff]
  apply and_congr_left
  intro h
  rw [Utf8.list_toByteArray_of_isAscii (isAscii_of_digits h), List.length_map]

theorem decode?_eq (s : String) : decode? s = (decodeChars s.toList).map List.toByteArray := by
  by_cases h : s.toList.length % 2 = 0 ∧ ∀ c ∈ s.toList, (digit? c).isSome = true
  · have hbytes : Bytes.list s.toByteArray = s.toList.map byte :=
      Utf8.list_toByteArray_of_isAscii (isAscii_of_digits h.2)
    have hpairs : pairs? (Bytes.list s.toByteArray) = decodeChars s.toList := by
      rw [hbytes, pairs?_digits h.1 h.2]
    rw [decode?, if_pos (guard_iff.2 h), hpairs]
  · have hnone : decodeChars s.toList = none :=
      Option.not_isSome_iff_eq_none.1 (mt isSome_decodeChars_iff.1 h)
    rw [decode?, if_neg (mt guard_iff.1 h), hnone, Option.map_none]

/-- The reading of a number takes a sign, so it is the guard that keeps signs out. -/
example : number? ['+', '1'] = some 1 ∧ decode? "+1" = none := by decide

end Bytes

section Text

theorem decode?_encode (b : Bytes) : decode? (encode b) = some b := by
  rw [decode?_eq, encode, String.toList_ofList, decodeChars_digits, Option.map_some,
    Bytes.toByteArray_list]

theorem isSome_decode?_iff : (decode? s).isSome = true ↔ IsHex s := by
  rw [decode?_eq, Option.isSome_map, isSome_decodeChars_iff, String.length_toList]
  simp only [isSome_digit?_iff]
  constructor
  · rintro ⟨heven, hdigits⟩
    exact ⟨heven, hdigits⟩
  · rintro ⟨heven, hdigits⟩
    exact ⟨heven, hdigits⟩

theorem encode_of_decode? {b : Bytes} (h : decode? s = some b) : encode b = s.toUpper := by
  rw [decode?_eq] at h
  obtain ⟨bs, hbs, rfl⟩ := Option.map_eq_some_iff.1 h
  rw [encode, Bytes.list_toByteArray, digits_of_decodeChars hbs, ← String.toList_inj, String.toList_ofList,
    String.toUpper, String.toList_map]

theorem encode_injective {b b' : Bytes} (h : encode b = encode b') : b = b' := by
  have hdecoded := congrArg decode? h
  rw [decode?_encode, decode?_encode] at hdecoded
  exact Option.some.inj hdecoded

theorem decode?_eq_some_iff {b : Bytes} : decode? s = some b ↔ IsHex s ∧ encode b = s.toUpper := by
  constructor
  · intro h
    exact ⟨isSome_decode?_iff.1 (h ▸ rfl), encode_of_decode? h⟩
  · rintro ⟨hhex, hupper⟩
    obtain ⟨b', hb'⟩ := Option.isSome_iff_exists.1 (isSome_decode?_iff.2 hhex)
    rw [hb', encode_injective ((encode_of_decode? hb').trans hupper.symm)]

theorem decode?_eq_none_iff : decode? s = none ↔ ¬ IsHex s := by
  rw [← isSome_decode?_iff, Option.not_isSome_iff_eq_none]

theorem length_encode (b : Bytes) : (encode b).length = 2 * b.size := by
  rw [encode, String.length_ofList, length_digits, Bytes.length_list]

theorem positional_encode (b : Bytes) : positional 16 ((encode b).toList.map value) =
    positional 256 ((Bytes.list b).map UInt8.toNat) := by
  rw [encode, String.toList_ofList]
  exact foldl_digits (Bytes.list b) 0

/-- Bytes are read from the text that is written for them, and a text is read just if it is an even
number of digits, which in upper case are the text of those bytes. -/
theorem round_trip_strict :
    (∀ b, decode? (encode b) = some b) ∧
    (∀ s b, decode? s = some b ↔ IsHex s ∧ encode b = s.toUpper) ∧
    (∀ s, decode? s = none ↔ ¬ IsHex s) ∧
    (∀ b, (encode b).length = 2 * b.size ∧
      positional 16 ((encode b).toList.map value) =
        positional 256 ((Bytes.list b).map UInt8.toNat)) :=
  ⟨decode?_encode, fun _ _ => decode?_eq_some_iff, fun _ => decode?_eq_none_iff,
    fun b => ⟨length_encode b, positional_encode b⟩⟩

end Text

end TaggedBuffer.Hex
