import TaggedBuffer.Proofs.Text.Digits
import TaggedBuffer.Proofs.Text.Hex
import TaggedBuffer.Proofs.Text.Utf16
import TaggedBuffer.Proofs.Value.Strict
import TaggedBuffer.Value.Parse
import TaggedBuffer.Value.Payload

namespace TaggedBuffer

open Text (isBlank trim isBlank_eq_false trim_eq_self)

namespace ValueType

theorem ofName?_name (t : ValueType) : ofName? t.name = some t := by
  rcases t with _ | _ | t | _ | _ | _ | _ | e | _
  case integer => cases t <;> decide
  case text => cases e <;> decide
  all_goals decide

theorem mem_name {t : ValueType} {c : Char} (h : c ∈ t.name.toList) :
    isBlank c = false ∧ c ≠ ',' ∧ c ≠ ';' := by
  have hall : t.name.toList.all (fun c => !isBlank c && c != ',' && c != ';') = true := by
    rcases t with _ | _ | t | _ | _ | _ | _ | e | _
    case integer => cases t <;> decide
    case text => cases e <;> decide
    all_goals decide
  have hc := List.all_eq_true.1 hall c h
  simpa only [Bool.and_eq_true, Bool.not_eq_true', bne_iff_ne, and_assoc] using hc

end ValueType

namespace Value

/-- Values whose plain form says all of them in one item: truth values, integers, identifiers, bytes,
and well formed text without a semicolon. -/
def Printable : Value → Prop
  | bool _ | integer _ _ | guid _ | binary _ => True
  | text .unicode content => content.size % 2 = 0 ∧
      ∃ s, Utf16.decode? content = some s ∧ ';' ∉ s.toList
  | text _ content => ∃ s, String.fromUTF8? content = some s ∧ ';' ∉ s.toList
  | unknown | float _ | double _ | pointer _ => False

theorem tryText_utf8 (s : String) : (utf8 s).tryText = .ok s := by
  have hread : String.fromUTF8? s.toByteArray = some s := by rw [Utf8.fromUTF8?_eq_some_iff]
  simp only [utf8, tryText, hread]

theorem tryInt_text (e : Encoding) (content : Bytes) (target : ValueType) :
    (text e content).tryInt target = (text e content).tryText >>= fun s =>
      ((Text.integer128? (trim s.toList)).map .ok).getD
        (.error (.conversion (text e content) target)) :=
  rfl

/-- Every integer type lies within the 128 bits that are read. -/
theorem tryRange_utf8_ok_iff {s : String} {t : IntType} {bits : BitVec t.bits} {target : ValueType} :
    (utf8 s).tryRange t target = .ok bits ↔
      Text.integer? (trim s.toList) = some (t.toInt bits) := by
  rw [tryRange_ok_iff, utf8, tryInt_text, bind_eq_ok]
  constructor
  · rintro ⟨read, hread, hbits⟩
    cases hread.symm.trans (tryText_utf8 s)
    exact (Text.integer128?_eq_some_iff.1 (getD_map_ok_iff.1 hbits)).1
  · intro h
    have hwide := Text.integer128?_eq_some_iff.2 ⟨h, t.toInt_within_128 bits⟩
    exact ⟨s, tryText_utf8 s, getD_map_ok_iff.2 hwide⟩

theorem parse_bool (b : Bool) : parse .bool (bool b).display = .ok (bool b) := by
  have hread : (utf8 (bool b).display).tryBool = .ok b := by
    refine bind_eq_ok.2 ⟨_, tryText_utf8 _, ?_⟩
    cases b <;> rfl
  simp only [parse, hread]
  rfl

theorem parse_integer (t : IntType) (bits : BitVec t.bits) :
    parse (.integer t) (integer t bits).display = .ok (integer t bits) := by
  have hchars : (integer t bits).display.toList = Text.integerChars (t.toInt bits) :=
    String.toList_ofList
  have htrim : trim (Text.integerChars (t.toInt bits)) = Text.integerChars (t.toInt bits) := by
    apply trim_eq_self
    intro c hc
    rcases Text.mem_integerChars hc with rfl | hd
    · rfl
    · have := Text.toNat_of_isDigit hd
      exact isBlank_eq_false (by omega) (by omega)
  have hrange : (utf8 (integer t bits).display).tryRange t (.integer t) = .ok bits :=
    tryRange_utf8_ok_iff.2 (by rw [hchars, htrim, Text.integer?_integerChars])
  simp only [parse, hrange]
  rfl

theorem mem_encode {content : Bytes} {c : Char} (h : c ∈ (Hex.encode content).toList) :
    isBlank c = false ∧ c ≠ '-' ∧ c ≠ ';' := by
  rw [Hex.encode, String.toList_ofList] at h
  have hc := Hex.mem_digits h
  refine ⟨isBlank_eq_false (by omega) (by omega), ?_, ?_⟩
  · rintro rfl
    simp at hc
  · rintro rfl
    simp at hc

theorem trim_encode (content : Bytes) :
    trim (Hex.encode content).toList = (Hex.encode content).toList :=
  trim_eq_self fun _ hc => (mem_encode hc).1

theorem parse_guid (bits : BitVec 128) : parse .guid (guid bits).display = .ok (guid bits) := by
  have hdashes : (Hex.encode (bitBytes bits)).toList.filter (· ≠ '-') =
      (Hex.encode (bitBytes bits)).toList :=
    List.filter_eq_self.2 fun c hc => decide_eq_true (mem_encode hc).2.1
  have hlist : Bytes.list (bitBytes bits) = littleEndian 16 bits.toNat := Bytes.list_toByteArray _
  have hsize : (bitBytes bits).size = 16 := by
    rw [← Bytes.length_list, hlist, length_littleEndian]
  simp only [display, parse, trim_encode, hdashes, String.ofList_toList, Hex.decode?_encode, hsize,
    hlist, if_true]
  rw [ofNat_littleEndian 16 bits]

theorem parse_binary (content : Bytes) :
    parse .binary (binary content).display = .ok (binary content) := by
  simp only [display, parse, trim_encode, String.ofList_toList, Hex.decode?_encode]

namespace Printable

variable {v : Value}

theorem parse_display (h : v.Printable) : parse v.type v.display = .ok v := by
  cases v with
  | bool b => exact parse_bool b
  | integer t bits => exact parse_integer t bits
  | guid bits => exact parse_guid bits
  | binary content => exact parse_binary content
  | text e content =>
    cases e with
    | unicode =>
      obtain ⟨heven, s, hs, -⟩ := h
      have hdisplay : (text .unicode content).display = s := Utf16.decodeLossy_of_decode? hs
      rw [hdisplay]
      exact congrArg (Except.ok ∘ text .unicode) (Utf16.encode_of_decode? heven hs)
    | ascii =>
      obtain ⟨s, hs, -⟩ := h
      obtain rfl := Utf8.fromUTF8?_eq_some_iff.1 hs
      exact congrArg (fun s => Except.ok (text .ascii s.toByteArray)) (Utf8.decodeLossy_toByteArray s)
    | utf8 =>
      obtain ⟨s, hs, -⟩ := h
      obtain rfl := Utf8.fromUTF8?_eq_some_iff.1 hs
      exact congrArg (fun s => Except.ok (text .utf8 s.toByteArray)) (Utf8.decodeLossy_toByteArray s)
  | _ => exact h.elim

theorem semicolon_display (h : v.Printable) : ';' ∉ v.display.toList := by
  cases v with
  | bool b => cases b <;> decide
  | integer t bits =>
    intro hc
    rw [display, String.toList_ofList] at hc
    rcases Text.mem_integerChars hc with hc | hc
    · cases hc
    · cases hc
  | guid bits => exact fun hc => (mem_encode hc).2.2 rfl
  | binary content => exact fun hc => (mem_encode hc).2.2 rfl
  | text e content =>
    cases e with
    | unicode =>
      obtain ⟨-, s, hs, hsemi⟩ := h
      rwa [display, Utf16.decodeLossy_of_decode? hs]
    | ascii =>
      obtain ⟨s, hs, hsemi⟩ := h
      obtain rfl := Utf8.fromUTF8?_eq_some_iff.1 hs
      have hdisplay : (text .ascii s.toByteArray).display = s := Utf8.decodeLossy_toByteArray s
      rwa [hdisplay]
    | utf8 =>
      obtain ⟨s, hs, hsemi⟩ := h
      obtain rfl := Utf8.fromUTF8?_eq_some_iff.1 hs
      have hdisplay : (text .utf8 s.toByteArray).display = s := Utf8.decodeLossy_toByteArray s
      rwa [hdisplay]
  | _ => exact h.elim

end Printable

end Value

end TaggedBuffer
