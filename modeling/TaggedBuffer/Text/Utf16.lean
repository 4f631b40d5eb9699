import TaggedBuffer.Bytes.Basic

namespace TaggedBuffer.Utf16

/-- The code units; an odd last byte belongs to none. -/
def units : List UInt8 → List UInt16
  | lo :: hi :: rest => UInt16.ofNat (lo.toNat + 256 * hi.toNat) :: units rest
  | _ => []

def unitBytes (u : UInt16) : List UInt8 := [UInt8.ofNat u.toNat, UInt8.ofNat (u.toNat / 256)]

def bytes (us : List UInt16) : List UInt8 := us.flatMap unitBytes

def isHigh (u : UInt16) : Bool := 0xD800 ≤ u && u ≤ 0xDBFF

def isLow (u : UInt16) : Bool := 0xDC00 ≤ u && u ≤ 0xDFFF

def ofPair (high low : UInt16) : Char :=
  Char.ofNat (0x10000 + (high.toNat - 0xD800) * 0x400 + (low.toNat - 0xDC00))

/-- The character of a unit that stands alone; a surrogate has none. -/
def ofUnit (u : UInt16) : Option Char :=
  if isHigh u || isLow u then none else some (Char.ofNat u.toNat)

/-- The characters, one `none` for each surrogate outside a pair. -/
def scalars : List UInt16 → List (Option Char)
  | [] => []
  | [u] => [ofUnit u]
  | u :: v :: rest =>
    if isHigh u && isLow v then some (ofPair u v) :: scalars rest
    else ofUnit u :: scalars (v :: rest)

def encodeChar (c : Char) : List UInt16 :=
  if c.toNat < 0x10000 then [UInt16.ofNat c.toNat]
  else
    let n := c.toNat - 0x10000
    [UInt16.ofNat (0xD800 + n / 0x400), UInt16.ofNat (0xDC00 + n % 0x400)]

def encode (s : String) : Bytes :=
  (bytes (s.toList.flatMap encodeChar)).toByteArray

def decode? (b : Bytes) : Option String :=
  ((scalars (units (Bytes.list b))).mapM id).map String.ofList

def unitAt (b : Bytes) (i : Nat) : UInt16 :=
  UInt16.ofNat ((b[i]?.getD 0).toNat + 256 * (b[i + 1]?.getD 0).toNat)

def addLossyFrom (b : Bytes) (i : Nat) (s : String) : String :=
  if i + 1 < b.size then
    let u := unitAt b i
    if isHigh u && i + 3 < b.size && isLow (unitAt b (i + 2)) then
      addLossyFrom b (i + 4) (s.push (ofPair u (unitAt b (i + 2))))
    else addLossyFrom b (i + 2) (s.push ((ofUnit u).getD '\uFFFD'))
  else s
termination_by b.size - i

/-- The text, U+FFFD for each surrogate outside a pair. -/
def decodeLossy (b : Bytes) : String := addLossyFrom b 0 ""

theorem units_drop {b : Bytes} {i : Nat} (h : i + 1 < b.size) :
    units ((Bytes.list b).drop i) = unitAt b i :: units ((Bytes.list b).drop (i + 2)) := by
  have hi : i < (Bytes.list b).length := by simp; omega
  have hj : i + 1 < (Bytes.list b).length := by simp; omega
  rw [List.drop_eq_getElem_cons hi, List.drop_eq_getElem_cons hj, units]
  simp [unitAt, Bytes.list, ByteArray.getElem_eq_getElem_data, h, Nat.lt_of_succ_lt h]

theorem units_drop_of_le {b : Bytes} {i : Nat} (h : b.size ≤ i + 1) :
    units ((Bytes.list b).drop i) = [] := by
  match hl : (Bytes.list b).drop i with
  | [] => rfl
  | [_] => rfl
  | _ :: _ :: _ =>
    have := congrArg List.length hl
    simp at this
    omega

theorem scalars_pair {u v : UInt16} {us : List UInt16} (hu : isHigh u) (hv : isLow v) :
    scalars (u :: v :: us) = some (ofPair u v) :: scalars us := by
  simp [scalars, hu, hv]

theorem scalars_cons_of_not_pair {u : UInt16} {us : List UInt16}
    (h : ∀ v ∈ us.head?, (isHigh u && isLow v) = false) :
    scalars (u :: us) = ofUnit u :: scalars us := by
  match us, h with
  | [], _ => rfl
  | v :: rest, h =>
    have := h v (by simp)
    simp [scalars, this]

theorem toList_push_append (s : String) (c : Char) (cs : List Char) :
    (s.push c).toList ++ cs = s.toList ++ c :: cs := by
  simp

theorem toList_addLossyFrom (b : Bytes) (i : Nat) (s : String) :
    (addLossyFrom b i s).toList =
      s.toList ++ (scalars (units ((Bytes.list b).drop i))).map (·.getD '\uFFFD') := by
  fun_induction addLossyFrom b i s with
  | case1 i s h u hp ih =>
    simp only [Bool.and_eq_true, decide_eq_true_eq] at hp
    rw [ih, units_drop h, units_drop (i := i + 2) (by omega), scalars_pair hp.1.1 hp.2,
      toList_push_append, List.map_cons, Option.getD_some]
  | case2 i s h u hp ih =>
    rw [ih, units_drop h, scalars_cons_of_not_pair]
    · simp [u]
    · intro v hv
      by_cases h3 : i + 3 < b.size
      · rw [units_drop (i := i + 2) (by omega)] at hv
        cases hv
        simpa [h3] using hp
      · rw [units_drop_of_le (by omega)] at hv
        simp at hv
  | case3 i s h => rw [units_drop_of_le (by omega)]; simp [scalars]

theorem toList_decodeLossy (b : Bytes) :
    (decodeLossy b).toList = (scalars (units (Bytes.list b))).map (·.getD '\uFFFD') := by
  simp [decodeLossy, toList_addLossyFrom]

end TaggedBuffer.Utf16
