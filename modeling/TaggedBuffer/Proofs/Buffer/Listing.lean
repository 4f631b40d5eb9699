import TaggedBuffer.Proofs.Buffer.Call
import TaggedBuffer.Proofs.Buffer.Edits

namespace TaggedBuffer

open Content (Packed offset positionFault)
open Buffer (pairsSize checkEntry)

/-- A buffer as the plain list of its names and values, with the room that it takes. -/
structure Listing where
  pairs : List Pair
  capacity : Nat

namespace Listing

variable {α : Type}

/-- Changes the list by a rule, in as much room as its entries take. -/
def edit (g : List Pair → Except Error (α × List Pair)) : Update Listing α := do
  let l ← get
  let (a, pairs) ← ofExcept (g l.pairs)
  let capacity ← ofExcept (roomFor l.capacity (pairsSize pairs))
  MonadStateOf.set (⟨pairs, capacity⟩ : Listing)
  return a

/-- The index of the entry at a position. -/
def locate (p : Nat) (pairs : List Pair) : Except Error Nat :=
  match (List.range pairs.length).find? (offset pairs · = p) with
  | some i => .ok i
  | none => .error (positionFault p (pairsSize pairs))

def indexOf? (name : String) (pairs : List Pair) : Option Nat :=
  pairs.findIdx? (·.1 = some name)

def pushed (name : Option String) (v : Value) (pairs : List Pair) :
    Except Error (Nat × List Pair) := do
  checkEntry name v
  return (pairsSize pairs, pairs ++ [(name, v)])

def changed (p : Nat) (v : Value) (pairs : List Pair) : Except Error (Nat × List Pair) := do
  checkValue v
  let i ← locate p pairs
  return (p, pairs.modify i fun pair => (pair.1, v))

def insertedBefore (p : Nat) (name : Option String) (v : Value) (pairs : List Pair) :
    Except Error (Nat × List Pair) := do
  checkEntry name v
  let i ← locate p pairs
  return (p, pairs.insertIdx i (name, v))

def erased (p : Nat) (pairs : List Pair) : Except Error (Unit × List Pair) := do
  let i ← locate p pairs
  return ((), pairs.eraseIdx i)

def push (name : Option String) (v : Value) : Update Listing Nat := edit (pushed name v)

def pushAll : List Pair → Update Listing Unit
  | [] => pure ()
  | (name, v) :: rest => do
    let _ ← push name v
    pushAll rest

def pushPairs : List Pair → Update Listing (Option Nat)
  | [] => return none
  | (name, v) :: rest => do
    let p ← push name v
    pushAll rest
    return some p

def set (p : Nat) (v : Value) : Update Listing Nat := edit (changed p v)

def insert (p : Nat) (name : Option String) (v : Value) : Update Listing Nat := do
  if p = pairsSize (← get).pairs then push name v else edit (insertedBefore p name v)

def remove (p : Nat) : Update Listing Unit := edit (erased p)

def positionAt (index : Nat) : Update Listing Nat := do
  let pairs := (← get).pairs
  if index < pairs.length then return offset pairs index
  else throw (.indexOutOfRange index pairs.length)

def pushRaw (name : Option String) (t : ValueType) (payload : Bytes) : Update Listing Nat := do
  let v ← ofExcept (Value.ofPayload t payload)
  push name v

def setNamed (name : String) (v : Value) : Update Listing Nat := do
  let pairs := (← get).pairs
  match indexOf? name pairs with
  | some i => set (offset pairs i) v
  | none => push (some name) v

def setIndex (index : Nat) (v : Value) : Update Listing Nat := do
  let p ← positionAt index
  set p v

def insertAt (index : Nat) (name : Option String) (v : Value) : Update Listing Nat := do
  let pairs := (← get).pairs
  if index ≤ pairs.length then insert (offset pairs index) name v
  else throw (.indexOutOfRange index pairs.length)

def removeNamed (name : String) : Update Listing Bool := do
  let pairs := (← get).pairs
  match indexOf? name pairs with
  | some i => do
    remove (offset pairs i)
    return true
  | none => return false

def removeIndex (index : Nat) : Update Listing Unit := do
  let p ← positionAt index
  remove p

def reserve (needed : Nat) : Update Listing Unit := do
  let l ← get
  let capacity ← ofExcept (roomFor l.capacity needed)
  MonadStateOf.set (⟨l.pairs, capacity⟩ : Listing)

def apply : Edit → Update Listing Answer
  | .append name v => .position <$> push name v
  | .appendRaw name t payload => .position <$> pushRaw name t payload
  | .appendSection name vs => .first <$> pushPairs (Buffer.sectionPairs name vs)
  | .appendMany vs => .first <$> pushPairs (vs.map (none, ·))
  | .set p v => .position <$> set p v
  | .setNamed name v => .position <$> setNamed name v
  | .setIndex index v => .position <$> setIndex index v
  | .insert p name v => .position <$> insert p name v
  | .insertAt index name v => .position <$> insertAt index name v
  | .remove p => (fun _ => .done) <$> remove p
  | .removeNamed name => .found <$> removeNamed name
  | .removeIndex index => (fun _ => .done) <$> removeIndex index
  | .reserve needed => (fun _ => .done) <$> reserve needed
  | .shrinkToFit => (fun _ => .done) <$> modify fun l => ⟨l.pairs, pairsSize l.pairs⟩
  | .clear => (fun _ => .done) <$> modify fun _ => ⟨[], 0⟩

theorem locate_ok {p i : Nat} {pairs : List Pair} (h : locate p pairs = .ok i) :
    i < pairs.length ∧ offset pairs i = p := by
  rw [locate] at h
  split at h
  next j hj =>
    cases h
    rw [List.find?_range_eq_some] at hj
    exact ⟨List.mem_range.1 hj.2.1, of_decide_eq_true hj.1⟩
  · cases h

theorem locate_error {p : Nat} {pairs : List Pair} {e : Error} (h : locate p pairs = .error e) :
    e = positionFault p (pairsSize pairs) ∧ ∀ i < pairs.length, offset pairs i ≠ p := by
  rw [locate] at h
  split at h
  · cases h
  next hnone =>
    cases h
    rw [List.find?_eq_none] at hnone
    refine ⟨rfl, fun i hi => ?_⟩
    simpa using hnone i (List.mem_range.2 hi)

end Listing

/-- A rule on bytes and a rule on lists with the same answer or the same error, where the new bytes
hold the new list. -/
inductive Lifted {α : Type} : Except Error (α × Bytes) → Except Error (α × List Pair) → Prop
  | error (e : Error) : Lifted (.error e) (.error e)
  | ok {a : α} {b : Bytes} {pairs : List Pair} : Packed b pairs → Lifted (.ok (a, b)) (.ok (a, pairs))

namespace Content

theorem Packed.parts {src : Bytes} {pairs : List Pair} (h : Packed src pairs) {i : Nat}
    (hi : i < pairs.length) : ∃ a np vp z, src = a ++ np ++ vp ++ z ∧ Packed a (pairs.take i) ∧
      IsNamePart pairs[i].1 np ∧ IsValueRecord pairs[i].2 vp ∧ Packed z (pairs.drop (i + 1)) := by
  obtain ⟨a, b, rfl, ha, hb⟩ := h.split_at i
  rw [List.drop_eq_getElem_cons hi] at hb
  obtain ⟨_, z, rfl, ⟨np, vp, hn, hv, rfl⟩, hz⟩ := hb.uncons
  exact ⟨a, np, vp, z, by simp only [ByteArray.append_assoc], ha, hn, hv, hz⟩

end Content

theorem insertIdx_eq_take_drop {α : Type} {l : List α} {i : Nat} {a : α} (h : i ≤ l.length) :
    l.insertIdx i a = l.take i ++ a :: l.drop i := by
  induction l generalizing i with
  | nil =>
    cases Nat.le_zero.1 h
    rfl
  | cons x xs ih =>
    cases i with
    | zero => rfl
    | succ i => rw [List.insertIdx_succ_cons, ih (Nat.le_of_succ_le_succ h)]; rfl

namespace Lifted

variable {α β : Type} {src : Bytes} {pairs : List Pair}

theorem check {x : Except Error β} {f : β → Except Error (α × Bytes)}
    {g : β → Except Error (α × List Pair)} (h : ∀ b, x = .ok b → Lifted (f b) (g b)) :
    Lifted (x >>= f) (x >>= g) := by
  cases x with
  | error e => exact .error e
  | ok b => exact h b rfl

/-- The position of an entry is found on both sides, or none. -/
theorem locate (h : Packed src pairs) (p : Nat) {f : Entry → Except Error (α × Bytes)}
    {g : Nat → Except Error (α × List Pair)}
    (hf : ∀ i (hi : i < pairs.length), offset pairs i = p →
      Lifted (f ⟨p, pairs[i].1, p + namePartSize pairs[i].1, pairs[i].2,
        p + entrySize pairs[i].1 pairs[i].2⟩) (g i)) :
    Lifted (Content.boundary src p >>= f) (Listing.locate p pairs >>= g) := by
  cases hl : Listing.locate p pairs with
  | error e =>
    obtain ⟨rfl, hp⟩ := Listing.locate_error hl
    rw [Content.boundary_error h hp, h.size]
    exact .error _
  | ok i =>
    obtain ⟨hi, rfl⟩ := Listing.locate_ok hl
    rw [Content.boundary_offset h hi]
    exact hf i hi rfl

theorem appended (h : Packed src pairs) (name : Option String) {v : Value} (hw : v.WellFormed) :
    Lifted (Content.appended name v src) (Listing.pushed name v pairs) := by
  apply check
  intro _ hc
  rw [h.size]
  exact .ok (h.append (.singleton (Content.isEntry_entryRecord hw hc)))

theorem replaced (h : Packed src pairs) (p : Nat) {v : Value} (hw : v.WellFormed) :
    Lifted (Content.replaced p v src) (Listing.changed p v pairs) := by
  refine check fun _ hc => locate h p fun i hi hp => ?_
  obtain ⟨a, np, vp, z, rfl, ha, hn, hv, hz⟩ := h.parts hi
  have hval := isValueRecord_valueRecord hw hc
  have hsize : a.size = p := ha.size.trans hp
  rw [Content.spliced_middle (by rw [ByteArray.size_append, hsize, hn.size])
    (by simp only [ByteArray.size_append, hsize, hn.size, hv.2.2.1, entrySize, namePartSize,
      Nat.add_assoc]), List.modify_eq_take_cons_drop hi]
  have hentry : IsEntry pairs[i].1 v (np ++ valueRecord v) := ⟨np, _, hn, hval, rfl⟩
  have := ha.append (.cons hentry hz)
  simp only [← ByteArray.append_assoc] at this
  exact .ok this

theorem inserted (h : Packed src pairs) (p : Nat) (name : Option String) {v : Value}
    (hw : v.WellFormed) :
    Lifted (Content.inserted p name v src) (Listing.insertedBefore p name v pairs) := by
  refine check fun _ hc => locate h p fun i hi hp => ?_
  obtain ⟨a, b, rfl, ha, hb⟩ := h.split_at i
  have hsize : a.size = p := ha.size.trans hp
  have hcut : Content.spliced (a ++ b) p p (entryRecord name v) = a ++ entryRecord name v ++ b := by
    have : Content.spliced (a ++ .empty ++ b) p p (entryRecord name v) = _ :=
      Content.spliced_middle hsize.symm hsize.symm
    rwa [ByteArray.append_empty] at this
  rw [hcut, insertIdx_eq_take_drop (Nat.le_of_lt hi), ByteArray.append_assoc]
  exact .ok (ha.append (.cons (Content.isEntry_entryRecord hw hc) hb))

theorem removed (h : Packed src pairs) (p : Nat) :
    Lifted (Content.removed p src) (Listing.erased p pairs) := by
  apply locate h p
  intro i hi hp
  obtain ⟨a, np, vp, z, rfl, ha, hn, hv, hz⟩ := h.parts hi
  have hsize : a.size = p := ha.size.trans hp
  rw [ByteArray.append_assoc (a := a), Content.spliced_middle hsize.symm
    (by simp only [ByteArray.size_append, hsize, hn.size, hv.2.2.1, entrySize, namePartSize]),
    ByteArray.append_empty, List.eraseIdx_eq_take_drop_succ]
  exact .ok (ha.append hz)

end Lifted

end TaggedBuffer
