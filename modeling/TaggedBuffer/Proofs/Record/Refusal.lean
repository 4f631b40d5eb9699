import TaggedBuffer.Proofs.Record.Writing

namespace TaggedBuffer

/-- A record of that size can be laid there over that many bytes. -/
structure HasPlace (length p size : Nat) : Prop where
  aligned : p % alignment = 0
  room : p + size ≤ length

def TakesName (length p : Nat) (name : String) : Prop :=
  checkName name = .ok () ∧ HasPlace length p (nameRecordSize name)

def TakesValue (length p : Nat) (v : Value) : Prop :=
  checkValue v = .ok () ∧ HasPlace length p v.recordSize

/-- The name has its place, and the value behind it is refused. -/
def TakesNameOnly (length p : Nat) (name : String) (v : Value) : Prop :=
  TakesName length p name ∧ ¬ TakesValue length (p + nameRecordSize name) v

variable {dest : Bytes} {p : Nat} {name : String} {v : Value}

section Checked

variable {check : Except Error Unit} {record : Bytes}

theorem writeRecord_refused (hpos : 0 < record.size) (h : ¬ HasPlace dest.size p record.size) :
    ∃ e, writeRecord p record dest = .error e dest := by
  by_cases hroom : p + record.size ≤ dest.size
  · have hp : p % 4 ≠ 0 := fun hp => h ⟨hp, hroom⟩
    exact ⟨_, writeRecord_misaligned hp hroom⟩
  · have hfull : checkRoom dest.size p record.size =
        .error (.truncated p record.size (dest.size - p)) := if_neg (by omega)
    rw [writeRecord, Update.bind_get, Update.bind_check_error hfull]
    exact ⟨_, rfl⟩

theorem writeChecked_refused (hpos : 0 < record.size)
    (h : ¬ (check = .ok () ∧ HasPlace dest.size p record.size)) :
    ∃ e, (ofExcept check >>= fun _ => writeRecord p record : Update Bytes Nat) dest =
      .error e dest := by
  cases check with
  | error e => exact ⟨e, Update.bind_check_error rfl⟩
  | ok u =>
    rw [Update.bind_check_ok rfl]
    exact writeRecord_refused hpos fun hplace => h ⟨rfl, hplace⟩

/-- A record is laid once all checks are behind, and then nothing fails. -/
theorem writeChecked_intact (hpos : 0 < record.size) :
    Intact (ofExcept check >>= fun _ => writeRecord p record : Update Bytes Nat) dest := by
  refine .check fun _ e dest' hr => ?_
  by_cases h : HasPlace dest.size p record.size
  · cases (writeRecord_run h.aligned h.room).symm.trans hr
  · obtain ⟨e', hrefused⟩ := writeRecord_refused hpos h
    cases hrefused.symm.trans hr
    rfl

end Checked

theorem nameRecord_pos (name : String) : 0 < (nameRecord name).size := by
  rw [size_nameRecord, nameRecordSize, headerSize]
  omega

theorem valueRecord_pos (v : Value) : 0 < (valueRecord v).size := by
  rw [size_valueRecord, Value.recordSize, headerSize]
  omega

theorem writeHeader_intact (tag : UInt8) (length : Nat) :
    Intact (writeHeader p tag length) dest := by
  have hchecked : Intact (ofExcept (checkAlignment p) >>= fun _ =>
      if length > maxEncodedLength then MonadExcept.throw (.valueTooLarge length)
      else ofExcept (checkRoom dest.size p headerSize) >>= fun _ =>
        set (dest.overwrite p (headerWord tag length)) : Update Bytes Unit) dest := by
    apply Intact.check fun _ => ?_
    split
    · exact .throw _
    · exact .check fun _ e dest' hr => by cases hr
  exact hchecked

theorem writeEntry_unnamed_intact (v : Value) : Intact (writeEntry p none v) dest :=
  writeChecked_intact (valueRecord_pos v)

theorem writeEntry_named (h : TakesName dest.size p name) (v : Value) :
    writeEntry p (some name) v dest =
      writeValue (p + nameRecordSize name) v (dest.overwrite p (nameRecord name)) :=
  Update.bind_of_ok (writeName_run h.1 h.2.aligned h.2.room)

theorem writeEntry_name_only (h : TakesNameOnly dest.size p name v) :
    ∃ e, writeEntry p (some name) v dest = .error e (dest.overwrite p (nameRecord name)) := by
  obtain ⟨hname, hvalue⟩ := h
  have hroom := hname.2.room
  rw [← size_nameRecord] at hroom
  rw [TakesValue, ← Bytes.size_overwrite hroom, ← size_valueRecord] at hvalue
  rw [writeEntry_named hname]
  exact writeChecked_refused (valueRecord_pos v) hvalue

theorem writeEntry_intact (h : ¬ TakesNameOnly dest.size p name v) :
    Intact (writeEntry p (some name) v) dest := by
  intro e dest' hr
  by_cases hname : TakesName dest.size p name
  · have hroom := hname.2.room
    rw [← size_nameRecord] at hroom
    obtain ⟨hc, hplace⟩ := Classical.not_not.1 fun hvalue => h ⟨hname, hvalue⟩
    rw [← Bytes.size_overwrite hroom] at hplace
    rw [writeEntry_named hname] at hr
    cases (writeValue_run hc hplace.aligned hplace.room).symm.trans hr
  · rw [TakesName, ← size_nameRecord] at hname
    obtain ⟨e', hrefused⟩ := writeChecked_refused (nameRecord_pos name) hname
    cases (Update.bind_of_error hrefused).symm.trans hr
    rfl

/-- What is refused leaves every byte as it was, but for an entry whose name has its place and whose
value is refused: then the name stays there and nothing else. -/
theorem refused_writes (dest : Bytes) (p : Nat) :
    (∀ tag length, Intact (writeHeader p tag length) dest) ∧
    (∀ name, Intact (writeName p name) dest) ∧
    (∀ v, Intact (writeValue p v) dest) ∧
    (∀ v, Intact (writeEntry p none v) dest) ∧
    ∀ name v,
      (¬ TakesNameOnly dest.size p name v → Intact (writeEntry p (some name) v) dest) ∧
      (TakesNameOnly dest.size p name v → ∃ e dest',
        writeEntry p (some name) v dest = .error e dest' ∧ dest'.size = dest.size ∧
        dest'.At p (nameRecord name) ∧
        ∀ i, i < p ∨ p + nameRecordSize name ≤ i →
          (Bytes.list dest')[i]? = (Bytes.list dest)[i]?) := by
  refine ⟨writeHeader_intact, fun name => writeChecked_intact (nameRecord_pos name),
    fun v => writeChecked_intact (valueRecord_pos v), writeEntry_unnamed_intact,
    fun name v => ⟨writeEntry_intact, fun h => ?_⟩⟩
  obtain ⟨e, hrun⟩ := writeEntry_name_only h
  have hroom := h.1.2.room
  rw [← size_nameRecord] at hroom ⊢
  exact ⟨e, _, hrun, Bytes.size_overwrite hroom, Bytes.at_overwrite hroom,
    fun i => Bytes.getElem?_overwrite hroom⟩

/-- Behind other bytes, a name of three with room for half of the value, and one that does not fit
itself. -/
theorem refused_writes_half :
    let dest : Bytes := ⟨.replicate 16 0xAA⟩
    let v : Value := .integer .int32 25
    (∃ e dest', writeEntry 4 (some "age") v dest = .error e dest' ∧ dest'.At 4 (nameRecord "age") ∧
      (Bytes.list dest')[3]? = some 0xAA ∧ (Bytes.list dest')[12]? = some 0xAA) ∧
    Intact (writeEntry 12 (some "age") v) dest := by
  intro dest v
  have honly : TakesNameOnly dest.size 4 "age" v :=
    ⟨⟨rfl, rfl, by decide⟩, fun hvalue => absurd hvalue.2.room (by decide)⟩
  have hnone : ¬ TakesNameOnly dest.size 12 "age" v :=
    fun h => absurd h.1.2.room (by decide)
  obtain ⟨-, -, -, -, hentry⟩ := refused_writes dest 4
  obtain ⟨e, dest', hrun, -, hname, hsame⟩ := (hentry "age" v).2 honly
  refine ⟨⟨e, dest', hrun, hname, ?_, ?_⟩, ((refused_writes dest 12).2.2.2.2 "age" v).1 hnone⟩
  · rw [hsame 3 (.inl (by decide))]
    rfl
  · rw [hsame 12 (.inr (by decide))]
    rfl

theorem writeEntry_not_intact :
    ¬ Intact (writeEntry 0 (some "age") (.integer .int32 25)) ⟨.replicate 12 0xAA⟩ := by
  intro hintact
  have honly : TakesNameOnly 12 0 "age" (.integer .int32 25) :=
    ⟨⟨rfl, rfl, by decide⟩, fun hvalue => absurd hvalue.2.room (by decide)⟩
  obtain ⟨e, hrun⟩ := @writeEntry_name_only ⟨.replicate 12 0xAA⟩ _ _ _ honly
  have hsame := hintact e _ hrun
  revert hsame
  decide

end TaggedBuffer
