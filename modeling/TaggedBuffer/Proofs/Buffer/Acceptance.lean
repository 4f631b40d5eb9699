import TaggedBuffer.Proofs.Buffer.Call
import TaggedBuffer.Proofs.Buffer.SetSection

namespace TaggedBuffer

open Content
open Buffer (checkEntry)

/-- Calls that write one value and answer where it is. -/
inductive Edit.Writes (v : Value) : Edit → Prop
  | append (name : Option String) : Writes v (.append name v)
  | set (p : Nat) : Writes v (.set p v)
  | setNamed (name : String) : Writes v (.setNamed name v)
  | insert (p : Nat) (name : Option String) : Writes v (.insert p name v)

/-- The record of the value lies there between valid entries. Its name part may be an old one. -/
inductive WrittenAt (v : Value) : Bytes → Nat → Prop
  | intro {a np c : Bytes} {name : Option String} {xs ys : List Pair} : Packed a xs →
      IsNamePart name np → checkValue v = .ok () → Packed c ys →
      WrittenAt v (a ++ (np ++ valueRecord v) ++ c) a.size

variable {v : Value} {src : Bytes} {p q : Nat}

namespace Content

theorem wellFormed_of_get (h : get src p = .ok v) : v.WellFormed := by
  obtain ⟨e, he, h⟩ := bind_eq_ok.1 h
  obtain ⟨_, _, he⟩ := bind_eq_ok.1 he
  obtain ⟨_, _, _, hb, _⟩ := decodeEntry_ok_iff.1 he
  cases h
  exact IsEntry.wellFormed hb

end Content

theorem isNamePart_namePart {name : Option String} (h : checkEntry name v = .ok ()) :
    IsNamePart name (namePart name) := by
  cases name with
  | none => exact isNamePart_none
  | some name => exact isNameRecord_nameRecord ((checkEntry_ok_iff.1 h).1 name rfl)

theorem WrittenAt.readable (h : WrittenAt v src q) (hw : v.WellFormed) :
    (∃ n, validate src = .ok n) ∧ get src q = .ok v := by
  cases h with
  | @intro a np c name xs ys ha hn hc hz =>
    have hrest : Packed (np ++ valueRecord v ++ c) ((name, v) :: ys) :=
      .cons ⟨np, _, hn, isValueRecord_valueRecord hw hc, rfl⟩ hz
    have hdecode := hrest.decode_after ha.size_mod
    have hlt : a.size < (a ++ (np ++ valueRecord v ++ c)).size := by
      have := advance_bounds (advance_of_decodeEntry hdecode)
      omega
    rw [ByteArray.append_assoc]
    constructor
    · exact ⟨_, validate_ok_iff.2 ⟨_, ha.append hrest, rfl⟩⟩
    · exact bind_eq_ok.2 ⟨_, bind_eq_ok.2 ⟨(), checkPosition_ok hlt ha.size_mod, hdecode⟩, rfl⟩

section Writes

variable {σ : Type} [Store σ] [LawfulStore σ] {s s' : σ} {pairs : List Pair} {name : Option String}

theorem append_writtenAt (hs : Packed (Store.content s) pairs)
    (h : Buffer.append name v s = .ok q s') : WrittenAt v (Store.content s') q := by
  have hmod : Store.used s % 4 = 0 := by rw [← Store.size_content, hs.size_mod]
  obtain ⟨_, hc, hrule⟩ := bind_eq_ok.1 ((Buffer.append_edits name v hmod).of_ok h)
  obtain ⟨hq, hcontent⟩ := Prod.mk.inj (Except.ok.inj hrule)
  have hwritten := WrittenAt.intro hs (isNamePart_namePart hc) (checkEntry_ok_iff.1 hc).2 .nil
  rw [ByteArray.append_empty] at hwritten
  rw [← hq, ← hcontent]
  exact hwritten

theorem set_writtenAt (hs : Packed (Store.content s) pairs) (h : Buffer.set p v s = .ok q s') :
    WrittenAt v (Store.content s') q := by
  have hrule := (Buffer.set_edits p v s).of_ok h
  obtain ⟨_, hc, hrest⟩ := bind_eq_ok.1 hrule
  obtain ⟨e, he, -⟩ := bind_eq_ok.1 hrest
  obtain ⟨a, b, xs, ys, hab, rfl, -, ha, hb⟩ := hs.split_of_boundary he
  obtain ⟨d, c, rfl, ⟨np, vp, hn, hw, rfl⟩, hz⟩ := hb.uncons
  rw [hab, replaced_of_framed ha.framed hn hw hz hc] at hrule
  obtain ⟨hq, hcontent⟩ := Prod.mk.inj (Except.ok.inj hrule)
  rw [← hq, ← hcontent]
  exact .intro ha hn hc hz

theorem insert_writtenAt (hs : Packed (Store.content s) pairs)
    (h : Buffer.insert p name v s = .ok q s') : WrittenAt v (Store.content s') q := by
  by_cases hp : p = Store.used s
  · subst hp
    rw [Buffer.insert_of_end] at h
    exact append_writtenAt hs h
  · have hrule := (Buffer.insert_edits hp).of_ok h
    obtain ⟨_, hc, hrest⟩ := bind_eq_ok.1 hrule
    obtain ⟨e, he, -⟩ := bind_eq_ok.1 hrest
    obtain ⟨a, b, xs, ys, hab, rfl, -, ha, hb⟩ := hs.split_of_boundary he
    rw [hab, inserted_of_framed ha.framed hb hc] at hrule
    obtain ⟨hq, hcontent⟩ := Prod.mk.inj (Except.ok.inj hrule)
    rw [← hq, ← hcontent]
    exact .intro ha (isNamePart_namePart hc) (checkEntry_ok_iff.1 hc).2 hb

theorem setNamed_writtenAt {name : String} (hs : Packed (Store.content s) pairs)
    (h : Buffer.setNamed name v s = .ok q s') : WrittenAt v (Store.content s') q := by
  rw [Buffer.setNamed, Buffer.bind_content] at h
  cases hfind : find? (Store.content s) name with
  | none =>
    rw [hfind] at h
    exact append_writtenAt hs h
  | some p =>
    rw [hfind] at h
    exact set_writtenAt hs h

omit [Store σ] [LawfulStore σ] in
theorem of_position {m : Update σ Nat} (h : (Answer.position <$> m) s = .ok (.position q) s') :
    m s = .ok q s' := by
  obtain ⟨p, s₁, hm, hp⟩ := Update.exists_of_bind_ok h
  cases hp
  exact hm

theorem Edit.Writes.writtenAt {e : Edit} (he : e.Writes v) (hs : Packed (Store.content s) pairs)
    (h : e.run s = .ok (.position q) s') : WrittenAt v (Store.content s') q := by
  cases he with
  | append name => exact append_writtenAt hs (of_position h)
  | set p => exact set_writtenAt hs (of_position h)
  | setNamed name => exact setNamed_writtenAt hs (of_position h)
  | insert p name => exact insert_writtenAt hs (of_position h)

end Writes

theorem setSection_readable_iff {σ : Type} [Store σ] [LawfulStore σ] {s s' : σ} {pairs : List Pair}
    {name : String} {vs : List Value} (hs : Packed (Store.content s) pairs)
    (h : Buffer.setSection name vs s = .ok () s') :
    (∀ v ∈ vs, v.WellFormed) ↔ (∃ n, validate (Store.content s') = .ok n) ∧
      (vs ≠ [] → sectionValues (Store.content s') name = vs) := by
  constructor
  · intro hw
    obtain ⟨_, hn, hrest⟩ := Update.exists_of_check_ok h
    obtain ⟨_, hv, -⟩ := Update.exists_of_check_ok hrest
    obtain ⟨pre, sec, post, rfl, hsec⟩ := exists_sectioned name pairs
    have hrun := Buffer.setSection_within hn (forM_checkValue_ok.1 hv) hs hsec (Nat.le_refl _)
    have hpacked := (hrun.of_ok h).packed hw (forM_checkValue_ok.1 hv)
    exact ⟨⟨_, validate_ok_iff.2 ⟨_, hpacked, rfl⟩⟩, hsec.sectionValues hpacked⟩
  · rintro ⟨-, hvalues⟩ v hv
    apply sectionValues_wellFormed (Store.content s') name v
    rwa [hvalues (List.ne_nil_of_mem hv)]

/-- An accepted value leaves valid content and is read as it was written just if it is well formed,
and so are the values of an accepted section. -/
theorem accepted_readable_iff (f : Flavor) (s : f.Storage) {n : Nat}
    (hs : validate (Store.content s) = .ok n) :
    (∀ (e : Edit) (v : Value) (q : Nat) (s' : f.Storage), e.Writes v →
      e.run s = .ok (.position q) s' →
      (v.WellFormed ↔
        (∃ m, validate (Store.content s') = .ok m) ∧ get (Store.content s') q = .ok v)) ∧
    ∀ (name : String) (vs : List Value) (s' : f.Storage), Buffer.setSection name vs s = .ok () s' →
      ((∀ v ∈ vs, v.WellFormed) ↔ (∃ m, validate (Store.content s') = .ok m) ∧
        (vs ≠ [] → sectionValues (Store.content s') name = vs)) := by
  obtain ⟨pairs, hpacked, -⟩ := validate_ok_iff.1 hs
  constructor
  · intro e v q s' he hrun
    have hwritten := he.writtenAt hpacked hrun
    exact ⟨hwritten.readable, fun h => wellFormed_of_get h.2⟩
  · intro name vs s' hrun
    exact setSection_readable_iff hpacked hrun

/-- Text with an unpaired surrogate in place of a shorter value. -/
theorem accepted_readable_surrogate :
    let v : Value := .text .unicode [0x3d, 0xd8].toByteArray
    let start : Flavor.owned.Storage := Update.final (Buffer.append (some "a") .unknown Owned.empty)
    ∃ s', (Edit.setNamed "a" v).run start = .ok (.position 0) s' ∧
      (∃ m, validate (Store.content s') = .ok m) ∧ get (Store.content s') 0 = .ok v := by
  intro v start
  have hstorable : ∀ pair ∈ [(some "a", Value.unknown)], Storable pair :=
    List.forall_mem_singleton.2 ⟨trivial, rfl⟩
  have hcontent : Store.content start = encoded [(some "a", .unknown)] := by decide +kernel
  have hvalid : validate (Store.content start) = .ok 1 :=
    validate_ok_iff.2 ⟨_, hcontent ▸ packed_encoded hstorable, rfl⟩
  have hrun : (Update.answer ((Edit.setNamed "a" v).run start)).toOption = some (.position 0) := by
    decide +kernel
  cases hr : (Edit.setNamed "a" v).run start with
  | error e s' =>
    rw [hr] at hrun
    cases hrun
  | ok answer s' =>
    rw [hr] at hrun
    cases hrun
    have hwell : v.WellFormed := rfl
    exact ⟨s', rfl,
      ((accepted_readable_iff .owned start hvalid).1 _ v 0 s' (.setNamed "a") hr).1 hwell⟩

theorem accepted_half_unit : ∃ s' : Flavor.owned.Storage,
    (Edit.append none (.text .unicode [1].toByteArray)).run Owned.empty = .ok (.position 0) s' ∧
      validate (Store.content s') = .error (.invalidPayload ⟨.text .unicode, 4, 8⟩) := by
  let start : Flavor.owned.Storage := Owned.empty
  have hempty : (Store.content start).size % 4 = 0 := rfl
  have hchecked : checkEntry none (.text .unicode [1].toByteArray) = .ok () := rfl
  have hrun := Buffer.append_within hempty hchecked (Nat.le_refl _)
  obtain ⟨_, s', happend, rfl, hcontent⟩ := hrun.exists_ok (.inr (by decide))
  have hbytes : Store.content s' = entryRecord none (.text .unicode [1].toByteArray) :=
    hcontent.trans ByteArray.empty_append
  have hdecode : decodeEntry (entryRecord none (.text .unicode [1].toByteArray)) 0 =
      .error (.invalidPayload ⟨.text .unicode, 4, 8⟩) := rfl
  refine ⟨s', Update.map_of_ok happend, ?_⟩
  rw [hbytes, validate, walk_of_fault (by decide) hdecode]
  rfl

end TaggedBuffer
