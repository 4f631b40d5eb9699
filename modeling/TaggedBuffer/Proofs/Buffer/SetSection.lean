import TaggedBuffer.Proofs.Buffer.Canonical
import TaggedBuffer.Proofs.Buffer.Room
import TaggedBuffer.Proofs.Content.Section
import TaggedBuffer.Proofs.Store.Flavor

namespace TaggedBuffer

open Content
open Buffer (pairsSize checkEntry sectionPairs)

variable {σ : Type} [Store σ] [LawfulStore σ] {s : σ} {bound room : Nat}
variable {a b c np vp : Bytes} {pairs pre sec run post todo : List Pair} {name : Option String}
variable {v w : Value} {vs : List Value}

namespace Content

theorem replaced_of_framed (ha : Framed a) (hn : IsNamePart name np) (hw : IsValueRecord w vp)
    (hc : Packed c pairs) (hv : checkValue v = .ok ()) :
    replaced a.size v (a ++ (np ++ vp ++ c)) = .ok (a.size, a ++ (np ++ valueRecord v) ++ c) := by
  have hb := ha.boundary (.cons ⟨np, vp, hn, hw, rfl⟩ hc)
  have hstart : a.size + namePartSize name = (a ++ np).size := by
    rw [ByteArray.size_append, hn.size]
  have hstop : a.size + entrySize name w = (a ++ np).size + vp.size := by
    rw [← hstart, hw.2.2.1, Nat.add_assoc]
    rfl
  have hcut : spliced (a ++ np ++ vp ++ c) (a.size + namePartSize name) (a.size + entrySize name w)
      (valueRecord v) = _ := spliced_middle hstart hstop
  simp only [ByteArray.append_assoc] at hb hcut ⊢
  rw [replaced, hv]
  refine bind_eq_ok.2 ⟨(), rfl, bind_eq_ok.2 ⟨_, hb, ?_⟩⟩
  rw [hcut]
  rfl

theorem inserted_of_framed {pair : Pair} (ha : Framed a) (hb : Packed b (pair :: pairs))
    (hc : checkEntry name v = .ok ()) :
    inserted a.size name v (a ++ b) = .ok (a.size, a ++ entryRecord name v ++ b) := by
  have hcut : spliced (a ++ .empty ++ b) a.size a.size (entryRecord name v) = _ :=
    spliced_middle rfl rfl
  rw [ByteArray.append_empty] at hcut
  rw [inserted, hc]
  refine bind_eq_ok.2 ⟨(), rfl, bind_eq_ok.2 ⟨_, ha.boundary hb, ?_⟩⟩
  rw [hcut]
  rfl

end Content

namespace Buffer

variable [Allocator]

theorem set_within (hs : Store.content s = a ++ (np ++ vp ++ c)) (ha : Framed a)
    (hn : IsNamePart name np) (hw : IsValueRecord w vp) (hc : Packed c pairs)
    (hv : checkValue v = .ok ()) (hb : (a ++ (np ++ valueRecord v) ++ c).size ≤ bound) :
    Within bound s (fun p s' => p = a.size ∧ Store.content s' = a ++ (np ++ valueRecord v) ++ c)
      (set a.size v s) := by
  have hrule := replaced_of_framed ha hn hw hc hv
  rw [← hs] at hrule
  exact (set_edits a.size v s).within hrule hb

theorem insert_within (hs : Store.content s = a ++ b) (ha : Framed a) (hb : Packed b pairs)
    (hc : checkEntry name v = .ok ()) (hbound : (a ++ entryRecord name v ++ b).size ≤ bound) :
    Within bound s (fun p s' => p = a.size ∧ Store.content s' = a ++ entryRecord name v ++ b)
      (insert a.size name v s) := by
  have hsize : Store.used s = (a ++ b).size := by rw [← hs, Store.size_content]
  cases hb with
  | nil =>
    rw [ByteArray.append_empty] at hs hsize hbound ⊢
    rw [ByteArray.size_append, size_entryRecord] at hbound
    have happend := append_within (hs ▸ ha.aligned) hc (hs ▸ hbound)
    rw [hs] at happend
    rwa [← hsize, insert_of_end, hsize]
  | @cons n w d rest pairs hd hrest =>
    have hne : a.size ≠ Store.used s := by
      have hpos := entrySize_pos n w
      rw [hsize, ByteArray.size_append, ByteArray.size_append, hd.size]
      omega
    have hrule := inserted_of_framed ha (.cons hd hrest) hc
    rw [← hs] at hrule
    exact (insert_edits hne).within hrule hbound

theorem cut_within (hs : Store.content s = a ++ b ++ c)
    (hbound : (Store.content s).size ≤ bound) :
    Within bound s (fun _ s' => Store.content s' = a ++ c) (resizeSpan a.size b.size 0 s) := by
  have hsize : (Store.content s).size = a.size + b.size + c.size := by
    rw [hs, ByteArray.size_append, ByteArray.size_append]
  have hedits : Edits (resizeSpan a.size (a.size + b.size - a.size) 0) _ s :=
    cut_edits (Nat.le_add_right a.size b.size) (by omega)
  have hrule : (.ok ((), spliced (Store.content s) a.size (a.size + b.size) .empty) :
      Except Error (Unit × Bytes)) = .ok ((), a ++ c) := by
    rw [hs, spliced_middle rfl rfl, ByteArray.append_empty]
  rw [Nat.add_sub_cancel_left] at hedits
  have hle : (a ++ c).size ≤ bound := by
    rw [ByteArray.size_append]
    omega
  exact (hedits.within hrule hle).mono fun _ _ h => h.2

end Buffer

/-- Records are laid up to a cursor. After it come, in at most `room` bytes, unnamed entries that may
be replaced and then the entries that stay. -/
structure LaidTo (src laid : Bytes) (room : Nat) (post : List Pair) : Prop where
  framed : Framed laid
  rest : ∃ b todo, src = laid ++ b ∧ Packed b todo ∧ todo.dropWhile isUnnamed = post ∧
    b.size ≤ room

namespace LaidTo

variable {src laid : Bytes}

omit [Store σ] [LawfulStore σ] in
theorem size_le (h : LaidTo src laid room post) : src.size ≤ laid.size + room := by
  obtain ⟨b, todo, hs, -, -, hroom⟩ := h.rest
  rw [hs, ByteArray.size_append]
  exact Nat.add_le_add_left hroom _

omit [Store σ] [LawfulStore σ] in
theorem advance (h : LaidTo src (laid ++ entryRecord none v) room post) (ha : Framed laid)
    (hv : checkValue v = .ok ()) :
    TaggedBuffer.advance src laid.size = .ok (laid ++ entryRecord none v).size := by
  obtain ⟨b, todo, hs, -⟩ := h.rest
  rw [hs]
  exact advance_record ha.aligned isNamePart_none hv b

variable [Allocator]

/-- A value goes over the unnamed entry at the cursor, or in front of the named one there. -/
theorem lay_within (h : LaidTo (Store.content s) laid room post) (hv : checkValue v = .ok ())
    (hb : laid.size + v.recordSize + room ≤ bound) : ∃ unnamed : Bool,
    isUnnamedAt (Store.content s) laid.size = .ok unnamed ∧
      Within bound s (fun _ s' => LaidTo (Store.content s') (laid ++ entryRecord none v) room post)
        ((if unnamed then Buffer.set laid.size v else Buffer.insert laid.size none v) s) := by
  obtain ⟨b, todo, hs, htodo, hpost, hroom⟩ := h.rest
  have hframed := h.framed.append isNamePart_none hv
  refine ⟨_, hs ▸ isUnnamedAt_of_packed h.framed.aligned htodo, ?_⟩
  have hinsert : Within bound s
      (fun _ s' => LaidTo (Store.content s') (laid ++ entryRecord none v) room post)
      (Buffer.insert laid.size none v s) := by
    have hchecked : checkEntry none v = .ok () := hv
    apply (Buffer.insert_within hs h.framed htodo hchecked ?_).mono
    · rintro _ s' ⟨-, hs'⟩
      exact ⟨hframed, b, todo, hs', htodo, hpost, hroom⟩
    · have hentry : entrySize none v = v.recordSize := Nat.zero_add _
      rw [ByteArray.size_append, ByteArray.size_append, size_entryRecord, hentry]
      omega
  cases htodo with
  | nil => exact hinsert
  | @cons name w d c pairs hd hc =>
    cases name with
    | some name => exact hinsert
    | none =>
      obtain ⟨np, vp, hn, hw, rfl⟩ := hd
      obtain rfl : np = .empty := hn
      rw [ByteArray.size_append] at hroom
      apply (Buffer.set_within hs h.framed isNamePart_none hw hc hv ?_).mono
      · rintro _ s' ⟨-, hs'⟩
        exact ⟨hframed, c, pairs, hs', hc, hpost, by omega⟩
      · rw [ByteArray.size_append, ByteArray.size_append, ByteArray.size_append, size_valueRecord,
          ByteArray.size_empty]
        omega

theorem layValues_within (h : LaidTo (Store.content s) laid room post)
    (hv : ∀ v ∈ vs, checkValue v = .ok ())
    (hb : laid.size + pairsSize (vs.map (none, ·)) + room ≤ bound) :
    Within bound s (fun stop s' => stop = (laid ++ encoded (vs.map (none, ·))).size ∧
        LaidTo (Store.content s') (laid ++ encoded (vs.map (none, ·))) room post)
      (Buffer.layValues laid.size vs s) := by
  induction vs generalizing laid s with
  | nil =>
    apply Within.pure
    rw [List.map_nil, encoded, ByteArray.append_empty]
    exact ⟨rfl, h⟩
  | cons v vs ih =>
    obtain ⟨hvalue, hrest⟩ := List.forall_mem_cons.1 hv
    have hentry : entrySize none v = v.recordSize := Nat.zero_add _
    have hsize : (laid ++ entryRecord none v).size = laid.size + v.recordSize := by
      rw [ByteArray.size_append, size_entryRecord, hentry]
    rw [List.map_cons, pairsSize_cons, hentry] at hb
    have hnext : ∀ s₁ : σ, LaidTo (Store.content s₁) (laid ++ entryRecord none v) room post →
        Within bound s₁ (fun stop s' =>
            stop = (laid ++ encoded ((v :: vs).map (none, ·))).size ∧
            LaidTo (Store.content s') (laid ++ encoded ((v :: vs).map (none, ·))) room post)
          ((Buffer.content >>= fun src => ofExcept (TaggedBuffer.advance src laid.size) >>=
            fun next => Buffer.layValues next vs : Update σ Nat) s₁) := by
      intro s₁ h₁
      rw [Buffer.bind_content, Update.bind_check_ok (h₁.advance h.framed hvalue), List.map_cons,
        encoded, ← ByteArray.append_assoc]
      exact ih h₁ hrest (by omega)
    have hroom : laid.size + v.recordSize + room ≤ bound := by omega
    obtain ⟨unnamed, hat, hlay⟩ := h.lay_within hvalue hroom
    rw [Buffer.layValues, Buffer.bind_content, Update.bind_check_ok hat]
    cases unnamed with
    | true => exact hlay.bind fun _ => hnext
    | false => exact hlay.bind fun _ => hnext

theorem trim_within (h : LaidTo (Store.content s) laid room post)
    (hb : laid.size + room ≤ bound) :
    Within bound s (fun _ s' => ∃ c, Packed c post ∧ Store.content s' = laid ++ c)
      ((Buffer.content >>= fun src => ofExcept (skipUnnamed src laid.size) >>= fun stop =>
        Buffer.resizeSpan laid.size (stop - laid.size) 0 : Update σ Unit) s) := by
  have hsize := h.size_le
  obtain ⟨b, todo, hs, htodo, rfl, -⟩ := h.rest
  have hskip := skipUnnamed_of_packed h.framed.aligned htodo
  rw [← hs] at hskip
  rw [← List.takeWhile_append_dropWhile (p := isUnnamed) (l := todo)] at htodo
  obtain ⟨y, c, rfl, hy, hc⟩ := htodo.split
  rw [← ByteArray.append_assoc] at hs
  rw [Buffer.bind_content, Update.bind_check_ok hskip, Nat.add_sub_cancel_left, ← hy.size]
  exact (Buffer.cut_within hs (Nat.le_trans hsize hb)).mono fun _ s' hs' => ⟨c, hc, hs'⟩

end LaidTo

/-- The records of a section as they are written. The name record may be one that was there. -/
def IsWritten (name : String) : List Value → Bytes → Prop
  | [], b => b = .empty
  | v :: rest, b => ∃ np, IsNamePart (some name) np ∧
      b = np ++ valueRecord v ++ encoded (rest.map (none, ·))

theorem IsWritten.packed {name : String} (h : IsWritten name vs b) (hw : ∀ v ∈ vs, v.WellFormed)
    (hv : ∀ v ∈ vs, checkValue v = .ok ()) : Packed b (sectionPairs name vs) := by
  cases vs with
  | nil =>
    obtain rfl : b = .empty := h
    exact .nil
  | cons v rest =>
    obtain ⟨np, hn, rfl⟩ := h
    obtain ⟨hwv, hwrest⟩ := List.forall_mem_cons.1 hw
    obtain ⟨hcv, hcrest⟩ := List.forall_mem_cons.1 hv
    apply Packed.cons ⟨np, _, hn, isValueRecord_valueRecord hwv hcv, rfl⟩
    apply packed_encoded
    intro pair hp
    obtain ⟨w, hw, rfl⟩ := List.mem_map.1 hp
    exact ⟨hwrest w hw, hcrest w hw⟩

theorem checkEntry_sectionPairs {name : String} (hn : checkName name = .ok ())
    (hv : ∀ v ∈ vs, checkValue v = .ok ()) :
    ∀ pair ∈ sectionPairs name vs, checkEntry pair.1 pair.2 = .ok () := by
  cases vs with
  | nil => exact fun _ h => absurd h List.not_mem_nil
  | cons v rest =>
    obtain ⟨hvalue, hrest⟩ := List.forall_mem_cons.1 hv
    have hfirst : checkEntry (some name) v = .ok () := by
      rw [checkEntry, hn]
      exact hvalue
    intro pair hp
    cases hp with
    | head => exact hfirst
    | tail _ hp =>
      obtain ⟨w, hw, rfl⟩ := List.mem_map.1 hp
      exact hrest w hw

theorem forM_checkValue_ok :
    vs.forM checkValue = .ok () ↔ ∀ v ∈ vs, checkValue v = .ok () := by
  induction vs with
  | nil => exact iff_of_true rfl fun _ h => absurd h List.not_mem_nil
  | cons v vs ih =>
    rw [List.forall_mem_cons, ← ih]
    refine bind_eq_ok.trans ⟨?_, ?_⟩
    · rintro ⟨_, hvalue, hrest⟩
      exact ⟨hvalue, hrest⟩
    · rintro ⟨hvalue, hrest⟩
      exact ⟨(), hvalue, hrest⟩

def HasSection (name : String) (vs : List Value) (pre post : List Pair) (src : Bytes) : Prop :=
  ∃ a b c, src = a ++ b ++ c ∧ Packed a pre ∧ IsWritten name vs b ∧ Packed c post

namespace HasSection

variable {name : String} {src : Bytes}

theorem packed (h : HasSection name vs pre post src) (hw : ∀ v ∈ vs, v.WellFormed)
    (hv : ∀ v ∈ vs, checkValue v = .ok ()) : Packed src (pre ++ sectionPairs name vs ++ post) := by
  obtain ⟨a, b, c, rfl, ha, hb, hc⟩ := h
  exact (ha.append (hb.packed hw hv)).append hc

end HasSection

theorem Content.Sectioned.sectionValues {name : String} {src : Bytes}
    (h : Sectioned name pre sec post) (hs : Packed src (pre ++ sectionPairs name vs ++ post))
    (hvs : vs ≠ []) : Content.sectionValues src name = vs := by
  cases vs with
  | nil => exact (hvs rfl).elim
  | cons v rest =>
    have hrun : ∀ pair ∈ (rest.map (none, ·) : List Pair), pair.1 = none := by
      intro pair hp
      obtain ⟨_, _, rfl⟩ := List.mem_map.1 hp
      rfl
    have hnew : Sectioned name pre (sectionPairs name (v :: rest)) post :=
      .present v h.pre_unlike hrun h.post_named
    rw [sectionValues_of_packed hnew hs, Buffer.map_sectionPairs]

namespace Buffer

variable [Allocator] {name : String}

theorem setSection_absent (hn : checkName name = .ok ()) (hv : ∀ v ∈ vs, checkValue v = .ok ())
    (hs : Packed (Store.content s) pre) (hpre : ∀ pair ∈ pre, pair.1 ≠ some name)
    (hb : (Store.content s).size + pairsSize (sectionPairs name vs) ≤ bound) :
    Within bound s (fun _ s' => HasSection name vs pre [] (Store.content s'))
      (setSection name vs s) := by
  rw [setSection, Update.bind_check_ok hn, Update.bind_check_ok (forM_checkValue_ok.2 hv),
    bind_content, find?_absent hs hpre]
  apply (appendPairs_within hs.size_mod (checkEntry_sectionPairs hn hv) hb).bind
  intro _ s' hs'
  apply Within.pure
  refine ⟨_, encoded (sectionPairs name vs), .empty, ?_, hs, ?_, .nil⟩
  · rw [hs', ByteArray.append_empty]
  · cases vs with
    | nil => rfl
    | cons v rest => exact ⟨nameRecord name, isNameRecord_nameRecord hn, rfl⟩

theorem setSection_removed (hn : checkName name = .ok ()) (hs : Store.content s = a ++ b)
    (ha : Packed a pre) (hb : Packed b ((some name, w) :: (run ++ post)))
    (hsec : Sectioned name pre ((some name, w) :: run) post)
    (hbound : (Store.content s).size ≤ bound) :
    Within bound s (fun _ s' => HasSection name [] pre post (Store.content s'))
      (setSection name [] s) := by
  have hend := sectionEnd_of_packed ha.size_mod hb
  rw [takeWhile_of_section hsec.run_unnamed hsec.post_named, ← hs] at hend
  have hfind := find?_present ha hb hsec.pre_unlike
  have hnone : [].forM checkValue = .ok () := rfl
  rw [setSection, Update.bind_check_ok hn, Update.bind_check_ok hnone, bind_content, hs, hfind]
  rw [← List.cons_append] at hb
  obtain ⟨y, c, rfl, hy, hc⟩ := hb.split
  rw [← ByteArray.append_assoc] at hs
  dsimp only
  rw [bind_content, Update.bind_check_ok hend, Nat.add_sub_cancel_left, ← hy.size]
  apply (cut_within hs hbound).mono
  intro _ s' hs'
  exact ⟨a, .empty, c, by rw [hs', ByteArray.append_empty], ha, rfl, hc⟩

theorem setSection_over (hn : checkName name = .ok ())
    (hv : ∀ x ∈ v :: vs, checkValue x = .ok ()) (hs : Store.content s = a ++ (np ++ vp ++ c))
    (ha : Packed a pre) (hnp : IsNamePart (some name) np) (hw : IsValueRecord w vp)
    (hc : Packed c (run ++ post)) (hsec : Sectioned name pre ((some name, w) :: run) post)
    (hb : (Store.content s).size + pairsSize (sectionPairs name (v :: vs)) ≤ bound) :
    Within bound s (fun _ s' => HasSection name (v :: vs) pre post (Store.content s'))
      (setSection name (v :: vs) s) := by
  obtain ⟨hvalue, hrest⟩ := List.forall_mem_cons.1 hv
  have hfind := find?_present ha (.cons ⟨np, vp, hnp, hw, rfl⟩ hc) hsec.pre_unlike
  have hroom : (a ++ (np ++ valueRecord v)).size + pairsSize (vs.map (none, ·)) + c.size ≤
      bound := by
    have hentry : v.recordSize ≤ entrySize (some name) v := Nat.le_add_left _ _
    rw [hs, sectionPairs, pairsSize_cons] at hb
    simp only [ByteArray.size_append, size_valueRecord] at hb ⊢
    omega
  have hset : (a ++ (np ++ valueRecord v) ++ c).size ≤ bound := by
    rw [ByteArray.size_append]
    omega
  rw [setSection, Update.bind_check_ok hn, Update.bind_check_ok (forM_checkValue_ok.2 hv),
    bind_content, hs, hfind]
  apply (set_within hs ha.framed hnp hw hc hvalue hset).bind
  rintro _ s₁ ⟨-, h₁⟩
  have hadvance := advance_record ha.size_mod hnp hvalue c
  rw [← h₁] at hadvance
  have hlaid : LaidTo (Store.content s₁) (a ++ (np ++ valueRecord v)) c.size post :=
    ⟨ha.framed.append hnp hvalue, c, _, h₁, hc,
      dropWhile_of_section hsec.run_unnamed hsec.post_named, Nat.le_refl _⟩
  rw [bind_content, Update.bind_check_ok hadvance]
  apply (hlaid.layValues_within hrest hroom).bind
  rintro _ s₂ ⟨rfl, h₂⟩
  apply (h₂.trim_within ?_).mono
  · rintro _ s₃ ⟨d, hd, h₃⟩
    refine ⟨a, np ++ valueRecord v ++ encoded (vs.map (none, ·)), d, ?_, ha, ⟨np, hnp, rfl⟩, hd⟩
    rw [h₃]
    simp only [ByteArray.append_assoc]
  · rwa [ByteArray.size_append, size_encoded]

/-- Once the name and the values may be stored, nothing but room can be in the way. -/
theorem setSection_within (hn : checkName name = .ok ()) (hv : ∀ v ∈ vs, checkValue v = .ok ())
    (hs : Packed (Store.content s) (pre ++ sec ++ post)) (hsec : Sectioned name pre sec post)
    (hb : (Store.content s).size + pairsSize (sectionPairs name vs) ≤ bound) :
    Within bound s (fun _ s' => HasSection name vs pre post (Store.content s'))
      (setSection name vs s) := by
  cases hsec with
  | absent hpre =>
    rw [List.append_nil, List.append_nil] at hs
    exact setSection_absent hn hv hs hpre hb
  | present w hpre hrun hpost =>
    have hsec := Sectioned.present w hpre hrun hpost
    rw [List.append_assoc] at hs
    obtain ⟨a, b, hab, ha, hb'⟩ := hs.split
    cases vs with
    | nil => exact setSection_removed hn hab ha hb' hsec (Nat.le_of_add_right_le hb)
    | cons v rest =>
      obtain ⟨d, c, rfl, ⟨np, vp, hnp, hw, rfl⟩, hc⟩ := hb'.uncons
      exact setSection_over hn hv hab ha hnp hw hc hsec hb

end Buffer

/-- The values of a section become the given ones, or are added with the name. The entries around it
stay, and only room can be in the way. -/
theorem setSection_replaces (f : Flavor) (s : f.Storage) {name : String} {vs : List Value} {n : Nat}
    (hs : validate (Store.content s) = .ok n) (hn : checkName name = .ok ())
    (hv : ∀ v ∈ vs, v.WellFormed ∧ checkValue v = .ok ()) :
    (∃ pre sec post, (entries (Store.content s)).map Entry.pair = pre ++ sec ++ post ∧
      Sectioned name pre sec post) ∧
    ∀ pre sec post, (entries (Store.content s)).map Entry.pair = pre ++ sec ++ post →
      Sectioned name pre sec post →
      (∀ s', Buffer.setSection name vs s = .ok () s' →
        entries (Store.content s') = located 0 (pre ++ sectionPairs name vs ++ post) ∧
        (∃ m, validate (Store.content s') = .ok m) ∧
        (vs ≠ [] → sectionValues (Store.content s') name = vs)) ∧
      (∀ e s', Buffer.setSection name vs s = .error e s' → e.IsAllocation) ∧
      (HasRoom (Store.capacity s) (Store.used s + pairsSize (sectionPairs name vs)) →
        ∃ s', Buffer.setSection name vs s = .ok () s') := by
  obtain ⟨pairs, hpacked, -⟩ := validate_ok_iff.1 hs
  have hwell : ∀ v ∈ vs, v.WellFormed := fun v h => (hv v h).1
  have hcheck : ∀ v ∈ vs, checkValue v = .ok () := fun v h => (hv v h).2
  rw [map_pair_entries hpacked]
  refine ⟨exists_sectioned name pairs, ?_⟩
  rintro pre sec post rfl hsec
  have hrun := Buffer.setSection_within hn hcheck hpacked hsec (Nat.le_refl _)
  rw [Store.size_content] at hrun
  refine ⟨?_, fun e s' he => hrun.of_error he, ?_⟩
  · intro s' hok
    have hpacked' := (hrun.of_ok hok).packed hwell hcheck
    exact ⟨entries_of_packed hpacked', ⟨_, validate_ok_iff.2 ⟨_, hpacked', rfl⟩⟩,
      hsec.sectionValues hpacked'⟩
  · intro hroom
    obtain ⟨_, s', hok, -⟩ := hrun.exists_ok hroom
    exact ⟨s', hok⟩

/-- Three values, of which two are changed and one is cut out, before another name and a later section
of the same name. -/
theorem setSection_replaces_two :
    let old : List Pair := [(some "a", .bool true), (none, .unknown), (none, .unknown),
      (some "b", .unknown), (some "a", .bool false)]
    let new : List Value := [.binary [1, 2, 3, 4, 5].toByteArray,
      .text .unicode [0x3d, 0xd8].toByteArray]
    let start : Flavor.owned.Storage := Update.final (Buffer.appendAll old Owned.empty)
    ∃ s', Buffer.setSection "a" new start = .ok () s' ∧
      entries (Store.content s') = located 0 [(some "a", .binary [1, 2, 3, 4, 5].toByteArray),
        (none, .text .unicode [0x3d, 0xd8].toByteArray), (some "b", .unknown),
        (some "a", .bool false)] ∧
      sectionValues (Store.content s') "a" = new := by
  intro old new start
  have hstorable : ∀ pair ∈ old, Storable pair := by
    simp only [old, Storable, Value.WellFormed, List.forall_mem_cons, true_and]
    exact ⟨rfl, rfl, rfl, rfl, rfl, fun _ h => absurd h List.not_mem_nil⟩
  have hcontent : Store.content start = encoded old := by
    let empty : Flavor.owned.Storage := Owned.empty
    have hempty : (Store.content empty).size % 4 = 0 := rfl
    have hrun := Buffer.appendAll_within hempty (fun pair h => (hstorable pair h).2) (Nat.le_refl _)
    obtain ⟨_, s', hs', hcontent⟩ := hrun.exists_ok (.inr (by decide))
    rw [show start = s' from congrArg Update.final hs', hcontent]
    exact ByteArray.empty_append
  have hpacked : Packed (Store.content start) old := hcontent ▸ packed_encoded hstorable
  have hpairs : (entries (Store.content start)).map Entry.pair = [] ++ old.take 3 ++ old.drop 3 := by
    rw [map_pair_entries hpacked]
    rfl
  have hsectioned : Sectioned "a" [] (old.take 3) (old.drop 3) := by
    apply Sectioned.present
    · exact fun _ h => absurd h List.not_mem_nil
    · simp
    · rintro pair ⟨⟩
      exact Option.some_ne_none "b"
  have hnew : ∀ v ∈ new, v.WellFormed ∧ checkValue v = .ok () := by
    simp only [new, Value.WellFormed, List.forall_mem_cons, true_and]
    exact ⟨rfl, ⟨rfl, rfl⟩, fun _ h => absurd h List.not_mem_nil⟩
  have hroom : HasRoom (Store.capacity start)
      (Store.used start + pairsSize (sectionPairs "a" new)) := by
    rw [← Store.size_content, hcontent, size_encoded]
    exact .inr (by decide)
  obtain ⟨hok, -, hroomy⟩ := (setSection_replaces .owned start (validate_ok_iff.2 ⟨_, hpacked, rfl⟩)
    rfl hnew).2 [] _ _ hpairs hsectioned
  obtain ⟨s', hs'⟩ := hroomy hroom
  obtain ⟨hentries, -, hvalues⟩ := hok s' hs'
  exact ⟨s', hs', hentries, hvalues (List.cons_ne_nil _ _)⟩

end TaggedBuffer
