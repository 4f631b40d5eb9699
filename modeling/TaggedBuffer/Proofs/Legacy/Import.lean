import TaggedBuffer.Proofs.Buffer.Canonical
import TaggedBuffer.Proofs.Buffer.Room
import TaggedBuffer.Proofs.Legacy.Layout
import TaggedBuffer.Proofs.Store.Flavor

namespace TaggedBuffer

open Content (encoded Lists lists_iff_packed)
open Buffer (pairsSize checkEntry importLegacy)

namespace Legacy

section Sizes

variable {pair : Pair} {name? : Option String} {v : Value} {b : Bytes}

theorem IsValue.size_pos (h : IsValue v b) : 0 < b.size := by
  obtain ⟨tag, content, bytes, -, -, -, -, -, rfl⟩ := h
  rw [ByteArray.size_append]
  exact Nat.add_pos_left Nat.one_pos _

theorem IsChunk.size_pos (h : IsChunk pair b) : 0 < b.size := by
  obtain ⟨np, vp, -, hv, rfl⟩ := h
  rw [ByteArray.size_append]
  exact Nat.add_pos_right _ hv.size_pos

theorem IsName.namePartSize_le (h : IsName name? b) : namePartSize name? ≤ 4 * b.size := by
  cases h with
  | absent => exact Nat.zero_le _
  | @marked text hs =>
    have := align_lt text.utf8ByteSize
    rw [size_marked]
    split
    · exact Nat.zero_le _
    · change nameRecordSize text ≤ _
      rw [nameRecordSize, headerSize]
      omega

theorem IsName.checkName (h : IsName name? b) : ∀ name, name? = some name →
    TaggedBuffer.checkName name = .ok () := by
  rintro name rfl
  generalize hname : some name = name? at h
  cases h with
  | absent => cases hname
  | marked hs =>
    split at hname
    · cases hname
    next hne =>
      cases hname
      have hpos : name.utf8ByteSize ≠ 0 := fun h => hne (String.utf8ByteSize_eq_zero_iff.1 h)
      exact checkName_ok_iff.2 ⟨Nat.one_le_iff_ne_zero.2 hpos, hs⟩

theorem IsStripped.size_le {t : ValueType} {raw content : Bytes} (h : IsStripped t raw content) :
    content.size ≤ raw.size := by
  cases t with
  | text e =>
    rcases h with rfl | ⟨rfl, -⟩
    · rw [ByteArray.size_append]
      exact Nat.le_add_right _ _
    · exact Nat.le_refl _
  | _ =>
    obtain rfl : content = raw := h
    exact Nat.le_refl _

theorem IsContent.size_le {tag : UInt8} {t : ValueType} {content bytes : Bytes}
    (h : IsContent tag t content bytes) :
    content.size ≤ bytes.size ∧ (t.fixedSize = none → content.size + 1 ≤ bytes.size) := by
  cases h with
  | counted _ _ hs =>
    have := hs.size_le
    rw [size_counted]
    omega
  | fixed _ hfixed =>
    refine ⟨Nat.le_refl _, fun hnone => ?_⟩
    cases hnone.symm.trans hfixed
  | @terminated e _ _ _ =>
    have := unit_pos e
    rw [ByteArray.size_append, Bytes.size_zeros]
    omega

theorem align_le_four_mul (n : Nat) : align n ≤ 4 * n := by
  unfold align
  omega

theorem IsValue.recordSize_le (h : IsValue v b) : v.recordSize ≤ 4 * b.size := by
  obtain ⟨tag, content, bytes, -, -, -, hpayload, hbytes, rfl⟩ := h
  obtain ⟨hle, hvarying⟩ := hbytes.size_le
  rw [hpayload.size] at hle hvarying
  have hencoded : v.encodedLength ≤ 4 * bytes.size := by
    rw [Value.encodedLength, Value.encodedSize]
    split
    next n hn =>
      have hfixed := fixedSize_of_isFixedSize (v := v) (by rw [ValueType.isFixedSize, hn]; rfl)
      cases hn.symm.trans hfixed
      exact Nat.le_trans (align_le_four_mul _) (Nat.mul_le_mul_left 4 hle)
    next hn =>
      calc align (lengthFieldSize + v.byteLength) = 4 + align v.byteLength := by
            unfold align lengthFieldSize
            omega
        _ ≤ 4 + 4 * v.byteLength := Nat.add_le_add_left (align_le_four_mul _) 4
        _ ≤ 4 * bytes.size := by
            have := hvarying hn
            omega
  rw [Value.recordSize, headerSize, ByteArray.size_append, Nat.mul_add]
  exact Nat.add_le_add_left hencoded 4

theorem IsChunk.entrySize_le (h : IsChunk pair b) : entrySize pair.1 pair.2 ≤ 4 * b.size := by
  obtain ⟨np, vp, hn, hv, rfl⟩ := h
  have hname := hn.namePartSize_le
  have hvalue := hv.recordSize_le
  rw [ByteArray.size_append, Nat.mul_add]
  exact Nat.add_le_add hname hvalue

end Sizes

namespace Layout

variable {a b src : Bytes} {pairs xs ys : List Pair}

/-- No entry takes more than four times the bytes it is read from. -/
theorem pairsSize_le (h : Layout src pairs) : pairsSize pairs ≤ 4 * src.size := by
  induction h with
  | nil => exact Nat.zero_le _
  | cons hb _ ih =>
    rw [Content.pairsSize_cons, ByteArray.size_append, Nat.mul_add]
    exact Nat.add_le_add hb.entrySize_le ih

theorem append (ha : Layout a xs) (hb : Layout b ys) : Layout (a ++ b) (xs ++ ys) := by
  induction ha with
  | nil => simpa using hb
  | cons hc _ ih =>
    rw [ByteArray.append_assoc]
    exact .cons hc ih

theorem wellFormed (h : Layout src pairs) : ∀ pair ∈ pairs, pair.2.WellFormed := by
  induction h with
  | nil => exact List.forall_mem_nil _
  | cons hb _ ih =>
    obtain ⟨np, vp, -, ⟨tag, content, bytes, -, -, hw, -⟩, -⟩ := hb
    exact List.forall_mem_cons.2 ⟨hw, ih⟩

theorem checkName (h : Layout src pairs) :
    ∀ pair ∈ pairs, ∀ name, pair.1 = some name → checkName name = .ok () := by
  induction h with
  | nil => exact List.forall_mem_nil _
  | cons hb _ ih =>
    obtain ⟨np, vp, hn, -, -⟩ := hb
    exact List.forall_mem_cons.2 ⟨hn.checkName, ih⟩

end Layout

section Walk

variable {src b : Bytes} {p : Nat} {pairs : List Pair}

theorem walk_of_layout (h : Layout b pairs) (ha : src.At p b) (he : p + b.size = src.size) :
    walk src p = (pairs, none) := by
  induction h generalizing p with
  | nil =>
    rw [walk, if_neg (by simp only [ByteArray.size_empty] at he; omega)]
  | @cons pair b rest pairs hb _ ih =>
    obtain ⟨hab, har⟩ := Bytes.At.append_iff.1 ha
    rw [ByteArray.size_append, ← Nat.add_assoc] at he
    have hpos := hb.size_pos
    have hread : readEntry src p = .ok (pair, p + b.size) :=
      (readEntry_ok_iff (by omega)).2 ⟨b, hb, hab, rfl⟩
    rw [walk, if_pos (by omega)]
    split
    next pair' q h =>
      cases hread.symm.trans h
      rw [ih har he]
    next fault h => cases hread.symm.trans h

theorem layout_of_walk (h : walk src p = (pairs, none)) (hp : p ≤ src.size) :
    Layout (src.extract p src.size) pairs := by
  induction p using walk.induct src generalizing pairs with
  | case1 p hlt pair q hread ih =>
    rw [walk, if_pos hlt] at h
    split at h
    next pair' q' hread' =>
      cases hread.symm.trans hread'
      obtain ⟨b, hb, ha, rfl⟩ := (readEntry_ok_iff hp).1 hread
      obtain ⟨rfl, hnone⟩ := Prod.mk.inj h
      have hrest := ih (Prod.ext rfl hnone) ha.bound
      rw [ha.extract_append]
      exact .cons hb hrest
    next fault hread' => cases hread.symm.trans hread'
  | case2 p hlt fault hread =>
    rw [walk, if_pos hlt] at h
    split at h
    next pair q hread' => cases hread.symm.trans hread'
    · cases h
  | case3 p hge =>
    rw [walk, if_neg hge] at h
    cases h
    have : src.extract p src.size = .empty := by
      rw [ByteArray.extract_eq_empty_iff]
      omega
    rw [this]
    exact .nil

theorem walk_eq_iff {src : Bytes} {pairs : List Pair} :
    walk src 0 = (pairs, none) ↔ Layout src pairs := by
  constructor
  · intro h
    simpa using layout_of_walk h (Nat.zero_le _)
  · intro h
    have ha : src.At 0 src := by simpa using Bytes.at_middle .empty src .empty
    exact walk_of_layout h ha (Nat.zero_add _)

end Walk

/-- Bytes of the layout whose values are small enough to be stored. -/
def Importable (src : Bytes) (pairs : List Pair) : Prop :=
  Layout src pairs ∧ ∀ pair ∈ pairs, pair.2.encodedLength ≤ maxEncodedLength

theorem Importable.storable {src : Bytes} {pairs : List Pair} (h : Importable src pairs) :
    ∀ pair ∈ pairs, Storable pair := by
  intro pair hp
  exact ⟨h.1.wellFormed pair hp, Content.checkEntry_ok_iff.2
    ⟨h.1.checkName pair hp, checkValue_ok_iff.2 (h.2 pair hp)⟩⟩

theorem Importable.append {a b : Bytes} {xs ys : List Pair} (ha : Importable a xs)
    (hb : Importable b ys) : Importable (a ++ b) (xs ++ ys) :=
  ⟨ha.1.append hb.1, List.forall_mem_append.2 ⟨ha.2, hb.2⟩⟩

section Import

variable {σ : Type} [Store σ] {s s' : σ} {src : Bytes} {pairs : List Pair}

theorem checkEntry_of_appendAll (h : Buffer.appendAll pairs s = .ok () s') :
    ∀ pair ∈ pairs, checkEntry pair.1 pair.2 = .ok () := by
  induction pairs generalizing s with
  | nil => exact List.forall_mem_nil _
  | cons pair pairs ih =>
    obtain ⟨_, s₁, happend, hrest⟩ := Update.exists_of_bind_ok h
    obtain ⟨_, hcheck, -⟩ := Update.exists_of_check_ok happend
    exact List.forall_mem_cons.2 ⟨hcheck, ih hrest⟩

variable [LawfulStore σ]

theorem importable_of_ok (hs : Store.content s = .empty)
    (h : importLegacy src s = .ok () s') :
    ∃ pairs, Importable src pairs ∧ Store.content s' = encoded pairs := by
  obtain ⟨_, s₁, hall, hend⟩ := Update.exists_of_bind_ok h
  cases hw : (walk src 0).2 with
  | some fault =>
    rw [hw] at hend
    cases hend
  | none =>
    rw [hw] at hend
    cases hend
    have hlayout : Layout src (walk src 0).1 := walk_eq_iff.1 (Prod.ext rfl hw)
    have hchecked := checkEntry_of_appendAll hall
    have hmod : (Store.content s).size % 4 = 0 := by rw [hs]; rfl
    have hcontent := (Buffer.appendAll_within hmod hchecked (Nat.le_refl _)).of_ok hall
    rw [hs, ByteArray.empty_append] at hcontent
    refine ⟨_, ⟨hlayout, fun pair hp => ?_⟩, hcontent⟩
    exact checkValue_ok_iff.1 (Content.checkEntry_ok_iff.1 (hchecked pair hp)).2

theorem importLegacy_within (hs : Store.content s = .empty) (h : Importable src pairs) {bound : Nat}
    (hb : pairsSize pairs ≤ bound) :
    Within bound s (fun _ s' => Store.content s' = encoded pairs) (importLegacy src s) := by
  have hmod : (Store.content s).size % 4 = 0 := by rw [hs]; rfl
  have hbound : (Store.content s).size + pairsSize pairs ≤ bound := by
    rwa [hs, ByteArray.size_empty, Nat.zero_add]
  rw [importLegacy, walk_eq_iff.2 h.1]
  apply (Buffer.appendAll_within hmod (fun pair hp => (h.storable pair hp).2) hbound).bind
  intro _ s₁ h₁
  rw [hs, ByteArray.empty_append] at h₁
  exact .pure h₁

end Import

/-- An import reads just the bytes of the layout whose values may be stored, room aside, and of two
inputs it makes what it makes of one behind the other. -/
theorem importLegacy_importable (f : Flavor) (s : f.Storage) (hs : Store.content s = .empty)
    (src : Bytes) :
    (∀ s', importLegacy src s = .ok () s' →
      ∃ pairs, Importable src pairs ∧ Lists (Store.content s') pairs) ∧
    (∀ pairs, Importable src pairs →
      (∃ s', importLegacy src s = .ok () s' ∧ Lists (Store.content s') pairs) ∨
      ∃ e s', importLegacy src s = .error e s' ∧ e.IsAllocation ∧
        ¬ HasRoom (Store.capacity s) (4 * src.size)) ∧
    ∀ (other : Bytes) (s₁ s₂ : f.Storage), importLegacy src s = .ok () s₁ →
      importLegacy other s = .ok () s₂ →
      (∃ s', importLegacy (src ++ other) s = .ok () s' ∧
        Store.content s' = Store.content s₁ ++ Store.content s₂) ∨
      ∃ e s', importLegacy (src ++ other) s = .error e s' ∧ e.IsAllocation ∧
        ¬ HasRoom (Store.capacity s) (Store.used s₁ + Store.used s₂) := by
  have hlists : ∀ {bytes pairs} {s' : f.Storage}, Importable bytes pairs →
      Store.content s' = encoded pairs → Lists (Store.content s') pairs := by
    intro bytes pairs s' himport hcontent
    rw [hcontent, lists_iff_packed]
    exact packed_encoded himport.storable
  refine ⟨?_, ?_, ?_⟩
  · intro s' h
    obtain ⟨pairs, himport, hcontent⟩ := importable_of_ok hs h
    exact ⟨pairs, himport, hlists himport hcontent⟩
  · intro pairs himport
    have hrun := importLegacy_within hs himport himport.1.pairsSize_le
    generalize hr : importLegacy src s = r at hrun
    cases hrun with
    | ok hcontent _ => exact .inl ⟨_, rfl, hlists himport hcontent⟩
    | full he hroom => exact .inr ⟨_, _, rfl, he, hroom Allocator.ample_unbounded⟩
  · intro other s₁ s₂ h₁ h₂
    obtain ⟨xs, hxs, hcontent₁⟩ := importable_of_ok hs h₁
    obtain ⟨ys, hys, hcontent₂⟩ := importable_of_ok hs h₂
    have hsize : Store.used s₁ + Store.used s₂ = pairsSize (xs ++ ys) := by
      rw [Content.pairsSize_append, ← Store.size_content, ← Store.size_content, hcontent₁,
        hcontent₂, Content.size_encoded, Content.size_encoded]
    have hrun := importLegacy_within hs (hxs.append hys) (Nat.le_of_eq hsize.symm)
    generalize hr : importLegacy (src ++ other) s = r at hrun
    cases hrun with
    | ok hcontent _ =>
      refine .inl ⟨_, rfl, ?_⟩
      rw [hcontent, hcontent₁, hcontent₂, Content.encoded_append]
    | full he hroom => exact .inr ⟨_, _, rfl, he, hroom Allocator.ample_unbounded⟩

/-- A type byte with bits that say nothing, wide text with two zero bytes that are no unit, a marked
name of no bytes, counted text without a terminator and a counted truth value. -/
theorem importLegacy_mixed :
    let wide : Bytes := [1, 0, 0, 2].toByteArray
    let pairs : List Pair := [(some "n", .integer .int64 (-2)), (none, .text .unicode wide),
      (none, .utf8 "x"), (none, .bool true)]
    let src := marked "n" ++ ([0xA8].toByteArray ++ Value.bitBytes (-2 : BitVec 64)) ++
      (marked "" ++ ([16].toByteArray ++ (wide ++ Bytes.zeros 2)) ++
        (.empty ++ ([0x4F].toByteArray ++ counted "x".toByteArray) ++
          (.empty ++ ([0x41].toByteArray ++ counted [7].toByteArray) ++ .empty)))
    ∃ s' : Flavor.owned.Storage,
      importLegacy src Owned.empty = .ok () s' ∧ Lists (Store.content s') pairs := by
  intro wide pairs src
  have hname : IsName (some "n") (marked "n") := by simpa using @IsName.marked "n" (by decide)
  have hempty : IsName none (marked "") := by simpa using @IsName.marked "" (by decide)
  have hwide : NoZeroUnit .unicode wide := by
    have hstop : terminator? (wide ++ Bytes.zeros 2) .unicode 0 = some 4 := by decide +kernel
    have hread : takeTerminated (wide ++ Bytes.zeros 2) 0 .unicode = .ok (wide, 6) := by
      rw [takeTerminated, hstop]
      rfl
    exact (takeTerminated_ok_iff.1 hread).1
  have heven : wide.size % 2 = 0 := by simp [wide]
  have hcounted : IsStripped (.text .utf8) "x".toByteArray "x".toByteArray :=
    dropTerminator_eq_iff.1 (by decide)
  have hlayout : Layout src pairs := by
    refine .cons ⟨_, _, hname, ?_, rfl⟩ (.cons ⟨_, _, hempty, ?_, rfl⟩
      (.cons ⟨_, _, .absent, ?_, rfl⟩ (.cons ⟨_, _, .absent, ?_, rfl⟩ .nil)))
    · exact ⟨0xA8, _, _, by decide, rfl, trivial, .inl rfl, .fixed rfl rfl, rfl⟩
    · exact ⟨16, _, _, by decide, rfl, heven, .inl rfl, .terminated rfl hwide, rfl⟩
    · exact ⟨0x4F, _, _, by decide, rfl, trivial, .inl rfl,
        .counted (by decide) (by decide) hcounted, rfl⟩
    · exact ⟨0x41, _, _, by decide, rfl, trivial, .inr ⟨rfl, 7, by decide, rfl⟩,
        .counted (by decide) (by decide) rfl, rfl⟩
  have himport : Importable src pairs := ⟨hlayout, by decide⟩
  rcases (importLegacy_importable .owned Owned.empty rfl src).2.1 pairs himport with
    h | ⟨_, _, _, _, hroom⟩
  · exact h
  · exact (hroom (.inr (by decide))).elim

end Legacy

end TaggedBuffer
