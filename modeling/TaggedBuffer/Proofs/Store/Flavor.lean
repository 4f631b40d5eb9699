import TaggedBuffer.Proofs.Store.Laws
import TaggedBuffer.Store.Borrowed
import TaggedBuffer.Store.Owned
import TaggedBuffer.Store.Shared

namespace TaggedBuffer

/-- A region held by one handle makes room by moving the content to a larger one. -/
theorem grow_room [Allocator] {σ : Type} [Store σ] {s : σ} {needed : Nat} (move : Bytes → σ → σ)
    (hused : Store.used s ≤ Store.capacity s)
    (hmove : ∀ r, Store.used s ≤ r.size →
      Store.region (move r s) = r ∧ Store.used (move r s) = Store.used s) :
    MakesRoom (relocate (needed ≤ Store.capacity s) (grow needed) (Store.content s) move)
      (roomFor (Store.capacity s) needed) s :=
  .relocate hused roomFor_of_le
    (fun hn => grow_provides hn (by rwa [Store.content, Bytes.size_extract_of_le hused])) hmove

theorem trim_room [Allocator] {σ : Type} [Store σ] {s : σ} (move : Bytes → σ → σ)
    (hused : Store.used s ≤ Store.capacity s)
    (hmove : ∀ r, Store.used s ≤ r.size →
      Store.region (move r s) = r ∧ Store.used (move r s) = Store.used s) :
    MakesRoom (relocate (Store.capacity s = Store.used s) (acquire (Store.used s)) (Store.content s)
      move) (.ok (Store.used s)) s :=
  .relocate hused (fun hfull => congrArg Except.ok hfull.symm)
    (fun _ => acquire_provides (Nat.le_of_eq (Bytes.size_extract_of_le hused))) hmove

instance : LawfulStore Owned where
  used_le s := s.used_le
  reserve_room _ s :=
    have hroom := grow_room (s := s) Owned.moveTo s.used_le
      fun _ hr => ⟨rfl, Nat.min_eq_left hr⟩
    ⟨hroom.ok, hroom.error⟩
  region_setRegion _ := rfl
  used_setRegion := by
    intro s r h
    exact Nat.min_eq_left (Nat.le_trans s.used_le (Nat.le_of_eq h.symm))
  region_setUsed _ := rfl
  used_setUsed h := Nat.min_eq_left h
  shrinkToFit_room s :=
    have hroom := (trim_room (s := s) Owned.moveTo s.used_le
      fun _ hr => ⟨rfl, Nat.min_eq_left hr⟩).map fun _ => ()
    ⟨hroom.ok, hroom.error⟩
  content_release _ := rfl
  capacity_release _ := rfl

instance : LawfulStore Borrowed where
  used_le s := s.used_le
  reserve_room _ s :=
    have hroom := grow_room (s := s) Borrowed.moveTo s.used_le
      fun _ hr => ⟨rfl, Nat.min_eq_left hr⟩
    ⟨hroom.ok, hroom.error⟩
  region_setRegion := by
    intro s r _
    change (Borrowed.setRegion r s).region = r
    rw [Borrowed.setRegion]
    split <;> rfl
  used_setRegion := by
    intro s r h
    change (Borrowed.setRegion r s).used = s.used
    have hm := Nat.min_eq_left (Nat.le_trans s.used_le (Nat.le_of_eq h.symm))
    rw [Borrowed.setRegion]
    split <;> exact hm
  region_setUsed _ := rfl
  used_setUsed h := Nat.min_eq_left h
  shrinkToFit_room s :=
    have hroom := (trim_room (s := s) Borrowed.moveTo s.used_le
      fun _ hr => ⟨rfl, Nat.min_eq_left hr⟩).map fun _ => ()
    ⟨hroom.ok, hroom.error⟩
  content_release _ := rfl
  capacity_release _ := rfl

namespace Heap

theorem block?_add (h : Heap) (b : Block) : (h.add b).block? h.blocks.length = some b := by
  simp [add, block?]

theorem lt_length {h : Heap} {id : Nat} {b : Block} (hb : h.block? id = some b) :
    id < h.blocks.length := by
  rw [block?, Option.join_eq_some_iff] at hb
  exact (List.getElem?_eq_some_iff.1 hb).1

theorem block?_put {h : Heap} {id : Nat} {b : Block} (hb : h.block? id = some b)
    (o : Option Block) : (h.put id o).block? id = o := by
  simp [put, block?, lt_length hb]

end Heap

namespace Shared

theorem block?_moveTo (s : Shared) (r : Bytes) (u : Nat) :
    (s.moveTo r u).block? = some ⟨r, min u r.size, 1, Nat.min_le_right _ _⟩ :=
  Heap.block?_add _ _

theorem write_of_none {s : Shared} (h : s.block? = none) (r : Bytes) (u : Nat) :
    s.write r u = s := by
  rw [write]
  split
  next hb => cases h.symm.trans hb
  · rfl

theorem block?_write {s : Shared} {b : Block} (h : s.block? = some b) (r : Bytes) (u : Nat) :
    ∃ holders, (s.write r u).block? =
      some ⟨r, min u r.size, holders, Nat.min_le_right _ _⟩ := by
  rw [write]
  split
  next id b' hid hb =>
    split
    · refine ⟨b'.holders, ?_⟩
      rw [block?, hid] at hb
      simp only [block?, hid]
      exact Heap.block?_put hb _
    · exact ⟨1, s.block?_moveTo r u⟩
  next hne =>
    obtain ⟨id, hid, _⟩ := Option.bind_eq_some_iff.1 h
    exact (hne id b hid h).elim

theorem region_of_block? {s : Shared} {b : Block} (h : s.block? = some b) :
    s.region = b.region := by
  simp [region, h]

theorem used_of_block? {s : Shared} {b : Block} (h : s.block? = some b) : s.used = b.used := by
  simp [used, h]

theorem used_le (s : Shared) : s.used ≤ s.region.size := by
  cases h : s.block? with
  | none => simp [used, h]
  | some b =>
    rw [used_of_block? h, region_of_block? h]
    exact b.used_le

theorem region_moveTo (s : Shared) (r : Bytes) (u : Nat) : (s.moveTo r u).region = r :=
  region_of_block? (s.block?_moveTo r u)

theorem used_moveTo {s : Shared} {r : Bytes} {u : Nat} (h : u ≤ r.size) :
    (s.moveTo r u).used = u :=
  (used_of_block? (s.block?_moveTo r u)).trans (Nat.min_eq_left h)

theorem moveIn_spec (s : Shared) (r : Bytes) (h : s.used ≤ r.size) :
    (s.moveIn r).region = r ∧ (s.moveIn r).used = s.used :=
  ⟨s.region_moveTo r s.used, used_moveTo h⟩

theorem region_write {s : Shared} {r : Bytes} (u : Nat) (h : r.size = s.region.size) :
    (s.write r u).region = r := by
  cases hb : s.block? with
  | none =>
    have hr : s.region = .empty := by simp [region, hb]
    rw [write_of_none hb, hr]
    rw [hr] at h
    exact (ByteArray.size_eq_zero_iff.1 h).symm
  | some b =>
    obtain ⟨n, hw⟩ := block?_write hb r u
    exact region_of_block? hw

theorem used_write {s : Shared} {r : Bytes} {u : Nat} (h : r.size = s.region.size)
    (hu : u ≤ r.size) : (s.write r u).used = u := by
  cases hb : s.block? with
  | none =>
    have hr : s.region = .empty := by simp [region, hb]
    rw [write_of_none hb, used, hb]
    rw [hr, ByteArray.size_empty] at h
    exact (Nat.le_zero.1 (h ▸ hu)).symm
  | some b =>
    obtain ⟨n, hw⟩ := block?_write hb r u
    exact (used_of_block? hw).trans (Nat.min_eq_left hu)

theorem block?_leave (s : Shared) : s.leave.block? = none := by
  rw [leave]
  split
  · rfl
  next h => simp [block?, h]

end Shared

instance : LawfulStore Shared where
  used_le := Shared.used_le
  reserve_room needed s := by
    have hu : Store.used s ≤ Store.capacity s := s.used_le
    have hsize : (Store.content s).size = Store.used s := Bytes.size_extract_of_le hu
    have hroom : MakesRoom (relocate (needed ≤ Store.capacity s ∧ s.holders ≤ 1)
        (if needed ≤ Store.capacity s then acquire (Store.capacity s) else grow needed)
        (Store.content s) Shared.moveIn) (roomFor (Store.capacity s) needed) s := by
      refine .relocate hu (fun h => roomFor_of_le h.1) (fun _ => ?_) s.moveIn_spec
      -- A block with other holders is left for one of the same size where it has room.
      by_cases hn : needed ≤ Store.capacity s
      · rw [if_pos hn, roomFor_of_le hn]
        exact acquire_provides (hsize ▸ hu)
      · rw [if_neg hn]
        exact grow_provides hn (hsize ▸ hu)
    exact ⟨hroom.ok, hroom.error⟩
  region_setRegion h := Shared.region_write _ h
  used_setRegion := by
    intro s r h
    exact Shared.used_write h (Nat.le_trans s.used_le (Nat.le_of_eq h.symm))
  region_setUsed _ := Shared.region_write _ rfl
  used_setUsed h := Shared.used_write rfl h
  shrinkToFit_room s := by
    -- An empty block is given up, which asks for no memory.
    by_cases h0 : s.used = 0
    · have hrun : Store.shrinkToFit s = .ok () s.leave := if_pos h0
      refine .of_ok hrun ?_
      have hcontent : Store.content s = .empty :=
        ByteArray.size_eq_zero_iff.1 ((Bytes.size_extract_of_le s.used_le).trans h0)
      change Except.ok s.used = .ok s.leave.region.size ∧ s.leave.region.extract 0 s.leave.used = _ ∧
        s.leave.used = s.used
      rw [hcontent, h0]
      simp [Shared.region, Shared.used, s.block?_leave]
    · have hrun : Store.shrinkToFit s = ((fun _ => ()) <$> relocate (Store.capacity s = Store.used s)
          (acquire (Store.used s)) (Store.content s) Shared.moveIn) s := if_neg h0
      have hroom := (trim_room (s := s) Shared.moveIn s.used_le s.moveIn_spec).map fun _ => ()
      exact ⟨hrun ▸ hroom.ok, hrun ▸ hroom.error⟩
  content_release s := by
    change s.leave.region.extract 0 s.leave.used = .empty
    simp [Shared.region, Shared.used, s.block?_leave]
  capacity_release s := by
    change s.leave.region.size = 0
    simp [Shared.region, s.block?_leave]

inductive Flavor where
  | owned | shared | borrowed
  deriving DecidableEq, Repr

namespace Flavor

def Storage : Flavor → Type
  | owned => Owned
  | shared => Shared
  | borrowed => Borrowed

instance : (f : Flavor) → Store f.Storage
  | owned => inferInstanceAs (Store Owned)
  | shared => inferInstanceAs (Store Shared)
  | borrowed => inferInstanceAs (Store Borrowed)

instance : (f : Flavor) → LawfulStore f.Storage
  | owned => inferInstanceAs (LawfulStore Owned)
  | shared => inferInstanceAs (LawfulStore Shared)
  | borrowed => inferInstanceAs (LawfulStore Borrowed)

end Flavor

end TaggedBuffer
