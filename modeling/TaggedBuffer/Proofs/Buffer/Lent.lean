import TaggedBuffer.Proofs.Buffer.Agreement
import TaggedBuffer.Proofs.Buffer.Mark
import TaggedBuffer.Proofs.Store.Placed

namespace TaggedBuffer

open Bytes (list)

namespace Borrowed

variable {b b' : Borrowed}

theorem lent_reserve [Allocator] {needed : Nat} {moved : Bool}
    (h : Store.reserve needed b = .ok moved b') : b'.lent = b.lent := by
  rcases reserve_cases h with ⟨-, rfl⟩ | ⟨-, -, -, hl⟩
  · rfl
  · exact hl

theorem shrinkToFit_cases [Allocator] {u : Unit} (h : Store.shrinkToFit b = .ok u b') :
    Store.capacity b = Store.used b ∧ b' = b ∨
      Store.capacity b ≠ Store.used b ∧ b'.isBorrowed = false ∧ b'.lent = b.lent := by
  obtain ⟨moved, h, -⟩ := Update.of_map_ok h
  rcases relocate_cases (b.region.size = b.used) (acquire b.used) b.content moveTo b with
    ⟨hfull, hr⟩ | ⟨hspare, ⟨r, -, hr⟩ | ⟨e, -, hr⟩⟩ <;> cases hr.symm.trans h
  · exact .inl ⟨hfull, rfl⟩
  · exact .inr ⟨hspare, rfl, rfl⟩

theorem lent_shrinkToFit [Allocator] {u : Unit} (h : Store.shrinkToFit b = .ok u b') :
    b'.lent = b.lent := by
  rcases shrinkToFit_cases h with ⟨-, rfl⟩ | ⟨-, -, hl⟩
  · rfl
  · exact hl

theorem final_shrinkToFit [Allocator] (b : Borrowed) :
    (Update.final (Store.shrinkToFit b)).lent = b.lent ∧
      Store.content (Update.final (Store.shrinkToFit b)) = Store.content b := by
  cases hr : Store.shrinkToFit b with
  | ok u b' => exact ⟨lent_shrinkToFit hr, (Store.of_shrinkToFit_ok hr).1⟩
  | error e b' =>
    obtain rfl := Store.of_shrinkToFit_error hr
    exact ⟨rfl, rfl⟩

theorem lent_setRegion (r : Bytes) (b : Borrowed) :
    (Store.setRegion r b).lent = if b.isBorrowed then r else b.lent := by
  obtain ⟨_, moved, _, _⟩ := b
  cases moved <;> rfl

theorem region_of_isBorrowed (h : b.isBorrowed = true) : Store.region b = b.lent := by
  obtain ⟨_, moved, _, _⟩ := b
  cases moved with
  | none => rfl
  | some _ => cases h

theorem lent_overwrite {p : Nat} {new : Bytes} (hn : p + new.size ≤ Store.capacity b) :
    (Store.setRegion ((Store.region b).overwrite p new) b).lent.size = b.lent.size ∧
      ∀ i, p + new.size ≤ i →
        (list (Store.setRegion ((Store.region b).overwrite p new) b).lent)[i]? =
          (list b.lent)[i]? := by
  rw [lent_setRegion]
  cases hb : b.isBorrowed with
  | false => exact ⟨rfl, fun _ _ => rfl⟩
  | true =>
    rw [Store.capacity, region_of_isBorrowed hb] at hn
    rw [if_pos rfl, region_of_isBorrowed hb]
    exact ⟨Bytes.size_overwrite hn, fun i hi => Bytes.getElem?_overwrite hn (.inr hi)⟩

end Borrowed

/-- The lent region is as it was from the mark on. -/
structure Kept (region : Bytes) (m : Marked Borrowed) : Prop where
  size : m.store.lent.size = region.size
  used_le : Store.used m.store ≤ m.mark
  above : ∀ i, m.mark ≤ i → (list m.store.lent)[i]? = (list region)[i]?

namespace Kept

variable {region : Bytes} {m : Marked Borrowed}

theorem start (region : Bytes) : Kept region (Marked.start (Borrowed.new region)) :=
  ⟨rfl, Nat.le_refl _, fun _ _ => rfl⟩

theorem of_same {m' : Marked Borrowed} (h : Kept region m) (hl : m'.store.lent = m.store.lent)
    (hu : Store.used m' ≤ Store.used m) (hmark : m'.mark = m.mark) : Kept region m' :=
  ⟨hl ▸ h.size, hmark ▸ Nat.le_trans hu h.used_le, hl ▸ hmark ▸ h.above⟩

theorem write {p n : Nat} {new : Bytes} (h : Kept region m) (hp : p + new.size ≤ n)
    (hn : n ≤ Store.capacity m) :
    Kept region (Store.setUsed n (Store.setRegion ((Store.region m).overwrite p new) m)) := by
  obtain ⟨hsize, habove⟩ := Borrowed.lent_overwrite (b := m.store) (Nat.le_trans hp hn)
  have hused := (Store.setUsed_overwrite hp hn).1
  refine ⟨hsize.trans h.size, Nat.le_max_right _ _, fun i hi => ?_⟩
  rw [Marked.mark_setUsed, hused] at hi
  change max m.mark n ≤ i at hi
  exact (habove i (by omega)).trans (h.above i (by omega))

theorem patch {p : Nat} {new : Bytes} (h : Kept region m) (hp : p + new.size ≤ Store.used m) :
    Kept region (Store.setRegion ((Store.region m).overwrite p new) m) := by
  have hu : Store.used m ≤ m.mark := h.used_le
  have hroom := Nat.le_trans hp (Store.used_le_capacity m.store)
  obtain ⟨hsize, habove⟩ := Borrowed.lent_overwrite (b := m.store) hroom
  have hused := (Store.used_overwrite hp).1
  exact ⟨hsize.trans h.size, Nat.le_trans (Nat.le_of_eq hused) hu, fun i hi =>
    (habove i (Nat.le_trans hp (Nat.le_trans hu hi))).trans (h.above i hi)⟩

theorem reserve {m' : Marked Borrowed} {needed : Nat} {moved : Bool} (h : Kept region m)
    (hr : Store.reserve needed m = .ok moved m') : Kept region m' :=
  h.of_same (Borrowed.lent_reserve (Noted.of_reserve_ok hr).1)
    (Nat.le_of_eq (Store.of_reserve_ok hr).2.1) (Marked.mark_reserve hr)

theorem shrinkToFit {m' : Marked Borrowed} {u : Unit} (h : Kept region m)
    (hr : Store.shrinkToFit m = .ok u m') : Kept region m' :=
  h.of_same (Borrowed.lent_shrinkToFit (Noted.of_lift_ok hr).1)
    (Nat.le_of_eq (Store.of_shrinkToFit_ok hr).2.1) (Marked.mark_shrinkToFit hr)

theorem upheld (region : Bytes) : Upheld (Kept region) (Kept region) :=
  .of_invariant reserve write patch

end Kept

/-- The content is in the lent region of `room` bytes, or has been moved to a larger one. -/
structure Housed (room : Nat) (m : Marked Borrowed) : Prop where
  size : m.store.lent.size = room
  place : m.store.isBorrowed = false → room < Store.capacity m

namespace Housed

variable {room : Nat} {m : Marked Borrowed}

theorem le_capacity (h : Housed room m) : room ≤ Store.capacity m.store := by
  cases hb : m.store.isBorrowed with
  | false => exact Nat.le_of_lt (h.place hb)
  | true =>
    rw [Store.capacity, Borrowed.region_of_isBorrowed hb]
    exact Nat.le_of_eq h.size.symm

theorem of_same {m' : Marked Borrowed} (h : Housed room m)
    (hl : m'.store.lent.size = m.store.lent.size)
    (hb : m'.store.isBorrowed = m.store.isBorrowed)
    (hc : Store.capacity m' = Store.capacity m) : Housed room m' :=
  ⟨hl.trans h.size, fun haway => hc ▸ h.place (hb.symm.trans haway)⟩

theorem reserve {m' : Marked Borrowed} {needed : Nat} {moved : Bool} (h : Housed room m)
    (hr : Store.reserve needed m = .ok moved m') : Housed room m' := by
  rcases Borrowed.reserve_cases (Noted.of_reserve_ok hr).1 with ⟨-, hb⟩ | ⟨-, hlt, -, hl⟩
  · exact h.of_same (congrArg (·.lent.size) hb) (congrArg Borrowed.isBorrowed hb)
      (congrArg (Store.capacity (σ := Borrowed)) hb)
  · have hroom : needed ≤ Store.capacity m' := (Store.of_reserve_ok hr).2.2
    exact ⟨hl ▸ h.size, fun _ => Nat.lt_of_le_of_lt h.le_capacity (Nat.lt_of_lt_of_le hlt hroom)⟩

theorem write {p n : Nat} {new : Bytes} (h : Housed room m) (hp : p + new.size ≤ n)
    (hn : n ≤ Store.capacity m) :
    Housed room (Store.setUsed n (Store.setRegion ((Store.region m).overwrite p new) m)) :=
  h.of_same (Borrowed.lent_overwrite (b := m.store) (Nat.le_trans hp hn)).1
    (Borrowed.isBorrowed_setRegion _ m.store) (Store.setUsed_overwrite hp hn).2

theorem patch {p : Nat} {new : Bytes} (h : Housed room m) (hp : p + new.size ≤ Store.used m) :
    Housed room (Store.setRegion ((Store.region m).overwrite p new) m) :=
  have hroom := Nat.le_trans hp (Store.used_le_capacity m)
  h.of_same (Borrowed.lent_overwrite (b := m.store) hroom).1
    (Borrowed.isBorrowed_setRegion _ m.store) (Store.used_overwrite hp).2

theorem upheld (room : Nat) : Upheld (Housed room) (Housed room) :=
  .of_invariant reserve write patch

end Housed

namespace Borrowed

/-- The content is away from the lent region, whose bytes are these. -/
def Away (lent : Bytes) (b : Borrowed) : Prop := b.isBorrowed = false ∧ b.lent = lent

theorem away_stable (lent : Bytes) : Stable (Away lent) := by
  intro b b' hreach h
  induction hreach with
  | refl => exact h
  | reserve _ hr ih =>
    obtain ⟨hb, hl⟩ := ih
    rcases reserve_cases hr with ⟨-, rfl⟩ | ⟨-, -, hb', hl'⟩
    · exact ⟨hb, hl⟩
    · exact ⟨hb', hl'.trans hl⟩
  | setRegion r _ ih =>
    obtain ⟨hb, hl⟩ := ih
    refine ⟨(isBorrowed_setRegion r _).trans hb, ?_⟩
    rw [lent_setRegion, hb]
    exact hl
  | setUsed n _ ih => exact ih
  | shrinkToFit _ hr ih =>
    rcases shrinkToFit_cases hr with ⟨-, rfl⟩ | ⟨-, hb, hl⟩
    · exact ih
    · exact ⟨hb, hl.trans ih.2⟩
  | release _ ih => exact ⟨rfl, ih.2⟩

end Borrowed

namespace Call

theorem run_kept (region : Bytes) (c : Call) : Matches (Traced (Kept region)) c.run c.run := by
  refine c.run_parallel (Kept.upheld region).parallel (fun _ _ => trivial) ?_ fun _ _ _ => id
  rintro hroom _ m ⟨rfl, h⟩
  rcases c.eq_of_givesUpRoom hroom with rfl | rfl
  · exact (Noted.shrinkToFit_traced h h.shrinkToFit).map _
  · exact .ok ⟨rfl, h.of_same rfl (Nat.zero_le _) rfl⟩

/-- Only a call that sets a section has a used length in between that is larger than those before and
after it. -/
theorem mark_run {σ : Type} [Store σ] [LawfulStore σ] {c : Call} (hc : ¬ c.SetsSection) {m : Marked σ}
    (hm : Store.used m ≤ m.mark) :
    (Update.final (c.run m)).mark = max m.mark (Store.used (Update.final (c.run m))) := by
  have hrun : Leads (Traced fun m' : Marked σ => m'.mark = m.mark ∧ Store.used m' ≤ m.mark)
      (Traced fun m' => m'.mark = max m.mark (Store.used m')) c.run c.run := by
    refine c.run_parallel (Marked.rises m.mark).parallel (fun _ _ => trivial) ?_ fun h => (hc h).elim
    rintro hroom _ m' ⟨rfl, hmark, hu⟩
    rcases c.eq_of_givesUpRoom hroom with rfl | rfl
    · refine (Noted.shrinkToFit_traced ?_ fun hr => ?_).map _
      · rw [Nat.max_eq_left hu, hmark]
      · rw [Marked.mark_shrinkToFit hr, (Store.of_shrinkToFit_ok hr).2.1, Nat.max_eq_left hu, hmark]
    · refine .ok ⟨rfl, ?_⟩
      change m'.mark = max m.mark (Store.used (Store.release m'))
      rw [Store.used_release, Nat.max_zero, hmark]
  exact (hrun m.store m ⟨rfl, rfl, hm⟩).final.2

/-- The content leaves the lent region for a larger one, or by a call that gives up room. -/
theorem leaves_cases {c : Call} {b : Borrowed} (hb : b.isBorrowed = true)
    (h : (Update.final (c.run b)).isBorrowed = false) :
    b.lent.size < Store.capacity (Update.final (c.run b)) ∨
      c = .edit .shrinkToFit ∧ Store.used b < b.lent.size ∨ c = .edit .clear := by
  by_cases hroom : c.GivesUpRoom
  · rcases c.eq_of_givesUpRoom hroom with rfl | rfl
    · have hle := Store.used_le_capacity b
      have hcap : Store.capacity b = b.lent.size := by
        rw [Store.capacity, Borrowed.region_of_isBorrowed hb]
      obtain ⟨b', hs, -⟩ := LawfulStore.shrinkToFit_ok b
      rw [run, Edit.run, Update.map_of_ok hs] at h
      rcases Borrowed.shrinkToFit_cases hs with ⟨-, rfl⟩ | ⟨hne, -⟩
      · cases h.symm.trans hb
      · exact .inr (.inl ⟨rfl, by omega⟩)
    · exact .inr (.inr rfl)
  · have hrun : Matches (Traced (Housed b.lent.size)) c.run c.run :=
      c.run_parallel (Housed.upheld _).parallel (fun _ _ => trivial) (fun h => (hroom h).elim)
        fun _ _ _ => id
    have hstart : Housed b.lent.size (Marked.start b) := ⟨rfl, fun hb' => by cases hb.symm.trans hb'⟩
    obtain ⟨hstore, hend⟩ := (hrun b (Marked.start b) ⟨rfl, hstart⟩).final
    rw [← hstore] at h ⊢
    exact .inl (hend.place h)

theorem runAll_away (later : List Call) {b : Borrowed} (hb : b.isBorrowed = false) :
    (Update.runAll run later b).2.Away b.lent := by
  have hrun : ∀ c ∈ later, Matches (Agree (τ := Borrowed) (fun _ => True) (Borrowed.Away b.lent))
      c.run c.run := fun c _ => c.run_agrees closed_true (Borrowed.away_stable b.lent) fun _ _ => trivial
  exact (Matches.runAll hrun (t := b) ⟨rfl, rfl, trivial, hb, rfl⟩).2.side

end Call

/-- The mark counts the used lengths that a call which sets a section has in between. Any other call
raises it to the used length after the call at most. -/
theorem lent_region_kept (region : Bytes) (calls : List Call) (c : Call) :
    let plain := Update.runAll Call.run calls (Borrowed.new region)
    let marked := Update.runAll Call.run calls (Marked.start (Borrowed.new region))
    let b := plain.2
    let m := marked.2
    let b' := Update.final (c.run b)
    let m' := Update.final (c.run m)
    (marked.1 = plain.1 ∧ m.store = b ∧ m'.store = b') ∧
    (b.used ≤ m.mark ∧ (¬ c.SetsSection → m'.mark = max m.mark b'.used)) ∧
    (b.lent.size = region.size ∧ ∀ i, m.mark ≤ i → (list b.lent)[i]? = (list region)[i]?) ∧
    (b.isBorrowed = true → b'.isBorrowed = false → region.size < Store.capacity b' ∨
      c = .edit .shrinkToFit ∧ b.used < region.size ∨ c = .edit .clear) ∧
    (b.isBorrowed = false → ∀ later, (Update.runAll Call.run later b).2.isBorrowed = false ∧
      (Update.runAll Call.run later b).2.lent = b.lent) ∧
    ∀ s : Borrowed,
      (∀ needed moved s', Store.reserve needed s = .ok moved s' →
        s'.lent = s.lent ∧ Store.content s' = Store.content s) ∧
      ((Update.final (Store.shrinkToFit s)).lent = s.lent ∧
        Store.content (Update.final (Store.shrinkToFit s)) = Store.content s) ∧
      (Store.release s).lent = s.lent ∧ Store.content (Store.release s) = .empty := by
  intro plain marked b m b' m'
  have hkeep : ∀ d ∈ calls, Matches (Traced (Kept region)) d.run d.run :=
    fun d _ => d.run_kept region
  obtain ⟨hanswers, hstore, hkept⟩ := Matches.runAll hkeep ⟨rfl, Kept.start region⟩
  have hused : Store.used m ≤ m.mark := hkept.used_le
  have hnext : m'.store = b' := (c.run_kept region b m ⟨hstore, hkept⟩).final.1
  have hb : m.store = b := hstore
  have hsize : b.lent.size = region.size := hb ▸ hkept.size
  refine ⟨⟨hanswers.symm, hb, hnext⟩, ⟨hb ▸ hused, fun hc => ?_⟩, ⟨hsize, hb ▸ hkept.above⟩,
    fun hlent haway => hsize ▸ Call.leaves_cases hlent haway,
    fun haway later => Call.runAll_away later haway, fun s => ⟨fun _ _ _ hs => ?_, ?_, ?_⟩⟩
  · rw [← hnext]
    exact Call.mark_run hc hused
  · exact ⟨Borrowed.lent_reserve hs, (Store.of_reserve_ok hs).1⟩
  · exact Borrowed.final_shrinkToFit s
  · exact ⟨rfl, LawfulStore.content_release s⟩

/-- The first entry grows before the second is cut out, so byte 40 is written although no more than
40 bytes are used before and after. Clearing leaves the region, and the content is gone. -/
theorem lent_region_overrun :
    let region : Bytes := ⟨Array.replicate 64 255⟩
    let calls : List Call := [.edit (.append (some "a") .unknown),
      .edit (.append none (.binary ⟨Array.replicate 20 7⟩)),
      .setSection "a" [.binary ⟨Array.replicate 9 9⟩]]
    let after := fun n => (Update.runAll Call.run (calls.take n) (Borrowed.new region)).2
    let cleared := Update.final ((Call.edit .clear).run (after 3))
    (List.range 4).map (fun n => (after n).used) = [0, 12, 40, 28] ∧
      (after 3).isBorrowed = true ∧ (list region)[40]? = some 255 ∧
      (list (after 3).lent)[40]? = some 7 ∧
      Store.content cleared ≠ Store.content (after 3) ∧ cleared.isBorrowed = false := by
  decide +kernel

end TaggedBuffer
