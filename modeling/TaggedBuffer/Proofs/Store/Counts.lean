import TaggedBuffer.Proofs.Buffer.Write
import TaggedBuffer.Proofs.Store.Flavor
import TaggedBuffer.Store.Pool

namespace TaggedBuffer

/-- The counts with one holder more, if there is a block to hold. -/
def plus (c : Nat → Nat) (o : Option Nat) (id : Nat) : Nat := c id + if o = some id then 1 else 0

@[simp] theorem plus_none (c : Nat → Nat) : plus c none = c := by
  funext id
  simp [plus]

theorem plus_self (c : Nat → Nat) (id : Nat) : plus c (some id) id = c id + 1 := by
  simp [plus]

theorem plus_of_ne (c : Nat → Nat) {id j : Nat} (h : j ≠ id) : plus c (some id) j = c j := by
  simp [plus, Ne.symm h]

namespace Heap

/-- Each block has as many holders as the counts say, and there is none without. -/
structure Counted (h : Heap) (c : Nat → Nat) : Prop where
  absent {id : Nat} : c id = 0 → h.block? id = none
  present {id : Nat} : 0 < c id → ∃ b, h.block? id = some b ∧ b.holders = c id

def data (h : Heap) (id : Nat) : Option (Bytes × Nat) :=
  (h.block? id).map fun b => (b.region, b.used)

/-- Blocks with a holder among these have the same bytes in both. -/
def Keeps (c : Nat → Nat) (h h' : Heap) : Prop := ∀ id, 0 < c id → h'.data id = h.data id

theorem Keeps.refl (c : Nat → Nat) (h : Heap) : Keeps c h h := fun _ _ => rfl

theorem Keeps.trans {c : Nat → Nat} {h h' h'' : Heap} (hk : Keeps c h h') (hk' : Keeps c h' h'') :
    Keeps c h h'' := fun id hid => (hk' id hid).trans (hk id hid)

theorem Keeps.mono {c c' : Nat → Nat} {h h' : Heap} (hk : Keeps c' h h') (hc : ∀ id, c id ≤ c' id) :
    Keeps c h h' := fun id hid => hk id (Nat.lt_of_lt_of_le hid (hc id))

theorem block?_length (h : Heap) : h.block? h.blocks.length = none := by
  simp [block?]

theorem block?_put_ne {h : Heap} {id j : Nat} (hj : j ≠ id) (o : Option Block) :
    (h.put id o).block? j = h.block? j := by
  simp [put, block?, List.getElem?_set_ne (Ne.symm hj)]

theorem block?_add_ne {h : Heap} {j : Nat} (hj : j ≠ h.blocks.length) (b : Block) :
    (h.add b).block? j = h.block? j := by
  simp only [add, block?]
  rcases Nat.lt_or_ge j h.blocks.length with hlt | hge
  · rw [List.getElem?_append_left hlt]
  · rw [List.getElem?_eq_none (by simp; omega), List.getElem?_eq_none hge]

namespace Counted

variable {h : Heap} {c : Nat → Nat}

theorem holders_eq {id : Nat} {b : Block} (hc : Counted h c) (hb : h.block? id = some b) :
    b.holders = c id := by
  rcases Nat.eq_zero_or_pos (c id) with h0 | hpos
  · cases (hc.absent h0).symm.trans hb
  · obtain ⟨b', hb', hn⟩ := hc.present hpos
    cases hb'.symm.trans hb
    exact hn

theorem leave {id : Nat} (hc : Counted h (plus c (some id))) :
    Counted (h.leave id) c ∧ Keeps c h (h.leave id) := by
  have hself := plus_self c id
  have hpos : 0 < plus c (some id) id := by omega
  obtain ⟨b, hb, hn⟩ := hc.present hpos
  have hleave : h.leave id = h.put id
      (if b.holders ≤ 1 then none else some { b with holders := b.holders - 1 }) := by
    rw [Heap.leave, hb]
  rw [hleave]
  refine ⟨⟨?_, ?_⟩, ?_⟩
  · intro j hj
    by_cases hji : j = id
    · subst hji
      rw [block?_put hb, if_pos (by omega)]
    · rw [block?_put_ne hji]
      exact hc.absent ((plus_of_ne c hji).trans hj)
  · intro j hj
    by_cases hji : j = id
    · subst hji
      rw [block?_put hb, if_neg (by omega)]
      exact ⟨_, rfl, by dsimp only; omega⟩
    · rw [block?_put_ne hji, ← plus_of_ne c hji]
      exact hc.present (by rwa [plus_of_ne c hji])
  · intro j hj
    by_cases hji : j = id
    · subst hji
      rw [data, data, block?_put hb, if_neg (by omega), hb]
      rfl
    · rw [data, data, block?_put_ne hji]

theorem add (hc : Counted h c) (b : Block) (hb : b.holders = 1) :
    Counted (h.add b) (plus c (some h.blocks.length)) ∧ Keeps c h (h.add b) := by
  have h0 : c h.blocks.length = 0 := by
    rcases Nat.eq_zero_or_pos (c h.blocks.length) with h0 | hpos
    · exact h0
    · obtain ⟨b', hb', _⟩ := hc.present hpos
      cases h.block?_length.symm.trans hb'
  have hself := plus_self c h.blocks.length
  refine ⟨⟨?_, ?_⟩, ?_⟩
  · intro j hj
    by_cases hji : j = h.blocks.length
    · subst hji
      omega
    · rw [block?_add_ne hji]
      exact hc.absent ((plus_of_ne c hji).symm.trans hj)
  · intro j hj
    by_cases hji : j = h.blocks.length
    · subst hji
      exact ⟨b, block?_add h b, by omega⟩
    · rw [block?_add_ne hji, plus_of_ne c hji]
      exact hc.present (by rwa [plus_of_ne c hji] at hj)
  · intro j hj
    have hji : j ≠ h.blocks.length := by
      rintro rfl
      omega
    rw [data, data, block?_add_ne hji]

theorem join {id : Nat} (hc : Counted h c) (hid : 0 < c id) :
    Counted (h.join id) (plus c (some id)) ∧ ∀ j, (h.join id).data j = h.data j := by
  obtain ⟨b, hb, hn⟩ := hc.present hid
  have hjoin : h.join id = h.put id (some { b with holders := b.holders + 1 }) := by
    rw [Heap.join, hb]
  have hself := plus_self c id
  rw [hjoin]
  refine ⟨⟨?_, ?_⟩, ?_⟩
  · intro j hj
    have hji : j ≠ id := by
      rintro rfl
      omega
    rw [block?_put_ne hji]
    exact hc.absent ((plus_of_ne c hji).symm.trans hj)
  · intro j hj
    by_cases hji : j = id
    · subst hji
      exact ⟨_, block?_put hb _, by dsimp only; omega⟩
    · rw [block?_put_ne hji, plus_of_ne c hji]
      exact hc.present (by rwa [plus_of_ne c hji] at hj)
  · intro j
    by_cases hji : j = id
    · subst hji
      rw [data, data, block?_put hb, hb]
      rfl
    · rw [data, data, block?_put_ne hji]

theorem put {id : Nat} {b : Block} (b' : Block) (hc : Counted h (plus c (some id)))
    (hb : h.block? id = some b) (h1 : b.holders ≤ 1) (hn : b'.holders = b.holders) :
    Counted (h.put id (some b')) (plus c (some id)) ∧ Keeps c h (h.put id (some b')) := by
  have hcount := hc.holders_eq hb
  have hself := plus_self c id
  refine ⟨⟨?_, ?_⟩, ?_⟩
  · intro j hj
    have hji : j ≠ id := by
      rintro rfl
      omega
    rw [block?_put_ne hji]
    exact hc.absent hj
  · intro j hj
    by_cases hji : j = id
    · subst hji
      exact ⟨b', block?_put hb _, by omega⟩
    · rw [block?_put_ne hji]
      exact hc.present hj
  · intro j hj
    have hji : j ≠ id := by
      rintro rfl
      omega
    rw [data, data, block?_put_ne hji]

end Counted

end Heap

theorem le_plus (c : Nat → Nat) (o : Option Nat) (id : Nat) : c id ≤ plus c o id :=
  Nat.le_add_right _ _

theorem plus_comm (c : Nat → Nat) (o o' : Option Nat) : plus (plus c o) o' = plus (plus c o') o := by
  funext id
  simp only [plus]
  omega

namespace Shared

theorem id_leave (s : Shared) : s.leave.id = none := by
  rw [leave]
  split
  · rfl
  next h => exact h

/-- Besides this handle there are others, counted by `c`, whose blocks are as they are on the heap
`h`. -/
structure Isolated (c : Nat → Nat) (h : Heap) (s : Shared) : Prop where
  counted : s.heap.Counted (plus c s.id)
  keeps : Heap.Keeps c h s.heap

variable {c : Nat → Nat} {h : Heap} {s : Shared}

namespace Isolated

theorem leave (hs : Isolated c h s) : Isolated c h s.leave := by
  obtain ⟨heap, o⟩ := s
  cases o with
  | none => exact hs
  | some id =>
    obtain ⟨hc, hk⟩ := hs.counted.leave
    exact ⟨(plus_none c).symm ▸ hc, hs.keeps.trans hk⟩

theorem moveTo (hs : Isolated c h s) (r : Bytes) (u : Nat) : Isolated c h (s.moveTo r u) := by
  have hl := hs.leave
  have hcounted := hl.counted
  rw [s.id_leave, plus_none] at hcounted
  obtain ⟨hc, hk⟩ := hcounted.add ⟨r, min u r.size, 1, Nat.min_le_right _ _⟩ rfl
  exact ⟨hc, hl.keeps.trans hk⟩

theorem write (hs : Isolated c h s) (r : Bytes) (u : Nat) : Isolated c h (s.write r u) := by
  rw [Shared.write]
  split
  next id b hid hb =>
    split
    next h1 =>
      rw [block?, hid] at hb
      have hcounted := hs.counted
      rw [hid] at hcounted
      obtain ⟨hc, hk⟩ :=
        hcounted.put ⟨r, min u r.size, b.holders, Nat.min_le_right _ _⟩ hb h1 rfl
      rw [hid]
      exact ⟨hc, hs.keeps.trans hk⟩
    · exact hs.moveTo r u
  · exact hs

end Isolated

theorem stable_of {Q : Shared → Prop} (hleave : ∀ s : Shared, Q s → Q s.leave)
    (hmove : ∀ (s : Shared) r u, Q s → Q (s.moveTo r u))
    (hwrite : ∀ (s : Shared) r u, Q s → Q (s.write r u)) : Stable Q := by
  intro s s' hreach hs
  induction hreach with
  | refl => exact hs
  | @reserve s' s'' _ needed moved _ hr ih =>
    rcases of_relocate_ok hr with rfl | ⟨r, rfl⟩
    · exact ih
    · exact hmove s' r _ ih
  | @setRegion s' r _ ih => exact hwrite s' r _ ih
  | @setUsed s' n _ ih => exact hwrite s' _ n ih
  | @shrinkToFit s' s'' _ _ hr ih =>
    change Shared.shrinkToFit s' = .ok () s'' at hr
    rw [Shared.shrinkToFit] at hr
    split at hr
    · cases hr
      exact hleave s' ih
    · obtain ⟨moved, hr, -⟩ := Update.of_map_ok hr
      rcases of_relocate_ok hr with rfl | ⟨r, rfl⟩
      · exact ih
      · exact hmove s' r _ ih
  | @release s' _ ih => exact hleave s' ih

/-- No step of this handle touches what the others hold. -/
theorem isolated_stable (c : Nat → Nat) (h : Heap) : Stable (Isolated c h) :=
  stable_of (fun _ hs => hs.leave) (fun _ r u hs => hs.moveTo r u) fun _ r u hs => hs.write r u

end Shared

end TaggedBuffer
