import TaggedBuffer.Proofs.Record.Writing
import TaggedBuffer.Proofs.Store.Laws

namespace TaggedBuffer

variable {σ : Type} [Store σ]

/-- What storage can become by the steps that it offers. -/
inductive Reaches : σ → σ → Prop
  | refl (s : σ) : Reaches s s
  | reserve {s s' s'' : σ} [Allocator] {needed : Nat} {moved : Bool} :
      Reaches s s' → Store.reserve needed s' = .ok moved s'' → Reaches s s''
  | setRegion {s s' : σ} (r : Bytes) : Reaches s s' → Reaches s (Store.setRegion r s')
  | setUsed {s s' : σ} (n : Nat) : Reaches s s' → Reaches s (Store.setUsed n s')
  | shrinkToFit {s s' s'' : σ} [Allocator] :
      Reaches s s' → Store.shrinkToFit s' = .ok () s'' → Reaches s s''
  | release {s s' : σ} : Reaches s s' → Reaches s (Store.release s')

/-- What is known of storage and kept by its steps. -/
def Stable (Q : σ → Prop) : Prop := ∀ s s', Reaches s s' → Q s → Q s'

theorem Reaches.trans {s s' s'' : σ} (h : Reaches s s') (h' : Reaches s' s'') : Reaches s s'' := by
  induction h' with
  | refl => exact h
  | reserve _ hr ih => exact .reserve ih hr
  | setRegion r _ ih => exact .setRegion r ih
  | setUsed n _ ih => exact .setUsed n ih
  | shrinkToFit _ hr ih => exact .shrinkToFit ih hr
  | release _ ih => exact .release ih

theorem Buffer.bind_content {α : Type} (f : Bytes → Update σ α) (s : σ) :
    (Buffer.content >>= f : Update σ α) s = f (Store.content s) s := rfl

theorem writeRegion_run {α : Type} {w : Update Bytes α} {s : σ} {a : α} {r : Bytes}
    (h : w (Store.region s) = .ok a r) :
    Buffer.writeRegion w s = .ok a (Store.setRegion r s) := by
  rw [Buffer.writeRegion, h]

theorem writeRegion_fault {α : Type} {w : Update Bytes α} {s : σ} {e : Error} {r : Bytes}
    (h : w (Store.region s) = .error e r) :
    Buffer.writeRegion w s = .error e (Store.setRegion r s) := by
  rw [Buffer.writeRegion, h]

theorem writeRegion_modify (g : Bytes → Bytes) (s : σ) : Buffer.writeRegion (modify g) s =
    .ok () (Store.setRegion (g (Store.region s)) s) := rfl

variable [LawfulStore σ]

namespace Store

theorem capacity_setRegion {s : σ} {r : Bytes} (h : r.size = capacity s) :
    capacity (setRegion r s) = capacity s := by
  rw [capacity, LawfulStore.region_setRegion h, h]

theorem content_setRegion {s : σ} {r : Bytes} (h : r.size = capacity s) :
    content (setRegion r s) = r.extract 0 (used s) := by
  rw [content, LawfulStore.region_setRegion h, LawfulStore.used_setRegion h]

theorem capacity_setUsed {s : σ} {n : Nat} (h : n ≤ capacity s) :
    capacity (setUsed n s) = capacity s := by
  rw [capacity, LawfulStore.region_setUsed h, capacity]

theorem content_setUsed {s : σ} {n : Nat} (h : n ≤ capacity s) :
    content (setUsed n s) = (region s).extract 0 n := by
  rw [content, LawfulStore.region_setUsed h, LawfulStore.used_setUsed h]

theorem exists_region (s : σ) :
    ∃ slack, region s = content s ++ slack ∧ slack.size = capacity s - used s := by
  have hu := used_le_capacity s
  refine ⟨(region s).extract (used s) (capacity s), ?_, ?_⟩
  · rw [content, ByteArray.extract_append_extract, Nat.zero_min, Nat.max_eq_right hu, capacity,
      ByteArray.extract_zero_size]
  · rw [ByteArray.size_extract, capacity, Nat.min_self]

theorem content_setUsed_setRegion {s : σ} {r : Bytes} {n : Nat} (hr : r.size = capacity s)
    (hn : n ≤ capacity s) : content (setUsed n (setRegion r s)) = r.extract 0 n ∧
      capacity (setUsed n (setRegion r s)) = capacity s := by
  have hc := capacity_setRegion hr
  refine ⟨?_, ?_⟩
  · rw [content_setUsed (by omega), LawfulStore.region_setRegion hr]
  · rw [capacity_setUsed (by omega), hc]

theorem setUsed_overwrite {s : σ} {p n : Nat} {new : Bytes} (hp : p + new.size ≤ n)
    (hn : n ≤ capacity s) :
    used (setUsed n (setRegion ((region s).overwrite p new) s)) = n ∧
      capacity (setUsed n (setRegion ((region s).overwrite p new) s)) = capacity s := by
  have hover : ((region s).overwrite p new).size = (region s).size :=
    Bytes.size_overwrite (Nat.le_trans hp hn)
  have hcap := capacity_setRegion hover
  have hroom : n ≤ capacity (setRegion ((region s).overwrite p new) s) := hcap ▸ hn
  exact ⟨LawfulStore.used_setUsed hroom, (capacity_setUsed hroom).trans hcap⟩

theorem used_overwrite {s : σ} {p : Nat} {new : Bytes} (hp : p + new.size ≤ used s) :
    used (setRegion ((region s).overwrite p new) s) = used s ∧
      capacity (setRegion ((region s).overwrite p new) s) = capacity s := by
  have hover : ((region s).overwrite p new).size = (region s).size :=
    Bytes.size_overwrite (Nat.le_trans hp (used_le_capacity s))
  exact ⟨LawfulStore.used_setRegion hover, capacity_setRegion hover⟩

end Store

theorem writeRegion_over {α : Type} {w : Update Bytes α} {s : σ} {a : α} {x y z record : Bytes}
    (hs : Store.content s = x ++ y ++ z) (hy : y.size = record.size)
    (hw : w (Store.region s) = .ok a ((Store.region s).overwrite x.size record)) :
    ∃ s', Buffer.writeRegion w s = .ok a s' ∧ Store.content s' = x ++ record ++ z ∧
      Store.capacity s' = Store.capacity s ∧ Reaches s s' := by
  obtain ⟨slack, hr, hl⟩ := Store.exists_region s
  have hover : (Store.region s).overwrite x.size record = x ++ record ++ z ++ slack := by
    have := Bytes.overwrite_middle (x := x) (z := z ++ slack) hy
    rw [hr, hs]
    simpa only [ByteArray.append_assoc] using this
  have hused : Store.used s = (x ++ record ++ z).size := by
    rw [← Store.size_content, hs]
    simp only [ByteArray.size_append, hy]
  have hsize : (x ++ record ++ z ++ slack).size = Store.capacity s := by
    have := Store.used_le_capacity s
    rw [ByteArray.size_append, ← hused, hl]
    omega
  rw [hover] at hw
  refine ⟨_, writeRegion_run hw, ?_, Store.capacity_setRegion hsize, .setRegion _ (.refl s)⟩
  rw [Store.content_setRegion hsize, ByteArray.extract_append_eq_left hused]

end TaggedBuffer
