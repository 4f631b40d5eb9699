import TaggedBuffer.Buffer.Items
import TaggedBuffer.Proofs.Buffer.Edits
import TaggedBuffer.Proofs.Store.Placed

namespace TaggedBuffer

open Content (encoded)
open Buffer (pairsSize checkEntry)

/-- That many bytes fit into the region at hand, or a region of the padded size can be made. -/
def HasRoom (capacity needed : Nat) : Prop :=
  needed ≤ capacity ∨ (needed + needed / 2 + 63) / 64 * 64 < 2 ^ 63

theorem HasRoom.mono {capacity capacity' needed needed' : Nat} (h : HasRoom capacity needed)
    (hc : capacity ≤ capacity') (hn : needed' ≤ needed) : HasRoom capacity' needed' := by
  rcases h with h | h
  · exact .inl (Nat.le_trans hn (Nat.le_trans h hc))
  · refine .inr (Nat.lt_of_le_of_lt ?_ h)
    omega

theorem capacity_le_of_roomFor {capacity needed c : Nat} (h : roomFor capacity needed = .ok c) :
    capacity ≤ c := by
  by_cases hn : needed ≤ capacity
  · rw [roomFor_of_le hn] at h
    cases h
    exact Nat.le_refl _
  · have := le_of_roomFor h
    omega

theorem hasRoom_iff {capacity needed : Nat} :
    HasRoom capacity needed ↔ ∃ c, roomFor capacity needed = .ok c := roomFor_ok_iff.symm

variable {σ : Type} [Store σ] {α β : Type}

/-- The run ends as said and in no less room than before, or more room was denied. Where memory does not
run out, there was no room for `bound` bytes then. -/
inductive Within [Allocator] (bound : Nat) (s : σ) (post : α → σ → Prop) :
    EStateM.Result Error σ α → Prop
  | ok {a : α} {s' : σ} : post a s' → Store.capacity s ≤ Store.capacity s' →
      Within bound s post (.ok a s')
  | full {e : Error} {s' : σ} : e.IsAllocation →
      (Allocator.Ample → ¬ HasRoom (Store.capacity s) bound) → Within bound s post (.error e s')

namespace Within

variable [Allocator] {bound : Nat} {s : σ} {post : α → σ → Prop}

theorem pure {a : α} (h : post a s) : Within bound s post (.ok a s) := .ok h (Nat.le_refl _)

theorem mono {post' : α → σ → Prop} {r : EStateM.Result Error σ α} (h : Within bound s post r)
    (hp : ∀ a s', post a s' → post' a s') : Within bound s post' r := by
  cases h with
  | ok hpost hc => exact .ok (hp _ _ hpost) hc
  | full he hr => exact .full he hr

theorem after {s' : σ} {r : EStateM.Result Error σ α} (h : Within bound s' post r)
    (hc : Store.capacity s ≤ Store.capacity s') : Within bound s post r := by
  cases h with
  | ok hpost hc' => exact .ok hpost (Nat.le_trans hc hc')
  | full he hr => exact .full he fun hample hroom => hr hample (hroom.mono hc (Nat.le_refl _))

theorem bind {m : Update σ α} {f : α → Update σ β} {post' : β → σ → Prop}
    (h : Within bound s post (m s)) (hf : ∀ a s', post a s' → Within bound s' post' (f a s')) :
    Within bound s post' ((m >>= f) s) := by
  generalize hm : m s = r at h
  cases h with
  | ok hpost hc =>
    rw [Update.bind_of_ok hm]
    exact (hf _ _ hpost).after hc
  | full he hr =>
    rw [Update.bind_of_error hm]
    exact .full he hr

theorem of_ok {m : Update σ α} (h : Within bound s post (m s)) {a : α} {s' : σ}
    (hm : m s = .ok a s') : post a s' := by
  rw [hm] at h
  cases h with
  | ok hpost hc => exact hpost

theorem of_error {m : Update σ α} (h : Within bound s post (m s)) {e : Error} {s' : σ}
    (hm : m s = .error e s') : e.IsAllocation := by
  rw [hm] at h
  cases h with
  | full he hr => exact he

end Within

theorem Within.exists_ok {bound : Nat} {s : σ} {post : α → σ → Prop} {m : Update σ α}
    (h : Within bound s post (m s)) (hr : HasRoom (Store.capacity s) bound) :
    ∃ a s', m s = .ok a s' ∧ post a s' := by
  generalize hm : m s = r at h
  cases h with
  | ok hpost hc => exact ⟨_, _, rfl, hpost⟩
  | full he hno => exact (hno Allocator.ample_unbounded hr).elim

variable [Allocator]

/-- An update whose rule accepts fails for want of room for the new content only. -/
theorem Edits.within {m : Update σ α} {f : Bytes → Except Error (α × Bytes)} {s : σ} {a : α}
    {b : Bytes} {bound : Nat} (h : Edits m f s) (hf : f (Store.content s) = .ok (a, b))
    (hb : b.size ≤ bound) :
    Within bound s (fun a' s' => a' = a ∧ Store.content s' = b) (m s) := by
  have hrun := h.accepted hf
  generalize m s = r at hrun
  cases hrun with
  | done hcontent hroom => exact .ok ⟨rfl, hcontent⟩ (capacity_le_of_roomFor hroom)
  | denied hdenied =>
    refine .full hdenied.isAllocation fun hample hroom => ?_
    obtain ⟨c, hc⟩ := hasRoom_iff.1 (hroom.mono (Nat.le_refl _) hb)
    rw [hc] at hdenied
    exact hdenied.not_ample hample

variable [LawfulStore σ]

namespace Buffer

variable {s : σ} {bound : Nat}

omit [Store σ] [Allocator] [LawfulStore σ] in
theorem size_after_append {src : Bytes} (name : Option String) (v : Value)
    (h : src.size % 4 = 0) : (src ++ entryRecord name v).size % 4 = 0 ∧
      (src ++ entryRecord name v).size = src.size + entrySize name v := by
  have hmod := entrySize_mod name v
  rw [ByteArray.size_append, size_entryRecord]
  omega

theorem append_within {name : Option String} {v : Value} (hs : (Store.content s).size % 4 = 0)
    (hc : checkEntry name v = .ok ())
    (hb : (Store.content s).size + entrySize name v ≤ bound) :
    Within bound s (fun p s' => p = (Store.content s).size ∧
      Store.content s' = Store.content s ++ entryRecord name v) (append name v s) := by
  have hmod : Store.used s % 4 = 0 := by rwa [← Store.size_content]
  apply (append_edits name v hmod).within
  · rw [Content.appended, hc]
    rfl
  · rwa [ByteArray.size_append, size_entryRecord]

/-- Once the first entry is added the others find the content behind it. -/
theorem append_bind_within {pair : Pair} {pairs : List Pair} {f : Nat → Update σ β}
    (hs : (Store.content s).size % 4 = 0)
    (hc : ∀ p ∈ pair :: pairs, checkEntry p.1 p.2 = .ok ())
    (hb : (Store.content s).size + pairsSize (pair :: pairs) ≤ bound)
    (hf : ∀ p (s₁ : σ), (Store.content s₁).size % 4 = 0 →
      (∀ p ∈ pairs, checkEntry p.1 p.2 = .ok ()) →
      (Store.content s₁).size + pairsSize pairs ≤ bound →
      Within bound s₁ (fun _ s' => Store.content s' = Store.content s₁ ++ encoded pairs) (f p s₁)) :
    Within bound s (fun _ s' => Store.content s' = Store.content s ++ encoded (pair :: pairs))
      ((append pair.1 pair.2 >>= f) s) := by
  obtain ⟨hpair, hrest⟩ := List.forall_mem_cons.1 hc
  obtain ⟨hmod, hsize⟩ := size_after_append pair.1 pair.2 hs
  rw [Content.pairsSize_cons, ← Nat.add_assoc] at hb
  apply (append_within hs hpair (Nat.le_of_add_right_le hb)).bind
  rintro p s₁ ⟨-, h₁⟩
  rw [← h₁] at hmod hsize
  apply (hf p s₁ hmod hrest (hsize ▸ hb)).mono
  intro _ s₂ h₂
  rw [h₂, h₁, ByteArray.append_assoc, encoded]

theorem appendAll_within {pairs : List Pair} (hs : (Store.content s).size % 4 = 0)
    (hc : ∀ pair ∈ pairs, checkEntry pair.1 pair.2 = .ok ())
    (hb : (Store.content s).size + pairsSize pairs ≤ bound) :
    Within bound s (fun _ s' => Store.content s' = Store.content s ++ encoded pairs)
      (appendAll pairs s) := by
  induction pairs generalizing s with
  | nil => exact .pure ByteArray.append_empty.symm
  | cons pair pairs ih =>
    exact append_bind_within hs hc hb fun _ s₁ hmod hrest hbound => ih hmod hrest hbound

theorem appendPairs_within {pairs : List Pair} (hs : (Store.content s).size % 4 = 0)
    (hc : ∀ pair ∈ pairs, checkEntry pair.1 pair.2 = .ok ())
    (hb : (Store.content s).size + pairsSize pairs ≤ bound) :
    Within bound s (fun _ s' => Store.content s' = Store.content s ++ encoded pairs)
      (appendPairs pairs s) := by
  cases pairs with
  | nil => exact .pure ByteArray.append_empty.symm
  | cons pair pairs =>
    exact append_bind_within hs hc hb fun _ s₁ hmod hrest hbound =>
      (appendAll_within hmod hrest hbound).bind fun _ _ h => .pure h

section InPlace

variable [Placed σ] {c : Nat} {l : Place}

theorem append_in_place {name : Option String} {v : Value} (hs : Stays c l s)
    (hmod : (Store.content s).size % 4 = 0) (hc : checkEntry name v = .ok ())
    (hroom : (Store.content s).size + entrySize name v ≤ c) :
    ∃ s', append name v s = .ok (Store.used s) s' ∧ Stays c l s' ∧
      Store.content s' = Store.content s ++ entryRecord name v := by
  have hsize := Store.size_content s
  have hcap : Store.used s + entrySize name v ≤ Store.capacity s := by
    rw [hs.capacity, ← hsize]
    exact hroom
  have hrun : append name v s = .ok (Store.used s)
      (Store.setUsed (Store.used s + entrySize name v)
        (Store.setRegion ((Store.region s).overwrite (Store.used s) (entryRecord name v)) s)) := by
    rw [append, Update.bind_check_ok hc, Update.bind_get,
      Update.bind_of_ok (hs.reserve (hsize ▸ hroom)),
      Update.bind_of_ok (writeRegion_run (writeEntry_run hc (hsize ▸ hmod) hcap))]
    rfl
  have hfit := Nat.le_of_eq (congrArg (Store.used s + ·) (size_entryRecord name v))
  obtain ⟨halone, hplace⟩ := Placed.setRegion
    ((Store.region s).overwrite (Store.used s) (entryRecord name v)) hs.alone
  obtain ⟨halone', hplace'⟩ := Placed.setUsed (Store.used s + entrySize name v) halone
  exact ⟨_, hrun, ⟨halone', (Store.setUsed_overwrite hfit hcap).2.trans hs.capacity,
    (hplace'.trans hplace).trans hs.place⟩,
    ((append_within hmod hc (Nat.le_refl _)).of_ok hrun).2⟩

/-- Entries that there is room for are added to the region at hand, all of them. -/
theorem appendAll_in_place {pairs : List Pair} (hs : Stays c l s)
    (hmod : (Store.content s).size % 4 = 0)
    (hc : ∀ pair ∈ pairs, checkEntry pair.1 pair.2 = .ok ())
    (hroom : (Store.content s).size + pairsSize pairs ≤ c) :
    ∃ s', appendAll pairs s = .ok () s' ∧ Stays c l s' ∧
      Store.content s' = Store.content s ++ encoded pairs := by
  induction pairs generalizing s with
  | nil => exact ⟨s, rfl, hs, ByteArray.append_empty.symm⟩
  | cons pair pairs ih =>
    obtain ⟨hpair, hrest⟩ := List.forall_mem_cons.1 hc
    obtain ⟨hmod', hsize⟩ := size_after_append pair.1 pair.2 hmod
    rw [Content.pairsSize_cons, ← Nat.add_assoc] at hroom
    obtain ⟨s₁, h₁, hs₁, hc₁⟩ := append_in_place hs hmod hpair (Nat.le_of_add_right_le hroom)
    rw [← hc₁] at hmod' hsize
    obtain ⟨s₂, h₂, hs₂, hc₂⟩ := ih hs₁ hmod' hrest (hsize ▸ hroom)
    refine ⟨s₂, (Update.bind_of_ok h₁).trans h₂, hs₂, ?_⟩
    rw [hc₂, hc₁, ByteArray.append_assoc, encoded]

end InPlace

end Buffer

end TaggedBuffer
