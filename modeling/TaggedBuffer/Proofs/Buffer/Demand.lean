import TaggedBuffer.Proofs.Buffer.Noted
import TaggedBuffer.Proofs.Store.Placed

namespace TaggedBuffer

/-- How much room was made: the largest number of bytes asked for, and whether there is a new region. -/
structure Demand where
  most : Nat
  moved : Bool
  deriving DecidableEq

namespace Demand

def none : Demand := ⟨0, false⟩

def also (d d' : Demand) : Demand := ⟨max d.most d'.most, d.moved || d'.moved⟩

end Demand

/-- Room that could not be made is left out. -/
instance : Note Demand where
  reserved needed moved demand := demand.also ⟨needed, moved⟩
  used _ := id

abbrev Metered (σ : Type) : Type := Noted Demand σ

def Metered.start {σ : Type} (s : σ) : Metered σ := ⟨s, .none⟩

def Noted.demand {σ : Type} (m : Metered σ) : Demand := m.note

variable {σ : Type} [Store σ]

theorem Metered.of_reserve_ok [Allocator] {m m' : Metered σ} {needed : Nat} {moved : Bool}
    (h : Store.reserve needed m = .ok moved m') : Store.reserve needed m.store = .ok moved m'.store ∧
      m'.demand = m.demand.also ⟨needed, moved⟩ :=
  Noted.of_reserve_ok h

variable [Placed σ]

/-- The handle is alone on its region, and it stays there with no new region made as long as room is
made for `n` bytes at most. -/
structure Settled (n capacity : Nat) (place : Place) (m : Metered σ) : Prop where
  alone : Placed.Alone m.store
  moved : m.demand.most ≤ n → m.demand.moved = false
  stays : m.demand.most ≤ n → Stays capacity place m.store

namespace Settled

variable {n c : Nat} {l : Place} {m m' : Metered σ}

theorem start {s : σ} (h : Stays c l s) : Settled n c l (Metered.start s) :=
  ⟨h.alone, fun _ => rfl, fun _ => h⟩

theorem reserve {needed : Nat} {moved : Bool} (hn : n ≤ c) (h : Settled n c l m)
    (hr : Store.reserve needed m = .ok moved m') : Settled n c l m' := by
  obtain ⟨hs, hdemand⟩ := Metered.of_reserve_ok hr
  obtain ⟨halone, hcases⟩ := Placed.reserve_ok hs
  -- Within the bound the region had room for it all, and no one else was on it.
  have hkept : m'.demand.most ≤ n → m.demand.most ≤ n ∧ moved = false ∧ m'.store = m.store := by
    rw [hdemand]
    intro hmost
    have hmost : max m.demand.most needed ≤ n := hmost
    have hcap := (h.stays (by omega)).capacity
    refine ⟨by omega, ?_⟩
    rcases hcases with hsame | ⟨-, hlt | hshared⟩
    · exact hsame
    · omega
    · exact (hshared h.alone).elim
  refine ⟨halone, fun hmost => ?_, fun hmost => ?_⟩
  · obtain ⟨hmost, hmoved, -⟩ := hkept hmost
    rw [hdemand, Demand.also, h.moved hmost, hmoved]
    rfl
  · obtain ⟨hmost, -, hsame⟩ := hkept hmost
    rw [hsame]
    exact h.stays hmost

variable [LawfulStore σ]

theorem patch {p : Nat} {new : Bytes} (h : Settled n c l m) (hp : p + new.size ≤ Store.used m) :
    Settled n c l (Store.setRegion ((Store.region m).overwrite p new) m) := by
  obtain ⟨halone, hplace⟩ :=
    Placed.setRegion (s := m.store) ((Store.region m).overwrite p new) h.alone
  refine ⟨halone, h.moved, fun hmost => ?_⟩
  obtain ⟨-, hcap, hl⟩ := h.stays hmost
  exact ⟨halone, (Store.used_overwrite (s := m.store) hp).2.trans hcap, hplace.trans hl⟩

theorem write {p k : Nat} {new : Bytes} (h : Settled n c l m) (hp : p + new.size ≤ k)
    (hk : k ≤ Store.capacity m) :
    Settled n c l (Store.setUsed k (Store.setRegion ((Store.region m).overwrite p new) m)) := by
  obtain ⟨halone, hplace⟩ :=
    Placed.setRegion (s := m.store) ((Store.region m).overwrite p new) h.alone
  obtain ⟨halone, hplace'⟩ := Placed.setUsed k halone
  refine ⟨halone, h.moved, fun hmost => ?_⟩
  obtain ⟨-, hcap, hl⟩ := h.stays hmost
  exact ⟨halone, (Store.setUsed_overwrite (s := m.store) hp hk).2.trans hcap,
    (hplace'.trans hplace).trans hl⟩

theorem upheld (hn : n ≤ c) : Upheld (Settled (σ := σ) n c l) (Settled n c l) :=
  .of_invariant (reserve hn) write patch

end Settled

variable [LawfulStore σ]

theorem Call.run_settled {n c : Nat} {l : Place} (hn : n ≤ c) {call : Call}
    (hroom : ¬ call.GivesUpRoom) :
    Matches (Traced (Settled (σ := σ) n c l)) call.run call.run :=
  call.run_parallel (Settled.upheld hn).parallel (fun _ _ => trivial) (fun h => (hroom h).elim)
    fun _ _ _ => id

end TaggedBuffer
