import TaggedBuffer.Store.Basic

namespace TaggedBuffer

/-- Storage in a region lent by someone else, until it moves to one of its own. -/
structure Borrowed where
  /-- The lent region as it stands, also after the move. -/
  lent : Bytes
  moved : Option Bytes
  used : Nat
  used_le : used ≤ (moved.getD lent).size := by simp
  deriving DecidableEq

namespace Borrowed

def new (lent : Bytes) : Borrowed := ⟨lent, none, 0, Nat.zero_le _⟩

def empty : Borrowed := ⟨.empty, some .empty, 0, Nat.zero_le _⟩

def isBorrowed (s : Borrowed) : Bool := s.moved.isNone

def region (s : Borrowed) : Bytes := s.moved.getD s.lent

def content (s : Borrowed) : Bytes := s.region.extract 0 s.used

def moveTo (region : Bytes) (s : Borrowed) : Borrowed :=
  ⟨s.lent, some region, min s.used region.size, Nat.min_le_right _ _⟩

def reserve [Allocator] (needed : Nat) : Update Borrowed Bool := fun s =>
  relocate (needed ≤ s.region.size) (grow needed) s.content moveTo s

def setRegion (r : Bytes) (s : Borrowed) : Borrowed :=
  match s.moved with
  | some _ => s.moveTo r
  | none => ⟨r, none, min s.used r.size, Nat.min_le_right _ _⟩

def shrinkToFit [Allocator] : Update Borrowed Unit := fun s =>
  ((fun _ => ()) <$> relocate (s.region.size = s.used) (acquire s.used) s.content moveTo) s

instance : Store Borrowed where
  region := region
  used := used
  reserve := reserve
  setRegion := setRegion
  setUsed n s := ⟨s.lent, s.moved, min n s.region.size, Nat.min_le_right _ _⟩
  shrinkToFit := shrinkToFit
  release s := ⟨s.lent, some .empty, 0, Nat.zero_le _⟩
  isOwner s := !s.isBorrowed && s.region.size ≠ 0

end Borrowed

end TaggedBuffer
