import TaggedBuffer.Store.Basic

namespace TaggedBuffer

structure Owned where
  region : Bytes
  used : Nat
  used_le : used ≤ region.size := by simp
  deriving DecidableEq

namespace Owned

def empty : Owned := ⟨.empty, 0, Nat.zero_le _⟩

def content (s : Owned) : Bytes := s.region.extract 0 s.used

def moveTo (region : Bytes) (s : Owned) : Owned :=
  ⟨region, min s.used region.size, Nat.min_le_right _ _⟩

def reserve [Allocator] (needed : Nat) : Update Owned Bool := fun s =>
  relocate (needed ≤ s.region.size) (grow needed) s.content moveTo s

def shrinkToFit [Allocator] : Update Owned Unit := fun s =>
  ((fun _ => ()) <$> relocate (s.region.size = s.used) (acquire s.used) s.content moveTo) s

instance : Store Owned where
  region := region
  used := used
  reserve := reserve
  setRegion := moveTo
  setUsed n s := ⟨s.region, min n s.region.size, Nat.min_le_right _ _⟩
  shrinkToFit := shrinkToFit
  release _ := empty
  isOwner s := s.region.size ≠ 0

end Owned

end TaggedBuffer
