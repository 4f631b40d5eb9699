import TaggedBuffer.Store.Basic

namespace TaggedBuffer

structure Block where
  region : Bytes
  used : Nat
  holders : Nat
  used_le : used ≤ region.size := by simp

/-- Blocks by number; a freed one leaves its number empty. -/
structure Heap where
  blocks : List (Option Block)

namespace Heap

def empty : Heap := ⟨[]⟩

def block? (h : Heap) (id : Nat) : Option Block := (h.blocks[id]?).join

def put (h : Heap) (id : Nat) (b : Option Block) : Heap := ⟨h.blocks.set id b⟩

def add (h : Heap) (b : Block) : Heap := ⟨h.blocks ++ [some b]⟩

def join (h : Heap) (id : Nat) : Heap :=
  match h.block? id with
  | some b => h.put id (some { b with holders := b.holders + 1 })
  | none => h

def leave (h : Heap) (id : Nat) : Heap :=
  match h.block? id with
  | some b => h.put id (if b.holders ≤ 1 then none else some { b with holders := b.holders - 1 })
  | none => h

end Heap

/-- A handle on a block of the heap. While the block has other holders, the handle moves to a copy
before it writes. -/
structure Shared where
  heap : Heap
  id : Option Nat

namespace Shared

def empty (heap : Heap) : Shared := ⟨heap, none⟩

def block? (s : Shared) : Option Block := s.id.bind s.heap.block?

def region (s : Shared) : Bytes := (s.block?.map (·.region)).getD .empty

def used (s : Shared) : Nat := (s.block?.map (·.used)).getD 0

def holders (s : Shared) : Nat := (s.block?.map (·.holders)).getD 0

def leave (s : Shared) : Shared :=
  match s.id with
  | some id => ⟨s.heap.leave id, none⟩
  | none => s

def moveTo (region : Bytes) (used : Nat) (s : Shared) : Shared :=
  let left := s.leave
  ⟨left.heap.add ⟨region, min used region.size, 1, Nat.min_le_right _ _⟩,
    some left.heap.blocks.length⟩

/-- Changes the block, or a copy of it if it has other holders. -/
def write (region : Bytes) (used : Nat) (s : Shared) : Shared :=
  match s.id, s.block? with
  | some id, some b =>
    if b.holders ≤ 1 then
      ⟨s.heap.put id (some ⟨region, min used region.size, b.holders, Nat.min_le_right _ _⟩), s.id⟩
    else s.moveTo region used
  | _, _ => s

def content (s : Shared) : Bytes := s.region.extract 0 s.used

def moveIn (region : Bytes) (s : Shared) : Shared := s.moveTo region s.used

/-- A block with other holders is left even if it has room. -/
def reserve [Allocator] (needed : Nat) : Update Shared Bool := fun s =>
  let make := if needed ≤ s.region.size then acquire s.region.size else grow needed
  relocate (needed ≤ s.region.size ∧ s.holders ≤ 1) make s.content moveIn s

/-- An empty block is given up, and one with spare room left for a new one without. -/
def shrinkToFit [Allocator] : Update Shared Unit := fun s =>
  if s.used = 0 then .ok () s.leave
  else ((fun _ => ()) <$> relocate (s.region.size = s.used) (acquire s.used) s.content moveIn) s

instance : Store Shared where
  region := region
  used := used
  reserve := reserve
  setRegion r s := s.write r s.used
  setUsed n s := s.write s.region n
  shrinkToFit := shrinkToFit
  release := leave
  isOwner s := s.holders = 1

/-- A second handle on the same block; both are `s` with this heap. -/
def share (s : Shared) : Shared :=
  match s.id with
  | some id => ⟨s.heap.join id, s.id⟩
  | none => s

def sharesWith (a b : Option Nat) : Bool :=
  match a, b with
  | some i, some j => i = j
  | _, _ => false

end Shared

end TaggedBuffer
