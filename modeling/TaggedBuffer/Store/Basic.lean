import TaggedBuffer.Record.Writer

namespace TaggedBuffer

/-- Whether a region of that size can be had at the moment. It may be otherwise at the next call. -/
class Allocator where
  serves : Nat → Bool

/-- Where nothing else is said, memory does not run out. -/
instance Allocator.unbounded : Allocator := ⟨fun _ => true⟩

/-- Storage of one handle. The state after a step is there whether the step failed or not. -/
class Store (σ : Type) where
  region : σ → Bytes
  used : σ → Nat
  /-- Makes the region hold at least that many bytes, and says whether it is a new one. -/
  reserve : [Allocator] → Nat → Update σ Bool
  /-- Replaces the bytes of the region by as many others, after making it this handle's alone. -/
  setRegion : Bytes → σ → σ
  setUsed : Nat → σ → σ
  shrinkToFit : [Allocator] → Update σ Unit
  release : σ → σ
  /-- Whether this handle alone holds bytes of its own. -/
  isOwner : σ → Bool

namespace Store

variable {σ : Type} [Store σ]

def content (s : σ) : Bytes := (region s).extract 0 (used s)

def capacity (s : σ) : Nat := (region s).size

def claim (s : σ) : σ := setRegion (region s) s

end Store

/-- The size of the region that is made when `needed` bytes are: half as many again, rounded up to
a multiple of 64. -/
def growCapacity (needed : Nat) : Except Error Nat :=
  let padded := (needed + needed / 2 + 63) / 64 * 64
  if padded < 2 ^ 64 then .ok padded else .error (.addressSpace needed)

section

variable [Allocator]

/-- A region of that size that starts with the content, followed by zeros. Only a region without bytes
needs no memory. -/
def acquire (capacity : Nat) (content : Bytes) : Except Error Bytes :=
  if capacity = 0 ∨ Allocator.serves capacity then
    .ok (content ++ Bytes.zeros (capacity - content.size))
  else .error (.outOfMemory capacity)

/-- The same for a size that no region at hand shows to be possible. -/
def allocate (capacity : Nat) (content : Bytes) : Except Error Bytes :=
  if capacity < 2 ^ 63 then acquire capacity content else .error (.regionLimit capacity)

def grow (needed : Nat) (content : Bytes) : Except Error Bytes := do
  let capacity ← growCapacity needed
  allocate capacity content

end

/-- Moves the content to a region that is made for it, unless it stays, and says whether it moved. -/
def relocate {σ : Type} (stays : Prop) [Decidable stays] (make : Bytes → Except Error Bytes)
    (content : Bytes) (move : Bytes → σ → σ) : Update σ Bool := do
  if stays then return false
  let region ← ofExcept (make content)
  modify (move region)
  return true

theorem le_growCapacity {needed capacity : Nat} (h : growCapacity needed = .ok capacity) :
    needed ≤ capacity := by
  simp only [growCapacity] at h
  split at h
  · cases h
    omega
  · simp at h

end TaggedBuffer
