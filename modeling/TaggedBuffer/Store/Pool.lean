import TaggedBuffer.Store.Shared

namespace TaggedBuffer

structure Pool where
  heap : Heap
  handles : List (String × Option Nat)

namespace Pool

def empty : Pool := ⟨.empty, []⟩

/-- The block that a live handle is on, if it is on one. -/
def handle? (p : Pool) (name : String) : Option (Option Nat) :=
  (p.handles.find? (·.1 = name)).map (·.2)

def view? (p : Pool) (name : String) : Option Shared := (p.handle? name).map (⟨p.heap, ·⟩)

def put (p : Pool) (name : String) (s : Shared) : Pool :=
  ⟨s.heap, (name, s.id) :: p.handles.filter (·.1 ≠ name)⟩

def drop (p : Pool) (name : String) : Pool :=
  match p.view? name with
  | some s => ⟨s.leave.heap, p.handles.filter (·.1 ≠ name)⟩
  | none => p

/-- A new handle with what was made on this heap; an older handle of that name ceases. -/
def add (p : Pool) (name : String) (s : Shared) : Pool :=
  let p := { p with heap := s.heap }.drop name
  p.put name ⟨p.heap, s.id⟩

def clone (p : Pool) (name new : String) : Pool :=
  match p.view? name with
  | some s => p.add new s.share
  | none => p

end Pool

end TaggedBuffer
