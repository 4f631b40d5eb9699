import TaggedBuffer.Buffer.Items

namespace TaggedBuffer

structure Builder where
  capacity : Option Nat
  pairs : List (Option String × Value)

namespace Builder

def empty : Builder := ⟨none, []⟩

def withCapacity (capacity : Nat) (b : Builder) : Builder := { b with capacity := some capacity }

def named (name : String) (v : Value) (b : Builder) : Builder :=
  { b with pairs := b.pairs ++ [(some name, v)] }

def value (v : Value) (b : Builder) : Builder := { b with pairs := b.pairs ++ [(none, v)] }

def addSection (name : String) (vs : List Value) (b : Builder) : Builder :=
  { b with pairs := b.pairs ++ Buffer.sectionPairs name vs }

/-- Writes the entries into empty storage, which is made large enough first. -/
def build {σ : Type} [Store σ] [Allocator] (b : Builder) : Update σ Unit := do
  let needed := Buffer.pairsSize b.pairs
  Buffer.withCapacity (max (b.capacity.getD needed) needed)
  Buffer.appendAll b.pairs

end Builder

end TaggedBuffer
