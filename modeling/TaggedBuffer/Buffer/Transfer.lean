import TaggedBuffer.Buffer.Append

namespace TaggedBuffer

/-- The parts that a source delivers, and whether it fails where it should report the end. An empty
part reports the end. -/
structure Source where
  parts : List Bytes
  fails : Bool

namespace Source

def delivered (s : Source) : List Bytes := s.parts.takeWhile (·.size ≠ 0)

def readAll (s : Source) : Except Error Bytes :=
  if s.fails && s.delivered.length = s.parts.length then .error .readerFailed
  else .ok (s.delivered.foldl (· ++ ·) .empty)

end Source

namespace Buffer

variable {σ : Type} [Store σ] [Allocator]

def readFrom (source : Source) : Update σ Unit := do
  let bytes ← ofExcept source.readAll
  fromBytes bytes

end Buffer

/-- The content, if all of it fits a target that takes that many bytes. -/
def Content.writeTo (src : Bytes) (limit : Nat) : Except Error Bytes :=
  if src.size ≤ limit then .ok src else .error .writerFull

end TaggedBuffer
