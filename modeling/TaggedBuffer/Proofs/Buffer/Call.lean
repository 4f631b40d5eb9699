import TaggedBuffer.Buffer.Builder
import TaggedBuffer.Buffer.Legacy
import TaggedBuffer.Buffer.Section
import TaggedBuffer.Buffer.Transfer

namespace TaggedBuffer

inductive Answer where
  | done
  | position (p : Nat)
  | first (p : Option Nat)
  | found (b : Bool)
  | count (n : Nat)
  deriving DecidableEq

inductive Edit where
  | append (name : Option String) (v : Value)
  | appendRaw (name : Option String) (t : ValueType) (payload : Bytes)
  | appendSection (name : String) (vs : List Value)
  | appendMany (vs : List Value)
  | set (p : Nat) (v : Value)
  | setNamed (name : String) (v : Value)
  | setIndex (index : Nat) (v : Value)
  | insert (p : Nat) (name : Option String) (v : Value)
  | insertAt (index : Nat) (name : Option String) (v : Value)
  | remove (p : Nat)
  | removeNamed (name : String)
  | removeIndex (index : Nat)
  | reserve (needed : Nat)
  | shrinkToFit
  | clear

inductive Call where
  | edit (e : Edit)
  | setKey (key : Key) (v : Value)
  | removeKey (key : Key)
  | setSection (name : String) (vs : List Value)
  | appendInferred (name text : String)
  | appendParsed (text : String)
  | merge (other : Bytes)

/-- What is done to empty storage to make a buffer of it. -/
inductive Maker where
  | new
  | withCapacity (capacity : Nat)
  | fromBytes (bytes : Bytes)
  | readFrom (source : Source)
  | fromPairs (pairs : List (Option String × Value))
  | build (b : Builder)
  | importLegacy (bytes : Bytes)

theorem Buffer.map_sectionPairs (name : String) (vs : List Value) :
    (Buffer.sectionPairs name vs).map (·.2) = vs := by
  cases vs with
  | nil => rfl
  | cons v vs => simp [Buffer.sectionPairs, Function.comp_def]

namespace Edit

def values : Edit → List Value
  | append _ v | set _ v | setNamed _ v | setIndex _ v | insert _ _ v | insertAt _ _ v => [v]
  | appendSection _ vs | appendMany vs => vs
  | _ => []

def WellFormed (e : Edit) : Prop := ∀ v ∈ e.values, v.WellFormed

/-- The call adds values one by one and keeps those before one that it cannot add. -/
def AddsMany : Edit → Prop
  | appendSection _ _ | appendMany _ => True
  | _ => False

variable {σ : Type} [Store σ] [Allocator]

/-- Whether `reserve` made a new region is no part of its answer here. -/
def run : Edit → Update σ Answer
  | append name v => .position <$> Buffer.append name v
  | appendRaw name t payload => .position <$> Buffer.appendRaw name t payload
  | appendSection name vs => .first <$> Buffer.appendSection name vs
  | appendMany vs => .first <$> Buffer.appendMany vs
  | set p v => .position <$> Buffer.set p v
  | setNamed name v => .position <$> Buffer.setNamed name v
  | setIndex index v => .position <$> Buffer.setIndex index v
  | insert p name v => .position <$> Buffer.insert p name v
  | insertAt index name v => .position <$> Buffer.insertAt index name v
  | remove p => (fun _ => .done) <$> Buffer.remove p
  | removeNamed name => .found <$> Buffer.removeNamed name
  | removeIndex index => (fun _ => .done) <$> Buffer.removeIndex index
  | reserve needed => (fun _ => .done) <$> Store.reserve needed
  | shrinkToFit => (fun _ => .done) <$> Store.shrinkToFit
  | clear => (fun _ => .done) <$> modify Store.release

end Edit

namespace Call

def values : Call → List Value
  | edit e => e.values
  | setKey _ v => [v]
  | setSection _ vs => vs
  | _ => []

def WellFormed (c : Call) : Prop := ∀ v ∈ c.values, v.WellFormed

variable {σ : Type} [Store σ] [Allocator]

def run : Call → Update σ Answer
  | edit e => e.run
  | setKey key v => .position <$> Buffer.setKey key v
  | removeKey key => .found <$> Buffer.removeKey key
  | setSection name vs => (fun _ => .done) <$> Buffer.setSection name vs
  | appendInferred name text => .position <$> Buffer.appendInferred name text
  | appendParsed text => .count <$> Buffer.appendParsed text
  | merge other => (fun _ => .done) <$> Buffer.merge other

end Call

namespace Maker

def IsFresh : Maker → Prop
  | fromBytes _ | readFrom _ => False
  | _ => True

def values : Maker → List Value
  | fromPairs pairs => pairs.map (·.2)
  | build b => b.pairs.map (·.2)
  | _ => []

def WellFormed (m : Maker) : Prop := ∀ v ∈ m.values, v.WellFormed

variable {σ : Type} [Store σ] [Allocator]

def run : Maker → Update σ Unit
  | new => pure ()
  | withCapacity capacity => Buffer.withCapacity capacity
  | fromBytes bytes => Buffer.fromBytes bytes
  | readFrom source => Buffer.readFrom source
  | fromPairs pairs => Buffer.appendAll pairs
  | build b => b.build
  | importLegacy bytes => Buffer.importLegacy bytes

end Maker

end TaggedBuffer
