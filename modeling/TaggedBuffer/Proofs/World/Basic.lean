import TaggedBuffer.Proofs.Buffer.Call
import TaggedBuffer.Proofs.Store.Handles

namespace TaggedBuffer

inductive Local where
  | owned (s : Owned)
  | borrowed (s : Borrowed)

def Local.seen : Local → Seen
  | owned s => Store.seen s
  | borrowed s => Store.seen s

inductive Step where
  | create (name : String) (flavor : Flavor) (maker : Maker)
  /-- A buffer in a region of someone else. -/
  | lend (name : String) (region : Bytes)
  | call (name : String) (c : Call)
  | merge (name other : String)
  | clone (name new : String)
  /-- A buffer of another kind with the same content. -/
  | transfer (name new : String) (flavor : Flavor)
  | drop (name : String)

def Step.target : Step → String
  | create name _ _ | lend name _ | call name _ | merge name _ | drop name => name
  | clone _ new | transfer _ new _ => new

structure World where
  pool : Pool
  locals : List (String × Local)

namespace World

def empty : World := ⟨.empty, []⟩

def local? (w : World) (name : String) : Option Local :=
  (w.locals.find? (·.1 = name)).map (·.2)

def seen? (w : World) (name : String) : Option Seen :=
  match w.local? name with
  | some l => some l.seen
  | none => w.pool.seen? name

def without (w : World) (name : String) : World :=
  ⟨w.pool.drop name, w.locals.filter (·.1 ≠ name)⟩

def putLocal (w : World) (name : String) (l : Local) : World :=
  { w with locals := (name, l) :: w.locals.filter (·.1 ≠ name) }

def make (w : World) (name : String) (flavor : Flavor)
    (f : {σ : Type} → [Store σ] → Update σ Unit) : Except Error Answer × World :=
  match flavor with
  | .owned =>
    match f Owned.empty with
    | .ok _ s => (.ok .done, (w.without name).putLocal name (.owned s))
    | .error e _ => (.error e, w)
  | .borrowed =>
    match f Borrowed.empty with
    | .ok _ s => (.ok .done, (w.without name).putLocal name (.borrowed s))
    | .error e _ => (.error e, w)
  | .shared =>
    match f (Shared.empty w.pool.heap) with
    | .ok _ s => (.ok .done, ⟨w.pool.add name s, w.locals.filter (·.1 ≠ name)⟩)
    | .error e _ => (.error e, w)

def update (w : World) (name : String) (f : {σ : Type} → [Store σ] → Update σ Answer) :
    Option (Except Error Answer) × World :=
  match w.local? name with
  | some (.owned s) =>
    (some (Update.answer (f s)), w.putLocal name (.owned (Update.final (f s))))
  | some (.borrowed s) =>
    (some (Update.answer (f s)), w.putLocal name (.borrowed (Update.final (f s))))
  | none =>
    match w.pool.view? name with
    | some s => (some (Update.answer (f s)), { w with pool := w.pool.put name (Update.final (f s)) })
    | none => (none, w)

def clone (w : World) (name new : String) : Option (Except Error Answer) × World :=
  match w.local? name with
  | some (.owned s) => (some (.ok .done), (w.without new).putLocal new (.owned s))
  | some (.borrowed _) => (none, w)
  | none =>
    match w.pool.view? name with
    | some _ => (some (.ok .done), ⟨w.pool.clone name new, w.locals.filter (·.1 ≠ new)⟩)
    | none => (none, w)

variable [Allocator]

/-- The answer of a step and the world after it. A step on a buffer that is not there, and a copy of
a buffer in a region of someone else, have no answer. -/
def step : Step → World → Option (Except Error Answer) × World
  | .create name flavor maker, w =>
    let (r, w) := w.make name flavor maker.run
    (some r, w)
  | .lend name region, w =>
    (some (.ok .done), (w.without name).putLocal name (.borrowed (Borrowed.new region)))
  | .call name c, w => w.update name c.run
  | .merge name other, w =>
    match w.seen? other with
    | some seen => w.update name (Call.merge seen.content).run
    | none => (none, w)
  | .clone name new, w => w.clone name new
  | .transfer name new flavor, w =>
    match w.seen? name with
    | some seen =>
      let (r, w) := w.make new flavor (Buffer.load seen.content)
      (some r, w)
    | none => (none, w)
  | .drop name, w => (some (.ok .done), w.without name)

def run : List Step → World → List (Option (Except Error Answer)) × World
  | [], w => ([], w)
  | s :: rest, w =>
    let (r, w) := w.step s
    let (answers, w) := w.run rest
    (r :: answers, w)

end World

end TaggedBuffer
