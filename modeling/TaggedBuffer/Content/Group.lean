import TaggedBuffer.Content.Lookup

namespace TaggedBuffer.Content

structure Group where
  key : String
  first : Value
  rest : List Value
  deriving DecidableEq

def Group.values (g : Group) : List Value := g.first :: g.rest

/-- A named entry starts a group, and so does an unnamed one with nothing before it, under the empty
key. -/
def groupsOf : List Entry → List Group
  | [] => []
  | e :: rest =>
    match e.name, groupsOf rest, rest with
    | name, gs, [] => ⟨name.getD "", e.value, []⟩ :: gs
    | name, gs, next :: _ =>
      if next.isNamed then ⟨name.getD "", e.value, []⟩ :: gs
      else
        match gs with
        | [] => [⟨name.getD "", e.value, []⟩]
        | g :: more => ⟨name.getD "", e.value, g.values⟩ :: more

def groups (src : Bytes) : List Group := groupsOf (entries src)

end TaggedBuffer.Content
