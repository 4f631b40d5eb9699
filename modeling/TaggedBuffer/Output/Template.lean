import TaggedBuffer.Buffer.Items
import TaggedBuffer.Content.Lookup

namespace TaggedBuffer

theorem Text.length_of_cut? {separator : Char} {cs before after : List Char}
    (h : cut? separator cs = some (before, after)) : after.length < cs.length := by
  induction cs generalizing before with
  | nil => simp [cut?] at h
  | cons c cs ih =>
    simp only [cut?] at h
    split at h
    · cases h
      simp
    · obtain ⟨⟨b, a⟩, hc, he⟩ := Option.map_eq_some_iff.1 h
      simp only [Prod.mk.injEq] at he
      obtain ⟨_, rfl⟩ := he
      have := ih hc
      simp only [List.length_cons]
      omega

namespace Template

/-- A key in braces stands for the value of that name, empty braces for the next value by position,
a doubled brace for itself, and one that is never closed for itself and all that follows. -/
def fill (named : List Char → List Char) (nth : Nat → List Char) (position : Nat)
    (cs : List Char) : List Char :=
  match cs with
  | [] => []
  | '\x7b' :: '\x7b' :: rest => '\x7b' :: fill named nth position rest
  | '\x7d' :: '\x7d' :: rest => '\x7d' :: fill named nth position rest
  | '\x7b' :: rest =>
    match _h : Text.cut? '\x7d' rest with
    | none => '\x7b' :: rest
    | some ([], after) => nth position ++ fill named nth (position + 1) after
    | some (key, after) => named key ++ fill named nth position after
  | c :: rest => c :: fill named nth position rest
termination_by cs.length
decreasing_by
  all_goals simp only [List.length_cons]
  all_goals try have := Text.length_of_cut? _h
  all_goals omega

def format (src : Bytes) (template : String) : String :=
  String.ofList (fill (fun key => (Content.value src (String.ofList key)).display.toList)
    (fun n => (Content.valueAt src n).display.toList) 0 template.toList)

end Template

end TaggedBuffer
