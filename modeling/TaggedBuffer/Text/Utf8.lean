import TaggedBuffer.Bytes.Basic

namespace TaggedBuffer.Utf8

/-- The first ill formed sequence: where it starts, and its length unless the text ends in it. -/
structure Fault where
  start : Nat
  length : Option Nat
  deriving DecidableEq, Repr

namespace Fault

def message (f : Fault) : String :=
  match f.length with
  | some n => s!"invalid utf-8 sequence of {n} bytes from index {f.start}"
  | none => s!"incomplete utf-8 byte sequence from index {f.start}"

end Fault

def trailing (lead : UInt8) : Nat :=
  if 0xC2 ≤ lead ∧ lead ≤ 0xDF then 1
  else if 0xE0 ≤ lead ∧ lead ≤ 0xEF then 2
  else if 0xF0 ≤ lead ∧ lead ≤ 0xF4 then 3
  else 0

def isContinuation (b : UInt8) : Bool := 0x80 ≤ b && b ≤ 0xBF

/-- The second byte, which also keeps out overlong forms, surrogates and what lies above U+10FFFF. -/
def followsLead (lead b : UInt8) : Bool :=
  if lead = 0xE0 then 0xA0 ≤ b && b ≤ 0xBF
  else if lead = 0xED then 0x80 ≤ b && b ≤ 0x9F
  else if lead = 0xF0 then 0x90 ≤ b && b ≤ 0xBF
  else if lead = 0xF4 then 0x80 ≤ b && b ≤ 0x8F
  else isContinuation b

def accepted (lead : UInt8) : List UInt8 → Nat
  | [] => 0
  | b :: rest =>
    if followsLead lead b then 1 + ((rest.take (trailing lead - 1)).takeWhile isContinuation).length
    else 0

/-- The length of the ill formed sequence at `i`, `none` when the text ends inside it. -/
def faultLength (b : Bytes) (i : Nat) : Option Nat :=
  match b[i]? with
  | none => none
  | some lead =>
    if trailing lead = 0 then some 1
    else
      let rest := Bytes.list (b.extract (i + 1) (i + 4))
      if accepted lead rest = rest.length then none else some (1 + accepted lead rest)

def faultFrom (b : Bytes) (i : Nat) : Fault :=
  if i < b.size then
    match b.utf8DecodeChar? i with
    | some c => faultFrom b (i + c.utf8Size)
    | none => ⟨i, faultLength b i⟩
  else ⟨i, none⟩
termination_by b.size - i
decreasing_by
  have := Char.utf8Size_pos c
  omega

def decode (b : Bytes) : Except Fault String :=
  match String.fromUTF8? b with
  | some s => .ok s
  | none => .error (faultFrom b 0)

def addLossyFrom (b : Bytes) (i : Nat) (s : String) : String :=
  if i < b.size then
    match b.utf8DecodeChar? i with
    | some c => addLossyFrom b (i + c.utf8Size) (s.push c)
    | none =>
      match faultLength b i with
      | some n => addLossyFrom b (i + (n - 1) + 1) (s.push '\uFFFD')
      | none => s.push '\uFFFD'
  else s
termination_by b.size - i
decreasing_by
  · have := Char.utf8Size_pos c
    omega
  · omega

/-- The text that the bytes encode, U+FFFD for each ill formed sequence. -/
def decodeLossy (b : Bytes) : String :=
  match String.fromUTF8? b with
  | some s => s
  | none => addLossyFrom b 0 ""

end TaggedBuffer.Utf8
