namespace TaggedBuffer

def alignment : Nat := 4

def headerSize : Nat := 4

/-- Size of the length that precedes content of varying size. -/
def lengthFieldSize : Nat := 4

def maxEncodedLength : Nat := 0xFFFFFF

def maxNameLength : Nat := 255

def align (n : Nat) : Nat := (n + 3) / 4 * 4

theorem align_mod (n : Nat) : align n % 4 = 0 := Nat.mul_mod_left _ _

theorem le_align (n : Nat) : n ≤ align n := by
  unfold align
  omega

theorem align_lt (n : Nat) : align n < n + 4 := by
  unfold align
  omega

end TaggedBuffer
