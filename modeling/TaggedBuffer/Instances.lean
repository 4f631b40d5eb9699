-- Powers and comparisons of byte strings are those of the core library, also where another library
-- has instances of its own.
attribute [instance (2000), default_instance (20000)] instPowNat
attribute [instance (2000)] Rat.instPowInt
attribute [instance (2000)] ByteArray.instDecidableEq
