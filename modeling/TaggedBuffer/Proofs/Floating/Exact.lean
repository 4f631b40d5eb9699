import TaggedBuffer.Floating.Format

namespace TaggedBuffer.Floating

def sign (negative : Bool) : Rat := if negative then -1 else 1

theorem sign_false : sign false = 1 := rfl

theorem sign_true : sign true = -1 := rfl

namespace Number

def toRat? : Number → Option Rat
  | finite negative m q => some (sign negative * m * 2 ^ q)
  | _ => none

end Number

namespace Format

def bias (f : Format) : Int := 2 ^ (f.exponentBits - 1) - 1

def exponentField (f : Format) (bits : Nat) : Nat :=
  bits / 2 ^ (f.precision - 1) % 2 ^ f.exponentBits

def fractionField (f : Format) (bits : Nat) : Nat := bits % 2 ^ (f.precision - 1)

def fraction (f : Format) (bits : Nat) : Rat := f.fractionField bits / (2 ^ (f.precision - 1) : Nat)

/-- The rational number that a pattern stands for by its fields. An exponent of all ones is kept for
infinities and not-a-number, and with the exponent zero the fraction has no one before it. -/
def value? (f : Format) (bits : Nat) : Option Rat :=
  let s := sign (bits.testBit (f.width - 1))
  if f.exponentField bits = 2 ^ f.exponentBits - 1 then none
  else if f.exponentField bits = 0 then some (s * (f.fraction bits * 2 ^ (1 - f.bias)))
  else some (s * ((1 + f.fraction bits) * 2 ^ (f.exponentField bits - f.bias)))

end Format

theorem two_zpow_ne_zero (q : Int) : (2 : Rat) ^ q ≠ 0 := Rat.ne_of_gt (Rat.zpow_pos (by decide))

theorem natCast_two_pow (k : Nat) : ((2 ^ k : Nat) : Rat) = 2 ^ (k : Int) := by
  rw [Rat.zpow_natCast, Rat.natCast_pow]
  rfl

theorem div_two_pow_mul (n k : Nat) (e : Int) :
    (n : Rat) / (2 ^ k : Nat) * 2 ^ e = n * 2 ^ (e - k) := by
  have hsplit : (2 : Rat) ^ e = 2 ^ (e - k) * 2 ^ (k : Int) := by
    rw [← Rat.zpow_add (by decide)]
    congr 1
    omega
  have hne := two_zpow_ne_zero k
  rw [hsplit, natCast_two_pow]
  grind

theorem mul_two_zpow (m : Nat) (q : Int) :
    (m : Rat) * 2 ^ q = (m * 2 ^ q.toNat : Nat) / (2 ^ (-q).toNat : Nat) := by
  have hsplit : (2 : Rat) ^ (q.toNat : Int) = 2 ^ q * 2 ^ ((-q).toNat : Int) := by
    rw [← Rat.zpow_add (by decide)]
    congr 1
    omega
  have hne := two_zpow_ne_zero (-q).toNat
  rw [Rat.natCast_mul, natCast_two_pow, natCast_two_pow, hsplit]
  grind

theorem div_eq_intCast_iff {n d : Nat} (hd : 0 < d) {k : Int} :
    (n : Rat) / d = k ↔ n % d = 0 ∧ (n / d : Nat) = k := by
  have hd' : (d : Rat) ≠ 0 := mt Rat.natCast_eq_zero_iff.1 (Nat.ne_of_gt hd)
  constructor
  · intro h
    have hmul : (n : Rat) = ((k * d : Int) : Rat) := by
      rw [Rat.intCast_mul, ← h]
      exact (Rat.div_mul_cancel hd').symm
    have hn : (n : Int) = k * d := Rat.intCast_inj.1 hmul
    have hk : 0 ≤ k := Int.nonneg_of_mul_nonneg_left (hn ▸ Int.natCast_nonneg n) (by omega)
    obtain ⟨k, rfl⟩ := Int.eq_ofNat_of_zero_le hk
    obtain rfl : n = k * d := by exact_mod_cast hn
    exact ⟨Nat.mul_mod_left k d, congrArg _ (Nat.mul_div_cancel k hd)⟩
  · rintro ⟨hmod, rfl⟩
    have hn : n / d * d = n := Nat.div_mul_cancel (Nat.dvd_of_mod_eq_zero hmod)
    have hmul : ((n / d : Nat) : Rat) * d = n := by rw [← Rat.natCast_mul, hn]
    rw [← hmul]
    exact Rat.mul_div_cancel hd'

theorem neg_one_mul_eq_iff {x : Rat} {k : Int} : -1 * x = k ↔ x = (-k : Int) := by
  rw [Rat.intCast_neg]
  constructor
  · intro h
    grind
  · rintro rfl
    grind

namespace Number

theorem integer?_eq_some_iff {n : Number} {z : Int} :
    n.integer? = some z ↔ n.toRat? = some (z : Rat) := by
  cases n with
  | nan => simp [integer?, toRat?]
  | infinity => simp [integer?, toRat?]
  | finite negative m q =>
    have hden : 0 < 2 ^ (-q).toNat := Nat.two_pow_pos _
    rw [integer?, toRat?, Rat.mul_assoc, mul_two_zpow]
    simp only [scale, Nat.one_mul, Option.some.injEq, Option.ite_none_right_eq_some]
    cases negative with
    | false =>
      rw [sign_false, Rat.one_mul, div_eq_intCast_iff hden]
      rfl
    | true =>
      rw [sign_true, neg_one_mul_eq_iff, div_eq_intCast_iff hden, if_pos rfl]
      omega

end Number

namespace Format

theorem isNegative_eq_testBit (f : Format) (bits : Nat) :
    f.isNegative bits = bits.testBit (f.width - 1) := Nat.testBit_eq_decide_div_mod_eq.symm

theorem fractionField_lt (f : Format) (bits : Nat) :
    f.fractionField bits < 2 ^ (f.precision - 1) := Nat.mod_lt _ (Nat.two_pow_pos _)

theorem exponentField_lt (f : Format) (bits : Nat) :
    f.exponentField bits < 2 ^ f.exponentBits := Nat.mod_lt _ (Nat.two_pow_pos _)

theorem one_add_fraction (f : Format) (bits : Nat) :
    1 + f.fraction bits =
      (f.fractionField bits + 2 ^ (f.precision - 1) : Nat) / (2 ^ (f.precision - 1) : Nat) := by
  have hne : ((2 ^ (f.precision - 1) : Nat) : Rat) ≠ 0 :=
    mt Rat.natCast_eq_zero_iff.1 (Nat.ne_of_gt (Nat.two_pow_pos _))
  rw [fraction, Rat.natCast_add]
  grind

variable {f : Format}

section Fields

variable (hp : 0 < f.precision) (bits : Nat)

include hp

theorem width_sub_one : f.width - 1 = f.precision - 1 + f.exponentBits := by
  rw [width]
  omega

theorem magnitude_div :
    bits % 2 ^ (f.width - 1) / 2 ^ (f.precision - 1) = f.exponentField bits := by
  rw [width_sub_one hp, Nat.pow_add, Nat.mod_mul_right_div_self, exponentField]

theorem magnitude_mod :
    bits % 2 ^ (f.width - 1) % 2 ^ (f.precision - 1) = f.fractionField bits := by
  rw [width_sub_one hp, Nat.pow_add, Nat.mod_mul_right_mod, fractionField]

theorem magnitude_eq : bits % 2 ^ (f.width - 1) =
    f.exponentField bits * 2 ^ (f.precision - 1) + f.fractionField bits := by
  rw [← magnitude_div hp, ← magnitude_mod hp, Nat.div_add_mod']

theorem lowest_eq : f.lowest = 1 - f.bias - (f.precision - 1 : Nat) := by
  rw [lowest, bias]
  omega

/-- The patterns below infinity are those whose exponent is not all ones. -/
theorem magnitude_lt_iff : bits % 2 ^ (f.width - 1) < f.infinityBits ↔
    f.exponentField bits ≠ 2 ^ f.exponentBits - 1 := by
  have hfraction := f.fractionField_lt bits
  have hexponent := f.exponentField_lt bits
  rw [magnitude_eq hp, infinityBits]
  constructor
  · intro h htop
    rw [htop] at h
    omega
  · intro h
    have hle : (f.exponentField bits + 1) * 2 ^ (f.precision - 1) ≤
        (2 ^ f.exponentBits - 1) * 2 ^ (f.precision - 1) := Nat.mul_le_mul_right _ (by omega)
    rw [Nat.succ_mul] at hle
    omega

end Fields

theorem toRat?_decode (hp : 0 < f.precision) (bits : Nat) :
    (f.decode bits).toRat? = f.value? bits := by
  have hlowest := lowest_eq hp
  rw [decode, value?]
  simp only [magnitude_div hp, magnitude_mod hp, isNegative_eq_testBit]
  by_cases htop : f.exponentField bits = 2 ^ f.exponentBits - 1
  · have hle := mt (magnitude_lt_iff hp bits).1 (not_not_intro htop)
    rw [if_pos htop]
    split
    next => rfl
    next =>
      rw [if_pos (by omega)]
      rfl
  · have hlt := (magnitude_lt_iff hp bits).2 htop
    rw [if_neg htop, if_neg (by omega), if_neg (by omega)]
    split
    next hzero => rw [Number.toRat?, fraction, div_two_pow_mul, hlowest, Rat.mul_assoc]
    next hnormal =>
      have hexponent : f.lowest + f.exponentField bits - 1 =
          f.exponentField bits - f.bias - (f.precision - 1 : Nat) := by omega
      rw [Number.toRat?, one_add_fraction, div_two_pow_mul, hexponent, Rat.mul_assoc]

end Format

end TaggedBuffer.Floating
