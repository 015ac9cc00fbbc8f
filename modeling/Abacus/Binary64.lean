/-
  Abacus.Binary64 — the binary64 numbers of IEEE 754 and their arithmetic.

  A finite number is a sign and a count of units, one unit being 2^-1074, the least
  positive number. Normal and subnormal numbers are not told apart: a count is
  representable when it lies below 2^2098 and its binary digits behind the 53rd are zeros.
  Zero has a sign too. There is one NaN; the bits it may carry are not kept.
  `Binary64.ofBits` reads the interchange format.

  A quotient is rounded once, to the spacing of binary64 numbers around it, and of two nearest
  ones the one whose last binary digit is zero is taken (`dvd_roundedUnits` makes the result a
  number). A result that lies at 2^1024 or above is infinite.

  A finite result of an operation is computed exactly and rounded once. Where no number is
  right the result is NaN, and any operation on NaN gives NaN. A product or a quotient is
  negative when exactly one operand is, and a sum that is zero is negative only when both
  operands are.
-/

namespace Abacus

namespace Binary64

def one : Nat := Nat.pow 2 1074

/-- The first power of two above all finite numbers, in units. -/
def overflow : Nat := Nat.pow 2 2098

/-- The exponent of the spacing of binary64 numbers around a count of units. -/
def spacing (units : Nat) : Nat := units.log2 - 52

def Representable (units : Nat) : Prop := units < overflow ∧ Nat.pow 2 (spacing units) ∣ units

instance (units : Nat) : Decidable (Representable units) :=
  inferInstanceAs (Decidable (_ ∧ _))

end Binary64

inductive Binary64 where
  | nan
  | infinity (negative : Bool)
  | finite (negative : Bool) (units : Nat) (representable : Binary64.Representable units)
  deriving DecidableEq

namespace Binary64

/-! ## Counts with few binary digits -/

theorem mul_two_pow_lt {digits j k m : Nat} (h : digits < Nat.pow 2 j) (hk : j + k ≤ m) :
    digits * Nat.pow 2 k < Nat.pow 2 m := by
  simp only [Nat.pow_eq] at h ⊢
  have h1 : digits * 2 ^ k < 2 ^ j * 2 ^ k := Nat.mul_lt_mul_of_pos_right h (Nat.two_pow_pos k)
  rw [← Nat.pow_add] at h1
  exact Nat.lt_of_lt_of_le h1 (Nat.pow_le_pow_right Nat.two_pos hk)

theorem spacing_le {units k : Nat} (h : units < Nat.pow 2 (53 + k)) : spacing units ≤ k := by
  simp only [Nat.pow_eq] at h
  unfold spacing
  by_cases h0 : units = 0
  · subst h0
    exact Nat.zero_le k
  · have := (Nat.log2_lt h0).mpr h
    omega

/-- A count of at most 53 binary digits followed by zeros, or the power of two behind. -/
theorem dvd_of_le {digits : Nat} (h : digits ≤ Nat.pow 2 53) (k : Nat) :
    Nat.pow 2 (spacing (digits * Nat.pow 2 k)) ∣ digits * Nat.pow 2 k := by
  rcases Nat.lt_or_eq_of_le h with h | rfl
  · have hs : spacing (digits * Nat.pow 2 k) ≤ k := spacing_le (mul_two_pow_lt h (Nat.le_refl _))
    exact Nat.dvd_mul_left_of_dvd (Nat.pow_dvd_pow 2 hs) digits
  · simp only [Nat.pow_eq]
    rw [← Nat.pow_add]
    refine Nat.pow_dvd_pow 2 ?_
    unfold spacing
    rw [Nat.log2_two_pow]
    omega

theorem lt_overflow_of_lt {digits k : Nat} (h : digits < Nat.pow 2 53) (hk : k ≤ 2045) :
    digits * Nat.pow 2 k < overflow := by
  have hm : 53 + k ≤ 2098 := by omega
  unfold overflow
  generalize 2098 = m at hm ⊢
  exact mul_two_pow_lt h hm

theorem representable_of_lt {digits k : Nat} (h : digits < Nat.pow 2 53) (hk : k ≤ 2045) :
    Representable (digits * Nat.pow 2 k) :=
  ⟨lt_overflow_of_lt h hk, dvd_of_le (Nat.le_of_lt h) k⟩

/-- A count below 2^53 is a number. -/
theorem representable_small {units : Nat} (h : units < Nat.pow 2 53) : Representable units := by
  have := representable_of_lt (k := 0) h (Nat.zero_le _)
  rwa [show units * Nat.pow 2 0 = units from Nat.mul_one units] at this

/-! ## Numbers -/

def zero (negative : Bool) : Binary64 := .finite negative 0 (representable_small (by decide))

instance : Inhabited Binary64 := ⟨zero false⟩

def isInfinite : Binary64 → Bool
  | .infinity _ => true
  | _ => false

def isZero : Binary64 → Bool
  | .finite _ units _ => units == 0
  | _ => false

/-! ## The interchange format -/

theorem fraction_lt (fraction : BitVec 52) : fraction.toNat < Nat.pow 2 53 :=
  Nat.lt_trans fraction.isLt (by decide)

theorem significand_lt (fraction : BitVec 52) : Nat.pow 2 52 + fraction.toNat < Nat.pow 2 53 := by
  have h : fraction.toNat < 4503599627370496 := fraction.isLt
  have h1 : Nat.pow 2 52 = 4503599627370496 := by decide
  have h2 : Nat.pow 2 53 = 9007199254740992 := by decide
  omega

/-- A number from its three fields. The exponent 2047 is kept for infinities and NaN, and the
    exponent 0 for numbers without a leading binary digit of their own. -/
def ofFields (negative : Bool) (exponent : BitVec 11) (fraction : BitVec 52) : Binary64 :=
  if h : exponent.toNat = 2047 then if fraction.toNat = 0 then .infinity negative else .nan
  else if exponent.toNat = 0 then .finite negative fraction.toNat (representable_small (fraction_lt _))
  else
    .finite negative ((Nat.pow 2 52 + fraction.toNat) * Nat.pow 2 (exponent.toNat - 1))
      (representable_of_lt (significand_lt _) (by have := exponent.isLt; omega))

/-- The number that 64 bits stand for: one bit of sign, 11 of exponent, 52 of fraction. -/
def ofBits (bits : BitVec 64) : Binary64 :=
  ofFields bits.msb (bits.extractLsb' 52 11) (bits.extractLsb' 0 52)

end Binary64

end Abacus

/-! # Rounding -/

namespace Abacus.Binary64

/-- The integer nearest to a quotient, the even one of two. -/
def nearest (numerator denominator : Nat) : Nat :=
  let quotient := numerator / denominator
  let twice := 2 * (numerator % denominator)
  if twice < denominator then quotient
  else if denominator < twice then quotient + 1
  else if quotient % 2 = 0 then quotient
  else quotient + 1

theorem nearest_le (n d : Nat) : nearest n d ≤ n / d + 1 := by
  unfold nearest
  dsimp only
  repeat' split <;> try omega

theorem le_nearest (n d : Nat) : n / d ≤ nearest n d := by
  unfold nearest
  dsimp only
  repeat' split <;> try omega

def roundedUnits (numerator denominator : Nat) : Nat :=
  let k := spacing (numerator / denominator)
  nearest numerator (denominator * Nat.pow 2 k) * Nat.pow 2 k

/-- Before its last digit is rounded, a quotient has no more than 53 binary digits. -/
theorem div_spacing_lt (n d : Nat) : n / (d * Nat.pow 2 (spacing (n / d))) < Nat.pow 2 53 := by
  generalize hk : spacing (n / d) = k
  have hlt : n / d < 2 ^ (53 + k) := by
    refine Nat.lt_of_lt_of_le Nat.lt_log2_self (Nat.pow_le_pow_right (by decide) ?_)
    rw [← hk]
    unfold spacing
    omega
  rw [← Nat.div_div_eq_div_mul]
  refine Nat.div_lt_of_lt_mul ?_
  rw [Nat.pow_add, Nat.mul_comm] at hlt
  exact hlt

theorem dvd_roundedUnits (n d : Nat) :
    Nat.pow 2 (spacing (roundedUnits n d)) ∣ roundedUnits n d := by
  refine dvd_of_le ?_ _
  exact Nat.le_trans (nearest_le n _) (div_spacing_lt n d)

def round (negative : Bool) (numerator denominator : Nat) : Binary64 :=
  if h : roundedUnits numerator denominator < overflow then
    .finite negative (roundedUnits numerator denominator) ⟨h, dvd_roundedUnits _ _⟩
  else .infinity negative

/-! # Arithmetic -/

def ofNat (n : Nat) : Binary64 := round false (n * one) 1

def neg : Binary64 → Binary64
  | .nan => .nan
  | .infinity negative => .infinity !negative
  | .finite negative units h => .finite (!negative) units h

def signed (negative : Bool) (units : Nat) : Int := if negative then -units else units

def add : Binary64 → Binary64 → Binary64
  | .nan, _ | _, .nan => .nan
  | .infinity a, .infinity b => if a = b then .infinity a else .nan
  | .infinity a, .finite .. => .infinity a
  | .finite .., .infinity b => .infinity b
  | .finite a u _, .finite b v _ =>
    let sum := signed a u + signed b v
    if sum = 0 then zero (a && b) else round (sum < 0) sum.natAbs 1

def sub (x y : Binary64) : Binary64 := x.add y.neg

def mul : Binary64 → Binary64 → Binary64
  | .nan, _ | _, .nan => .nan
  | .infinity a, .infinity b => .infinity (a ^^ b)
  | .infinity a, .finite b v _ => if v = 0 then .nan else .infinity (a ^^ b)
  | .finite a u _, .infinity b => if u = 0 then .nan else .infinity (a ^^ b)
  | .finite a u _, .finite b v _ => round (a ^^ b) (u * v) one

def div : Binary64 → Binary64 → Binary64
  | .nan, _ | _, .nan => .nan
  | .infinity _, .infinity _ => .nan
  | .infinity a, .finite b _ _ => .infinity (a ^^ b)
  | .finite a _ _, .infinity b => zero (a ^^ b)
  | .finite a u _, .finite b v _ =>
    if v = 0 then if u = 0 then .nan else .infinity (a ^^ b)
    else round (a ^^ b) (u * one) v

end Abacus.Binary64
