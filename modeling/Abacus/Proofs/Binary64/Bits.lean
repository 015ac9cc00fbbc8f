/-
  Abacus.Proofs.Binary64.Bits — numbers and their bits, and division on all of them.

  - `eq_of_ofBits`: a number other than NaN has one pattern of bits, so equal numbers are equal
    to the bit, the zeros and their signs included.
  - `ofNat?_eq_ok` / `divide_eq_ok`: no operation of a tree is refused. A number that fits in 64
    bits is far from overflow, and division has a result for every divisor.
  - `isZero_ofBits_iff` / `ofBits_eq_nan_iff`: which patterns the zeros and NaN have. There are
    two zeros; NaN may carry any other bits with its exponent.
  - `div_zero_of_nan_or_zero` / `div_zero_of_others`: what IEEE division gives for a divisor that
    is zero; it is never finite.

  `divide_ieee`: so where the divisor is zero, what is taken instead of the quotient is never
  refused, and where it is not, the quotient is taken.
-/

import Abacus.Binary64
import Abacus.Operator

namespace Abacus.Binary64

/-! # Patterns of bits -/

/-- Of two significands with 53 binary digits, the one with the larger scale is the larger. -/
theorem scale_le {a b i j : Nat} (ha : a < Nat.pow 2 53) (hb : Nat.pow 2 52 ≤ b)
    (h : a * Nat.pow 2 i = b * Nat.pow 2 j) : j ≤ i := by
  refine Nat.le_of_not_lt fun hlt => ?_
  obtain ⟨d, rfl⟩ : ∃ d, j = i + (d + 1) := ⟨j - i - 1, by omega⟩
  have h53 : Nat.pow 2 53 = Nat.pow 2 52 * 2 := by decide
  have hd : 0 < Nat.pow 2 d := Nat.two_pow_pos d
  have hij : Nat.pow 2 (i + (d + 1)) = Nat.pow 2 d * 2 * Nat.pow 2 i := by
    simp only [Nat.pow_eq, Nat.pow_add, Nat.pow_one]
    exact Nat.mul_comm ..
  rw [hij, ← Nat.mul_assoc] at h
  have hab : a = b * (Nat.pow 2 d * 2) := Nat.eq_of_mul_eq_mul_right (Nat.two_pow_pos i) h
  have hle : b * 1 ≤ b * Nat.pow 2 d := Nat.mul_le_mul_left b hd
  rw [← Nat.mul_assoc] at hab
  omega

theorem significand_inj {a b i j : Nat} (ha : Nat.pow 2 52 ≤ a ∧ a < Nat.pow 2 53)
    (hb : Nat.pow 2 52 ≤ b ∧ b < Nat.pow 2 53) (h : a * Nat.pow 2 i = b * Nat.pow 2 j) :
    a = b ∧ i = j := by
  obtain rfl : i = j := Nat.le_antisymm (scale_le hb.2 ha.1 h.symm) (scale_le ha.2 hb.1 h)
  exact ⟨Nat.eq_of_mul_eq_mul_right (Nat.two_pow_pos i) h, rfl⟩

def unitsOfFields (exponent fraction : Nat) : Nat :=
  if exponent = 0 then fraction else (Nat.pow 2 52 + fraction) * Nat.pow 2 (exponent - 1)

theorem unitsOfFields_inj {e e' f f' : Nat} (hf : f < Nat.pow 2 52) (hf' : f' < Nat.pow 2 52)
    (h : unitsOfFields e f = unitsOfFields e' f') : e = e' ∧ f = f' := by
  have h53 : Nat.pow 2 53 = Nat.pow 2 52 + Nat.pow 2 52 := by decide
  have hlarge : ∀ {g k : Nat}, Nat.pow 2 52 ≤ (Nat.pow 2 52 + g) * Nat.pow 2 k := by
    intro g k
    exact Nat.le_trans (Nat.le_add_right _ g) (Nat.le_mul_of_pos_right _ (Nat.two_pow_pos k))
  unfold unitsOfFields at h
  split at h <;> split at h
  · omega
  · exact absurd (h ▸ hf) (Nat.not_lt_of_le hlarge)
  · exact absurd (h.symm ▸ hf') (Nat.not_lt_of_le hlarge)
  · obtain ⟨hff, hee⟩ := significand_inj ⟨Nat.le_add_right _ f, by omega⟩ ⟨Nat.le_add_right _ f', by omega⟩ h
    omega

/-- What the fields of a number say of it, if it is not NaN. -/
theorem ofFields_eq_finite {s negative : Bool} {e : BitVec 11} {f : BitVec 52} {units : Nat}
    {hr : Representable units} (h : ofFields s e f = .finite negative units hr) :
    s = negative ∧ e.toNat ≠ 2047 ∧ units = unitsOfFields e.toNat f.toNat := by
  unfold ofFields at h
  unfold unitsOfFields
  split at h
  · split at h <;> cases h
  · rename_i h1
    split at h
    · rename_i h2
      obtain ⟨rfl, rfl⟩ := Binary64.finite.inj h
      exact ⟨rfl, h1, by rw [if_pos h2]⟩
    · rename_i h2
      obtain ⟨rfl, rfl⟩ := Binary64.finite.inj h
      exact ⟨rfl, h1, by rw [if_neg h2]⟩

theorem ofFields_eq_infinity {s negative : Bool} {e : BitVec 11} {f : BitVec 52}
    (h : ofFields s e f = .infinity negative) : s = negative ∧ e.toNat = 2047 ∧ f.toNat = 0 := by
  unfold ofFields at h
  split at h
  · rename_i h1
    split at h
    · rename_i h2
      exact ⟨Binary64.infinity.inj h, h1, h2⟩
    · cases h
  · split at h <;> cases h

theorem ofFields_inj {s s' : Bool} {e e' : BitVec 11} {f f' : BitVec 52} {v : Binary64}
    (hv : v ≠ .nan) (h : ofFields s e f = v) (h' : ofFields s' e' f' = v) : s = s' ∧ e = e' ∧ f = f' := by
  cases v with
  | nan => exact absurd rfl hv
  | infinity negative =>
    obtain ⟨rfl, he, hf⟩ := ofFields_eq_infinity h
    obtain ⟨rfl, he', hf'⟩ := ofFields_eq_infinity h'
    exact ⟨rfl, BitVec.eq_of_toNat_eq (he.trans he'.symm), BitVec.eq_of_toNat_eq (hf.trans hf'.symm)⟩
  | finite negative units hr =>
    obtain ⟨rfl, -, hu⟩ := ofFields_eq_finite h
    obtain ⟨rfl, -, hu'⟩ := ofFields_eq_finite h'
    obtain ⟨he, hf⟩ := unitsOfFields_inj f.isLt f'.isLt (hu.symm.trans hu')
    exact ⟨rfl, BitVec.eq_of_toNat_eq he, BitVec.eq_of_toNat_eq hf⟩

/-- The three fields are all the bits. -/
theorem eq_of_fields {a b : BitVec 64} (hs : a.msb = b.msb)
    (he : a.extractLsb' 52 11 = b.extractLsb' 52 11) (hf : a.extractLsb' 0 52 = b.extractLsb' 0 52) :
    a = b := by
  have he := congrArg BitVec.toNat he
  have hf := congrArg BitVec.toNat hf
  simp only [BitVec.extractLsb'_toNat, Nat.shiftRight_eq_div_pow] at he hf
  rw [BitVec.msb_eq_decide, BitVec.msb_eq_decide, decide_eq_decide] at hs
  have ha := a.isLt
  have hb := b.isLt
  apply BitVec.eq_of_toNat_eq
  omega

theorem eq_of_ofBits {a b : BitVec 64} {v : Binary64} (hv : v ≠ .nan) (ha : ofBits a = v)
    (hb : ofBits b = v) : a = b := by
  obtain ⟨hs, he, hf⟩ := ofFields_inj hv ha hb
  exact eq_of_fields hs he hf

/-! # No operation is refused -/

/-! ## Rounded quotients -/

/-- Rounding adds no more than the spacing around the quotient. -/
theorem roundedUnits_le (n d : Nat) : roundedUnits n d ≤ n / d + Nat.pow 2 (spacing (n / d)) := by
  unfold roundedUnits
  dsimp only
  generalize Nat.pow 2 (spacing (n / d)) = s
  have hn := Nat.mul_le_mul_right s (nearest_le n (d * s))
  rw [← Nat.div_div_eq_div_mul, Nat.add_mul, Nat.one_mul] at hn
  have hq : n / d / s * s ≤ n / d := Nat.div_mul_le_self (n / d) s
  omega

/-- A quotient below a power of two is rounded to less than twice that power. -/
theorem roundedUnits_lt {n d k : Nat} (h : n / d < Nat.pow 2 k) :
    roundedUnits n d < Nat.pow 2 (k + 1) := by
  have hs : Nat.pow 2 (spacing (n / d)) ≤ Nat.pow 2 k := by
    refine Nat.pow_le_pow_right Nat.two_pos ?_
    by_cases h0 : n / d = 0
    · rw [h0]
      exact Nat.zero_le k
    · have := (Nat.log2_lt h0).mpr h
      unfold spacing
      omega
  have hr := roundedUnits_le n d
  have hk : Nat.pow 2 (k + 1) = Nat.pow 2 k * 2 := Nat.pow_succ ..
  omega

theorem isInfinite_round {negative : Bool} {n d : Nat} (h : roundedUnits n d < overflow) :
    (round negative n d).isInfinite = false := by
  unfold round
  rw [dif_pos h]
  rfl

/-! ## Numbers of 64 bits -/

theorem roundedUnits_lt_overflow {n : Nat} (h : n < Nat.pow 2 64) :
    roundedUnits (n * one) 1 < overflow := by
  have hm : 64 + 1074 + 1 ≤ 2098 := by omega
  unfold one overflow
  -- the powers themselves are too large to be computed with
  generalize 1074 = k at hm ⊢
  generalize 2098 = m at hm ⊢
  have hlt : n * Nat.pow 2 k / 1 < Nat.pow 2 (64 + k) := by
    rw [Nat.div_one]
    exact mul_two_pow_lt h (Nat.le_refl _)
  exact Nat.lt_of_lt_of_le (roundedUnits_lt hlt) (Nat.pow_le_pow_right Nat.two_pos hm)

theorem ofNat?_eq_ok {n : Nat} (h : n ≤ Expr.largest) : ofNat? n = .ok (ofNat n) := by
  have hn : n < Nat.pow 2 64 := Nat.lt_of_le_of_lt h (by decide)
  have hf : (ofNat n).isInfinite = false := isInfinite_round (roundedUnits_lt_overflow hn)
  unfold ofNat?
  rw [hf]
  rfl

/-! ## Division -/

theorem special?_div_of_isZero {lhs rhs : Binary64} (h : rhs.isZero = true) :
    (lhs.div rhs).special? = .ok (lhs.div rhs) := by
  cases rhs with
  | nan => cases h
  | infinity b => cases h
  | finite b v hv =>
    obtain rfl : v = 0 := by simpa [isZero] using h
    cases lhs with
    | nan => rfl
    | infinity a => rfl
    | finite a u hu =>
      simp only [div, if_true]
      split <;> rfl

theorem divide_eq_ok (lhs rhs : Binary64) : lhs.divide rhs = .ok (lhs.div rhs) := by
  unfold divide quotient
  by_cases h : rhs.isZero = true
  · rw [if_pos h, special?_div_of_isZero h]
  · rw [if_neg h, if_neg h]

/-! # Division -/

/-! ## Patterns of bits -/

def ZeroBits (bits : BitVec 64) : Prop := bits = 0x0000000000000000#64 ∨ bits = 0x8000000000000000#64

instance (bits : BitVec 64) : Decidable (ZeroBits bits) := inferInstanceAs (Decidable (_ ∨ _))

/-- NaN, whatever it carries. -/
def NanBits (bits : BitVec 64) : Prop :=
  bits.extractLsb' 52 11 = 0x7FF#11 ∧ bits.extractLsb' 0 52 ≠ 0#52

instance (bits : BitVec 64) : Decidable (NanBits bits) := inferInstanceAs (Decidable (_ ∧ _))

theorem ofBits_of_zeroBits {bits : BitVec 64} (h : ZeroBits bits) : ofBits bits = zero bits.msb := by
  rcases h with rfl | rfl <;> decide

theorem isZero_ofBits_iff (bits : BitVec 64) : (ofBits bits).isZero = true ↔ ZeroBits bits := by
  constructor
  · intro h
    have hzero : ∃ negative, ofBits bits = zero negative := by
      cases hv : ofBits bits with
      | nan => rw [hv] at h; cases h
      | infinity negative => rw [hv] at h; cases h
      | finite negative units hr =>
        rw [hv] at h
        obtain rfl : units = 0 := by simpa [isZero] using h
        exact ⟨negative, rfl⟩
    obtain ⟨negative, hv⟩ := hzero
    cases negative with
    | false => exact .inl (eq_of_ofBits (by simp [zero]) hv (by decide))
    | true => exact .inr (eq_of_ofBits (by simp [zero]) hv (by decide))
  · intro h
    rw [ofBits_of_zeroBits h]
    rfl

theorem ofFields_eq_nan_iff {negative : Bool} {e : BitVec 11} {f : BitVec 52} :
    ofFields negative e f = .nan ↔ e = 0x7FF#11 ∧ f ≠ 0#52 := by
  have hexponent : e.toNat = 2047 ↔ e = 0x7FF#11 := by
    rw [← BitVec.toNat_inj]
    rfl
  have hfraction : f.toNat = 0 ↔ f = 0#52 := by
    rw [← BitVec.toNat_inj]
    rfl
  rw [← hexponent, ne_eq, ← hfraction]
  unfold ofFields
  split
  · rename_i he
    split
    · rename_i hf
      exact iff_of_false Binary64.noConfusion fun h => h.2 hf
    · rename_i hf
      exact iff_of_true rfl ⟨he, hf⟩
  · rename_i he
    split <;> exact iff_of_false Binary64.noConfusion fun h => he h.1

theorem ofBits_eq_nan_iff (bits : BitVec 64) : ofBits bits = .nan ↔ NanBits bits :=
  ofFields_eq_nan_iff

/-- A number other than NaN has the sign that its first bit says. -/
theorem msb_of_infinity {bits : BitVec 64} {negative : Bool} (h : ofBits bits = .infinity negative) :
    bits.msb = negative :=
  (ofFields_eq_infinity h).1

theorem msb_of_finite {bits : BitVec 64} {negative : Bool} {units : Nat} {hr : Representable units}
    (h : ofBits bits = .finite negative units hr) : bits.msb = negative :=
  (ofFields_eq_finite h).1

/-! ## A divisor that is zero -/

theorem div_zero_of_nan_or_zero {bits : BitVec 64} (h : NanBits bits ∨ ZeroBits bits)
    (negative : Bool) : (ofBits bits).div (zero negative) = .nan := by
  rcases h with hnan | hzero
  · rw [(ofBits_eq_nan_iff bits).mpr hnan]
    rfl
  · rw [ofBits_of_zeroBits hzero]
    simp only [zero, div, if_true]

theorem div_zero_of_others {bits : BitVec 64} (hnan : ¬ NanBits bits) (hzero : ¬ ZeroBits bits)
    (negative : Bool) : (ofBits bits).div (zero negative) = .infinity (bits.msb ^^ negative) := by
  rw [← ofBits_eq_nan_iff] at hnan
  rw [← isZero_ofBits_iff] at hzero
  cases h : ofBits bits with
  | nan => exact absurd h hnan
  | infinity a =>
    rw [msb_of_infinity h]
    rfl
  | finite a units hr =>
    have hunits : units ≠ 0 := by simpa [h, isZero] using hzero
    rw [msb_of_finite h]
    simp only [zero, div, if_true, hunits, if_false]

/-! ## All divisors -/

theorem divide_ieee (lhs rhs : BitVec 64) :
    (ZeroBits rhs →
      (NanBits lhs ∨ ZeroBits lhs → (ofBits lhs).divide (ofBits rhs) = .ok .nan) ∧
      (¬ NanBits lhs → ¬ ZeroBits lhs →
        (ofBits lhs).divide (ofBits rhs) = .ok (.infinity (lhs.msb ^^ rhs.msb)))) ∧
    (¬ ZeroBits rhs →
      (ofBits lhs).divide (ofBits rhs) = (ofBits lhs).quotient (ofBits rhs) ∧
      (ofBits lhs).quotient (ofBits rhs) = .ok ((ofBits lhs).div (ofBits rhs))) ∧
    ∃ q, (ofBits lhs).divide (ofBits rhs) = .ok q := by
  refine ⟨fun h => ?_, fun h => ?_, _, divide_eq_ok _ _⟩
  · rw [divide_eq_ok, ofBits_of_zeroBits h]
    exact ⟨fun hlhs => by rw [div_zero_of_nan_or_zero hlhs],
      fun hnan hzero => by rw [div_zero_of_others hnan hzero]⟩
  · rw [← isZero_ofBits_iff] at h
    exact ⟨if_neg h, if_neg h⟩

/-- A quiet NaN, the negative zero, the least positive number and the negative infinity, each
    divided by the negative zero, and one half divided by NaN. -/
theorem divide_ieee_special :
    (ofBits 0x7FF8000000000001#64).divide (ofBits 0x8000000000000000#64) = .ok .nan ∧
    (ofBits 0x8000000000000000#64).divide (ofBits 0x8000000000000000#64) = .ok .nan ∧
    (ofBits 0x0000000000000001#64).divide (ofBits 0x8000000000000000#64) = .ok (.infinity true) ∧
    (ofBits 0xFFF0000000000000#64).divide (ofBits 0x8000000000000000#64) = .ok (.infinity false) ∧
    (ofBits 0x3FE0000000000000#64).divide (ofBits 0x7FF8000000000001#64) =
      (ofBits 0x3FE0000000000000#64).quotient (ofBits 0x7FF8000000000001#64) := by
  refine ⟨?_, ?_, ?_, ?_, ?_⟩
  · exact ((divide_ieee _ _).1 (by decide)).1 (by decide)
  · exact ((divide_ieee _ _).1 (by decide)).1 (by decide)
  · exact ((divide_ieee _ _).1 (by decide)).2 (by decide) (by decide)
  · exact ((divide_ieee _ _).1 (by decide)).2 (by decide) (by decide)
  · exact ((divide_ieee _ _).2.1 (by decide)).1

end Abacus.Binary64
