/-
  Abacus.Proofs.Binary64.Shortest — the search for the shortest decimal finds it.

  Decimals are measured in units.

  - `ofDecimal_eq_finite_iff` / `readsBack_iff`: a decimal is read as the finite number that is
    nearest to it, as `RoundsTo` says.
  - `decimalWidth_eq` / `length_significant_le`: how many digits a decimal is written with.
  - `leadingExponent_bounds`: a number lies between the powers of ten of its first digit.
  - `neighbour_reads`: if a decimal of a grid is read as a number, so is the number's neighbour
    on that side.
  - `decimalOf?_of_reads` / `decimalOf?_spec`: so looking at the two neighbours finds a decimal
    of the grid if there is one, and takes the nearest.
  - `exists_on_grid`: for a decimal with so many digits, however small its last one, there is one
    on the grid of so many digits that is no farther away.
  - `shortest_first`: the search ends at the first count of digits that has a decimal, since all
    the digits of a number are fewer than it tries.

  `shortest_spec`: so what it finds is read as the number, with as few digits as any decimal
  that is, and of those with so few it is the nearest.
-/

import Mathlib.Algebra.Order.Field.Power
import Mathlib.Algebra.Order.Group.Pointwise.Interval
import Abacus.Binary64.Text
import Abacus.Proofs.Binary64.Display
import Abacus.Proofs.Binary64.Rounding

namespace Abacus

/-! # Decimals in units -/

namespace Binary64

theorem cast_one_pos : (0 : ℚ) < one := Nat.cast_pos.mpr one_pos

def step (exponent : Int) : ℚ := 10 ^ exponent * one

theorem step_pos (exponent : Int) : 0 < step exponent :=
  mul_pos (zpow_pos (by norm_num) exponent) cast_one_pos

/-- Ten to the k steps are one step of a larger exponent. -/
theorem step_add (k : Nat) (exponent : Int) : step (k + exponent) = 10 ^ k * step exponent := by
  unfold step
  rw [zpow_add₀ (by norm_num), zpow_natCast, mul_assoc]

theorem step_mono {i j : Int} (h : i ≤ j) : step i ≤ step j :=
  mul_le_mul_of_nonneg_right (zpow_le_zpow_right₀ (by norm_num) h) cast_one_pos.le

end Binary64

open Binary64

def Decimal.inUnits (d : Decimal) : ℚ := d.digits * step d.exponent

theorem Decimal.inUnits_nonneg (d : Decimal) : 0 ≤ d.inUnits :=
  mul_nonneg (Nat.cast_nonneg _) (step_pos _).le

/-- Zeros behind the digits, or a smaller exponent. -/
theorem Decimal.inUnits_zeros (digits k : Nat) (exponent : Int) :
    Decimal.inUnits ⟨digits * 10 ^ k, exponent⟩ = Decimal.inUnits ⟨digits, k + exponent⟩ := by
  unfold Decimal.inUnits
  rw [step_add]
  push_cast
  ring

namespace Binary64

/-! ## Reading -/

/-- A decimal is read by rounding a quotient that is the decimal in units. -/
theorem ofDecimal_eq_round (d : Decimal) : ∃ numerator denominator : Nat, 0 < denominator ∧
    (numerator : ℚ) / denominator = d.inUnits ∧
    ∀ negative, ofDecimal negative d = round negative numerator denominator := by
  unfold Decimal.inUnits ofDecimal step
  by_cases h : 0 ≤ d.exponent
  · simp only [h, if_true]
    refine ⟨_, 1, Nat.one_pos, ?_, fun _ => rfl⟩
    obtain ⟨k, hk⟩ := Int.eq_ofNat_of_zero_le h
    rw [hk, Int.toNat_natCast, zpow_natCast, Nat.pow_eq]
    push_cast
    rw [div_one, mul_assoc]
  · simp only [h, if_false]
    refine ⟨_, _, Nat.pow_pos (by decide), ?_, fun _ => rfl⟩
    obtain ⟨k, hk⟩ : ∃ k : Nat, d.exponent = -(k : Int) := ⟨(-d.exponent).toNat, by omega⟩
    rw [hk, neg_neg, Int.toNat_natCast, zpow_neg, zpow_natCast]
    push_cast
    rw [mul_left_comm, ← div_eq_inv_mul]

theorem ofDecimal_eq_finite_iff {d : Decimal} {units : Nat} (hr : Representable units)
    (negative : Bool) : ofDecimal negative d = .finite negative units hr ↔ RoundsTo d.inUnits units := by
  obtain ⟨numerator, denominator, hpos, hvalue, hround⟩ := ofDecimal_eq_round d
  rw [hround, round_eq_finite_iff hpos hr, hvalue]

theorem readsBack_iff {d : Decimal} {units : Nat} (hr : Representable units) :
    readsBack units d = true ↔ RoundsTo d.inUnits units := by
  obtain ⟨numerator, denominator, hpos, hvalue, hround⟩ := ofDecimal_eq_round d
  rw [← hvalue, roundsTo_iff hpos]
  unfold readsBack
  rw [hround]
  unfold round
  by_cases h : roundedUnits numerator denominator < overflow
  · rw [dif_pos h]
    exact beq_iff_eq
  · rw [dif_neg h]
    refine iff_of_false (by simp) ?_
    rintro rfl
    exact h hr.1

/-- What is read as a positive number is positive. -/
theorem RoundsTo.digits_ne_zero {d : Decimal} {units : Nat} (hreads : RoundsTo d.inUnits units)
    (h : units ≠ 0) : d.digits ≠ 0 := by
  intro hzero
  have hnone : d.inUnits = (0 : Nat) := by
    unfold Decimal.inUnits
    rw [hzero, Nat.cast_zero, zero_mul]
  exact h (hreads.unique (hnone ▸ roundsTo_self (Nat.dvd_zero _)))

/-! ## Digits -/

/-- A number with k + 1 digits lies between two powers of ten. -/
theorem length_toDigits_eq_iff {n k : Nat} (hn : 0 < n) :
    (Nat.toDigits 10 n).length = k + 1 ↔ 10 ^ k ≤ n ∧ n < 10 ^ (k + 1) := by
  have hupper : (Nat.toDigits 10 n).length ≤ k + 1 ↔ n < 10 ^ (k + 1) :=
    Nat.length_toDigits_le_iff (by decide) (Nat.succ_pos k)
  have hlower : k + 1 ≤ (Nat.toDigits 10 n).length ↔ 10 ^ k ≤ n := by
    rcases Nat.eq_zero_or_pos k with rfl | hk
    · exact iff_of_true Nat.length_toDigits_pos hn
    · have := Nat.length_toDigits_le_iff (b := 10) (n := n) (by decide) hk
      omega
  omega

theorem decimalWidth_eq (n : Nat) : decimalWidth n = (Nat.toDigits 10 n).length := by
  fun_induction decimalWidth n with
  | case1 n h => rfl
  | case2 n h ih =>
    rw [ih]
    have hn : 10 ^ 16 ≤ n := Nat.le_of_not_lt h
    obtain ⟨k, hk⟩ : ∃ k, (Nat.toDigits 10 (n / 10 ^ 16)).length = k + 1 :=
      ⟨_, (Nat.succ_pred_eq_of_pos Nat.length_toDigits_pos).symm⟩
    obtain ⟨hlower, hupper⟩ := (length_toDigits_eq_iff (Nat.div_pos hn (by decide))).mp hk
    have hlength : (Nat.toDigits 10 n).length = k + 16 + 1 := by
      refine (length_toDigits_eq_iff (by omega)).mpr ⟨?_, ?_⟩
      · rw [Nat.pow_add]
        exact (Nat.le_div_iff_mul_le (by decide)).mp hlower
      · rw [Nat.add_right_comm, Nat.pow_add]
        exact (Nat.div_lt_iff_lt_mul (by decide)).mp hupper
    rw [hlength]
    show 16 + (Nat.toDigits 10 (n / 10 ^ 16)).length = _
    omega

/-! ## Significant digits -/

theorem ofDigitChars_zeros (k m : Nat) : Nat.ofDigitChars 10 (zeros k) m = m * 10 ^ k := by
  rw [zeros, Nat.ofDigitChars_replicate_zero, Nat.mul_comm]

/-- Without the zeros at its end, a positive number keeps its first digits. -/
theorem toDigits_eq_significant {n : Nat} (hn : n ≠ 0) :
    ∃ k, Nat.toDigits 10 n = significant n ++ zeros k := by
  generalize hkept : (Nat.toDigits 10 n).reverse.dropWhile (· == '0') = kept
  obtain ⟨k, hk⟩ : ∃ k, (Nat.toDigits 10 n).reverse.takeWhile (· == '0') = zeros k := by
    refine ⟨_, List.eq_replicate_of_mem fun c hc => ?_⟩
    simpa using List.all_eq_true.mp List.all_takeWhile c hc
  have hdigits : Nat.toDigits 10 n = kept.reverse ++ zeros k := by
    have hsplit := List.takeWhile_append_dropWhile (p := (· == '0')) (l := (Nat.toDigits 10 n).reverse)
    rw [hk, hkept] at hsplit
    rw [← List.reverse_inj, List.reverse_append, List.reverse_reverse, ← hsplit]
    simp [zeros]
  have hne : kept.reverse ≠ [] := by
    intro h
    have hvalue : Nat.ofDigitChars 10 (Nat.toDigits 10 n) 0 = n := Nat.ofDigitChars_ten_toDigits
    rw [hdigits, h, List.nil_append, ofDigitChars_zeros, Nat.zero_mul] at hvalue
    exact hn hvalue.symm
  refine ⟨k, ?_⟩
  unfold significant
  rw [hkept]
  split
  · rename_i h
    exact absurd h hne
  · exact hdigits

/-- A positive decimal is its significant digits with a larger exponent. -/
theorem inUnits_significant {d : Decimal} (hd : d.digits ≠ 0) :
    ∃ k S : Nat, Nat.toDigits 10 d.digits = significant d.digits ++ zeros k ∧
      Nat.ofDigitChars 10 (significant d.digits) 0 = S ∧
      S < 10 ^ (significant d.digits).length ∧ d.inUnits = Decimal.inUnits ⟨S, k + d.exponent⟩ := by
  obtain ⟨k, hk⟩ := toDigits_eq_significant hd
  have hvalue : Nat.ofDigitChars 10 (significant d.digits) 0 * 10 ^ k = d.digits := by
    rw [← ofDigitChars_zeros, ← Nat.ofDigitChars_append, ← hk, Nat.ofDigitChars_ten_toDigits]
  refine ⟨k, _, hk, rfl, ?_, ?_⟩
  · have hlength : d.digits < 10 ^ (Nat.toDigits 10 d.digits).length :=
      (Nat.length_toDigits_le_iff (by decide) Nat.length_toDigits_pos).mp (Nat.le_refl _)
    rw [hk, List.length_append, zeros, List.length_replicate, Nat.pow_add] at hlength
    exact Nat.lt_of_mul_lt_mul_right (hvalue.trans_lt hlength)
  · rw [← Decimal.inUnits_zeros, hvalue]

theorem toDigits_ten_pow (k : Nat) : Nat.toDigits 10 (10 ^ k) = '1' :: zeros k := by
  induction k with
  | zero => rfl
  | succ k ih =>
    have hsplit := Nat.toDigits_append_toDigits (b := 10) (n := 10 ^ k) (d := 0) (by decide)
      (Nat.pow_pos (by decide)) (by decide)
    rw [Nat.pow_succ, Nat.mul_comm, ← Nat.add_zero (10 * 10 ^ k), ← hsplit, ih]
    simp [zeros, List.replicate_succ']

/-- A number of so many digits, or the power of ten behind them, has no more digits that count. -/
theorem length_significant_le {n width : Nat} (hw : 0 < width) (h : n ≤ 10 ^ width) :
    (significant n).length ≤ width := by
  rcases Nat.eq_zero_or_pos n with rfl | hn
  · exact hw
  obtain ⟨k, hk⟩ := toDigits_eq_significant hn.ne'
  rcases Nat.lt_or_eq_of_le h with hlt | rfl
  · have hlength := (Nat.length_toDigits_le_iff (b := 10) (by decide) hw).mpr hlt
    rw [hk, List.length_append] at hlength
    omega
  · have hone : significant (10 ^ width) = ['1'] := by
      unfold significant
      rw [toDigits_ten_pow]
      simp [zeros]
    rw [hone]
    exact hw

/-! ## Powers of ten around a number -/

/-- A number between two powers of ten, found by counting digits of its whole multiple. -/
theorem bounds_of_scaled {units z : Nat} (h : units ≠ 0) (hz : one ≤ Nat.pow 10 z) :
    step (((Nat.toDigits 10 (units * Nat.pow 10 z / one)).length : Int) - (z + 1)) ≤ units ∧
      (units : ℚ) < step (((Nat.toDigits 10 (units * Nat.pow 10 z / one)).length : Int) - z) := by
  have hscaled : 0 < units * Nat.pow 10 z / one :=
    Nat.div_pos (Nat.le_trans hz (Nat.le_mul_of_pos_left _ (Nat.pos_of_ne_zero h))) one_pos
  obtain ⟨k, hk⟩ : ∃ k, (Nat.toDigits 10 (units * Nat.pow 10 z / one)).length = k + 1 :=
    ⟨_, (Nat.succ_pred_eq_of_pos Nat.length_toDigits_pos).symm⟩
  obtain ⟨hlower, hupper⟩ := (length_toDigits_eq_iff hscaled).mp hk
  rw [Nat.le_div_iff_mul_le one_pos] at hlower
  rw [Nat.div_lt_iff_lt_mul one_pos] at hupper
  have hpow : (0 : ℚ) < 10 ^ z := by positivity
  have hstep : ∀ j : Nat, (10 : ℚ) ^ z * step (j - z) = 10 ^ j * one := by
    intro j
    rw [← step_add, add_sub_cancel, step, zpow_natCast]
  have hlower' : (10 : ℚ) ^ k * one ≤ 10 ^ z * units := by
    rw [mul_comm (10 ^ z : ℚ)]
    exact_mod_cast hlower
  have hupper' : (10 : ℚ) ^ z * units < 10 ^ (k + 1) * one := by
    rw [mul_comm (10 ^ z : ℚ)]
    exact_mod_cast hupper
  rw [hk]
  constructor
  · refine le_of_mul_le_mul_left ?_ hpow
    rwa [show ((k + 1 : Nat) : Int) - (z + 1) = k - z by omega, hstep]
  · refine lt_of_mul_lt_mul_left ?_ hpow.le
    rwa [hstep]

/-- No number lies below 10^-324. -/
theorem one_le_ten_pow : one ≤ Nat.pow 10 324 := by
  decide +kernel

theorem leadingExponent_bounds {units : Nat} (h : units ≠ 0) :
    step (leadingExponent units) ≤ units ∧ (units : ℚ) < step (leadingExponent units + 1) := by
  obtain ⟨hlower, hupper⟩ := bounds_of_scaled h one_le_ten_pow
  unfold leadingExponent
  rw [decimalWidth_eq]
  refine ⟨hlower, ?_⟩
  rwa [sub_add]

end Binary64

end Abacus

/-! # The search -/

namespace Abacus.Binary64

/-! ## Grids -/

section Grid

variable (units width : Nat)

def onGrid : Nat × Nat := scaledQuotient units (gridExponent units width)

/-- The grid's last decimal up to the number. -/
def below : Nat := (onGrid units width).1 / (onGrid units width).2

theorem onGrid_spec : 0 < (onGrid units width).2 ∧
    ((onGrid units width).1 : ℚ) / (onGrid units width).2 =
      units / step (gridExponent units width) := by
  have hone := one_pos
  unfold onGrid scaledQuotient step
  generalize gridExponent units width = exponent
  generalize one = unit at hone ⊢
  by_cases h : 0 ≤ exponent
  · rw [if_pos h]
    obtain ⟨k, rfl⟩ := Int.eq_ofNat_of_zero_le h
    refine ⟨Nat.mul_pos hone (Nat.pow_pos (by decide)), ?_⟩
    rw [Int.toNat_natCast, zpow_natCast, Nat.pow_eq]
    push_cast
    rw [mul_comm (unit : ℚ)]
  · rw [if_neg h]
    obtain ⟨k, rfl⟩ : ∃ k : Nat, exponent = -(k : Int) := ⟨(-exponent).toNat, by omega⟩
    refine ⟨hone, ?_⟩
    rw [neg_neg, Int.toNat_natCast, zpow_neg, zpow_natCast, Nat.pow_eq]
    push_cast
    rw [← div_div, div_inv_eq_mul]

theorem below_le : below units width * step (gridExponent units width) ≤ units := by
  obtain ⟨-, hvalue⟩ := onGrid_spec units width
  rw [← le_div_iff₀ (step_pos _), ← hvalue]
  exact Nat.cast_div_le

theorem lt_above : (units : ℚ) < (below units width + 1 : Nat) * step (gridExponent units width) := by
  obtain ⟨hpos, hvalue⟩ := onGrid_spec units width
  rw [← div_lt_iff₀ (step_pos _), ← hvalue, div_lt_iff₀ (by exact_mod_cast hpos)]
  exact_mod_cast Nat.lt_mul_of_div_lt (Nat.lt_succ_self _) hpos

theorem below_lt (h : units ≠ 0) : below units width < 10 ^ width := by
  have hlt : (below units width : ℚ) * step (gridExponent units width) <
      10 ^ width * step (gridExponent units width) := by
    rw [← step_add, gridExponent, ← add_assoc, add_sub_cancel]
    exact (below_le units width).trans_lt (leadingExponent_bounds h).2
  exact_mod_cast lt_of_mul_lt_mul_right hlt (step_pos _).le

/-- Distances from the number, in steps. -/
theorem abs_onGrid_sub (k : Nat) :
    |(k : ℚ) * step (gridExponent units width) - units| = step (gridExponent units width) *
      |(k : ℚ) - (onGrid units width).1 / (onGrid units width).2| := by
  have hstep := step_pos (gridExponent units width)
  rw [(onGrid_spec units width).2, ← abs_of_pos hstep, ← abs_mul, abs_of_pos hstep]
  congr 1
  field_simp

end Grid

/-! ## One count of digits -/

section Width

variable {units width : Nat}

def gridDecimal (units width k : Nat) : Decimal := ⟨k, gridExponent units width⟩

theorem gridDecimal_mono {j k : Nat} (h : j ≤ k) :
    (gridDecimal units width j).inUnits ≤ (gridDecimal units width k).inUnits :=
  mul_le_mul_of_nonneg_right (by exact_mod_cast h) (step_pos _).le

/-- If a decimal of the grid is read as the number, so is the number's neighbour on its side. -/
theorem neighbour_reads (h : Expressible units) {k : Nat}
    (hk : RoundsTo (gridDecimal units width k).inUnits units) :
    (k ≤ below units width ∧
        RoundsTo (gridDecimal units width (below units width)).inUnits units) ∨
      (below units width + 1 ≤ k ∧
        RoundsTo (gridDecimal units width (below units width + 1)).inUnits units) := by
  rcases Nat.lt_or_ge (below units width) k with hlt | hle
  · exact .inr ⟨hlt, (roundsTo_self h).between hk (Nat.cast_nonneg _) (lt_above units width).le
      (gridDecimal_mono hlt)⟩
  · exact .inl ⟨hle, hk.between (roundsTo_self h) (Decimal.inUnits_nonneg _) (gridDecimal_mono hle)
      (below_le units width)⟩

theorem neighbour?_eq_none_iff {reads : Decimal → Bool} {exponent : Int} {quotient : Nat × Nat} :
    neighbour? reads exponent quotient = none ↔
      reads ⟨quotient.1 / quotient.2, exponent⟩ = false ∧
        reads ⟨quotient.1 / quotient.2 + 1, exponent⟩ = false := by
  unfold neighbour?
  dsimp only
  split <;> simp_all

theorem neighbour?_eq_some {reads : Decimal → Bool} {exponent : Int} {quotient : Nat × Nat}
    {d : Decimal} (h : neighbour? reads exponent quotient = some d) :
    (reads ⟨quotient.1 / quotient.2, exponent⟩ = true ∧
        reads ⟨quotient.1 / quotient.2 + 1, exponent⟩ = true ∧
        d = ⟨nearest quotient.1 quotient.2, exponent⟩) ∨
      (reads ⟨quotient.1 / quotient.2, exponent⟩ = true ∧
        reads ⟨quotient.1 / quotient.2 + 1, exponent⟩ = false ∧
        d = ⟨quotient.1 / quotient.2, exponent⟩) ∨
      (reads ⟨quotient.1 / quotient.2, exponent⟩ = false ∧
        reads ⟨quotient.1 / quotient.2 + 1, exponent⟩ = true ∧
        d = ⟨quotient.1 / quotient.2 + 1, exponent⟩) := by
  unfold neighbour? at h
  dsimp only at h
  split at h <;> simp_all

theorem decimalOf?_eq : decimalOf? units width =
    neighbour? (readsBack units) (gridExponent units width) (onGrid units width) := rfl

theorem decimalOf?_of_reads (hr : Representable units) {k : Nat}
    (hk : RoundsTo (gridDecimal units width k).inUnits units) :
    ∃ d, decimalOf? units width = some d := by
  refine Option.ne_none_iff_exists'.mp fun hnone => ?_
  rw [decimalOf?_eq, neighbour?_eq_none_iff] at hnone
  rcases neighbour_reads hr.2 hk with ⟨-, hreads⟩ | ⟨-, hreads⟩
  · exact Bool.false_ne_true (hnone.1.symm.trans ((readsBack_iff hr).mpr hreads))
  · exact Bool.false_ne_true (hnone.2.symm.trans ((readsBack_iff hr).mpr hreads))

/-- What is found on the grid is read as the number, and nothing on the grid that is lies nearer. -/
theorem decimalOf?_spec (hr : Representable units) {d : Decimal}
    (hd : decimalOf? units width = some d) :
    RoundsTo d.inUnits units ∧ d.digits ≤ below units width + 1 ∧
      ∀ k, RoundsTo (gridDecimal units width k).inUnits units →
        |d.inUnits - units| ≤ |(gridDecimal units width k).inUnits - units| := by
  rw [decimalOf?_eq] at hd
  rcases neighbour?_eq_some hd with ⟨hbelow, habove, rfl⟩ | ⟨hbelow, habove, rfl⟩ |
    ⟨hbelow, habove, rfl⟩
  · rw [readsBack_iff hr] at hbelow habove
    have hhigh := nearest_le (onGrid units width).1 (onGrid units width).2
    refine ⟨hbelow.between habove (Decimal.inUnits_nonneg _) (gridDecimal_mono (le_nearest _ _))
      (gridDecimal_mono hhigh), hhigh, fun k _ => ?_⟩
    unfold Decimal.inUnits gridDecimal
    rw [abs_onGrid_sub, abs_onGrid_sub]
    exact mul_le_mul_of_nonneg_left (nearest_closest (onGrid_spec units width).1 k) (step_pos _).le
  · refine ⟨(readsBack_iff hr).mp hbelow, Nat.le_succ _, fun k hk => ?_⟩
    rcases neighbour_reads hr.2 hk with ⟨hle, -⟩ | ⟨-, hreads⟩
    · exact Set.abs_sub_left_of_mem_uIcc
        (Set.mem_uIcc.mpr (.inr ⟨gridDecimal_mono hle, below_le units width⟩))
    · exact absurd (habove.symm.trans ((readsBack_iff hr).mpr hreads)) Bool.false_ne_true
  · refine ⟨(readsBack_iff hr).mp habove, Nat.le_refl _, fun k hk => ?_⟩
    rcases neighbour_reads hr.2 hk with ⟨-, hreads⟩ | ⟨hle, -⟩
    · exact absurd (hbelow.symm.trans ((readsBack_iff hr).mpr hreads)) Bool.false_ne_true
    · exact Set.abs_sub_left_of_mem_uIcc
        (Set.mem_uIcc.mpr (.inl ⟨(lt_above units width).le, gridDecimal_mono hle⟩))

/-- For each decimal of so many digits that is read as the number there is one on the grid that
    is too, and is no farther away. -/
theorem exists_on_grid (hr : Representable units) (h : units ≠ 0) {d : Decimal} (hw : 0 < width)
    (hd : d.digits < 10 ^ width) (hreads : RoundsTo d.inUnits units) :
    ∃ k, RoundsTo (gridDecimal units width k).inUnits units ∧
      |(gridDecimal units width k).inUnits - units| ≤ |d.inUnits - units| := by
  obtain ⟨hlead, -⟩ := leadingExponent_bounds h
  obtain ⟨w, rfl⟩ : ∃ w, width = w + 1 := ⟨width - 1, by omega⟩
  have hgrid : gridExponent units (w + 1) = leadingExponent units - w := by
    unfold gridExponent
    omega
  rcases lt_or_ge d.inUnits (step (leadingExponent units)) with hlt | hge
  · -- the power of ten up to the number lies between
    have hpower : (gridDecimal units (w + 1) (10 ^ w)).inUnits = step (leadingExponent units) := by
      unfold Decimal.inUnits gridDecimal
      rw [hgrid]
      push_cast
      rw [← step_add, add_sub_cancel]
    refine ⟨10 ^ w, ?_, ?_⟩
    · rw [hpower]
      exact hreads.between (roundsTo_self hr.2) d.inUnits_nonneg hlt.le hlead
    · rw [hpower]
      exact Set.abs_sub_left_of_mem_uIcc (Set.mem_uIcc.mpr (.inr ⟨hlt.le, hlead⟩))
  · -- the last digit is not behind the grid, since the first is not behind the number's
    have hexponent : gridExponent units (w + 1) ≤ d.exponent := by
      by_contra hbehind
      have hsmall : d.inUnits < step (leadingExponent units) :=
        calc d.inUnits < 10 ^ (w + 1) * step d.exponent :=
              mul_lt_mul_of_pos_right (by exact_mod_cast hd) (step_pos _)
          _ = step ((w + 1 : Nat) + d.exponent) := (step_add _ _).symm
          _ ≤ step (leadingExponent units) := step_mono (by omega)
      exact absurd hge (not_le.mpr hsmall)
    obtain ⟨j, hj⟩ := Int.le.dest hexponent
    have hsame : (gridDecimal units (w + 1) (d.digits * 10 ^ j)).inUnits = d.inUnits := by
      rw [gridDecimal, Decimal.inUnits_zeros, Int.add_comm, hj]
    exact ⟨d.digits * 10 ^ j, hsame ▸ hreads, by rw [hsame]⟩

end Width

/-! ## The search -/

/-- The search ends at the first count of digits that has a decimal, if it gets there. -/
theorem shortestFrom_eq {units tries width w : Nat} (hw : width ≤ w) (hlt : w < width + tries)
    (hsome : (decimalOf? units w).isSome) :
    ∃ v, width ≤ v ∧ decimalOf? units v = some (shortestFrom units tries width) ∧
      ∀ earlier, width ≤ earlier → earlier < v → decimalOf? units earlier = none := by
  induction tries generalizing width with
  | zero => omega
  | succ tries ih =>
    rw [shortestFrom]
    cases hfirst : decimalOf? units width with
    | some d => exact ⟨width, Nat.le_refl _, hfirst, fun earlier _ _ => by omega⟩
    | none =>
      have hne : width ≠ w := fun h => by simp [h ▸ hfirst] at hsome
      obtain ⟨v, hle, hv, hfirsts⟩ := @ih (width + 1) (by omega) (by omega)
      refine ⟨v, by omega, hv, fun earlier hfrom hearlier => ?_⟩
      rcases Nat.lt_or_eq_of_le hfrom with hlater | rfl
      · exact hfirsts earlier hlater hearlier
      · exact hfirst

/-- All the decimal digits of a number, one for each binary digit behind the point. -/
def allDigits (units : Nat) : Decimal := ⟨units * Nat.pow 5 1074, -1074⟩

theorem inUnits_allDigits (units : Nat) : (allDigits units).inUnits = units := by
  obtain ⟨k, hk⟩ : ∃ k : Nat, k = 1074 := ⟨_, rfl⟩
  have hexponent : (-1074 : Int) = -(k : Int) := by omega
  unfold allDigits Decimal.inUnits step one
  rw [← hk, hexponent, Nat.pow_eq, Nat.pow_eq, zpow_neg, zpow_natCast]
  push_cast
  rw [show (10 : ℚ) = 5 * 2 by norm_num, mul_pow]
  field_simp

theorem overflow_allDigits : 0 < Nat.pow 5 1074 ∧
    ∃ width, 1 ≤ width ∧ width < 1400 ∧ overflow * Nat.pow 5 1074 ≤ Nat.pow 10 width :=
  ⟨by decide +kernel, 1399, by decide +kernel⟩

theorem allDigits_lt {units : Nat} (h : units < overflow) :
    ∃ width, 1 ≤ width ∧ width < 1400 ∧ (allDigits units).digits < 10 ^ width := by
  obtain ⟨hpos, width, hone, hlt, hbound⟩ := overflow_allDigits
  refine ⟨width, hone, hlt, ?_⟩
  unfold allDigits
  generalize Nat.pow 5 1074 = p at hbound hpos ⊢
  exact Nat.lt_of_lt_of_le (Nat.mul_lt_mul_of_pos_right h hpos) hbound

/-- The search never uses up its tries. -/
theorem shortest_first {units : Nat} (hr : Representable units) (h : units ≠ 0) :
    ∃ width, 1 ≤ width ∧ decimalOf? units width = some (shortest units) ∧
      ∀ earlier, 1 ≤ earlier → earlier < width → decimalOf? units earlier = none := by
  obtain ⟨all, hpos, hlt, hdigits⟩ := allDigits_lt hr.1
  have hreads : RoundsTo (allDigits units).inUnits units := by
    rw [inUnits_allDigits]
    exact roundsTo_self hr.2
  obtain ⟨k, hk, -⟩ := exists_on_grid hr h hpos hdigits hreads
  exact shortestFrom_eq hpos (by omega)
    (Option.isSome_iff_exists.mpr (decimalOf?_of_reads hr hk))

/-! ## The shortest decimal -/

/-- The decimal with the fewest digits of those that are read as a count of units, and of those
    with so few the nearest. -/
structure Shortest (units : Nat) (d : Decimal) : Prop where
  reads : RoundsTo d.inUnits units
  fewest : ∀ other : Decimal, RoundsTo other.inUnits units →
    (significant d.digits).length ≤ (significant other.digits).length
  closest : ∀ other : Decimal, RoundsTo other.inUnits units →
    (significant other.digits).length = (significant d.digits).length →
    |d.inUnits - units| ≤ |other.inUnits - units|

/-- A decimal that is read as a positive number has a decimal on the grid of its significant
    digits, or of any greater count, that is read as the number and is no farther away. -/
theorem exists_on_grid_significant {units width : Nat} (hr : Representable units) (h : units ≠ 0)
    {d : Decimal} (hw : (significant d.digits).length ≤ width) (hreads : RoundsTo d.inUnits units) :
    ∃ k, RoundsTo (gridDecimal units width k).inUnits units ∧
      |(gridDecimal units width k).inUnits - units| ≤ |d.inUnits - units| := by
  obtain ⟨k, S, -, -, hlt, hvalue⟩ := inUnits_significant (hreads.digits_ne_zero h)
  have hpos : 0 < width := Nat.lt_of_lt_of_le (List.length_pos_iff.mpr (significant_ne_nil _)) hw
  rw [hvalue] at hreads ⊢
  exact exists_on_grid hr h hpos (Nat.lt_of_lt_of_le hlt (Nat.pow_le_pow_right (by decide) hw)) hreads

theorem shortest_spec {units : Nat} (hr : Representable units) (h : units ≠ 0) :
    Shortest units (shortest units) := by
  obtain ⟨width, hwidth, hfound, hfirst⟩ := shortest_first hr h
  obtain ⟨hreads, hdigits, hclosest⟩ := decimalOf?_spec hr hfound
  have hlength : (significant (shortest units).digits).length ≤ width :=
    length_significant_le hwidth (Nat.le_trans hdigits (Nat.succ_le_of_lt (below_lt units width h)))
  refine ⟨hreads, fun other hother => ?_, fun other hother hsame => ?_⟩
  · refine Nat.le_trans hlength (Nat.le_of_not_lt fun hshorter => ?_)
    obtain ⟨k, hk, -⟩ := exists_on_grid_significant hr h (Nat.le_refl _) hother
    obtain ⟨d, hd⟩ := decimalOf?_of_reads hr hk
    have hnone := hfirst _ (List.length_pos_iff.mpr (significant_ne_nil _)) hshorter
    cases hd.symm.trans hnone
  · obtain ⟨k, hk, hle⟩ := exists_on_grid_significant hr h (hsame ▸ hlength) hother
    exact (hclosest k hk).trans hle

end Abacus.Binary64
