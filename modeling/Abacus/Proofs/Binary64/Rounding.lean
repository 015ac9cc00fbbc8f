/-
  Abacus.Proofs.Binary64.Rounding — rounding keeps order and takes the nearest number.

  - `ofNat_eq`: what is a number already is not changed.
  - `nearest_mono` / `roundedUnits_mono`: of two quotients the larger one is not rounded to less,
    also where the numbers around it are spaced more widely.
  - `nearest_closest` / `nearest_even`: no integer is nearer to a quotient, and one that is as
    near is odd.

  Counts of units are compared with exact quotients as rational numbers. `RoundsTo q units` says
  which count of at most 53 binary digits a quotient is rounded to, without saying how: none is
  nearer, and of two that are equally near it is the one whose last digit is zero.

  - `roundsTo_iff`: so a quotient is rounded to the count that `RoundsTo` asks for, and there is
    no other (`RoundsTo.unique`).
  - `RoundsTo.between`: the quotients that are rounded to one count have no gaps between them.

  `round_eq_finite_iff`: a rounded quotient is a finite number exactly if that is the one.
-/

import Mathlib.Algebra.Order.Field.Basic
import Mathlib.Algebra.Order.Field.Rat
import Mathlib.Data.Nat.Cast.Order.Field
import Mathlib.Tactic.FieldSimp
import Mathlib.Tactic.Linarith
import Mathlib.Tactic.Positivity
import Mathlib.Tactic.Ring
import Abacus.Binary64

namespace Abacus.Binary64

/-! # Numbers as they are -/

theorem nearest_of_dvd {n d : Nat} (hd : 0 < d) (h : d ∣ n) : nearest n d = n / d := by
  unfold nearest
  dsimp only
  rw [Nat.mod_eq_zero_of_dvd h, Nat.mul_zero, if_pos hd]

theorem roundedUnits_of_dvd {units : Nat} (h : Nat.pow 2 (spacing units) ∣ units) :
    roundedUnits units 1 = units := by
  have hpos : 0 < Nat.pow 2 (spacing units) := Nat.two_pow_pos _
  unfold roundedUnits
  dsimp only
  rw [Nat.div_one, Nat.one_mul, nearest_of_dvd hpos h]
  exact Nat.div_mul_cancel h

theorem round_of_representable {units : Nat} (negative : Bool) (h : Representable units) :
    round negative units 1 = .finite negative units h := by
  have hu := roundedUnits_of_dvd h.2
  unfold round
  rw [dif_pos (by rw [hu]; exact h.1)]
  simp only [hu]

theorem ofNat_eq {n : Nat} (h : Representable (n * one)) : ofNat n = .finite false (n * one) h :=
  round_of_representable false h

/-! # Order -/

/-! ## The nearest integer -/

/-- Half a step at most is lost, and half a step only towards the even side. -/
theorem nearest_cases (n d : Nat) :
    (nearest n d = n / d ∧ 2 * (n % d) ≤ d ∧ (2 * (n % d) = d → n / d % 2 = 0)) ∨
    (nearest n d = n / d + 1 ∧ d ≤ 2 * (n % d) ∧ (2 * (n % d) = d → n / d % 2 = 1)) := by
  unfold nearest
  dsimp only
  by_cases hlow : 2 * (n % d) < d
  · rw [if_pos hlow]
    exact .inl ⟨rfl, Nat.le_of_lt hlow, by omega⟩
  rw [if_neg hlow]
  by_cases hhigh : d < 2 * (n % d)
  · rw [if_pos hhigh]
    exact .inr ⟨rfl, Nat.le_of_lt hhigh, by omega⟩
  rw [if_neg hhigh]
  by_cases heven : n / d % 2 = 0
  · rw [if_pos heven]
    exact .inl ⟨rfl, by omega, fun _ => heven⟩
  · rw [if_neg heven]
    exact .inr ⟨rfl, by omega, by omega⟩

section Order

variable {n d n' d' : Nat} (hd : 0 < d) (hd' : 0 < d') (h : n * d' ≤ n' * d)
include hd hd' h

theorem div_le_div_of_cross : n / d ≤ n' / d' := by
  rw [Nat.le_div_iff_mul_le hd']
  have hfloor : n / d * d ≤ n := Nat.div_mul_le_self n d
  refine Nat.le_of_mul_le_mul_right ?_ hd
  calc n / d * d' * d = n / d * d * d' := Nat.mul_right_comm ..
    _ ≤ n * d' := Nat.mul_le_mul_right d' hfloor
    _ ≤ n' * d := h

omit hd hd' in
/-- Between one pair of integers the larger quotient has the larger remainder. -/
theorem mod_le_mod_of_cross (hq : n / d = n' / d') : n % d * d' ≤ n' % d' * d := by
  have hn : n * d' = n / d * (d * d') + n % d * d' := by
    rw [← Nat.mul_assoc, ← Nat.add_mul, Nat.mul_comm (n / d), Nat.div_add_mod]
  have hn' : n' * d = n / d * (d * d') + n' % d' * d := by
    rw [Nat.mul_comm d d', ← Nat.mul_assoc, ← Nat.add_mul, hq, Nat.mul_comm (n' / d'), Nat.div_add_mod]
  omega

theorem nearest_mono : nearest n d ≤ nearest n' d' := by
  have hle := nearest_le n d
  have hge := le_nearest n' d'
  rcases Nat.lt_or_eq_of_le (div_le_div_of_cross hd hd' h) with hlt | hq
  · omega
  refine Nat.le_of_not_lt fun hlt => ?_
  rcases nearest_cases n d with ⟨hn, -⟩ | ⟨hn, hup, htie⟩
  · omega
  rcases nearest_cases n' d' with ⟨hn', hdown, htie'⟩ | ⟨hn', -⟩
  · -- the smaller one goes up and the larger one down, so both lie halfway
    have hr := mod_le_mod_of_cross h hq
    have h1 : d * d' ≤ 2 * (n % d) * d' := Nat.mul_le_mul_right d' hup
    have h2 : 2 * (n' % d') * d ≤ d' * d := Nat.mul_le_mul_right d hdown
    rw [Nat.mul_assoc] at h1 h2
    have h3 : d' * d = d * d' := Nat.mul_comm d' d
    have htop : 2 * (n % d) * d' = d * d' := by rw [Nat.mul_assoc]; omega
    have hbottom : 2 * (n' % d') * d = d' * d := by rw [Nat.mul_assoc]; omega
    have hodd := htie (Nat.eq_of_mul_eq_mul_right hd' htop)
    have heven := htie' (Nat.eq_of_mul_eq_mul_right hd hbottom)
    omega
  · omega

end Order

/-! ## Rounded quotients -/

theorem spacing_mono {a b : Nat} (h : a ≤ b) : spacing a ≤ spacing b := by
  by_cases ha : a = 0
  · rw [ha]
    exact Nat.zero_le _
  have hlog : a.log2 ≤ b.log2 :=
    (Nat.le_log2 (by omega)).mpr (Nat.le_trans (Nat.log2_self_le ha) h)
  unfold spacing
  omega

/-- Where the spacing is more than one unit, a count has 53 binary digits in front of it. -/
theorem two_pow_le_of_spacing {units k : Nat} (h : spacing units = k + 1) :
    Nat.pow 2 (53 + k) ≤ units := by
  unfold spacing at h
  have h0 : units ≠ 0 := by
    rintro rfl
    rw [Nat.log2_zero] at h
    omega
  have hlog : units.log2 = 53 + k := by omega
  exact hlog ▸ Nat.log2_self_le h0

theorem roundedUnits_le_two_pow (n d : Nat) :
    roundedUnits n d ≤ Nat.pow 2 (53 + spacing (n / d)) := by
  have hle := Nat.le_trans (nearest_le n (d * Nat.pow 2 (spacing (n / d)))) (div_spacing_lt n d)
  have hmul := Nat.mul_le_mul_right (Nat.pow 2 (spacing (n / d))) hle
  rwa [show Nat.pow 2 53 * Nat.pow 2 (spacing (n / d)) = Nat.pow 2 (53 + spacing (n / d)) from
    (Nat.pow_add ..).symm] at hmul

theorem two_pow_le_roundedUnits {n d k : Nat} (h : spacing (n / d) = k + 1) :
    Nat.pow 2 (53 + k) ≤ roundedUnits n d := by
  have hpow : Nat.pow 2 (53 + k) = Nat.pow 2 52 * Nat.pow 2 (k + 1) := by
    show 2 ^ (53 + k) = 2 ^ 52 * 2 ^ (k + 1)
    rw [← Nat.pow_add]
    congr 1
    omega
  have hquotient : Nat.pow 2 52 ≤ n / (d * Nat.pow 2 (k + 1)) := by
    rw [← Nat.div_div_eq_div_mul]
    refine (Nat.le_div_iff_mul_le (Nat.two_pow_pos (k + 1))).mpr ?_
    exact hpow ▸ two_pow_le_of_spacing h
  unfold roundedUnits
  rw [h, hpow]
  exact Nat.mul_le_mul_right _ (Nat.le_trans hquotient (le_nearest n _))

theorem roundedUnits_mono {n d n' d' : Nat} (hd : 0 < d) (hd' : 0 < d') (h : n * d' ≤ n' * d) :
    roundedUnits n d ≤ roundedUnits n' d' := by
  have hspacing := spacing_mono (div_le_div_of_cross hd hd' h)
  rcases Nat.lt_or_eq_of_le hspacing with hlt | heq
  · -- a power of two lies between the two quotients
    obtain ⟨k, hk⟩ : ∃ k, spacing (n' / d') = k + 1 := ⟨spacing (n' / d') - 1, by omega⟩
    calc roundedUnits n d ≤ Nat.pow 2 (53 + spacing (n / d)) := roundedUnits_le_two_pow n d
      _ ≤ Nat.pow 2 (53 + k) := Nat.pow_le_pow_right Nat.two_pos (by omega)
      _ ≤ roundedUnits n' d' := two_pow_le_roundedUnits hk
  · unfold roundedUnits
    rw [← heq]
    have hs : 0 < Nat.pow 2 (spacing (n / d)) := Nat.two_pow_pos _
    refine Nat.mul_le_mul_right _ (nearest_mono (Nat.mul_pos hd hs) (Nat.mul_pos hd' hs) ?_)
    rw [← Nat.mul_assoc, ← Nat.mul_assoc]
    exact Nat.mul_le_mul_right _ h

/-! # The nearest -/

/-! ## The nearest integer -/

section Integer

variable {n d : Nat} (hd : 0 < d)
include hd

theorem cast_eq_div_add_mod : (n : ℚ) / d = (n / d : Nat) + ((n % d : Nat) : ℚ) / d := by
  have hd' : (d : ℚ) ≠ 0 := by positivity
  have hn : (n : ℚ) = d * (n / d : Nat) + (n % d : Nat) := by
    exact_mod_cast (Nat.div_add_mod n d).symm
  field_simp
  exact hn

/-- The nearest integer is at most one half away, and one that is just one half away is even. -/
theorem abs_nearest_sub_le : |(nearest n d : ℚ) - n / d| ≤ 1 / 2 ∧
    (|(nearest n d : ℚ) - n / d| = 1 / 2 → nearest n d % 2 = 0) := by
  have hdpos : (0 : ℚ) < d := by exact_mod_cast hd
  have hr0 : (0 : ℚ) ≤ ((n % d : Nat) : ℚ) / d := by positivity
  have hr1 : ((n % d : Nat) : ℚ) / d < 1 := by
    rw [div_lt_one hdpos]
    exact_mod_cast Nat.mod_lt n hd
  have hhalf : ((n % d : Nat) : ℚ) / d = 1 / 2 ↔ 2 * (n % d) = d := by
    rw [div_eq_div_iff hdpos.ne' (by norm_num), mul_comm, one_mul]
    exact_mod_cast Iff.rfl
  rw [cast_eq_div_add_mod hd]
  rcases nearest_cases n d with ⟨hn, hle, htie⟩ | ⟨hn, hle, htie⟩
  · have hdist : |(nearest n d : ℚ) - ((n / d : Nat) + ((n % d : Nat) : ℚ) / d)| =
        ((n % d : Nat) : ℚ) / d := by
      rw [hn, abs_of_nonpos (by linarith)]
      ring
    rw [hdist]
    constructor
    · rw [div_le_div_iff₀ hdpos (by norm_num)]
      have : 2 * ((n % d : Nat) : ℚ) ≤ d := by exact_mod_cast hle
      linarith
    · intro h
      rw [hn]
      exact htie (hhalf.mp h)
  · have hdist : |(nearest n d : ℚ) - ((n / d : Nat) + ((n % d : Nat) : ℚ) / d)| =
        1 - ((n % d : Nat) : ℚ) / d := by
      rw [hn, Nat.cast_add, Nat.cast_one, abs_of_nonneg (by linarith)]
      ring
    rw [hdist]
    constructor
    · have : (d : ℚ) ≤ 2 * ((n % d : Nat) : ℚ) := by exact_mod_cast hle
      have : 1 / 2 ≤ ((n % d : Nat) : ℚ) / d := by
        rw [div_le_div_iff₀ (by norm_num) hdpos]
        linarith
      linarith
    · intro h
      have hodd := htie (hhalf.mp (by linarith))
      omega

/-- Any other integer is at least one half away. -/
theorem half_le_abs_sub {m : Nat} (hm : m ≠ nearest n d) : 1 / 2 ≤ |(m : ℚ) - n / d| := by
  have hnear := (abs_nearest_sub_le (n := n) hd).1
  have hapart : (1 : ℚ) ≤ |(m : ℚ) - nearest n d| := by
    have hint : (1 : ℤ) ≤ |(m : ℤ) - nearest n d| := Int.one_le_abs (by omega)
    exact_mod_cast hint
  have htriangle : |(m : ℚ) - nearest n d| ≤ |(m : ℚ) - n / d| + |(nearest n d : ℚ) - n / d| := by
    have h := abs_sub_le (m : ℚ) (n / d) (nearest n d)
    rwa [abs_sub_comm ((n : ℚ) / d)] at h
  linarith

theorem nearest_closest (m : Nat) : |(nearest n d : ℚ) - n / d| ≤ |(m : ℚ) - n / d| := by
  by_cases hm : m = nearest n d
  · rw [hm]
  · exact (abs_nearest_sub_le hd).1.trans (half_le_abs_sub hd hm)

/-- Of two integers that are equally near, the even one is taken. -/
theorem nearest_even {m : Nat} (hm : m ≠ nearest n d)
    (h : |(nearest n d : ℚ) - n / d| = |(m : ℚ) - n / d|) : nearest n d % 2 = 0 := by
  have hnear := abs_nearest_sub_le (n := n) hd
  have hhalf := half_le_abs_sub hd hm
  exact hnear.2 (le_antisymm hnear.1 (h ▸ hhalf))

end Integer

/-! ## The nearest count -/

/-- A count of at most 53 binary digits with zeros behind them, however large. -/
def Expressible (units : Nat) : Prop := 2 ^ spacing units ∣ units

structure RoundsTo (q : ℚ) (units : Nat) : Prop where
  expressible : Expressible units
  closest : ∀ other, Expressible other → |(units : ℚ) - q| ≤ |(other : ℚ) - q|
  /-- Of two that are equally near, the one whose last binary digit is zero. -/
  even : ∀ other, Expressible other → |(units : ℚ) - q| = |(other : ℚ) - q| → other ≠ units →
    2 ^ (spacing units + 1) ∣ units

/-- Even digits in front of zeros make a count whose last binary digit is zero. -/
theorem two_pow_succ_dvd {digits : Nat} (h : digits ≤ 2 ^ 53) (heven : digits % 2 = 0) (k : Nat) :
    2 ^ (spacing (digits * 2 ^ k) + 1) ∣ digits * 2 ^ k := by
  rcases Nat.lt_or_eq_of_le h with hlt | rfl
  · have hs : spacing (digits * 2 ^ k) ≤ k := spacing_le (mul_two_pow_lt hlt (Nat.le_refl _))
    have hk : 2 ^ (k + 1) ∣ digits * 2 ^ k := by
      rw [Nat.pow_succ, Nat.mul_comm]
      exact Nat.mul_dvd_mul_right (Nat.dvd_of_mod_eq_zero heven) _
    exact (Nat.pow_dvd_pow 2 (Nat.succ_le_succ hs)).trans hk
  · rw [← Nat.pow_add]
    refine Nat.pow_dvd_pow 2 ?_
    unfold spacing
    rw [Nat.log2_two_pow]
    omega

section Count

variable {n d : Nat} (hd : 0 < d)
include hd

/-- Distances on the grid around a quotient. -/
theorem abs_grid_sub (k m : Nat) :
    |((m * 2 ^ k : Nat) : ℚ) - n / d| = 2 ^ k * |(m : ℚ) - n / (d * 2 ^ k : Nat)| := by
  have hd' : (d : ℚ) ≠ 0 := by positivity
  have hscale : ((m * 2 ^ k : Nat) : ℚ) - n / d = 2 ^ k * ((m : ℚ) - n / (d * 2 ^ k : Nat)) := by
    push_cast
    field_simp
  rw [hscale, abs_mul, abs_of_pos (by positivity)]

omit hd in
/-- A count with a finer grid than that around the quotient lies below a power of two that is
    nearer to the quotient. -/
theorem grid_or_farther {other : Nat} (h : Expressible other) :
    (∃ m, other = m * 2 ^ spacing (n / d)) ∨
      |((2 ^ 52 * 2 ^ spacing (n / d) : Nat) : ℚ) - n / d| < |(other : ℚ) - n / d| := by
  rcases Nat.lt_or_ge (spacing other) (spacing (n / d)) with hlt | hle
  · right
    obtain ⟨k, hk⟩ : ∃ k, spacing (n / d) = k + 1 := ⟨spacing (n / d) - 1, by omega⟩
    have hpow : 2 ^ 52 * 2 ^ (k + 1) = 2 ^ (53 + k) := by
      rw [← Nat.pow_add]
      congr 1
      omega
    have hbelow : other < 2 ^ (53 + k) := by
      refine Nat.lt_of_lt_of_le Nat.lt_log2_self (Nat.pow_le_pow_right (by norm_num) ?_)
      unfold spacing at hlt hk
      omega
    have hquotient : ((2 ^ (53 + k) : Nat) : ℚ) ≤ n / d := by
      have hfloor : ((n / d : Nat) : ℚ) ≤ n / d := Nat.cast_div_le
      have hnat : 2 ^ (53 + k) ≤ n / d := two_pow_le_of_spacing hk
      exact le_trans (by exact_mod_cast hnat) hfloor
    have hother : (other : ℚ) < ((2 ^ (53 + k) : Nat) : ℚ) := by exact_mod_cast hbelow
    rw [hk, hpow, abs_of_nonpos (by linarith), abs_of_nonpos (by linarith)]
    linarith
  · left
    obtain ⟨m, hm⟩ := (Nat.pow_dvd_pow 2 hle).trans h
    exact ⟨m, by rw [Nat.mul_comm]; exact hm⟩

theorem roundsTo_roundedUnits : RoundsTo (n / d) (roundedUnits n d) := by
  have hs : (0 : ℚ) < 2 ^ spacing (n / d) := by positivity
  have hgrid : 0 < d * 2 ^ spacing (n / d) := by positivity
  have hunits : roundedUnits n d = nearest n (d * 2 ^ spacing (n / d)) * 2 ^ spacing (n / d) := rfl
  have hclosest : ∀ m : Nat, |(roundedUnits n d : ℚ) - n / d| ≤
      |((m * 2 ^ spacing (n / d) : Nat) : ℚ) - n / d| := by
    intro m
    rw [hunits, abs_grid_sub hd, abs_grid_sub hd]
    exact mul_le_mul_of_nonneg_left (nearest_closest hgrid m) hs.le
  refine ⟨dvd_roundedUnits n d, ?_, ?_⟩
  · intro other hother
    rcases grid_or_farther (n := n) (d := d) hother with ⟨m, rfl⟩ | hfar
    · exact hclosest m
    · exact (hclosest (2 ^ 52)).trans hfar.le
  · intro other hother htie hne
    rcases grid_or_farther (n := n) (d := d) hother with ⟨m, rfl⟩ | hfar
    · have hm : m ≠ nearest n (d * 2 ^ spacing (n / d)) := fun h => hne (by rw [hunits, h])
      rw [hunits, abs_grid_sub hd, abs_grid_sub hd] at htie
      have hdigits : nearest n (d * 2 ^ spacing (n / d)) ≤ 2 ^ 53 :=
        Nat.le_trans (nearest_le n _) (div_spacing_lt n d)
      rw [hunits]
      exact two_pow_succ_dvd hdigits (nearest_even hgrid hm (mul_left_cancel₀ hs.ne' htie)) _
    · exact absurd htie ((hclosest (2 ^ 52)).trans_lt hfar).ne

end Count

/-- The count behind one of 53 binary digits. -/
theorem Expressible.next {a : Nat} (h : Expressible a) : Expressible (a + 2 ^ spacing a) := by
  obtain ⟨m, hm⟩ := h
  have hlt : a < 2 ^ 53 * 2 ^ spacing a := by
    rw [← Nat.pow_add]
    refine Nat.lt_of_lt_of_le Nat.lt_log2_self (Nat.pow_le_pow_right (by norm_num) ?_)
    unfold spacing
    omega
  have hm53 : m < 2 ^ 53 := by
    refine Nat.lt_of_mul_lt_mul_right (a := 2 ^ spacing a) ?_
    rwa [Nat.mul_comm m, ← hm]
  have hnext : a + 2 ^ spacing a = (m + 1) * 2 ^ spacing a := by
    rw [Nat.add_mul, Nat.one_mul, Nat.mul_comm m, ← hm]
  rw [hnext]
  exact dvd_of_le (Nat.succ_le_of_lt hm53) _

theorem Expressible.next_le {a b : Nat} (ha : Expressible a) (hb : Expressible b) (h : a < b) :
    a + 2 ^ spacing a ≤ b := by
  have hdvd : 2 ^ spacing a ∣ b - a :=
    Nat.dvd_sub ((Nat.pow_dvd_pow 2 (spacing_mono h.le)).trans hb) ha
  have := Nat.le_of_dvd (by omega) hdvd
  omega

theorem RoundsTo.not_lt {q : ℚ} {a b : Nat} (ha : RoundsTo q a) (hb : RoundsTo q b) : ¬ a < b := by
  intro hlt
  have hdist : |(a : ℚ) - q| = |(b : ℚ) - q| :=
    le_antisymm (ha.closest b hb.expressible) (hb.closest a ha.expressible)
  have hltq : (a : ℚ) < b := by exact_mod_cast hlt
  have hmiddle : (a : ℚ) - q = -((b : ℚ) - q) := by
    rcases abs_eq_abs.mp hdist with h | h
    · linarith
    · exact h
  rcases Nat.lt_or_eq_of_le (ha.expressible.next_le hb.expressible hlt) with hbetween | hnext
  · -- a third count between two that are equally near is nearer than both
    have hw := ha.closest _ ha.expressible.next
    have hstep : (0 : ℚ) < 2 ^ spacing a := by positivity
    have hbetween' : (a : ℚ) + 2 ^ spacing a < b := by exact_mod_cast hbetween
    rw [abs_of_nonpos (by linarith), le_abs] at hw
    push_cast at hw
    rcases hw with hw | hw <;> linarith
  · -- neighbours are not both even
    have heven := ha.even b hb.expressible hdist hlt.ne'
    have heven' := hb.even a ha.expressible hdist.symm hlt.ne
    rw [← hnext] at heven'
    have hspacing : spacing a + 1 ≤ spacing (a + 2 ^ spacing a) + 1 :=
      Nat.succ_le_succ (spacing_mono (Nat.le_add_right _ _))
    have hstep := (Nat.dvd_add_right heven).mp ((Nat.pow_dvd_pow 2 hspacing).trans heven')
    have hle := Nat.le_of_dvd (by positivity) hstep
    rw [Nat.pow_succ] at hle
    have hpos : 0 < 2 ^ spacing a := by positivity
    omega

theorem RoundsTo.unique {q : ℚ} {a b : Nat} (ha : RoundsTo q a) (hb : RoundsTo q b) : a = b :=
  Nat.le_antisymm (Nat.le_of_not_lt (hb.not_lt ha)) (Nat.le_of_not_lt (ha.not_lt hb))

theorem roundsTo_iff {n d units : Nat} (hd : 0 < d) :
    RoundsTo (n / d) units ↔ roundedUnits n d = units :=
  ⟨fun h => (roundsTo_roundedUnits hd).unique h, fun h => h ▸ roundsTo_roundedUnits hd⟩

/-- What lies between two quotients that are rounded to one count is rounded to it too. -/
theorem RoundsTo.between {p q r : ℚ} {units : Nat} (hp : RoundsTo p units) (hr : RoundsTo r units)
    (h0 : 0 ≤ p) (hpq : p ≤ q) (hqr : q ≤ r) : RoundsTo q units := by
  have hfraction : ∀ {x : ℚ}, 0 ≤ x → (x.num.toNat : ℚ) / x.den = x := by
    intro x hx
    have hnum : ((x.num.toNat : Nat) : ℚ) = x.num := by
      exact_mod_cast Int.toNat_of_nonneg (Rat.num_nonneg.mpr hx)
    rw [hnum, Rat.num_div_den]
  have hcross : ∀ {x y : ℚ}, 0 ≤ x → x ≤ y → x.num.toNat * y.den ≤ y.num.toNat * x.den := by
    intro x y hx hxy
    have hle := hxy
    rw [← hfraction hx, ← hfraction (hx.trans hxy),
      div_le_div_iff₀ (by exact_mod_cast x.den_pos) (by exact_mod_cast y.den_pos)] at hle
    exact_mod_cast hle
  rw [← hfraction h0, roundsTo_iff p.den_pos] at hp
  rw [← hfraction ((h0.trans hpq).trans hqr), roundsTo_iff r.den_pos] at hr
  rw [← hfraction (h0.trans hpq), roundsTo_iff q.den_pos]
  refine Nat.le_antisymm ?_ ?_
  · exact hr ▸ roundedUnits_mono q.den_pos r.den_pos (hcross (h0.trans hpq) hqr)
  · exact hp ▸ roundedUnits_mono p.den_pos q.den_pos (hcross h0 hpq)

theorem roundsTo_self {units : Nat} (h : Expressible units) : RoundsTo units units := by
  have hself := roundsTo_roundedUnits (n := units) Nat.one_pos
  rwa [Nat.cast_one, div_one, roundedUnits_of_dvd h] at hself

/-! ## The nearest number -/

theorem round_eq_finite_iff {n d units : Nat} (hd : 0 < d) (hr : Representable units)
    (negative : Bool) : round negative n d = .finite negative units hr ↔ RoundsTo (n / d) units := by
  rw [roundsTo_iff hd]
  unfold round
  constructor
  · intro h
    split at h
    · exact (Binary64.finite.inj h).2
    · cases h
  · rintro rfl
    exact dif_pos hr.1

end Abacus.Binary64
