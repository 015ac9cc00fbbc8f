/-
  Abacus.Proofs.Binary64.Reading — the text of a number is read as that number, and what is
  printed for a result tells its bits.

  - `ofChars?_whole` / `ofChars?_point`: digits, with a point in them or not, and an exponent
    behind them or not, are read as the decimal they spell.
  - `ofChars?_write`: so what a layout writes is read as a decimal of the same value, wherever
    the point stands.
  - `ofText?_display`: the text of a finite result is read as the result, the zeros included.
  - `numeral_toDigits`: a whole number is written with its digits, no zero in front.
  - `display_shortest`: a number with a fraction is written as the shortest decimal that is read
    as it, which shows a point or an exponent.
  - `display_inj`: no two results are printed alike, since the finite ones are read back and the
    others are not read at all.

  `display_exact`: so the text of a result is exact, and other than for NaN it tells the bits.
-/

import Abacus.Binary64.Text
import Abacus.Proofs.Binary64.Bits
import Abacus.Proofs.Binary64.Shortest

namespace Abacus

/-! # Texts read back -/

open Binary64

namespace Decimal

/-! ## Digits and exponents -/

theorem span_digits {ds rest : List Char} (hd : ∀ c ∈ ds, c.isDigit = true)
    (hrest : ∀ c ∈ rest.head?, c.isDigit = false) :
    (ds ++ rest).takeWhile Char.isDigit = ds ∧ (ds ++ rest).dropWhile Char.isDigit = rest := by
  rw [List.takeWhile_append_of_pos hd, List.dropWhile_append_of_pos hd]
  cases rest with
  | nil => simp
  | cons c rest => simp [hrest c rfl]

/-- An exponent begins with its letter. -/
theorem nil_or_cons_of_exponent? {tail : List Char} {exponent : Int}
    (h : exponent? tail = some exponent) : tail = [] ∨ ∃ rest, tail = 'e' :: rest := by
  unfold exponent? at h
  split at h
  · exact .inl rfl
  · exact .inr ⟨_, rfl⟩
  · cases h

theorem head_of_exponent? {tail : List Char} {exponent : Int} (h : exponent? tail = some exponent) :
    ∀ c ∈ tail.head?, c.isDigit = false := by
  rcases nil_or_cons_of_exponent? h with rfl | ⟨rest, rfl⟩
  · simp
  · simp

/-- Zeros in front of digits do not count. -/
theorem natOfDigits_zeros (k : Nat) (ds : List Char) :
    natOfDigits (zeros k ++ ds) = natOfDigits ds := by
  unfold natOfDigits
  rw [Nat.ofDigitChars_append, ofDigitChars_zeros, Nat.zero_mul]

/-- Each zero behind digits is a factor of ten. -/
theorem natOfDigits_append_zeros (ds : List Char) (k : Nat) :
    natOfDigits (ds ++ zeros k) = natOfDigits ds * 10 ^ k := by
  unfold natOfDigits
  rw [Nat.ofDigitChars_append, ofDigitChars_zeros]

theorem exponent?_nil : exponent? [] = some 0 := rfl

theorem exponent?_exponentText (width : Nat) (exponent : Int) :
    exponent? (exponentText width exponent) = some exponent := by
  unfold exponentText
  dsimp only
  generalize hds : zeros (width - (Nat.toDigits 10 exponent.natAbs).length) ++
    Nat.toDigits 10 exponent.natAbs = ds
  have hall : ds.all Char.isDigit = true := by
    rw [← hds, List.all_append, Bool.and_eq_true, List.all_eq_true, List.all_eq_true]
    exact ⟨fun c => mem_zeros, fun c => isDigit_of_mem_toDigits⟩
  have hne : ds.isEmpty = false := by
    rw [← hds, List.isEmpty_eq_false_iff]
    exact List.append_ne_nil_of_right_ne_nil _ Nat.toDigits_ne_nil
  have hvalue : natOfDigits ds = exponent.natAbs := by
    rw [← hds, natOfDigits_zeros, natOfDigits, Nat.ofDigitChars_ten_toDigits]
  rw [List.cons_append, List.cons_append, hds]
  unfold exponent?
  by_cases h : exponent < 0
  · have hvalue : (exponent.natAbs : Int) = -exponent := Int.ofNat_natAbs_of_nonpos h.le
    simp [*]
  · have hvalue : (exponent.natAbs : Int) = exponent := Int.natAbs_of_nonneg (not_lt.mp h)
    simp [*]

/-! ## Decimals -/

theorem ofChars?_whole {ds tail : List Char} {exponent : Int} (hne : ds ≠ [])
    (hd : ∀ c ∈ ds, c.isDigit = true) (h : exponent? tail = some exponent) :
    ofChars? (ds ++ tail) = some ⟨natOfDigits ds, exponent⟩ := by
  obtain ⟨htake, hdrop⟩ := span_digits hd (head_of_exponent? h)
  unfold ofChars?
  dsimp only
  rw [htake, hdrop, if_neg (by simpa using hne)]
  rcases nil_or_cons_of_exponent? h with rfl | ⟨rest, rfl⟩
  · simp [h]
  · simp [h]

theorem ofChars?_point {ds fs tail : List Char} {exponent : Int} (hne : ds ≠ [])
    (hd : ∀ c ∈ ds, c.isDigit = true) (hfne : fs ≠ []) (hf : ∀ c ∈ fs, c.isDigit = true)
    (h : exponent? tail = some exponent) :
    ofChars? (ds ++ '.' :: (fs ++ tail)) =
      some ⟨natOfDigits (ds ++ fs), exponent - fs.length⟩ := by
  have hpoint : ∀ c ∈ ('.' :: (fs ++ tail)).head?, c.isDigit = false := by simp
  obtain ⟨htake, hdrop⟩ := span_digits hd hpoint
  obtain ⟨hftake, hfdrop⟩ := span_digits hf (head_of_exponent? h)
  unfold ofChars?
  dsimp only
  rw [htake, hdrop, if_neg (by simpa using hne)]
  simp only [hftake, hfdrop, h, List.isEmpty_iff, hfne, if_false, Option.map_some]

/-! ## Layouts -/

section Layout

variable {ds : List Char} (hne : ds ≠ []) (hd : ∀ c ∈ ds, c.isDigit = true)
include hne hd

theorem ofChars?_positional (exponent : Int) :
    ∃ d, ofChars? (positional ds exponent) = some d ∧
      d.inUnits = Decimal.inUnits ⟨natOfDigits ds, exponent + 1 - ds.length⟩ := by
  unfold positional
  by_cases hneg : exponent < 0
  · rw [if_pos hneg]
    have hfraction : ∀ c ∈ zeros (-exponent - 1).toNat ++ ds, c.isDigit = true :=
      List.forall_mem_append.mpr ⟨fun c => mem_zeros, hd⟩
    have hread := ofChars?_point (List.cons_ne_nil '0' []) (List.forall_mem_singleton.mpr rfl)
      (List.append_ne_nil_of_right_ne_nil _ hne) hfraction exponent?_nil
    rw [List.append_nil] at hread
    refine ⟨_, hread, ?_⟩
    rw [show ['0'] = zeros 1 from rfl, natOfDigits_zeros, natOfDigits_zeros]
    congr 2
    simp only [List.length_append, zeros, List.length_replicate]
    omega
  · rw [if_neg hneg]
    dsimp only
    by_cases hle : ds.length ≤ exponent.toNat + 1
    · rw [if_pos hle]
      have hwhole : ∀ c ∈ ds ++ zeros (exponent.toNat + 1 - ds.length), c.isDigit = true :=
        List.forall_mem_append.mpr ⟨hd, fun c => mem_zeros⟩
      have hfraction : ∀ c ∈ zeros 1, c.isDigit = true := fun c => mem_zeros
      have hread := ofChars?_point (List.append_ne_nil_of_left_ne_nil hne _) hwhole
        (List.cons_ne_nil '0' []) hfraction exponent?_nil
      refine ⟨_, hread, ?_⟩
      have hzeros : ds ++ zeros (exponent.toNat + 1 - ds.length) ++ ['0'] =
          ds ++ zeros (exponent.toNat + 1 - ds.length + 1) := by
        rw [zeros, zeros, List.replicate_succ', List.append_assoc]
      rw [hzeros, natOfDigits_append_zeros, inUnits_zeros]
      congr 2
      simp only [List.length_singleton]
      omega
    · rw [if_neg hle]
      have htake : ds.take (exponent.toNat + 1) ≠ [] := by
        simpa using hne
      have hdrop : ds.drop (exponent.toNat + 1) ≠ [] := by
        rw [ne_eq, List.drop_eq_nil_iff]
        exact hle
      have hread := ofChars?_point htake (fun c hc => hd c (List.mem_of_mem_take hc)) hdrop
        (fun c hc => hd c (List.mem_of_mem_drop hc)) exponent?_nil
      rw [List.append_nil, List.take_append_drop] at hread
      refine ⟨_, hread, ?_⟩
      congr 2
      rw [List.length_drop]
      omega

theorem ofChars?_scientific (width : Nat) (exponent : Int) :
    ∃ d, ofChars? (scientific width ds exponent) = some d ∧
      d.inUnits = Decimal.inUnits ⟨natOfDigits ds, exponent + 1 - ds.length⟩ := by
  obtain ⟨first, rest, rfl⟩ := List.exists_cons_of_ne_nil hne
  obtain ⟨hfirst, hrest⟩ := List.forall_mem_cons.mp hd
  have hone : ∀ c ∈ [first], c.isDigit = true := List.forall_mem_singleton.mpr hfirst
  have hexponent := exponent?_exponentText width exponent
  cases rest with
  | nil =>
    refine ⟨_, ofChars?_whole hne hd hexponent, ?_⟩
    congr 2
    simp
  | cons second rest =>
    refine ⟨_, ofChars?_point (List.cons_ne_nil first []) hone (List.cons_ne_nil second rest) hrest
      hexponent, ?_⟩
    congr 2
    simp

end Layout

/-- What a layout writes is a decimal of the same value. -/
theorem ofChars?_write (layout : Layout) {d : Decimal} (h : d.digits ≠ 0) :
    ∃ d', ofChars? (layout.write d).toList = some d' ∧ d'.inUnits = d.inUnits := by
  obtain ⟨k, S, hdigits, hS, -, hvalue⟩ := inUnits_significant h
  have hne := significant_ne_nil d.digits
  have hd : ∀ c ∈ significant d.digits, c.isDigit = true := fun c => mem_significant
  have hexponent : d.exponent + decimalWidth d.digits - 1 + 1 - (significant d.digits).length =
      k + d.exponent := by
    rw [decimalWidth_eq, hdigits, List.length_append, zeros, List.length_replicate]
    omega
  unfold Layout.write
  dsimp only
  rw [String.toList_ofList, hvalue, ← hS, ← hexponent]
  split
  · exact ofChars?_positional hne hd _
  · exact ofChars?_scientific hne hd _ _

end Decimal

namespace Binary64

/-! ## Numbers -/

/-- A sign in front of a decimal is the sign of the number. -/
theorem ofText?_signText (negative : Bool) {text : String} {d : Decimal}
    (h : Decimal.ofChars? text.toList = some d) :
    ofText? (signText negative ++ text) = some (ofDecimal negative d) := by
  unfold ofText?
  rw [String.toList_append, toList_signText]
  cases negative with
  | true => simp [h]
  | false =>
    simp only [Bool.false_eq_true, if_false, List.nil_append]
    split
    · rename_i cs hcs
      rw [hcs] at h
      simp [Decimal.ofChars?] at h
    · rw [h]
      rfl

theorem ofText?_whole (negative : Bool) {n : Nat} (hr : Representable (n * one)) :
    ofText? (signText negative ++ toString n) = some (.finite negative (n * one) hr) := by
  have hread := Decimal.ofChars?_whole (Nat.toDigits_ne_nil (n := n) (b := 10))
    (fun c => isDigit_of_mem_toDigits) Decimal.exponent?_nil
  rw [List.append_nil, Decimal.natOfDigits, Nat.ofDigitChars_ten_toDigits] at hread
  have hvalue : Decimal.inUnits ⟨n, 0⟩ = (n * one : Nat) := by
    unfold Decimal.inUnits step
    rw [zpow_zero, one_mul, Nat.cast_mul]
  have hnumber : ofDecimal negative ⟨n, 0⟩ = .finite negative (n * one) hr := by
    rw [ofDecimal_eq_finite_iff, hvalue]
    exact roundsTo_self hr.2
  rw [← hnumber]
  refine ofText?_signText negative ?_
  rw [Nat.toString_eq_ofList_toDigits, String.toList_ofList, hread]

theorem ofText?_fraction (negative : Bool) {units : Nat} (hr : Representable units) (h : units ≠ 0) :
    ofText? (signText negative ++ Layout.standard.write (shortest units)) =
      some (.finite negative units hr) := by
  have hreads := (shortest_spec hr h).reads
  obtain ⟨d, hd, hvalue⟩ := Decimal.ofChars?_write Layout.standard (hreads.digits_ne_zero h)
  rw [ofText?_signText negative hd, (ofDecimal_eq_finite_iff hr negative).mpr (hvalue ▸ hreads)]

/-- The text of a finite result is read as the result. -/
theorem ofText?_display (negative : Bool) {units : Nat} (hr : Representable units) :
    ofText? (finite negative units hr).display = some (.finite negative units hr) := by
  by_cases h : units % one = 0
  · obtain ⟨n, hr', hn⟩ := whole_of_mod_eq_zero negative hr h
    rw [hn, display_whole]
    exact ofText?_whole negative hr'
  · rw [display_fraction hr h]
    exact ofText?_fraction negative hr fun h0 => h (h0 ▸ Nat.zero_mod one)

end Binary64

end Abacus

/-! # Results -/

namespace Abacus.Binary64

/-! ## Whole numbers -/

/-- The digits of a number, without a zero in front of others. -/
structure Numeral (digits : List Char) (n : Nat) : Prop where
  nonempty : digits ≠ []
  digit : ∀ c ∈ digits, c.isDigit = true
  leading : digits.head? = some '0' → digits = ['0']
  value : Decimal.natOfDigits digits = n

theorem head_toDigits {n : Nat} (hn : 0 < n) : (Nat.toDigits 10 n).head? ≠ some '0' := by
  induction n using Nat.strongRecOn with
  | ind n ih =>
    rcases Nat.lt_or_ge n 10 with hlt | hge
    · rw [Nat.toDigits_of_lt_base hlt]
      have hdigits : ∀ d < 10, 0 < d → [d.digitChar].head? ≠ some '0' := by decide
      exact hdigits n hlt hn
    · have hpos : 0 < n / 10 := Nat.div_pos hge (by decide)
      have hmod : n % 10 < 10 := Nat.mod_lt n (by decide)
      rw [← Nat.div_add_mod n 10, ← Nat.toDigits_append_toDigits (by decide) hpos hmod,
        List.head?_append_of_ne_nil _ Nat.toDigits_ne_nil]
      exact ih (n / 10) (by omega) hpos

theorem numeral_toDigits (n : Nat) : Numeral (Nat.toDigits 10 n) n where
  nonempty := Nat.toDigits_ne_nil
  digit _ := isDigit_of_mem_toDigits
  leading h := by
    rcases Nat.eq_zero_or_pos n with rfl | hn
    · rfl
    · exact absurd h (head_toDigits hn)
  value := Nat.ofDigitChars_ten_toDigits

theorem toList_display_whole {negative : Bool} {units n : Nat} (hr : Representable units)
    (h : units = n * one) : (finite negative units hr).display.toList =
      (if negative then ['-'] else []) ++ Nat.toDigits 10 n := by
  have hmod : units % one = 0 := by rw [h, Nat.mul_mod_left]
  have hquotient : units / one = n := by rw [h, Nat.mul_div_cancel n one_pos]
  rw [display, if_pos hmod, hquotient, String.toList_append, toList_signText,
    Nat.toString_eq_ofList_toDigits, String.toList_ofList]

/-! ## Numbers with a fraction -/

theorem display_shortest {negative : Bool} {units : Nat} (hr : Representable units)
    (h : ∀ n, units ≠ n * one) : ∃ d, Shortest units d ∧
      (finite negative units hr).text = signText negative ++ Layout.standard.write d ∧
      (finite negative units hr).display = (finite negative units hr).text ∧
      (∃ c ∈ (finite negative units hr).display.toList, c = '.' ∨ c = 'e') ∧
      ofText? (finite negative units hr).display = some (finite negative units hr) := by
  have hmod : units % one ≠ 0 := fun h0 =>
    h (units / one) (Nat.div_mul_cancel (Nat.dvd_of_mod_eq_zero h0)).symm
  have h0 : units ≠ 0 := by
    rintro rfl
    exact hmod (Nat.zero_mod one)
  have htext : (finite negative units hr).text =
      signText negative ++ Layout.standard.write (shortest units) := by
    rw [text, if_neg h0]
  have hdisplay : (finite negative units hr).display =
      signText negative ++ Layout.standard.write (shortest units) := display_fraction hr hmod
  have hshape : Marked 16 (Layout.standard.write (shortest units)).toList :=
    Layout.write_shape (by decide) (by decide) (shortest units)
  refine ⟨shortest units, shortest_spec hr h0, htext, by rw [hdisplay, htext], ?_,
    ofText?_display negative hr⟩
  obtain ⟨whole, mark, rest, hwrite, -, -, -, hmark⟩ := hshape
  refine ⟨mark, ?_, hmark⟩
  rw [hdisplay, String.toList_append, hwrite]
  simp

/-! ## All results -/

/-- The finite results are read back, and no other text of a result is read at all. -/
theorem ofText?_display_eq (v : Binary64) :
    ofText? v.display = match v with
      | .finite .. => some v
      | _ => none := by
  cases v with
  | nan => decide
  | infinity negative => cases negative <;> decide
  | finite negative units hr => exact ofText?_display negative hr

theorem display_inj {v w : Binary64} (h : v.display = w.display) : v = w := by
  have hread := congrArg ofText? h
  rw [ofText?_display_eq, ofText?_display_eq] at hread
  cases v with
  | finite negative units hr =>
    cases w with
    | finite negative' units' hr' => exact Option.some.inj hread
    | infinity negative' => cases hread
    | nan => cases hread
  | infinity negative =>
    cases w with
    | finite negative' units' hr' => cases hread
    | infinity negative' =>
      cases negative <;> cases negative' <;> first | rfl | exact absurd h (by decide)
    | nan => cases negative <;> exact absurd h (by decide)
  | nan =>
    cases w with
    | finite negative' units' hr' => cases hread
    | infinity negative' => cases negative' <;> exact absurd h (by decide)
    | nan => rfl

theorem display_exact (bits : BitVec 64) :
    (∀ negative units hr, ofBits bits = .finite negative units hr →
      (∀ n, units = n * one → ∃ digits, Numeral digits n ∧
        (ofBits bits).display.toList = (if bits.msb then ['-'] else []) ++ digits) ∧
      ((∀ n, units ≠ n * one) → ∃ d, Shortest units d ∧
        (ofBits bits).text = signText bits.msb ++ Layout.standard.write d ∧
        (ofBits bits).display = (ofBits bits).text ∧
        (∃ c ∈ (ofBits bits).display.toList, c = '.' ∨ c = 'e') ∧
        ofText? (ofBits bits).display = some (ofBits bits))) ∧
    (ofBits bits ≠ .nan → (ofBits bits).display ≠ "NaN" ∧
      ∀ other, ofBits other ≠ .nan →
        ((ofBits bits).display = (ofBits other).display ↔ bits = other)) := by
  constructor
  · intro negative units hr h
    obtain ⟨hsign, -, -⟩ := ofFields_eq_finite h
    rw [h, hsign]
    constructor
    · intro n hn
      exact ⟨Nat.toDigits 10 n, numeral_toDigits n, toList_display_whole hr hn⟩
    · exact display_shortest hr
  · intro hv
    refine ⟨fun h => hv (display_inj (w := .nan) h), fun other hw => ⟨fun h => ?_, fun h => h ▸ rfl⟩⟩
    exact eq_of_ofBits hv rfl (display_inj h).symm

/-- The negative zero, and the numbers nearest to and next to one tenth. -/
theorem display_of_zero_and_tenth :
    (∃ digits, Numeral digits 0 ∧
      (ofBits 0x8000000000000000#64).display.toList = ['-'] ++ digits) ∧
    ofText? (ofBits 0x3FB999999999999A#64).display = some (ofBits 0x3FB999999999999A#64) ∧
    (ofBits 0x3FB999999999999A#64).display ≠ (ofBits 0x3FB9999999999999#64).display := by
  refine ⟨?_, ?_, ?_⟩
  · have hr : Representable (0 * one) := by decide +kernel
    have hv : ofBits 0x8000000000000000#64 = .finite true (0 * one) hr := by
      decide +kernel +revert
    exact ((display_exact 0x8000000000000000#64).1 true _ hr hv).1 0 rfl
  · have hr : Representable (7205759403792794 * Nat.pow 2 1018) := by decide +kernel
    have hv : ofBits 0x3FB999999999999A#64 =
        .finite false (7205759403792794 * Nat.pow 2 1018) hr := by decide +kernel +revert
    have hfraction : ∀ n, 7205759403792794 * Nat.pow 2 1018 ≠ n * one := by
      intro n hn
      have hmod : 7205759403792794 * Nat.pow 2 1018 % one = 0 := by rw [hn, Nat.mul_mod_left]
      exact absurd hmod (by decide +kernel)
    obtain ⟨d, -, -, -, -, hread⟩ :=
      ((display_exact 0x3FB999999999999A#64).1 false _ hr hv).2 hfraction
    exact hread
  · have hv : ofBits 0x3FB999999999999A#64 ≠ .nan := by decide
    have hw : ofBits 0x3FB9999999999999#64 ≠ .nan := by decide
    exact fun h => absurd (((display_exact _).2 hv).2 _ hw |>.mp h) (by decide)

end Abacus.Binary64
