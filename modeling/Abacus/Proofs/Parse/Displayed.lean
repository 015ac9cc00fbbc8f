/-
  Abacus.Proofs.Parse.Displayed — results as texts.

  A result that is a whole number is a text of its digits, so it is read back, or refused
  because it does not fit in 64 bits (`readWhole_signed`). Any other result holds a character
  outside the grammar: it begins with one, or has a point or an exponent behind a number that
  fits (`checkFrom_marked`).

  `ofText_display`: so results are read back exactly when they are whole numbers of 64 bits,
  and are then the same to the bit.
-/

import Abacus.Proofs.Binary64.Bits
import Abacus.Proofs.Binary64.Display
import Abacus.Proofs.Binary64.Rounding
import Abacus.Proofs.Parse.Depth
import Abacus.Proofs.Parse.Viable
import Abacus.Proofs.Parse.Number
import Abacus.Proofs.Evaluation.Structural

namespace Abacus.Parse

open Grammar
open Binary64 (Representable signText Marked)

/-! ## Whole numbers -/

/-- A number behind a minus sign or not needs four calls at most. -/
theorem depthBound_signed {cs : List Char} (hd : ∀ c ∈ cs, c.isDigit = true) (negative : Bool)
    {text : String} (h : text.toList = (if negative then ['-'] else []) ++ cs) :
    depthBound (Token.scan text) ≤ 4 := by
  have hdigits := depthBound_digits hd
  unfold Token.scan
  rw [h]
  cases negative with
  | false => exact Nat.le_trans (Nat.le_of_eq (hdigits 0)) (by decide)
  | true =>
    have hs : Token.scanFrom 0 ('-' :: cs) = ⟨.minus, "-", 0⟩ :: Token.scanFrom 1 cs := rfl
    have hone := hdigits 1
    rw [if_pos rfl, List.singleton_append, hs]
    simp only [depthBound, List.countP_cons] at hone ⊢
    have hminus : ((additive? .minus).isSome || (multiplicative? .minus).isSome) = true := rfl
    have hparen : (Token.Kind.minus == .leftParen) = false := rfl
    simp only [hminus, hparen, if_true, Bool.false_eq_true, if_false]
    omega

/-- Digits behind a minus sign or not are read under every limit that allows these calls. -/
theorem ofText_signed {limit : Limit} (hl : limit.Allows 4) {cs : List Char} (hne : cs ≠ []) (hd : ∀ c ∈ cs, c.isDigit = true)
    (negative : Bool) {text : String} (h : text.toList = (if negative then ['-'] else []) ++ cs) :
    Expr.ofText limit text = if Nat.ofDigitChars 10 cs 0 ≤ Expr.largest
      then .ok (signedNumber negative (Nat.ofDigitChars 10 cs 0))
      else .error (.refused (.placed .literalOverflow (some (if negative then 1 else 0)))) := by
  rw [← readWhole_signed hne hd negative h, ofText_eq_readWhole]
  unfold readWhole
  rw [run_of_allows (hl.mono (depthBound_signed hd negative h))]

theorem value_signedNumber {negative : Bool} {n : Nat} (hn : n ≤ Expr.largest)
    (h : Representable (n * Binary64.one)) :
    (signedNumber negative n).value = .ok (.finite negative (n * Binary64.one) h) := by
  cases negative with
  | false =>
    rw [Expr.value_eq_ok (e := signedNumber false n) trivial hn]
    simp only [signedNumber, Bool.false_eq_true, if_false, Operations.value, Binary64.ofNat_eq h]
  | true =>
    rw [Expr.value_eq_ok (e := signedNumber true n) trivial hn]
    simp only [signedNumber, if_true, Operations.value, Binary64.ofNat_eq h]
    rfl

/-! ## Other results -/

/-- A minus sign changes nothing but the positions behind it. -/
theorem check_signed (negative : Bool) {cs : List Char} {text : String}
    (h : text.toList = (if negative then ['-'] else []) ++ cs) :
    check (Token.scan text) = checkFrom .operand 0 (Token.scanFrom (if negative then 1 else 0) cs) := by
  unfold check Token.scan
  rw [h]
  cases negative with
  | false => rfl
  | true => exact checkFrom_minus rfl

/-- No operand begins with a character outside the grammar. -/
theorem checkFrom_stranger {c : Char} (hk : Token.Kind.ofChar c = .unrecognized)
    (hb : Token.isBlank c = false) (p groups : Nat) (cs : List Char) :
    checkFrom .operand groups (Token.scanFrom p (c :: cs)) =
      .error (.placed .factorExpected (some p)) := by
  rw [Token.scanFrom_cons hb]
  refine checkFrom_expected ?_ ?_ ?_ <;> simp [hk]

/-- A number that fits is not followed by a character outside the grammar. -/
theorem checkFrom_marked {cs : List Char} (hm : Marked 19 cs) (p groups : Nat) :
    ∃ q, checkFrom .operand groups (Token.scanFrom p cs) = .error (.placed .invalidToken q) := by
  obtain ⟨whole, mark, rest, rfl, hne, hlen, hd, hmark⟩ := hm
  have hstranger : Token.Kind.ofChar mark = .unrecognized ∧ Token.isBlank mark = false := by
    rcases hmark with rfl | rfl <;> decide
  have hfits : Nat.ofDigitChars 10 whole 0 ≤ Expr.largest := by
    have hlt := ofDigitChars_lt hd
    have hpow : Nat.pow 10 whole.length ≤ Nat.pow 10 19 := Nat.pow_le_pow_right (by decide) hlen
    have hlargest : Nat.pow 10 19 ≤ Expr.largest := by decide
    omega
  have hs := Token.scanFrom_cons hstranger.2 (p + whole.length) rest
  have ht : ∀ t ∈ (Token.scanFrom (p + whole.length) (mark :: rest)).head?, t.isDigit = false := by
    rw [hs]
    simp [Token.isDigit, hstranger.1]
  rw [checkFrom_scanFrom_digits hne hd p groups ht, if_neg (Nat.not_lt_of_le hfits), hs]
  exact ⟨_, checkFrom_unrecognized hstranger.1⟩

/-- What the checker refuses, no limit makes a tree. -/
theorem ofText_of_check {text : String} {err : ParseError} (h : check (Token.scan text) = .error err)
    (limit : Limit) : Expr.ofText limit text = .error (.refused err) ∨
      Expr.ofText limit text = .error (.refused .nestingTooDeep) := by
  rcases ofText_or_deep limit text with hdeep | hnone
  · exact Or.inr hdeep
  · exact Or.inl (hnone.trans (ofText_none_eq_error_iff.mpr h))

/-- A result that is no whole number is refused by the checker, for its characters. -/
theorem check_display {v : Binary64}
    (h : ∀ negative n hr, v ≠ .finite negative (n * Binary64.one) hr) :
    ∃ cause p, check (Token.scan v.display) = .error (.placed cause p) ∧ cause ≠ .literalOverflow := by
  cases v with
  | nan =>
    refine ⟨.factorExpected, some 0, ?_, by decide⟩
    have htext : Binary64.nan.display.toList = [] ++ "NaN".toList := rfl
    exact (check_signed false htext).trans (checkFrom_stranger rfl rfl 0 0 _)
  | infinity negative =>
    refine ⟨.factorExpected, some (if negative then 1 else 0 : Nat), ?_, by decide⟩
    have htext : (Binary64.infinity negative).display.toList =
        (if negative then ['-'] else []) ++ "inf".toList := by cases negative <;> rfl
    exact (check_signed negative htext).trans (checkFrom_stranger rfl rfl _ 0 _)
  | finite negative units hr =>
    have hf : units % Binary64.one ≠ 0 := by
      intro h0
      obtain ⟨n, hr', hn⟩ := Binary64.whole_of_mod_eq_zero negative hr h0
      exact h negative n hr' hn
    have htext : ((Binary64.finite negative units hr).display).toList =
        (if negative then ['-'] else []) ++
          (Binary64.Layout.standard.write (Binary64.shortest units)).toList := by
      rw [Binary64.display_fraction hr hf, String.toList_append, Binary64.toList_signText]
    have hm : Marked 16 (Binary64.Layout.standard.write (Binary64.shortest units)).toList :=
      Binary64.Layout.write_shape (by decide) (by decide) (Binary64.shortest units)
    obtain ⟨q, hq⟩ := checkFrom_marked (hm.mono (by decide)) (if negative then 1 else 0) 0
    exact ⟨.invalidToken, q, (check_signed negative htext).trans hq, by decide⟩

/-! ## All results -/

theorem ofText_display (v : Binary64) (limit : Limit) :
    (limit.Allows 4 → ∀ negative n hr, v = .finite negative (n * Binary64.one) hr →
      (n < Nat.pow 2 64 → ∃ e, Expr.ofText limit v.display = .ok e ∧ e.value = .ok v ∧
        ∀ a b : BitVec 64, Binary64.ofBits a = v → Binary64.ofBits b = v → a = b) ∧
      (Nat.pow 2 64 ≤ n → Expr.ofText limit v.display =
        .error (.refused (.placed .literalOverflow (some (if negative then 1 else 0)))))) ∧
    ((∀ negative n hr, v ≠ .finite negative (n * Binary64.one) hr) →
      ∃ err, Expr.ofText limit v.display = .error (.refused err) ∧
        ∀ p, err ≠ .placed .literalOverflow p) := by
  have hlargest : Nat.pow 2 64 = Expr.largest + 1 := by decide
  constructor
  · rintro hl negative n hr rfl
    have hchars : (signText negative ++ toString n).toList =
        (if negative then ['-'] else []) ++ Nat.toDigits 10 n := by
      simp [Binary64.toList_signText]
    have htext := ofText_signed hl Nat.toDigits_ne_nil (fun c => Binary64.isDigit_of_mem_toDigits)
      negative hchars
    rw [Nat.ofDigitChars_ten_toDigits] at htext
    rw [Binary64.display_whole, htext]
    constructor
    · intro hn
      refine ⟨_, if_pos (by omega), value_signedNumber (by omega) hr, ?_⟩
      exact fun a b => Binary64.eq_of_ofBits (by simp)
    · intro hn
      exact if_neg (by omega)
  · intro h
    obtain ⟨cause, p, hc, hne⟩ := check_display h
    rcases ofText_of_check hc limit with ho | ho
    · refine ⟨_, ho, fun q hq => hne ?_⟩
      cases hq
      rfl
    · exact ⟨_, ho, fun q hq => by cases hq⟩

/-- The negative zero, -2^64 and one half. -/
theorem ofText_display_of_bits :
    Limit.Allows (some 990) 4 ∧
    (∃ e, Expr.ofText (some 990) "-0" = .ok e ∧
      e.value = .ok (Binary64.ofBits 0x8000000000000000#64)) ∧
    Expr.ofText (some 990) "-18446744073709551616" =
      .error (.refused (.placed .literalOverflow (some 1))) ∧
    ∃ err, Expr.ofText (some 990) "0.5" = .error (.refused err) ∧
      ∀ p, err ≠ .placed .literalOverflow p := by
  have hzero : (Binary64.ofBits 0x8000000000000000#64).display = "-0" := by decide +kernel
  have hlarge : (Binary64.ofBits 0xC3F0000000000000#64).display = "-18446744073709551616" := by
    decide +kernel
  have hhalf : (Binary64.ofBits 0x3FE0000000000000#64).display = "0.5" := by decide +kernel
  have hl : Limit.Allows (some 990) 4 := by simp
  rw [← hzero, ← hlarge, ← hhalf]
  refine ⟨hl, ?_, ?_, ?_⟩
  · have hr : Representable (0 * Binary64.one) := by decide +kernel
    have hv : Binary64.ofBits 0x8000000000000000#64 = .finite true (0 * Binary64.one) hr := by
      decide +kernel +revert
    obtain ⟨e, he, hvalue, -⟩ := ((ofText_display _ _).1 hl true 0 hr hv).1 (by decide)
    exact ⟨e, he, hvalue⟩
  · have hr : Representable (Nat.pow 2 64 * Binary64.one) := by decide +kernel
    have hv : Binary64.ofBits 0xC3F0000000000000#64 =
        .finite true (Nat.pow 2 64 * Binary64.one) hr := by decide +kernel +revert
    exact ((ofText_display _ _).1 hl true (Nat.pow 2 64) hr hv).2 (Nat.le_refl _)
  · have hr : Representable (Binary64.one / 2) := by decide +kernel
    have hv : Binary64.ofBits 0x3FE0000000000000#64 = .finite false (Binary64.one / 2) hr := by
      decide +kernel +revert
    refine (ofText_display _ _).2 fun negative n hr' h => ?_
    have hn : Binary64.one / 2 = n * Binary64.one := (Binary64.finite.inj (hv.symm.trans h)).2
    have hmod : Binary64.one / 2 % Binary64.one = 0 := by rw [hn, Nat.mul_mod_left]
    exact absurd hmod (by decide +kernel)

end Abacus.Parse
