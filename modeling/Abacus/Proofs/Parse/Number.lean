/-
  Abacus.Proofs.Parse.Number — texts of digits, and numbers by the places of their digits.

  - `scanFrom_digits`: the tokens of digits are digits, the first one where the text begins,
    and make the number that the text spells.
  - `ofDigitChars_lt`: the number has no more digits than the text.
  - `readWhole_signed`: digits, behind a minus sign or not, are a tree of their number, or are
    refused at the first of them.

  The parser reads digits from the left and looks after each of them whether the number still
  fits. What it ends with is said here without an order: every digit counts by the power of ten
  of its place (`placeValue`).

  - `numeral_eq_placeValue`: the number read from the left is the one by places.
  - `integer_exact_or_refused`: so digits, however many, are a node of exactly their number if
    that fits in 64 bits, and are refused at the first of them if it does not. Zeros in front
    of a number change nothing, in a whole text as well.
-/

import Mathlib.Algebra.BigOperators.Fin
import Mathlib.Tactic.Ring
import Abacus.Proofs.Parse.Depth
import Abacus.Proofs.Parse.Derivation
import Abacus.Proofs.Token.Scanner

namespace Abacus

/-! # Texts of digits -/

/-- A text of digits spells a number with no more digits. -/
theorem ofDigitChars_lt {cs : List Char} (hd : ∀ c ∈ cs, c.isDigit = true) :
    Nat.ofDigitChars 10 cs 0 < Nat.pow 10 cs.length := by
  induction cs with
  | nil => exact Nat.one_pos
  | cons c cs ih =>
    obtain ⟨hc, hcs⟩ := List.forall_mem_cons.mp hd
    have hc : c.toNat ≤ 57 := by
      have : 48 ≤ c.toNat ∧ c.toNat ≤ 57 := by simpa [Char.isDigit, UInt32.le_iff_toNat_le] using hc
      exact this.2
    have h0 : '0'.toNat = 48 := rfl
    have hface : (c.toNat - '0'.toNat) + 1 ≤ 10 := by omega
    have hstep := Nat.mul_le_mul_left (10 ^ cs.length) hface
    have ih := ih hcs
    rw [Nat.ofDigitChars_cons, Nat.ofDigitChars_eq_ofDigitChars_zero, Nat.mul_zero, Nat.zero_add]
    simp only [Nat.pow_eq, List.length_cons, Nat.pow_succ] at ih ⊢
    rw [Nat.mul_add, Nat.mul_one] at hstep
    omega

namespace Token

theorem scanFrom_cons {c : Char} (h : isBlank c = false) (p : Nat) (cs : List Char) :
    scanFrom p (c :: cs) = ⟨.ofChar c, c.toString, p⟩ :: scanFrom (p + 1) cs := by
  rw [scanFrom, h]
  rfl

theorem isDigit_of_mem_scanFrom {cs : List Char} (hd : ∀ c ∈ cs, c.isDigit = true) {p : Nat} :
    ∀ t ∈ scanFrom p cs, t.isDigit = true := by
  induction cs generalizing p with
  | nil => simp [scanFrom]
  | cons c cs ih =>
    obtain ⟨hc, hcs⟩ := List.forall_mem_cons.mp hd
    rw [scanFrom_cons (isBlank_of_isDigit hc), List.forall_mem_cons]
    exact ⟨by simp [isDigit, Kind.ofChar_eq_digit_iff.mpr hc], ih hcs⟩

/-- Digits are one number, which begins where they do. -/
theorem scanFrom_digits {cs : List Char} (hne : cs ≠ []) (hd : ∀ c ∈ cs, c.isDigit = true) (p : Nat) :
    ∃ d ds, scanFrom p cs = d :: ds ∧ d.position = p ∧ (∀ t ∈ d :: ds, t.isDigit = true) ∧
      Grammar.numeral (d :: ds) = Nat.ofDigitChars 10 cs 0 := by
  obtain ⟨c, cs, rfl⟩ := List.exists_cons_of_ne_nil hne
  have hblank : ∀ b ∈ c :: cs, (!isBlank b) = true := fun b hb => by simp [isBlank_of_isDigit (hd b hb)]
  have hshapes := shapes_scanFrom p (c :: cs)
  have hdigits : ∀ t ∈ scanFrom p (c :: cs), t.isDigit = true := isDigit_of_mem_scanFrom hd
  rw [List.filter_eq_self.mpr hblank] at hshapes
  rw [scanFrom_cons (isBlank_of_isDigit (hd c List.mem_cons_self))] at hshapes hdigits ⊢
  exact ⟨_, _, rfl, rfl, hdigits, Grammar.numeral_of_shapes hshapes⟩

end Token

namespace Grammar

/-- The checker goes over digits that are not followed by another, unless they make too large a
    number. -/
theorem checkFrom_scanFrom_digits {cs tail : List Char} (hne : cs ≠ []) (hd : ∀ c ∈ cs, c.isDigit = true)
    (p groups : Nat) (ht : ∀ t ∈ (Token.scanFrom (p + cs.length) tail).head?, t.isDigit = false) :
    checkFrom .operand groups (Token.scanFrom p (cs ++ tail)) =
      if Nat.ofDigitChars 10 cs 0 > Expr.largest then .error (.placed .literalOverflow (some p))
      else checkFrom .after groups (Token.scanFrom (p + cs.length) tail) := by
  obtain ⟨d, ds, hs, hp, hdigits, hn⟩ := Token.scanFrom_digits hne hd p
  rw [Token.scanFrom_append, hs, checkFrom_digits hdigits ht, hn, hp]

end Grammar

namespace Parse

open Grammar

/-- The tree of a number behind a minus sign or not, at the front of a text. -/
def signedNumber (negative : Bool) (n : Nat) : Expr :=
  if negative then .unary .negate 0 (.constant 1 n) else .constant 0 n

/-- Digits need no more calls than any operand. -/
theorem depthBound_digits {cs : List Char} (hd : ∀ c ∈ cs, c.isDigit = true) (p : Nat) :
    depthBound (Token.scanFrom p cs) = 3 := by
  have hkind : ∀ t ∈ Token.scanFrom p cs, t.kind = .digit := by
    intro t ht
    simpa [Token.isDigit] using Token.isDigit_of_mem_scanFrom hd t ht
  unfold depthBound
  rw [List.countP_eq_zero.mpr fun t ht => by simp [hkind t ht],
    List.countP_eq_zero.mpr fun t ht => by simp [hkind t ht, additive?, multiplicative?]]

theorem number?_scanFrom {cs : List Char} (hne : cs ≠ []) (hd : ∀ c ∈ cs, c.isDigit = true) (p : Nat) :
    number? (Token.scanFrom p cs) = some (if Nat.ofDigitChars 10 cs 0 ≤ Expr.largest
      then .ok (.constant p (Nat.ofDigitChars 10 cs 0), [])
      else .error (.refused (.placed .literalOverflow (some p)))) := by
  have hw : ∀ t ∈ Token.scanFrom p cs, t.Decimal := fun _ => Token.decimal_of_mem_scanFrom
  obtain ⟨d, ds, hs, hp, hdigits, hn⟩ := Token.scanFrom_digits hne hd p
  rw [hs] at hw ⊢
  rw [← List.append_nil (d :: ds), number?_eq_of_decimal hdigits hw (by simp), hn, hp]

theorem Takes.of_factor {ts : List Token} {e : Expr} (h : Takes .factor ts e []) :
    Takes .expression ts e [] :=
  .single rfl (.single rfl h (by simp)) (by simp)

theorem Fails.of_factor {ts : List Token} {f : Failure} (h : Fails .factor ts f) :
    Fails .expression ts f :=
  .operand rfl (.operand rfl h)

theorem readWhole_signed {cs : List Char} (hne : cs ≠ []) (hd : ∀ c ∈ cs, c.isDigit = true)
    (negative : Bool) {text : String} (h : text.toList = (if negative then ['-'] else []) ++ cs) :
    readWhole none (Token.scan text) = if Nat.ofDigitChars 10 cs 0 ≤ Expr.largest
      then .ok (signedNumber negative (Nat.ofDigitChars 10 cs 0))
      else .error (.refused (.placed .literalOverflow (some (if negative then 1 else 0)))) := by
  unfold Token.scan signedNumber
  rw [h]
  cases negative with
  | false =>
    have hn := number?_scanFrom hne hd 0
    split at hn
    · rename_i hle
      rw [if_pos hle]
      exact (Takes.integer (.number hn)).of_factor.readWhole
    · rename_i hle
      rw [if_neg hle]
      exact (Fails.integer (.number hn)).of_factor.readWhole
  | true =>
    have hn := number?_scanFrom hne hd 1
    have hs : Token.scanFrom 0 ('-' :: cs) = ⟨.minus, "-", 0⟩ :: Token.scanFrom 1 cs := rfl
    rw [if_pos rfl, List.singleton_append, hs]
    split at hn
    · rename_i hle
      rw [if_pos hle]
      exact (Takes.negation rfl (.integer (.number hn))).of_factor.readWhole
    · rename_i hle
      rw [if_neg hle]
      exact (Fails.negation rfl (.integer (.number hn))).of_factor.readWhole

end Parse

/-! # Place value -/

namespace Grammar

def placeValue (digits : List Token) : Nat :=
  ∑ i : Fin digits.length, face digits[i] * 10 ^ (digits.length - 1 - i)

theorem placeValue_cons (d : Token) (ds : List Token) :
    placeValue (d :: ds) = face d * 10 ^ ds.length + placeValue ds := by
  show ∑ i : Fin (ds.length + 1), face (d :: ds)[i] * 10 ^ (ds.length + 1 - 1 - i) = _
  rw [Fin.sum_univ_succ]
  apply congrArg (face d * 10 ^ ds.length + ·)
  apply Finset.sum_congr rfl
  intro i _
  have hplace : ds.length + 1 - 1 - i.succ = ds.length - 1 - i := by
    rw [Fin.val_succ]
    omega
  rw [hplace]
  rfl

theorem numeralFrom_eq_placeValue (n : Nat) (ds : List Token) :
    Parse.numeralFrom n ds = n * 10 ^ ds.length + placeValue ds := by
  induction ds generalizing n with
  | nil => simp [Parse.numeralFrom, placeValue]
  | cons d ds ih =>
    rw [Parse.numeralFrom_cons, ih, placeValue_cons, List.length_cons, pow_succ]
    ring

theorem numeral_eq_placeValue (ds : List Token) : numeral ds = placeValue ds := by
  have h := numeralFrom_eq_placeValue 0 ds
  rwa [Nat.zero_mul, Nat.zero_add] at h

end Grammar

namespace Parse

open Grammar

/-- Digits behind other tokens, up to a token that is none, are one number. -/
theorem runAt_integer {before digits behind : List Token} (hne : digits ≠ [])
    (hd : ∀ t ∈ digits, t.isDigit = true) (hw : ∀ t ∈ digits, t.Decimal)
    (hb : ∀ t ∈ behind.head?, t.isDigit = false) :
    (runAt .integer (before ++ digits ++ behind) before.length).outcome =
      if placeValue digits ≤ Expr.largest then
        .ok (some ⟨.constant (digits.head hne).position (placeValue digits),
          before.length + digits.length, behind⟩)
      else .error (.refused (.placed .literalOverflow (some (digits.head hne).position))) := by
  obtain ⟨d, ds, rfl⟩ := List.exists_cons_of_ne_nil hne
  have hdrop : (before ++ (d :: ds) ++ behind).drop before.length = d :: ds ++ behind := by
    rw [List.append_assoc, List.drop_left]
  have hlength : (d :: ds ++ behind).length - behind.length = (d :: ds).length := by
    rw [List.length_append]
    omega
  unfold runAt
  rw [hdrop]
  show (literal before.length (d :: ds ++ behind)).outcome = _
  rw [literal_outcome, number?_eq_of_decimal hd hw hb, numeral_eq_placeValue]
  dsimp only
  rw [← hlength]
  split <;> rfl

/-- A text of digits is read under every limit that allows the three calls for an operand. -/
theorem ofText_digits {limit : Limit} (hl : limit.Allows 3) {cs : List Char}
    (hne : cs ≠ []) (hd : ∀ c ∈ cs, c.isDigit = true) {text : String} (h : text.toList = cs) :
    Expr.ofText limit text = if Nat.ofDigitChars 10 cs 0 ≤ Expr.largest
      then .ok (.constant 0 (Nat.ofDigitChars 10 cs 0))
      else .error (.refused (.placed .literalOverflow (some 0))) := by
  have hbound : depthBound (Token.scan text) = 3 := by
    unfold Token.scan
    rw [h, depthBound_digits hd]
  have hrun : run limit (Token.scan text) = run none (Token.scan text) := run_of_allows (hbound ▸ hl)
  have hnone : readWhole none (Token.scan text) = _ := readWhole_signed hne hd false h
  rw [ofText_eq_readWhole]
  unfold readWhole at hnone ⊢
  rw [hrun, hnone]
  rfl

/-- Zeros in front of a number do not change it. -/
theorem ofDigitChars_padded (zeros n : Nat) :
    Nat.ofDigitChars 10 (List.replicate zeros '0' ++ Nat.toDigits 10 n) 0 = n := by
  rw [Nat.ofDigitChars_append, Nat.ofDigitChars_replicate_zero, Nat.mul_zero,
    Nat.ofDigitChars_ten_toDigits]

theorem integer_exact_or_refused :
    (∀ (before digits behind : List Token) (hne : digits ≠ []),
      (∀ t ∈ digits, t.isDigit = true ∧ t.Decimal) → (∀ t ∈ behind.head?, t.isDigit = false) →
      (runAt .integer (before ++ digits ++ behind) before.length).outcome =
        if placeValue digits ≤ Expr.largest then
          .ok (some ⟨.constant (digits.head hne).position (placeValue digits),
            before.length + digits.length, behind⟩)
        else .error (.refused (.placed .literalOverflow (some (digits.head hne).position)))) ∧
    ∀ (limit : Limit) (zeros n : Nat), (∀ calls ∈ limit, 3 ≤ calls) →
      Expr.ofText limit (String.ofList (List.replicate zeros '0') ++ toString n) =
        if n ≤ Expr.largest then .ok (.constant 0 n)
        else .error (.refused (.placed .literalOverflow (some 0))) := by
  constructor
  · intro before digits behind hne h hb
    exact runAt_integer hne (fun t ht => (h t ht).1) (fun t ht => (h t ht).2) hb
  · intro limit zeros n hl
    have hchars : (String.ofList (List.replicate zeros '0') ++ toString n).toList =
        List.replicate zeros '0' ++ Nat.toDigits 10 n := by
      simp
    have hdigits : ∀ c ∈ List.replicate zeros '0' ++ Nat.toDigits 10 n, c.isDigit = true := by
      intro c hc
      rcases List.mem_append.mp hc with hzero | hn
      · rw [(List.mem_replicate.mp hzero).2]
        rfl
      · exact Nat.isDigit_of_mem_toDigits (by decide) (by decide) hn
    have hne : List.replicate zeros '0' ++ Nat.toDigits 10 n ≠ [] :=
      List.append_ne_nil_of_right_ne_nil _ Nat.toDigits_ne_nil
    have htext := ofText_digits hl hne hdigits hchars
    rwa [ofDigitChars_padded] at htext

/-- Between parentheses the digits of `04 2` are 42. Zeros in front of the largest number leave
    it as it is, and do not save the one behind it. -/
theorem integer_of_padded_digits :
    ((∀ t ∈ Token.scan "04 2", t.isDigit = true ∧ t.Decimal) ∧
      (runAt .integer ([⟨.leftParen, "(", 6⟩] ++ Token.scan "04 2" ++ [⟨.rightParen, ")", 8⟩]) 1).outcome =
        .ok (some ⟨.constant 0 42, 4, [⟨.rightParen, ")", 8⟩]⟩)) ∧
    (∀ calls ∈ some 990, 3 ≤ calls) ∧
    Expr.ofText (some 990) "0018446744073709551615" = .ok (.constant 0 18446744073709551615) ∧
    Expr.ofText (some 990) "0018446744073709551616" =
      .error (.refused (.placed .literalOverflow (some 0))) := by
  obtain ⟨hrun, htext⟩ := integer_exact_or_refused
  have hdigits : ∀ t ∈ Token.scan "04 2", t.isDigit = true ∧ t.Decimal := by
    have hall : (Token.scan "04 2").all Token.isDigit = true := rfl
    intro t ht
    exact ⟨List.all_eq_true.mp hall t ht, Token.decimal_of_mem_scan ht⟩
  have hlimit : ∀ calls ∈ some 990, 3 ≤ calls := by simp
  have hlargest : String.ofList (List.replicate 2 '0') ++ toString 18446744073709551615 =
      "0018446744073709551615" := by decide +kernel
  have hlarger : String.ofList (List.replicate 2 '0') ++ toString 18446744073709551616 =
      "0018446744073709551616" := by decide +kernel
  refine ⟨⟨hdigits, ?_⟩, hlimit, ?_, ?_⟩
  · exact hrun [⟨.leftParen, "(", 6⟩] _ [⟨.rightParen, ")", 8⟩] (List.cons_ne_nil _ _)
      hdigits (by simp [Token.isDigit])
  · rw [← hlargest, htext (some 990) 2 _ hlimit]
    rfl
  · rw [← hlarger, htext (some 990) 2 _ hlimit]
    rfl

end Parse

end Abacus
