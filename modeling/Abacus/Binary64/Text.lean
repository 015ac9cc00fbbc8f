/-
  Abacus.Binary64.Text — numbers as text, and text read as a number.

  A decimal is read as the binary64 number nearest to it. `shortest` finds the one with the
  fewest digits that reads back as a given number: for 1, 2, 3, … digits the two decimals of
  that many digits around the number are tried, and the first count of digits with one that
  reads back is taken. If both do, the nearer one is taken, and the even one if neither is.

  `Binary64.text` writes those digits positionally, with a point, or with an exponent, as a
  `Layout` says. `Binary64.display` is for results: a number without a fraction is written with
  all its digits and nothing else, and any other finite number as `Binary64.text` writes it.
  The zeros keep their sign in both.

  A text that is read is an optional minus sign, digits, optionally a point and more digits,
  and optionally an exponent with its sign. All the digits count; the number they make is
  rounded once. NaN and the infinities are not read.
-/

import Abacus.Binary64

namespace Abacus

/-! # The shortest decimal -/

/-- The number digits · 10^exponent. -/
structure Decimal where
  digits : Nat
  exponent : Int
  deriving DecidableEq, Repr

namespace Binary64

def ofDecimal (negative : Bool) (d : Decimal) : Binary64 :=
  if 0 ≤ d.exponent then round negative (d.digits * Nat.pow 10 d.exponent.toNat * one) 1
  else round negative (d.digits * one) (Nat.pow 10 (-d.exponent).toNat)

def readsBack (units : Nat) (d : Decimal) : Bool :=
  match ofDecimal false d with
  | .finite _ read _ => read == units
  | _ => false

/-- The count of decimal digits of a natural number; 16 of them are counted at a time. -/
def decimalWidth (n : Nat) : Nat :=
  if n < 10000000000000000 then (Nat.toDigits 10 n).length
  else 16 + decimalWidth (n / 10000000000000000)

/-- The exponent of the first decimal digit of a positive count of units. No number lies
    below 10^-324. -/
def leadingExponent (units : Nat) : Int :=
  (decimalWidth (units * Nat.pow 10 324 / one) : Int) - 325

def scaledQuotient (units : Nat) (exponent : Int) : Nat × Nat :=
  if 0 ≤ exponent then (units, one * Nat.pow 10 exponent.toNat)
  else (units * Nat.pow 10 (-exponent).toNat, one)

/-- Of the two decimals with an exponent around a quotient, the one that reads back; if both
    do, the nearer one. -/
def neighbour? (reads : Decimal → Bool) (exponent : Int) : Nat × Nat → Option Decimal
  | (numerator, denominator) =>
    let below : Decimal := ⟨numerator / denominator, exponent⟩
    let above : Decimal := ⟨numerator / denominator + 1, exponent⟩
    match reads below, reads above with
    | true, true => some ⟨nearest numerator denominator, exponent⟩
    | true, false => some below
    | false, true => some above
    | false, false => none

def gridExponent (units width : Nat) : Int := leadingExponent units - width + 1

def decimalOf? (units width : Nat) : Option Decimal :=
  neighbour? (readsBack units) (gridExponent units width)
    (scaledQuotient units (gridExponent units width))

/-- The first hit for `width`, `width + 1`, … digits. With the tries used up, all the digits
    of the number are taken. -/
def shortestFrom (units : Nat) : (tries width : Nat) → Decimal
  | 0, _ => ⟨units * Nat.pow 5 1074, -1074⟩
  | tries + 1, width => (decimalOf? units width).getD (shortestFrom units tries (width + 1))

/-- The shortest decimal that reads back as a positive count of units. No number has more
    than 1400 digits, so the tries are never used up. -/
def shortest (units : Nat) : Decimal := shortestFrom units 1400 1

end Binary64

end Abacus

/-! # Layouts -/

namespace Abacus.Binary64

/-- Which numbers are written without an exponent, by the exponent of their first digit, and
    how many digits an exponent has at least. -/
structure Layout where
  positionalFrom : Int
  positionalBelow : Int
  exponentWidth : Nat

/-- Numbers from 0.0001 to below 10^16 are written without an exponent; an exponent has at
    least two digits. -/
def Layout.standard : Layout := ⟨-4, 16, 2⟩

def signText (negative : Bool) : String := if negative then "-" else ""

/-- The digits of a decimal without the zeros at its end, at least one. -/
def significant (n : Nat) : List Char :=
  match ((Nat.toDigits 10 n).reverse.dropWhile (· == '0')).reverse with
  | [] => ['0']
  | ds => ds

def zeros (n : Nat) : List Char := List.replicate n '0'

def positional (digits : List Char) (exponent : Int) : List Char :=
  if exponent < 0 then '0' :: '.' :: zeros (-exponent - 1).toNat ++ digits
  else
    let whole := exponent.toNat + 1
    if digits.length ≤ whole then digits ++ zeros (whole - digits.length) ++ ['.', '0']
    else digits.take whole ++ '.' :: digits.drop whole

def exponentText (width : Nat) (exponent : Int) : List Char :=
  let digits := Nat.toDigits 10 exponent.natAbs
  'e' :: (if exponent < 0 then '-' else '+') :: zeros (width - digits.length) ++ digits

def scientific (width : Nat) (digits : List Char) (exponent : Int) : List Char :=
  match digits with
  | first :: second :: rest => first :: '.' :: second :: rest ++ exponentText width exponent
  | digits => digits ++ exponentText width exponent

def Layout.write (layout : Layout) (d : Decimal) : String :=
  let exponent := d.exponent + decimalWidth d.digits - 1
  let digits := significant d.digits
  String.ofList <|
    if layout.positionalFrom ≤ exponent ∧ exponent < layout.positionalBelow then
      positional digits exponent
    else scientific layout.exponentWidth digits exponent

def text : Binary64 → String
  | .nan => "nan"
  | .infinity negative => signText negative ++ "inf"
  | .finite negative units _ =>
    signText negative ++ if units = 0 then "0.0" else Layout.standard.write (shortest units)

def display : Binary64 → String
  | .nan => "NaN"
  | .infinity negative => signText negative ++ "inf"
  | .finite negative units h =>
    if units % one = 0 then signText negative ++ toString (units / one)
    else text (.finite negative units h)

end Abacus.Binary64

/-! # Reading -/

namespace Abacus

def Decimal.natOfDigits (digits : List Char) : Nat := Nat.ofDigitChars 10 digits 0

/-- An exponent, if all the characters make one; no characters make 0. -/
def Decimal.exponent? : List Char → Option Int
  | [] => some 0
  | 'e' :: sign :: digits =>
    if digits.isEmpty ∨ !digits.all Char.isDigit then none
    else if sign = '+' then some (Decimal.natOfDigits digits)
    else if sign = '-' then some (-(Decimal.natOfDigits digits : Int))
    else none
  | _ => none

def Decimal.ofChars? (cs : List Char) : Option Decimal :=
  let whole := cs.takeWhile Char.isDigit
  if whole.isEmpty then none
  else
    match cs.dropWhile Char.isDigit with
    | '.' :: rest =>
      let fraction := rest.takeWhile Char.isDigit
      if fraction.isEmpty then none
      else
        (exponent? (rest.dropWhile Char.isDigit)).map fun e =>
          ⟨natOfDigits (whole ++ fraction), e - fraction.length⟩
    | rest => (exponent? rest).map fun e => ⟨natOfDigits whole, e⟩

def Binary64.ofText? (text : String) : Option Binary64 :=
  match text.toList with
  | '-' :: cs => (Decimal.ofChars? cs).map (ofDecimal true)
  | cs => (Decimal.ofChars? cs).map (ofDecimal false)

end Abacus
