/-
  Abacus.Grammar — the expressions, as a relation between tokens and trees.

    expression = term [("+" | "-") expression]
    term       = factor [("*" | "/") term]
    factor     = integer | "-" factor | "(" expression ")"
    integer    = digit {digit}

  The tail of an expression is an expression and the tail of a term is a term, so chains of
  operators of one rank group to the right: 8 - 3 - 2 is 8 - (3 - 2). An operator node stands
  at its operator's token, a number at its first digit, and a group leaves no node.

  `Derives` says which tokens derive which tree, without saying how the tree is found; the
  parser (`Abacus.Parse.Production`) finds it. Numbers of any size are derived.

  `check` tells in one pass whether tokens are one whole expression. It remembers whether an
  operand has to come next or has just ended, and how many groups are open, and builds no
  tree. Where it refuses it gives the cause and the place.
-/

import Abacus.Expr
import Abacus.ParseError
import Abacus.Token

namespace Abacus.Grammar

def additive? : Token.Kind → Option BinaryOp
  | .plus => some .add
  | .minus => some .subtract
  | _ => none

def multiplicative? : Token.Kind → Option BinaryOp
  | .star => some .multiply
  | .solidus => some .divide
  | _ => none

inductive Nonterminal where
  | expression
  | term
  | factor
  | integer
  deriving DecidableEq, Repr

/-- What a digit is worth when it is worth 0 or more, and 0 otherwise. -/
def face (t : Token) : Nat :=
  match t.worth with
  | .ok n => n.toNat
  | .error _ => 0

def numeral (digits : List Token) : Nat := digits.foldl (fun n t => 10 * n + face t) 0

inductive Derives : Nonterminal → List Token → Expr → Prop
  | number {d : Token} {ds : List Token} : (∀ t ∈ d :: ds, t.isDigit = true) →
      Derives .integer (d :: ds) (.constant d.position (numeral (d :: ds)))
  | integer {ts : List Token} {e : Expr} : Derives .integer ts e → Derives .factor ts e
  | negation {t : Token} {ts : List Token} {e : Expr} : t.kind = .minus →
      Derives .factor ts e → Derives .factor (t :: ts) (.unary .negate t.position e)
  | group {first last : Token} {ts : List Token} {e : Expr} : first.kind = .leftParen →
      Derives .expression ts e → last.kind = .rightParen →
      Derives .factor (first :: ts ++ [last]) e
  | factor {ts : List Token} {e : Expr} : Derives .factor ts e → Derives .term ts e
  | product {t : Token} {op : BinaryOp} {ls rs : List Token} {l r : Expr} :
      Derives .factor ls l → multiplicative? t.kind = some op → Derives .term rs r →
      Derives .term (ls ++ t :: rs) (.binary op t.position l r)
  | term {ts : List Token} {e : Expr} : Derives .term ts e → Derives .expression ts e
  | sum {t : Token} {op : BinaryOp} {ls rs : List Token} {l r : Expr} :
      Derives .term ls l → additive? t.kind = some op → Derives .expression rs r →
      Derives .expression (ls ++ t :: rs) (.binary op t.position l r)

/-- What is derived begins with a token. -/
theorem Derives.ne_nil {n : Nonterminal} {ts : List Token} {e : Expr} (h : Derives n ts e) :
    ts ≠ [] := by
  induction h with
  | number => simp
  | integer _ ih => exact ih
  | negation => simp
  | group => simp
  | factor _ ih => exact ih
  | product => simp
  | term _ ih => exact ih
  | sum => simp

/-- A tree that is derived holds no text in place of an operand. -/
theorem Derives.noStray {n : Nonterminal} {ts : List Token} {e : Expr} (h : Derives n ts e) :
    e.NoStray := by
  induction h with
  | number => trivial
  | integer _ ih => exact ih
  | negation _ _ ih => exact ih
  | group _ _ _ ih => exact ih
  | factor _ ih => exact ih
  | product _ _ _ ihl ihr => exact ⟨ihl, ihr⟩
  | term _ ih => exact ih
  | sum _ _ _ ihl ihr => exact ⟨ihl, ihr⟩

/-! # The checker -/

inductive Mode where
  /-- An operand has to come next. -/
  | operand
  /-- An operand has just ended. -/
  | after
  deriving DecidableEq, Repr

/-- Check tokens in a mode, with so many groups open. -/
def checkFrom : Mode → Nat → List Token → Except ParseError Unit
  | .operand, _, [] => .error .unexpectedEof
  | .operand, groups, t :: ts =>
    match t.kind with
    | .digit =>
      if numeral (t :: ts.takeWhile Token.isDigit) > Expr.largest then
        .error (.placed .literalOverflow (some t.position))
      else checkFrom .after groups (ts.dropWhile Token.isDigit)
    | .minus => checkFrom .operand groups ts
    | .leftParen => checkFrom .operand (groups + 1) ts
    | _ => .error (.placed .factorExpected (some t.position))
  | .after, groups, [] => if groups = 0 then .ok () else .error .unexpectedEof
  | .after, groups, t :: ts =>
    match t.kind with
    | .plus | .minus | .star | .solidus => checkFrom .operand groups ts
    | .unrecognized => .error (.placed .invalidToken (some t.position))
    | .rightParen =>
      match groups with
      | 0 => .error (.placed .unexpectedToken (some t.position))
      | groups + 1 => checkFrom .after groups ts
    | _ =>
      if groups = 0 then .error (.placed .unexpectedToken (some t.position))
      else .error (.placed .invalidGroup (some t.position))
termination_by _ _ ts => ts.length
decreasing_by
  all_goals simp only [List.length_cons]
  · have := (List.dropWhile_suffix (l := ts) Token.isDigit).length_le
    omega
  all_goals omega

def check (tokens : List Token) : Except ParseError Unit := checkFrom .operand 0 tokens

end Abacus.Grammar
