/-
  Abacus.Expr.Orders — what a tree holds and in what order, by recursion on the tree.

  - `preOrder`: a node before its operands. Where a text stands in place of an operand, its
    refusal is listed; the leftmost such text is the first one that any walk meets.
  - `inOrder`: the operators and the numbers in the order of a text of the tree, a binary operator
    between its operands and a negation before its own; and `Token.entries`, those of tokens,
    with parentheses left out and digits that follow one another joined into a number.
  - `leaves`: the leaves are numbered from left to right, and a node lies to the left of a leaf
    if the last leaf of its own has a smaller number (`spans` counts them). `leftOfStray` lists
    the nodes to the left of the leftmost text in post-order. `height` counts the levels of a
    tree, `reach` only those met from the left up to that text.
  - `outline`: a drawn tree. The line of a node is told by its path: for each node on the way
    from below the root down to it, whether that node is followed by a sibling. Each ancestor
    below the root gives one column of the lead, and the node itself gives the mark.
  - `minimalText`: the tree as an expression with no parentheses but those needed. It is written
    for the place where it stands; an operator that is too loose for its place goes between
    parentheses. The left operand stands one rank tighter than the operator and the right
    operand at its rank, since chains group to the right.
-/

import Abacus.Expr
import Abacus.Grammar

namespace Abacus.Expr

/-! # Pre-order -/

def preOrder : Expr → List (Except Fault Expr)
  | .binary op position lhs rhs =>
    .ok (.binary op position lhs rhs) :: (lhs.preOrder ++ rhs.preOrder)
  | .unary op position operand => .ok (.unary op position operand) :: operand.preOrder
  | .constant position value => [.ok (.constant position value)]
  | .stray text => [.error (.notAnExpression text)]

def leftmostStray? : Expr → Option String
  | .binary _ _ lhs rhs => lhs.leftmostStray? <|> rhs.leftmostStray?
  | .unary _ _ operand => operand.leftmostStray?
  | .constant .. => none
  | .stray text => some text

theorem length_preOrder (e : Expr) : e.preOrder.length = e.size := by
  induction e with
  | binary _ _ _ _ ihl ihr => simp [preOrder, size, ihl, ihr]
  | unary _ _ _ ih => simp [preOrder, size, ih]
  | constant => rfl
  | stray => rfl

theorem leftmostStray?_eq_none_iff {e : Expr} : e.leftmostStray? = none ↔ e.NoStray := by
  induction e with
  | binary _ _ lhs rhs ihl ihr =>
    simp only [leftmostStray?, NoStray, ← ihl, ← ihr]
    cases lhs.leftmostStray? <;> simp
  | unary _ _ _ ih => exact ih
  | constant => simp [leftmostStray?, NoStray]
  | stray => simp [leftmostStray?, NoStray]

end Abacus.Expr

/-! # In-order -/

namespace Abacus

inductive Entry where
  | operator (symbol : String) (position : Int)
  | number (value : Nat) (position : Int)
  deriving DecidableEq, Repr

def Entry.position : Entry → Int
  | .operator _ position | .number _ position => position

def Expr.inOrder : Expr → List Entry
  | .binary op position lhs rhs => lhs.inOrder ++ .operator op.symbol position :: rhs.inOrder
  | .unary op position operand => .operator op.symbol position :: operand.inOrder
  | .constant position value => [.number value position]
  | .stray _ => []

def Token.Kind.operator? : Token.Kind → Option String
  | .plus => some "+"
  | .minus => some "-"
  | .star => some "*"
  | .solidus => some "/"
  | _ => none

def Token.entries : List Token → List Entry
  | [] => []
  | t :: ts =>
    if t.isDigit then
      .number (Grammar.numeral (t :: ts.takeWhile isDigit)) t.position ::
        entries (ts.dropWhile isDigit)
    else
      match t.kind.operator? with
      | some symbol => .operator symbol t.position :: entries ts
      | none => entries ts
termination_by ts => ts.length
decreasing_by
  all_goals simp only [List.length_cons]
  · have := (List.dropWhile_suffix (l := ts) Token.isDigit).length_le
    omega
  all_goals omega

end Abacus

/-! # Leaves -/

namespace Abacus.Expr

def leaves : Expr → List Expr
  | .binary _ _ lhs rhs => lhs.leaves ++ rhs.leaves
  | .unary _ _ operand => operand.leaves
  | .constant position value => [.constant position value]
  | .stray text => [.stray text]

/-- The nodes of a tree in post-order, each with how many leaves there are up to the last one
    below it, when `first` leaves stand before the tree. -/
def spans (first : Nat) : Expr → List (Expr × Nat)
  | .binary op position lhs rhs =>
    lhs.spans first ++ rhs.spans (first + lhs.leaves.length) ++
      [(.binary op position lhs rhs, first + (lhs.leaves.length + rhs.leaves.length))]
  | .unary op position operand =>
    operand.spans first ++ [(.unary op position operand, first + operand.leaves.length)]
  | .constant position value => [(.constant position value, first + 1)]
  | .stray text => [(.stray text, first + 1)]

def strayIndex (e : Expr) : Nat := (e.leaves.takeWhile fun leaf => decide leaf.NoStray).length

def leftOfStray (e : Expr) : List Expr :=
  ((e.spans 0).filter fun span => decide (span.2 ≤ e.strayIndex)).map Prod.fst

def height : Expr → Nat
  | .binary _ _ lhs rhs => max lhs.height rhs.height + 1
  | .unary _ _ operand => operand.height + 1
  | .constant .. | .stray _ => 1

/-- The levels met by going over a tree from left to right up to its leftmost text. -/
def reach : Expr → Nat
  | .binary _ _ lhs rhs => (if lhs.NoStray then max lhs.reach rhs.reach else lhs.reach) + 1
  | .unary _ _ operand => operand.reach + 1
  | .constant .. | .stray _ => 1

/-! # Outlines -/

/-- One column of a lead: whether the ancestor is followed by a sibling. -/
def column (followed : Bool) : String := if followed then "│   " else "    "

def mark (followed : Bool) : String := if followed then "├── " else "└── "

/-- What stands before the label of a node with a path. -/
def lead : List Bool → String
  | [] => ""
  | [followed] => mark followed
  | followed :: path => column followed ++ lead path

def outlineLine (path : List Bool) (label : String) (position : Int) : String :=
  lead path ++ label ++ " @" ++ toString position

def outline (path : List Bool) : Expr → List String
  | .binary op position lhs rhs =>
    outlineLine path op.symbol position ::
      (lhs.outline (path ++ [true]) ++ rhs.outline (path ++ [false]))
  | .unary op position operand =>
    outlineLine path op.symbol position :: operand.outline (path ++ [false])
  | .constant position value => [outlineLine path (toString value) position]
  | .stray _ => []

/-! # Minimal texts -/

open Grammar (Nonterminal)

def isAdditive : BinaryOp → Bool
  | .add | .subtract => true
  | .multiply | .divide => false

/-- Whether an operator can stand in a place without parentheses. -/
def fitsIn (op : BinaryOp) : Nonterminal → Bool
  | .expression => true
  | .term => !isAdditive op
  | .factor | .integer => false

def symbolsIn : Nonterminal → Expr → List String
  | place, .binary op _ lhs rhs =>
    let body :=
      if isAdditive op then symbolsIn .term lhs ++ op.symbol :: symbolsIn .expression rhs
      else symbolsIn .factor lhs ++ op.symbol :: symbolsIn .term rhs
    if fitsIn op place then body else "(" :: body ++ [")"]
  | _, .unary op _ operand => op.symbol :: symbolsIn .factor operand
  | _, .constant _ value => [toString value]
  | _, .stray text => [text]

def symbols (e : Expr) : List String := symbolsIn .expression e

def minimalText (e : Expr) : String := String.join e.symbols

end Abacus.Expr
