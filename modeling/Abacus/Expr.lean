/-
  Abacus.Expr — expression trees.

  A tree is a number, the negation of a tree, or a binary operator over two trees. Every
  node carries a position: that of the operator's character, or of the number's first
  digit. Parentheses leave no node.

  A tree put together by hand may hold a text where an operand belongs (`Expr.stray`).
  Such a text is no expression node: what has to look at one refuses it with
  `Fault.notAnExpression`. `Expr.NoStray` says that a tree holds none, and
  `Expr.Fits` that its numbers fit in 64 bits, as all numbers made by `Expr.constant?` do
  (`constant?_eq_ok_iff`).

  In one line a tree is written in two ways. `Expr.prefixText` puts the operator before its
  operands, with parentheses around every operator and no positions. `Expr.describe` writes
  the kind and the position of every node too, and a text in place of an operand between
  quotes. Both call themselves once for each level of the tree, so a `Limit` on the calls that
  are active at once limits the trees that can be written; `none` sets no limit.
-/

import Abacus.Text.Quoted

namespace Abacus

/-- How many calls may be active at once. -/
abbrev Limit := Option Nat

inductive BinaryOp where
  | add
  | subtract
  | multiply
  | divide
  deriving DecidableEq, Repr

inductive UnaryOp where
  | negate
  deriving DecidableEq, Repr

def BinaryOp.symbol : BinaryOp → String
  | .add => "+"
  | .subtract => "-"
  | .multiply => "*"
  | .divide => "/"

def UnaryOp.symbol : UnaryOp → String
  | .negate => "-"

inductive Expr where
  | binary (op : BinaryOp) (position : Int) (lhs rhs : Expr)
  | unary (op : UnaryOp) (position : Int) (operand : Expr)
  | constant (position : Int) (value : Nat)
  /-- A text where an operand belongs. -/
  | stray (text : String)
  deriving DecidableEq, Repr, Inhabited

namespace Expr

inductive Fault where
  /-- A text stands where a node is needed. -/
  | notAnExpression (text : String)
  /-- The position of a text is needed. -/
  | noPosition
  /-- A number that does not fit in 64 bits. -/
  | outOfRange (value : Int)
  /-- Nodes never change: assigning to a field. -/
  | cannotAssign (field : String)
  /-- Nodes never change: deleting a field. -/
  | cannotDelete (field : String)
  /-- The tree has more levels than a limit on calls allows. -/
  | tooDeep
  deriving DecidableEq, Repr

def Fault.message : Fault → String
  | .notAnExpression text => s!"Not an expression node: {Text.quoted text}"
  | .noPosition => "'str' object has no attribute 'position'"
  | .outOfRange value => s!"Constant out of unsigned 64-bit range: {value}"
  | .cannotAssign field => s!"cannot assign to field {Text.quoted field}"
  | .cannotDelete field => s!"cannot delete field {Text.quoted field}"
  | .tooDeep => "maximum recursion depth exceeded"

def largest : Nat := 18446744073709551615

def constant? (position : Int) (value : Int) : Except Fault Expr :=
  if 0 ≤ value ∧ value ≤ largest then .ok (.constant position value.toNat)
  else .error (.outOfRange value)

def Fits : Expr → Prop
  | .binary _ _ lhs rhs => lhs.Fits ∧ rhs.Fits
  | .unary _ _ operand => operand.Fits
  | .constant _ value => value ≤ largest
  | .stray _ => True

def NoStray : Expr → Prop
  | .binary _ _ lhs rhs => lhs.NoStray ∧ rhs.NoStray
  | .unary _ _ operand => operand.NoStray
  | .constant .. => True
  | .stray _ => False

instance decidableFits : (e : Expr) → Decidable e.Fits
  | .binary _ _ lhs rhs => @instDecidableAnd _ _ (decidableFits lhs) (decidableFits rhs)
  | .unary _ _ operand => decidableFits operand
  | .constant _ value => inferInstanceAs (Decidable (value ≤ largest))
  | .stray _ => isTrue trivial

instance decidableNoStray : (e : Expr) → Decidable e.NoStray
  | .binary _ _ lhs rhs => @instDecidableAnd _ _ (decidableNoStray lhs) (decidableNoStray rhs)
  | .unary _ _ operand => decidableNoStray operand
  | .constant .. => isTrue trivial
  | .stray _ => isFalse id

theorem constant?_eq_ok_iff {position value : Int} {e : Expr} :
    constant? position value = .ok e ↔
      ∃ n : Nat, n ≤ largest ∧ value = n ∧ e = .constant position n := by
  unfold constant?
  split
  · rename_i h
    simp only [Except.ok.injEq]
    constructor
    · rintro rfl
      exact ⟨value.toNat, by omega, by omega, rfl⟩
    · rintro ⟨n, _, rfl, rfl⟩
      rfl
  · rename_i h
    simp only [reduceCtorEq, false_iff, not_exists, not_and]
    intro n hn rfl
    omega

def children : Expr → Except Fault (List Expr)
  | .binary _ _ lhs rhs => .ok [lhs, rhs]
  | .unary _ _ operand => .ok [operand]
  | .constant .. => .ok []
  | .stray text => .error (.notAnExpression text)

def label : Expr → Except Fault String
  | .binary op .. => .ok op.symbol
  | .unary op .. => .ok op.symbol
  | .constant _ value => .ok (toString value)
  | .stray text => .error (.notAnExpression text)

def position : Expr → Except Fault Int
  | .binary _ position _ _ | .unary _ position _ | .constant position _ => .ok position
  | .stray _ => .error .noPosition

/-- The nodes of a tree, texts in place of operands included. -/
def size : Expr → Nat
  | .binary _ _ lhs rhs => lhs.size + rhs.size + 1
  | .unary _ _ operand => operand.size + 1
  | .constant .. | .stray _ => 1

def mapPositions (f : Int → Int) : Expr → Expr
  | .binary op position lhs rhs => .binary op (f position) (lhs.mapPositions f) (rhs.mapPositions f)
  | .unary op position operand => .unary op (f position) (operand.mapPositions f)
  | .constant position value => .constant (f position) value
  | .stray text => .stray text

def assign (_node : Expr) (field : String) : Except Fault Expr := .error (.cannotAssign field)

def delete (_node : Expr) (field : String) : Except Fault Expr := .error (.cannotDelete field)

theorem size_pos (e : Expr) : 0 < e.size := by cases e <;> simp [size]

def totalSize : List Expr → Nat
  | [] => 0
  | e :: es => e.size + totalSize es

theorem totalSize_append (es fs : List Expr) : totalSize (es ++ fs) = totalSize es + totalSize fs := by
  induction es with
  | nil => simp [totalSize]
  | cons e es ih => simp only [List.cons_append, totalSize, ih, Nat.add_assoc]

/-- The operands of a node have fewer nodes than the tree below it. -/
theorem totalSize_children {e : Expr} {es : List Expr} (h : e.children = .ok es) :
    totalSize es < e.size := by
  cases e with
  | binary _ _ lhs rhs =>
    simp only [children, Except.ok.injEq] at h
    subst h
    simp only [totalSize, size]
    omega
  | unary _ _ operand =>
    simp only [children, Except.ok.injEq] at h
    subst h
    simp only [totalSize, size]
    omega
  | constant =>
    simp only [children, Except.ok.injEq] at h
    subst h
    exact Nat.one_pos
  | stray => simp [children] at h

end Expr

/-! ## In one line -/

/-- What a call made under a limit leaves for the calls that it makes. -/
def Limit.deeper : Limit → Except Expr.Fault Limit
  | none => .ok none
  | some 0 => .error .tooDeep
  | some (calls + 1) => .ok (some calls)

def Limit.Allows (limit : Limit) (calls : Nat) : Prop := ∀ most ∈ limit, calls ≤ most

@[simp] theorem Limit.allows_some {most calls : Nat} :
    Limit.Allows (some most) calls ↔ calls ≤ most := by
  simp [Limit.Allows]

theorem Limit.Allows.mono {limit : Limit} {calls fewer : Nat} (h : limit.Allows calls)
    (hle : fewer ≤ calls) : limit.Allows fewer :=
  fun most hm => Nat.le_trans hle (h most hm)

theorem Limit.exists_of_not_allows {limit : Limit} {calls : Nat} (h : ¬ limit.Allows calls) :
    ∃ most, limit = some most ∧ most < calls := by
  cases limit with
  | none => exact absurd nofun h
  | some most => exact ⟨most, rfl, Nat.lt_of_not_le fun hle => h (Limit.allows_some.mpr hle)⟩

namespace Expr

def prefixText (limit : Limit) : Expr → Except Fault String
  | .binary op _ lhs rhs => do
    let rest ← limit.deeper
    let l ← lhs.prefixText rest
    let r ← rhs.prefixText rest
    return "(" ++ op.symbol ++ " " ++ l ++ " " ++ r ++ ")"
  | .unary _ _ operand => do
    let rest ← limit.deeper
    let x ← operand.prefixText rest
    return "(neg " ++ x ++ ")"
  | .constant _ value => do
    let _ ← limit.deeper
    return toString value
  | .stray text => do
    let _ ← limit.deeper
    .error (.notAnExpression text)

/-- The tree with the kind and the position of every node. A text is quoted without a call. -/
def describe (limit : Limit) : Expr → Except Fault String
  | .binary op position lhs rhs => do
    let rest ← limit.deeper
    let l ← lhs.describe rest
    let r ← rhs.describe rest
    return "BinaryOp(" ++ op.symbol ++ "@" ++ toString position ++ ", " ++ l ++ ", " ++ r ++ ")"
  | .unary op position operand => do
    let rest ← limit.deeper
    let x ← operand.describe rest
    return "UnaryOp(" ++ op.symbol ++ "@" ++ toString position ++ ", " ++ x ++ ")"
  | .constant position value => do
    let _ ← limit.deeper
    return "Constant(" ++ toString value ++ "@" ++ toString position ++ ")"
  | .stray text => .ok (Text.quoted text)

end Expr

end Abacus
