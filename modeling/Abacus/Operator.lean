/-
  Abacus.Operator — the operators applied to numbers.

  Binary operators and unary ones are looked up in tables of their own; what is not in the
  table asked is refused. `Operator.bare` is a text that is no operator at all, so no table
  holds it.

  Division is IEEE division for every pair of numbers. The plain quotient (`quotient`) does
  not exist for a divisor that is zero; there the result of IEEE division, which is never
  finite, is taken instead (`divide`).
-/

import Abacus.Binary64
import Abacus.Expr

namespace Abacus

inductive Operator where
  | binary (op : BinaryOp)
  | unary (op : UnaryOp)
  | bare (text : String)
  deriving DecidableEq, Repr

def BinaryOp.name : BinaryOp → String
  | .add => "ADD"
  | .subtract => "SUBTRACT"
  | .multiply => "MULTIPLY"
  | .divide => "DIVIDE"

def UnaryOp.name : UnaryOp → String
  | .negate => "NEGATE"

namespace Operator

def name : Operator → String
  | .binary op => "BinOp." ++ op.name
  | .unary op => "UnOp." ++ op.name
  | .bare text => text

/-- The operator of a name; any other text is bare. -/
def ofName (text : String) : Operator :=
  let known : List Operator :=
    [.binary .add, .binary .subtract, .binary .multiply, .binary .divide, .unary .negate]
  (known.find? (·.name == text)).getD (.bare text)

inductive Fault where
  | unknownBinary (op : Operator)
  | unknownUnary (op : Operator)
  /-- A quotient was asked for and the divisor is zero. -/
  | divisionByZero
  /-- A natural number lies above all finite numbers. -/
  | overflow
  /-- A number was expected to be infinite or NaN. -/
  | notSpecial
  deriving DecidableEq, Repr

def Fault.message : Fault → String
  | .unknownBinary op => s!"Unknown binary op: {op.name}"
  | .unknownUnary op => s!"Unknown unary op: {op.name}"
  | .divisionByZero => "division by zero"
  | .overflow => "number too large"
  | .notSpecial => "number is finite"

end Operator

/-- How the leaves and the operators of a tree get values of a type. -/
structure Arithmetic (α : Type) where
  constant : Nat → Except Operator.Fault α
  binary : BinaryOp → α → α → Except Operator.Fault α
  unary : UnaryOp → α → Except Operator.Fault α

namespace Binary64

def special? (x : Binary64) : Except Operator.Fault Binary64 :=
  match x with
  | .nan | .infinity _ => .ok x
  | .finite .. => .error .notSpecial

def quotient (lhs rhs : Binary64) : Except Operator.Fault Binary64 :=
  if rhs.isZero then .error .divisionByZero else .ok (lhs.div rhs)

/-- The quotient, with the results of IEEE division for a divisor that is zero. -/
def divide (lhs rhs : Binary64) : Except Operator.Fault Binary64 :=
  if rhs.isZero then (lhs.div rhs).special? else lhs.quotient rhs

def ofNat? (n : Nat) : Except Operator.Fault Binary64 :=
  if (ofNat n).isInfinite then .error .overflow else .ok (ofNat n)

def applyBinary (op : Operator) (lhs rhs : Binary64) : Except Operator.Fault Binary64 :=
  match op with
  | .binary .add => .ok (lhs.add rhs)
  | .binary .subtract => .ok (lhs.sub rhs)
  | .binary .multiply => .ok (lhs.mul rhs)
  | .binary .divide => lhs.divide rhs
  | op => .error (.unknownBinary op)

def applyUnary (op : Operator) (x : Binary64) : Except Operator.Fault Binary64 :=
  match op with
  | .unary .negate => .ok x.neg
  | op => .error (.unknownUnary op)

def arithmetic : Arithmetic Binary64 where
  constant := ofNat?
  binary op := applyBinary (.binary op)
  unary op := applyUnary (.unary op)

end Binary64

end Abacus
