/-
  Abacus.Evaluation — the value of a tree.

  Evaluation keeps a stack of tasks and a stack of results, so the depth of a tree costs no
  depth of calls. A tree is visited by scheduling its operands and then its operator; the
  left operand is finished before the right one begins. Each node is noted when its value is
  known, so the notes come in post-order. `recursive` is the same by recursion on the tree:
  where an operand has no value nothing behind it is evaluated, and the notes up to there are
  kept.

  The arithmetic is a parameter: the order of the work does not depend on the numbers.
-/

import Abacus.Binary64.Text
import Abacus.Operator
import Abacus.Text.Lines

namespace Abacus

namespace Evaluation

inductive Fault where
  | tree (f : Expr.Fault)
  | operator (f : Operator.Fault)
  /-- An operator finds too few results. -/
  | missingOperand
  deriving DecidableEq, Repr

def Fault.message : Fault → String
  | .tree f => f.message
  | .operator f => f.message
  | .missingOperand => "too few results"

inductive Event (α : Type) where
  | constant (value : Nat) (position : Int)
  | unary (op : UnaryOp) (position : Int) (result : α)
  | binary (lhs : α) (op : BinaryOp) (rhs : α) (position : Int) (result : α)
  deriving DecidableEq, Repr

def Event.line {α : Type} (write : α → String) : Event α → String
  | .constant value position => s!"[EVAL] constant {value} @ {position}"
  | .unary op position result => s!"[EVAL] {op.symbol} @ {position} -> {write result}"
  | .binary lhs op rhs position result =>
    s!"[EVAL] {write lhs} {op.symbol} {write rhs} @ {position} -> {write result}"

inductive Task where
  | visit (e : Expr)
  /-- Apply an operator to the two results on top, the right operand first. -/
  | combine (op : BinaryOp) (position : Int)
  /-- Apply an operator to the result on top. -/
  | transform (op : UnaryOp) (position : Int)
  deriving DecidableEq, Repr

/-- An upper bound for the tasks that a task gives rise to, itself included. -/
def Task.weight : Task → Nat
  | .visit e => 2 * e.size
  | .combine .. | .transform .. => 1

def Task.totalWeight : List Task → Nat
  | [] => 0
  | task :: tasks => task.weight + totalWeight tasks

structure Run (α β : Type) where
  trace : List (Event α)
  outcome : Except Fault β

namespace Run

variable {α β : Type}

def fail (f : Fault) : Run α β := ⟨[], .error f⟩

def note (event : Event α) (r : Run α β) : Run α β := { r with trace := event :: r.trace }

end Run

variable {α : Type}

/-- Work off the tasks; what is left is the stack of results. -/
def run (A : Arithmetic α) : List Task → List α → Run α (List α)
  | [], results => ⟨[], .ok results⟩
  | .visit (.constant position value) :: tasks, results =>
    .note (.constant value position) <|
      match A.constant value with
      | .ok x => run A tasks (x :: results)
      | .error f => .fail (.operator f)
  | .visit (.unary op position operand) :: tasks, results =>
    run A (.visit operand :: .transform op position :: tasks) results
  | .visit (.binary op position lhs rhs) :: tasks, results =>
    run A (.visit lhs :: .visit rhs :: .combine op position :: tasks) results
  | .visit (.stray text) :: _, _ => .fail (.tree (.notAnExpression text))
  | .transform op position :: tasks, x :: results =>
    match A.unary op x with
    | .ok y => .note (.unary op position y) (run A tasks (y :: results))
    | .error f => .fail (.operator f)
  | .combine op position :: tasks, y :: x :: results =>
    match A.binary op x y with
    | .ok z => .note (.binary x op y position z) (run A tasks (z :: results))
    | .error f => .fail (.operator f)
  | .transform .. :: _, [] | .combine .. :: _, [] | .combine .. :: _, [_] => .fail .missingOperand
termination_by tasks => Task.totalWeight tasks
decreasing_by
  all_goals simp only [Task.totalWeight, Task.weight, Expr.size]; omega

def ofExpr (A : Arithmetic α) (e : Expr) : Run α α :=
  let r := run A [.visit e] []
  ⟨r.trace,
    match r.outcome with
    | .ok (x :: _) => .ok x
    | .ok [] => .error .missingOperand
    | .error f => .error f⟩

/-- What evaluating a tree prints and gives, with a line for each node when tracing. -/
def transcript (A : Arithmetic α) (write : α → String) (tracing : Bool) (e : Expr) :
    Transcript Fault α :=
  let r := ofExpr A e
  ⟨if tracing then r.trace.map (Event.line write) else [], r.outcome⟩

end Evaluation

namespace Expr

def evaluate (tracing : Bool) (e : Expr) : Transcript Evaluation.Fault Binary64 :=
  Evaluation.transcript Binary64.arithmetic Binary64.text tracing e

def value (e : Expr) : Except Evaluation.Fault Binary64 := (e.evaluate false).outcome

end Expr

end Abacus

/-! # By recursion on the tree -/

namespace Abacus.Evaluation

variable {α β γ : Type}

def Run.andThen (r : Run α β) (next : β → Run α γ) : Run α γ :=
  match r.outcome with
  | .ok b => ⟨r.trace ++ (next b).trace, (next b).outcome⟩
  | .error f => ⟨r.trace, .error f⟩

def finish (event : α → Event α) (outcome : Except Operator.Fault α) : Run α α :=
  match outcome with
  | .ok x => .note (event x) ⟨[], .ok x⟩
  | .error f => .fail (.operator f)

def recursive (A : Arithmetic α) : Expr → Run α α
  | .constant position value =>
    .note (.constant value position) ⟨[], (A.constant value).mapError .operator⟩
  | .unary op position operand =>
    (recursive A operand).andThen fun x => finish (.unary op position) (A.unary op x)
  | .binary op position lhs rhs =>
    (recursive A lhs).andThen fun x =>
      (recursive A rhs).andThen fun y =>
        finish (.binary x op y position) (A.binary op x y)
  | .stray text => .fail (.tree (.notAnExpression text))

end Abacus.Evaluation
