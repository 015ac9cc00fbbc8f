/-
  Abacus.Proofs.Evaluation.Structural — the stacks give a tree the value that recursion on the
  tree gives it, and note its nodes in post-order.

  - `run_visit`: to visit a tree is to evaluate it by recursion and to go on with its value on
    top of the results, whatever lies on the stacks below, and also where the tree or the
    arithmetic is at fault; so `ofExpr_eq_recursive`.
  - `recursive_of_operations`: where no operator is refused, recursion gives every node the
    value made of those of its operands, and notes it behind them.
  - `run_eq_postOrder`: so a whole evaluation ends with one result, the value of the tree, and
    has noted each node once, in post-order.
  - `Expr.value_eq_ok`: binary64 numbers refuse no operator, so every tree whose numbers fit
    has a value.
-/

import Abacus.Evaluation
import Abacus.Proofs.Binary64.Bits

namespace Abacus

namespace Evaluation

variable {α β γ δ : Type}

/-! ## Work in sequence -/

namespace Run

theorem note_andThen (event : Event α) (r : Run α β) (next : β → Run α γ) :
    (r.note event).andThen next = (r.andThen next).note event := by
  unfold andThen note
  cases r.outcome <;> rfl

theorem fail_andThen (f : Fault) (next : β → Run α γ) : (fail f).andThen next = fail f := rfl

theorem andThen_assoc (r : Run α β) (f : β → Run α γ) (g : γ → Run α δ) :
    (r.andThen f).andThen g = r.andThen fun b => (f b).andThen g := by
  obtain ⟨trace, outcome⟩ := r
  cases outcome with
  | error f => rfl
  | ok b =>
    simp only [andThen]
    cases (f b).outcome with
    | error f => rfl
    | ok c => simp only [List.append_assoc]

end Run

/-! ## Tasks as recursion -/

variable (A : Arithmetic α) (tasks : List Task) (results : List α)

theorem run_visit_constant (position : Int) (value : Nat) :
    run A (.visit (.constant position value) :: tasks) results =
      (recursive A (.constant position value)).andThen fun x => run A tasks (x :: results) := by
  rw [run, recursive, Run.note_andThen]
  cases A.constant value <;> rfl

theorem run_transform (op : UnaryOp) (position : Int) (x : α) :
    run A (.transform op position :: tasks) (x :: results) =
      (finish (.unary op position) (A.unary op x)).andThen fun y => run A tasks (y :: results) := by
  rw [run]
  cases A.unary op x <;> rfl

theorem run_combine (op : BinaryOp) (position : Int) (x y : α) :
    run A (.combine op position :: tasks) (y :: x :: results) =
      (finish (.binary x op y position) (A.binary op x y)).andThen fun z =>
        run A tasks (z :: results) := by
  rw [run]
  cases A.binary op x y <;> rfl

theorem run_visit (e : Expr) : run A (.visit e :: tasks) results =
    (recursive A e).andThen fun x => run A tasks (x :: results) := by
  induction e generalizing tasks results with
  | binary op position lhs rhs ihl ihr =>
    rw [run, ihl, recursive, Run.andThen_assoc]
    refine congrArg _ (funext fun x => ?_)
    rw [ihr, Run.andThen_assoc]
    exact congrArg _ (funext fun y => run_combine A tasks results op position x y)
  | unary op position operand ih =>
    rw [run, ih, recursive, Run.andThen_assoc]
    exact congrArg _ (funext fun x => run_transform A tasks results op position x)
  | constant position value => exact run_visit_constant A tasks results position value
  | stray text => rw [run, recursive, Run.fail_andThen]

theorem ofExpr_eq_recursive (e : Expr) : ofExpr A e = recursive A e := by
  have h : run A [.visit e] [] = (recursive A e).andThen fun x => ⟨[], .ok [x]⟩ := by
    rw [run_visit]
    exact congrArg _ (funext fun x => by rw [run])
  unfold ofExpr
  rw [h]
  obtain ⟨trace, outcome⟩ := recursive A e
  cases outcome with
  | error f => rfl
  | ok x => simp only [Run.andThen, List.append_nil]

/-! ## Positions -/

theorem outcome_finish (event event' : α → Event α) (outcome : Except Operator.Fault α) :
    (finish event outcome).outcome = (finish event' outcome).outcome := by
  cases outcome <;> rfl

/-- How work in sequence ends does not depend on what is noted. -/
theorem Run.outcome_andThen {r r' : Run α β} {next next' : β → Run α γ} (hr : r.outcome = r'.outcome)
    (hn : ∀ b, (next b).outcome = (next' b).outcome) :
    (r.andThen next).outcome = (r'.andThen next').outcome := by
  unfold andThen
  rw [hr]
  cases r'.outcome with
  | error f => rfl
  | ok b => exact hn b

theorem outcome_recursive_mapPositions (f : Int → Int) (e : Expr) :
    (recursive A (e.mapPositions f)).outcome = (recursive A e).outcome := by
  induction e with
  | binary op position lhs rhs ihl ihr =>
    refine Run.outcome_andThen ihl fun x => Run.outcome_andThen ihr fun y => ?_
    exact outcome_finish _ _ _
  | unary op position operand ih => exact Run.outcome_andThen ih fun x => outcome_finish _ _ _
  | constant position value => rfl
  | stray text => rfl

end Evaluation

/-- No position is read to evaluate a tree. -/
theorem Expr.value_mapPositions (f : Int → Int) (e : Expr) : (e.mapPositions f).value = e.value := by
  unfold Expr.value evaluate Evaluation.transcript
  rw [Evaluation.ofExpr_eq_recursive, Evaluation.ofExpr_eq_recursive]
  exact Evaluation.outcome_recursive_mapPositions Binary64.arithmetic f e

/-! ## Operators that refuse nothing -/

def Expr.postOrder : Expr → List Expr
  | .binary op position lhs rhs => lhs.postOrder ++ rhs.postOrder ++ [.binary op position lhs rhs]
  | .unary op position operand => operand.postOrder ++ [.unary op position operand]
  | .constant position value => [.constant position value]
  | .stray text => [.stray text]

theorem Expr.length_postOrder (e : Expr) : e.postOrder.length = e.size := by
  induction e with
  | binary _ _ _ _ ihl ihr => simp [postOrder, size, ihl, ihr, Nat.add_assoc]
  | unary _ _ _ ih => simp [postOrder, size, ih]
  | constant => rfl
  | stray => rfl

structure Operations where
  binary : BinaryOp → Binary64 → Binary64 → Binary64
  unary : UnaryOp → Binary64 → Binary64

namespace Operations

open Evaluation (Event Run)

def arithmetic (o : Operations) : Arithmetic Binary64 where
  constant := Binary64.ofNat?
  binary op x y := .ok (o.binary op x y)
  unary op x := .ok (o.unary op x)

theorem arithmetic_constant {o : Operations} {n : Nat} (h : n ≤ Expr.largest) :
    o.arithmetic.constant n = .ok (Binary64.ofNat n) := by
  dsimp only [arithmetic]
  exact Binary64.ofNat?_eq_ok h

/-- The value of a tree. A text in place of an operand has none, and counts as NaN. -/
def value (o : Operations) : Expr → Binary64
  | .binary op _ lhs rhs => o.binary op (o.value lhs) (o.value rhs)
  | .unary op _ operand => o.unary op (o.value operand)
  | .constant _ value => .ofNat value
  | .stray _ => .nan

/-- What is noted of a node: its value, and those of its operands if it has two. -/
def event (o : Operations) : Expr → Event Binary64
  | .binary op position lhs rhs =>
    .binary (o.value lhs) op (o.value rhs) position (o.value (.binary op position lhs rhs))
  | .unary op position operand => .unary op position (o.value (.unary op position operand))
  | .constant position value => .constant value position
  | .stray _ => .constant 0 0

theorem recursive_of_operations (o : Operations) {e : Expr} (hs : e.NoStray) (hf : e.Fits) :
    Evaluation.recursive o.arithmetic e = ⟨e.postOrder.map o.event, .ok (o.value e)⟩ := by
  induction e with
  | binary op position lhs rhs ihl ihr =>
    rw [Evaluation.recursive, ihl hs.1 hf.1, ihr hs.2 hf.2]
    simp [Run.andThen, Evaluation.finish, Run.note, arithmetic, Expr.postOrder, event, value]
  | unary op position operand ih =>
    rw [Evaluation.recursive, ih hs hf]
    simp [Run.andThen, Evaluation.finish, Run.note, arithmetic, Expr.postOrder, event, value]
  | constant position value =>
    rw [Evaluation.recursive, arithmetic_constant hf]
    rfl
  | stray text => exact absurd hs id

def ieee : Operations where
  binary
    | .add => Binary64.add
    | .subtract => Binary64.sub
    | .multiply => Binary64.mul
    | .divide => Binary64.div
  unary
    | .negate => Binary64.neg

/-- Binary64 numbers refuse no operator. -/
theorem arithmetic_ieee : ieee.arithmetic = Binary64.arithmetic := by
  unfold arithmetic Binary64.arithmetic
  congr 1
  funext op x y
  cases op with
  | divide => exact (Binary64.divide_eq_ok x y).symm
  | add | subtract | multiply => rfl

end Operations

namespace Evaluation

theorem run_eq_postOrder (o : Operations) {e : Expr} (hs : e.NoStray) (hf : e.Fits) :
    run o.arithmetic [.visit e] [] = ⟨e.postOrder.map o.event, .ok [o.value e]⟩ ∧
    (∀ write tracing, (transcript o.arithmetic write tracing e).outcome = .ok (o.value e)) ∧
    (∀ write, (transcript o.arithmetic write true e).printed =
      e.postOrder.map fun node => (o.event node).line write) ∧
    (∀ write, (transcript o.arithmetic write true e).printed.length = e.size) ∧
    ∀ write, (transcript o.arithmetic write false e).printed = [] := by
  have hr := o.recursive_of_operations hs hf
  have hlines : ∀ write, (transcript o.arithmetic write true e).printed =
      e.postOrder.map fun node => (o.event node).line write := by
    intro write
    simp [transcript, ofExpr_eq_recursive, hr]
  refine ⟨?_, ?_, hlines, ?_, fun _ => rfl⟩
  · rw [run_visit, hr]
    simp [Run.andThen, run]
  · intro write tracing
    simp [transcript, ofExpr_eq_recursive, hr]
  · intro write
    rw [hlines, List.length_map, Expr.length_postOrder]

/-- The lines of `-4 - 9`: each number, then what is made of it. -/
theorem postOrder_of_negated_difference :
    (Expr.NoStray (.binary .subtract 1 (.unary .negate 0 (.constant 5 4)) (.constant 2 9)) ∧
      Expr.Fits (.binary .subtract 1 (.unary .negate 0 (.constant 5 4)) (.constant 2 9))) ∧
    (transcript Operations.ieee.arithmetic Binary64.text true
      (.binary .subtract 1 (.unary .negate 0 (.constant 5 4)) (.constant 2 9))).printed =
        ["[EVAL] constant 4 @ 5", "[EVAL] - @ 0 -> -4.0", "[EVAL] constant 9 @ 2",
          "[EVAL] -4.0 - 9.0 @ 1 -> -13.0"] := by
  refine ⟨by decide, ?_⟩
  rw [(run_eq_postOrder .ieee (by decide) (by decide)).2.2.1]
  decide +kernel

end Evaluation

/-- A tree whose numbers fit has a value in binary64 numbers. -/
theorem Expr.value_eq_ok {e : Expr} (hs : e.NoStray) (hf : e.Fits) :
    e.value = .ok (Operations.ieee.value e) := by
  unfold Expr.value evaluate Evaluation.transcript
  rw [← Operations.arithmetic_ieee, Evaluation.ofExpr_eq_recursive,
    Operations.recursive_of_operations _ hs hf]

end Abacus
