/-
  Abacus.Workbench — building trees on a stack and asking about the one on top.

  Building commands push a tree, or put trees from the top together into one, and answer
  how many trees lie on the stack. Questions leave the stack as it is. One walk can be under
  way; it keeps to its tree whatever happens to the stack.

  A command that fails changes nothing, except that a walk which meets a text in place of an
  operand goes on behind it. A command that finds too few trees fails with
  `Fault.stackTooShort`. Texts are parsed, and trees written in one line, under a limit on
  active calls.
-/

import Abacus.Evaluation
import Abacus.Expr.Traversal
import Abacus.Parse.Partial

namespace Abacus

namespace Workbench

/-- The side on which a growing tree lies under each new operator. -/
inductive Side where
  | lhs
  | rhs
  deriving DecidableEq, Repr

inductive Command where
  | constant (position value : Int)
  | stray (text : String)
  | parse (text : String)
  | negate (position : Int)
  | combine (op : BinaryOp) (position : Int)
  /-- Negate the top so many times, one position further each time. -/
  | negateTimes (count : Nat) (position : Int)
  /-- Combine the top with the number 1 so many times, two positions further each time. -/
  | combineTimes (op : BinaryOp) (side : Side) (count : Nat) (position : Int)
  | duplicate
  | swap
  | drop
  | child (index : Nat)
  | assign (field : String)
  | delete (field : String)
  | startWalk
  | next
  | rest
  | value (tracing : Bool)
  | graph
  | statement
  | drawing
  | prefixText
  | describe
  | label
  | children
  | count
  | equal
  | distinct
  deriving Repr

inductive Reply where
  /-- How many trees lie on the stack. -/
  | depth (n : Nat)
  | value (x : Binary64)
  | text (s : String)
  | node (e : Expr)
  | nodes (es : List Expr)
  | number (n : Nat)
  | verdict (b : Bool)
  deriving DecidableEq

inductive Fault where
  | tree (f : Expr.Fault)
  | parse (f : Parse.Failure)
  | evaluation (f : Evaluation.Fault)
  | walkFinished
  | stackTooShort
  deriving DecidableEq, Repr

def Fault.message : Fault → String
  | .tree f => f.message
  | .parse f => f.message
  | .evaluation f => f.message
  | .walkFinished => ""
  | .stackTooShort => "too few trees on the stack"

/-- A tree under so many negations, the innermost at the given position. -/
def negated (position : Int) : Nat → Expr → Expr
  | 0, e => e
  | n + 1, e => negated (position + 1) n (.unary .negate position e)

/-- A tree combined so many times with the number 1, which lies on the other side. -/
def combined (op : BinaryOp) (side : Side) (position : Int) : Nat → Expr → Expr
  | 0, e => e
  | n + 1, e =>
    let one := .constant (position + 1) 1
    combined op side (position + 2) n <|
      match side with
      | .lhs => .binary op position e one
      | .rhs => .binary op position one e

end Workbench

structure Workbench where
  /-- The trees, the top first. -/
  stack : List Expr
  walk : Walk

namespace Workbench

def empty : Workbench := ⟨[], ⟨[]⟩⟩

def build (w : Workbench) (stack : List Expr) : Except Fault Reply × Workbench :=
  (.ok (.depth stack.length), { w with stack })

def ask (w : Workbench) (answer : Except Fault Reply) : Except Fault Reply × Workbench :=
  (answer, w)

def askTree (w : Workbench) {α : Type} (answer : Except Expr.Fault α) (reply : α → Reply) :
    Except Fault Reply × Workbench :=
  w.ask ((answer.mapError .tree).map reply)

def answer (limit : Limit) (w : Workbench) (command : Command) :
    List String × Except Fault Reply × Workbench :=
  match command, w.stack with
  | .constant position value, es =>
    match Expr.constant? position value with
    | .ok e => ([], w.build (e :: es))
    | .error f => ([], w.ask (.error (.tree f)))
  | .stray text, es => ([], w.build (.stray text :: es))
  | .parse text, es =>
    match Expr.ofText limit text with
    | .ok e => ([], w.build (e :: es))
    | .error f => ([], w.ask (.error (.parse f)))
  | .negate position, e :: es => ([], w.build (.unary .negate position e :: es))
  | .combine op position, rhs :: lhs :: es => ([], w.build (.binary op position lhs rhs :: es))
  | .negateTimes count position, e :: es => ([], w.build (negated position count e :: es))
  | .combineTimes op side count position, e :: es =>
    ([], w.build (combined op side position count e :: es))
  | .duplicate, e :: es => ([], w.build (e :: e :: es))
  | .swap, e :: e' :: es => ([], w.build (e' :: e :: es))
  | .drop, _ :: es => ([], w.build es)
  | .child index, e :: es =>
    match e.children with
    | .ok kids =>
      match kids[index]? with
      | some kid => ([], w.build (kid :: e :: es))
      | none => ([], w.ask (.error .stackTooShort))
    | .error f => ([], w.ask (.error (.tree f)))
  | .assign field, e :: _ => ([], w.askTree (e.assign field) .node)
  | .delete field, e :: _ => ([], w.askTree (e.delete field) .node)
  | .startWalk, e :: es => ([], { w with walk := .ofRoot e }.build (e :: es))
  | .next, _ =>
    match w.walk.next? with
    | none => ([], w.ask (.error .walkFinished))
    | some (r, walk) => ([], { w with walk }.askTree r .node)
  | .rest, _ =>
    let (r, walk) := w.walk.rest
    ([], { w with walk }.askTree r .nodes)
  | .value tracing, e :: _ =>
    let work := e.evaluate tracing
    (work.printed, w.ask ((work.outcome.mapError .evaluation).map .value))
  | .graph, e :: _ => ([], w.askTree e.graph .text)
  | .statement, e :: _ => ([], w.askTree e.statement .text)
  | .drawing, e :: _ => ([], w.askTree e.drawing .text)
  | .prefixText, e :: _ => ([], w.askTree (e.prefixText limit) .text)
  | .describe, e :: _ => ([], w.askTree (e.describe limit) .text)
  | .label, e :: _ => ([], w.askTree e.label .text)
  | .children, e :: _ => ([], w.askTree e.children .nodes)
  | .count, e :: _ => ([], w.askTree e.count .number)
  | .equal, e :: e' :: _ => ([], w.ask (.ok (.verdict (e == e'))))
  | .distinct, es => ([], w.ask (.ok (.number es.eraseDups.length)))
  | _, _ => ([], w.ask (.error .stackTooShort))

def answers (limit : Limit) (w : Workbench) : List Command → List (List String × Except Fault Reply)
  | [] => []
  | command :: commands =>
    let (lines, reply, w') := w.answer limit command
    (lines, reply) :: w'.answers limit commands

end Workbench

end Abacus
