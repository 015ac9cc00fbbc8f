/-
  Abacus.Parse.Production — the nonterminals of the grammar, run on tokens.

  A run is the steps it took, how deep it went, and how it ended. Runs compose: the steps of
  the first come before those of the second, the depth of both together is the larger of the
  two, and a failed run takes nothing behind it. `Run.call` is a run made one call deeper.

  A number takes all the digits that follow one another, blanks between them or not. It is
  read from the left and refused, at its first digit, as soon as what has been read does not
  fit in 64 bits. Digits made by hand may be worth less than 0, so a number may also end
  below 0; then it is read, but it is no node.

  No production looks further than one token behind what it takes, and none is ever tried
  twice. Each takes the tokens that are left, with the index of the first of them in the
  whole list, and a budget of calls; it calls others with one call less, and with none left
  the nesting is too deep. `depthBound` is a budget that no list of tokens exhausts.
-/

import Abacus.Expr
import Abacus.Grammar
import Abacus.ParseError
import Abacus.Token

namespace Abacus.Parse

/-! # Runs -/

inductive Failure where
  | refused (e : ParseError)
  /-- A number cannot be a node, or the tree cannot be shown. Digits worth 0 to 9 never lead to
      the first, and no run leads to the second. -/
  | tree (f : Expr.Fault)
  /-- A digit has no worth. Scanned digits always have one. -/
  | digit (f : Token.Fault)
  deriving DecidableEq, Repr

def Failure.message : Failure → String
  | .refused e => e.message
  | .tree f => f.message
  | .digit f => f.message

/-- A step worth noting: where a production begins, or what an operand turns out to be.
    Productions are noted by token index, operands by position. -/
inductive Event where
  | expression (index : Nat)
  | term (index : Nat)
  | integer (value : Int) (position : Int)
  | negation (position : Int)
  | group (position : Int)
  deriving DecidableEq, Repr

def Event.describe : Event → String
  | .expression index => s!"expression @ {index}"
  | .term index => s!"term @ {index}"
  | .integer value position => s!"integer {value} @ {position}"
  | .negation position => s!"negation @ {position}"
  | .group position => s!"group @ {position}"

structure Run (α : Type) where
  trace : List Event
  /-- The largest number of calls that were active at once. -/
  depth : Nat
  outcome : Except Failure α

namespace Run

variable {α β : Type}

def ofOutcome (outcome : Except Failure α) : Run α := ⟨[], 0, outcome⟩

def refuse (e : ParseError) : Run α := ofOutcome (.error (.refused e))

def note (event : Event) : Run Unit := ⟨[event], 0, .ok ()⟩

def andThen (r : Run α) (next : α → Run β) : Run β :=
  match r.outcome with
  | .ok a => ⟨r.trace ++ (next a).trace, max r.depth (next a).depth, (next a).outcome⟩
  | .error f => ⟨r.trace, r.depth, .error f⟩

instance : Monad Run where
  pure a := ofOutcome (.ok a)
  bind := andThen

def call (r : Run α) : Run α := { r with depth := r.depth + 1 }

end Run

/-! # Numbers -/

structure Parsed where
  node : Expr
  /-- How many tokens of the whole list lie before `rest`. -/
  offset : Nat
  rest : List Token

/-- The number that digits make when `value` has been read before them. -/
def readDigits (start : Int) (value : Int) : List Token → Except Failure Int
  | [] => .ok value
  | d :: ds =>
    match d.worth with
    | .error f => .error (.digit f)
    | .ok worth =>
      let value := value * 10 + worth
      if value > Expr.largest then .error (.refused (.placed .literalOverflow (some start)))
      else readDigits start value ds

def literal (index : Nat) (tokens : List Token) : Run (Option Parsed) :=
  match tokens.takeWhile Token.isDigit with
  | [] => pure none
  | d :: ds => do
    let value ← Run.ofOutcome (readDigits d.position 0 (d :: ds))
    Run.note (.integer value d.position)
    let node ← Run.ofOutcome ((Expr.constant? d.position value).mapError .tree)
    return some ⟨node, index + (ds.length + 1), tokens.dropWhile Token.isDigit⟩

/-! # Productions -/

open Grammar (Nonterminal additive? multiplicative?)

/-- A chain of operands with operators between them: one operand, and behind an operator the
    tail of the chain. -/
def chain (op? : Token.Kind → Option BinaryOp) (operand tail : Nat → List Token → Run Parsed)
    (index : Nat) (tokens : List Token) : Run Parsed := do
  let left ← operand index tokens
  match left.rest with
  | [] => return left
  | t :: rest =>
    match op? t.kind with
    | some op =>
      let right ← tail (left.offset + 1) rest
      return ⟨.binary op t.position left.node right.node, right.offset, right.rest⟩
    | none =>
      if t.kind = .unrecognized then .refuse (.placed .invalidToken (some t.position))
      else return left

mutual

def expression : (budget index : Nat) → List Token → Run Parsed
  | 0, _, _ => .refuse .nestingTooDeep
  | budget + 1, index, tokens => .call do
    .note (.expression index)
    chain additive? (term budget) (expression budget) index tokens

def term : (budget index : Nat) → List Token → Run Parsed
  | 0, _, _ => .refuse .nestingTooDeep
  | budget + 1, index, tokens => .call do
    .note (.term index)
    chain multiplicative? (factor budget) (term budget) index tokens

def factor : (budget index : Nat) → List Token → Run Parsed
  | 0, _, _ => .refuse .nestingTooDeep
  | budget + 1, index, tokens => .call do
    match ← literal index tokens with
    | some number => return number
    | none =>
      match tokens with
      | [] => .refuse .unexpectedEof
      | t :: rest =>
        match t.kind with
        | .minus =>
          .note (.negation t.position)
          let operand ← factor budget (index + 1) rest
          return ⟨.unary .negate t.position operand.node, operand.offset, operand.rest⟩
        | .leftParen =>
          .note (.group t.position)
          let inner ← expression budget (index + 1) rest
          match inner.rest with
          | [] => .refuse .unexpectedEof
          | close :: rest =>
            if close.kind = .rightParen then return ⟨inner.node, inner.offset + 1, rest⟩
            else .refuse (.placed .invalidGroup (some close.position))
        | _ => .refuse (.placed .factorExpected (some t.position))

end

/-- A budget of calls that suffices: three for the whole, three for each group that is
    opened, and one for each operator. -/
def depthBound (tokens : List Token) : Nat :=
  3 + 3 * tokens.countP (·.kind == .leftParen) +
    tokens.countP fun t => (additive? t.kind).isSome || (multiplicative? t.kind).isSome

/-- A nonterminal run with a budget of calls. Only the number may be absent. -/
def runNonterminal (n : Nonterminal) (budget index : Nat) (tokens : List Token) :
    Run (Option Parsed) :=
  match n with
  | .expression => some <$> expression budget index tokens
  | .term => some <$> term budget index tokens
  | .factor => some <$> factor budget index tokens
  | .integer => literal index tokens

/-- A nonterminal run at an index of a list of tokens, which may lie at its end or beyond,
    as deep as it goes. -/
def runAt (n : Nonterminal) (tokens : List Token) (index : Nat) : Run (Option Parsed) :=
  runNonterminal n (depthBound (tokens.drop index)) index (tokens.drop index)

end Abacus.Parse
