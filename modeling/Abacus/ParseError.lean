/-
  Abacus.ParseError — why a text is refused, and where.

  Two refusals never have a place: the text ended too early (`unexpectedEof`), and its
  nesting is deeper than the parser goes (`nestingTooDeep`). Every other cause may have
  one, and has one whenever the parser raises it.

  Two errors are equal when their cause and their place are.
-/

namespace Abacus

namespace ParseError

/-- The causes that can be placed. -/
inductive Cause where
  /-- No particular cause. -/
  | unspecified
  /-- A whole expression is followed by more. -/
  | unexpectedToken
  /-- A character outside the grammar stands where an operator could. -/
  | invalidToken
  /-- An open group is not closed where it has to be. -/
  | invalidGroup
  /-- Nothing that could begin an operand stands where one has to begin. -/
  | factorExpected
  /-- A number is too large. -/
  | literalOverflow
  deriving DecidableEq, Repr

end ParseError

inductive ParseError where
  | unexpectedEof
  | nestingTooDeep
  | placed (cause : ParseError.Cause) (position : Option Int)
  deriving DecidableEq, Repr

namespace ParseError

def Cause.name : Cause → String
  | .unspecified => "ParseError"
  | .unexpectedToken => "UnexpectedToken"
  | .invalidToken => "InvalidToken"
  | .invalidGroup => "InvalidGroup"
  | .factorExpected => "FactorExpected"
  | .literalOverflow => "LiteralOverflow"

def Cause.description : Cause → String
  | .unspecified => "Parse error"
  | .unexpectedToken => "Unconsumed input"
  | .invalidToken => "Unrecognized token"
  | .invalidGroup => "Expected group close"
  | .factorExpected => "Expected integer, negation, or group"
  | .literalOverflow => "Integer literal does not fit in 64 bits"

def name : ParseError → String
  | .unexpectedEof => "UnexpectedEof"
  | .nestingTooDeep => "NestingTooDeep"
  | .placed cause _ => cause.name

def description : ParseError → String
  | .unexpectedEof => "Unexpected end of file"
  | .nestingTooDeep => "Expression nested too deeply"
  | .placed cause _ => cause.description

def position : ParseError → Option Int
  | .placed _ position => position
  | .unexpectedEof | .nestingTooDeep => none

def message (e : ParseError) : String :=
  match e.position with
  | none => e.description
  | some p => s!"{e.description}: {p}"

def describe (e : ParseError) : String :=
  match e.position with
  | none => s!"{e.name}(None)"
  | some p => s!"{e.name}({p})"

end ParseError

end Abacus
