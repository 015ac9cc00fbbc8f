/-
  Abacus.Parse.Partial — an expression at the front of a list of tokens.

  `parse` takes the longest expression it can from the front; tokens behind it are no error.
  Its limit is one on the calls of productions that are active at once. `Expr.ofText` is for a
  text that is one whole expression: one that goes on behind it is refused at the first token
  that is left over.

  When debugging, all of a text is scanned, with one line for each token, before the parser
  takes its first step. The steps of the run are printed between a line that lists the tokens
  and, if the run succeeds, a line that shows the tree, which is written under the same limit.
-/

import Abacus.Parse.Production
import Abacus.Text.Lines
import Abacus.Token
import Abacus.Token.Scanner

namespace Abacus

/-- The calls that a limit allows; without one, as many as the tokens can need. -/
def Limit.budget (limit : Limit) (tokens : List Token) : Nat := limit.getD (Parse.depthBound tokens)

namespace Parse

/-- A tree and the index of the first token that is not part of it. -/
structure Partial where
  node : Expr
  tokens : List Token
  offset : Nat
  deriving DecidableEq, Repr

namespace Partial

def remaining (p : Partial) : List Token := p.tokens.drop p.offset

def exhausted (p : Partial) : Bool := p.offset ≥ p.tokens.length

def peek (p : Partial) : Option Token := p.tokens[p.offset]?

end Partial

def run (limit : Limit) (tokens : List Token) : Run Partial := do
  let parsed ← expression (limit.budget tokens) 0 tokens
  return ⟨parsed.node, tokens, parsed.offset⟩

def logLine (text : String) : String := "[PARSE] " ++ text

def closingLine (limit : Limit) (p : Partial) : Except Failure String := do
  let text ← (p.node.prefixText limit).mapError .tree
  return logLine s!"parsed {text}, {p.remaining.length} tokens left"

def closingLines (limit : Limit) (outcome : Except Failure Partial) : List String :=
  (outcome.bind (closingLine limit)).toOption.toList

def runLines (limit : Limit) (tokens : List Token) (r : Run Partial) : List String :=
  logLine s!"tokens: {Token.listing tokens}" ::
    (r.trace.map (logLine ·.describe) ++ closingLines limit r.outcome)

/-- What a run prints and gives. When debugging it fails if its tree cannot be shown. -/
def report (limit : Limit) (debug : Bool) (tokens : List Token) (r : Run Partial) :
    Transcript Failure Partial :=
  if debug then ⟨runLines limit tokens r, r.outcome.bind fun p => (closingLine limit p).map fun _ => p⟩
  else ⟨[], r.outcome⟩

def parse (limit : Limit) (debug : Bool) (tokens : List Token) : Transcript Failure Partial :=
  report limit debug tokens (run limit tokens)

end Parse

/-! # Texts -/

open Parse (Failure Partial)

def Parse.Partial.whole (p : Partial) : Except Failure Expr :=
  match p.peek with
  | none => .ok p.node
  | some t => .error (.refused (.placed .unexpectedToken (some t.position)))

def Token.scanLines (text : String) : List String := (Token.scan text).map Token.scanLine

def Parse.parseFront (limit : Limit) (debug : Bool) (text : String) : Transcript Failure Partial :=
  let t := Parse.parse limit debug (Token.scan text)
  ⟨(if debug then Token.scanLines text else []) ++ t.printed, t.outcome⟩

def Parse.parseText (limit : Limit) (debug : Bool) (text : String) : Transcript Failure Expr :=
  let t := Parse.parseFront limit debug text
  ⟨t.printed, t.outcome.bind Partial.whole⟩

def Expr.ofText (limit : Limit) (text : String) : Except Failure Expr :=
  (Parse.parseText limit false text).outcome

end Abacus
