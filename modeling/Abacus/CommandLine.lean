/-
  Abacus.CommandLine — the command that evaluates its arguments.

  The words `dot` and `debug` are options wherever they stand; all other arguments, joined
  by single spaces, are the text. Without a text the usage is printed and the exit code is
  2. A text that is refused gives a line with the reason and exit code 1. Any other text
  gives its value, or with `dot` its graph, and exit code 0.

  With `debug`, a report goes around that: the arguments as understood, the steps of the
  scanner and the parser, the tokens, the drawn tree, the steps of the evaluation, and the
  time that each part took. It also turns on the lines of the evaluation; the switch is set
  back afterwards.

  How deep a text may be nested is up to the surroundings: it is the limit on active calls that
  the text is parsed under. A command needs of its surroundings a place to print, a clock, and
  the switch (`Console`). A `Script` is a surrounding made of data: its clock is a function of
  how many readings have been taken, and everything printed is kept. A command that runs on a
  script is a function like any other.
-/

import Abacus.Evaluation
import Abacus.Expr.Traversal
import Abacus.Parse.Partial
import Abacus.Text.Lines

namespace Abacus

/-! # Surroundings -/

class Console (m : Type → Type) where
  /-- Print texts in order, each ended by a line feed. -/
  printAll : List String → m Unit
  /-- Read the clock, in milliseconds. -/
  now : m Rat
  /-- Whether evaluation prints its lines. -/
  tracing : m Bool
  setTracing : Bool → m Unit

namespace Console

variable {m : Type → Type} [Console m]

def print (text : String) : m Unit := printAll [text]

/-- Work that may break off runs in the surroundings of what it is part of. -/
instance {ε : Type} [Monad m] : Console (ExceptT ε m) where
  printAll texts := ExceptT.lift (printAll texts)
  now := ExceptT.lift now
  tracing := ExceptT.lift tracing
  setTracing tracing := ExceptT.lift (setTracing tracing)

/-- The time between two readings in whole milliseconds; a fraction is cut off, whatever the
    sign. -/
def elapsed (first second : Rat) : Int := (second - first).num.tdiv (second - first).den

end Console

structure Script where
  /-- What the clock shows at each reading. -/
  clock : Nat → Rat
  /-- How many readings have been taken. -/
  readings : Nat
  tracing : Bool
  /-- The texts printed so far. -/
  texts : List String

namespace Script

def start (clock : Nat → Rat) (tracing : Bool) : Script := ⟨clock, 0, tracing, []⟩

def lines (s : Script) : List String := Text.printedLines s.texts

instance : Console (StateM Script) where
  printAll texts := modify fun s => { s with texts := s.texts ++ texts }
  now := modifyGet fun s => (s.clock s.readings, { s with readings := s.readings + 1 })
  tracing := do return (← get).tracing
  setTracing tracing := modify fun s => { s with tracing }

end Script

end Abacus

/-! # Commands -/

namespace Abacus.CommandLine

open Console

structure Invocation where
  dot : Bool
  debug : Bool
  /-- The arguments that are no options. -/
  words : List String
  deriving DecidableEq, Repr

def isOption (argument : String) : Bool := argument == "dot" || argument == "debug"

def Invocation.ofArguments (arguments : List String) : Invocation where
  dot := arguments.contains "dot"
  debug := arguments.contains "debug"
  words := arguments.filter (!isOption ·)

def Invocation.text (i : Invocation) : String := " ".intercalate i.words

/-- Why a command breaks off without an exit code. No arguments lead here. -/
inductive Failure where
  | parse (f : Parse.Failure)
  | tree (f : Expr.Fault)
  | evaluation (f : Evaluation.Fault)
  deriving DecidableEq, Repr

def Failure.message : Failure → String
  | .parse f => f.message
  | .tree f => f.message
  | .evaluation f => f.message

def usage : String := "Usage: python -m calc [dot] [debug] <expression...>"

section

variable {m : Type → Type} [Monad m] [Console m]

def reportInvocation (i : Invocation) : m Unit :=
  let output := if i.dot then "graph" else "value"
  printAll ["=== calc ===", s!"Input: {i.text}", s!"Output: {output}", ""]

def reportScanning (text : String) : m Unit := do
  print "== Scanning =="
  let first ← now
  let tokens := Token.scan text
  let second ← now
  printAll [s!"  Tokens: {Token.listing tokens}", s!"  Time: {elapsed first second}ms",
    s!"  Found {tokens.length} tokens", ""]

def reportParsing (root : Expr) (time : Int) : ExceptT Failure m Unit := do
  print "== Parsing =="
  let lines ← MonadExcept.ofExcept (root.drawingLines.mapError Failure.tree)
  printAll (lines.map ("  " ++ ·))
  print s!"  Time: {time}ms"
  let count ← MonadExcept.ofExcept (root.count.mapError Failure.tree)
  printAll [s!"  Found {count} nodes", ""]

def showGraph (root : Expr) : ExceptT Failure m Unit := do
  let graph ← MonadExcept.ofExcept (root.graph.mapError Failure.tree)
  print graph

/-- Print the value of a tree; `parsed` is when the tree was finished. -/
def showValue (debug : Bool) (parsed : Rat) (root : Expr) : ExceptT Failure m Unit := do
  if debug then print "== Evaluation =="
  let work := root.evaluate (← tracing)
  printAll work.printed
  let value ← MonadExcept.ofExcept (work.outcome.mapError Failure.evaluation)
  if debug then
    let finished ← now
    printAll [s!"  Time: {elapsed parsed finished}ms", ""]
  print value.display

def run (limit : Limit) (i : Invocation) : ExceptT Failure m Nat := do
  let start ← now
  let work := Parse.parseText limit i.debug i.text
  printAll work.printed
  match work.outcome with
  | .error (.refused e) =>
    print s!"Error: {e.message}"
    return 1
  | .error f => throw (.parse f)
  | .ok root =>
    let parsed ← now
    if i.debug then
      print ""
      reportScanning i.text
      reportParsing root (elapsed start parsed)
    if i.dot then showGraph root else showValue i.debug parsed root
    if i.debug then
      let finished ← now
      print s!"Total time: {elapsed start finished}ms"
    return 0

def command (limit : Limit) (arguments : List String) : m (Except Failure Nat) := do
  let i := Invocation.ofArguments arguments
  if i.words.isEmpty then
    print usage
    return .ok 2
  if i.debug then reportInvocation i
  let saved ← tracing
  setTracing (i.debug || saved)
  let code ← (run limit i).run
  setTracing saved
  return code

end

def scripted (limit : Limit) (clock : Nat → Rat) (tracing : Bool) (arguments : List String) :
    Except Failure Nat × Script :=
  (command limit arguments : StateM Script _).run (.start clock tracing)

end Abacus.CommandLine
