/-
  Abacus.Dot — reading undirected strict graphs in the DOT language.

  The part of the language that is read: a line that opens the graph, one line for each
  statement, a line that closes it. A statement gives a node its label, or joins a node to
  others. Words are separated by single spaces, and nodes are named by integers.

  In a strict graph two nodes are joined once at most, whichever way round they are named;
  `Dot.Graph.Joined` does not tell the ways apart.
-/

import Abacus.Text.Lines

namespace Abacus.Dot

inductive Statement where
  | node (id : Int) (label : String)
  | edges (id : Int) (others : List Int)
  deriving DecidableEq, Repr

structure Graph where
  statements : List Statement
  deriving DecidableEq, Repr

/-- The words of a line; two spaces have an empty word between them. -/
def words : List Char → List (List Char)
  | [] => [[]]
  | c :: cs =>
    if c = ' ' then [] :: words cs
    else
      match words cs with
      | [] => [[c]]
      | word :: rest => (c :: word) :: rest

def int? : List Char → Option Int
  | '-' :: digits =>
    if digits.isEmpty ∨ !digits.all Char.isDigit then none
    else some (-(Nat.ofDigitChars 10 digits 0 : Int))
  | digits =>
    if digits.isEmpty ∨ !digits.all Char.isDigit then none
    else some (Nat.ofDigitChars 10 digits 0)

def unquote? : List Char → Option String
  | '"' :: cs => if cs.getLast? = some '"' then some (String.ofList cs.dropLast) else none
  | _ => none

def Statement.ofLine? (line : List Char) : Option Statement :=
  match words line with
  | [] :: [] :: id :: ['['] :: ['l', 'a', 'b', 'e', 'l'] :: ['='] :: label :: [']'] :: [] => do
    return .node (← int? id) (← unquote? label)
  | [] :: [] :: id :: ['-', '-'] :: ['\x7b'] :: others => do
    if others.getLast? = some ['\x7d'] then
      return .edges (← int? id) (← others.dropLast.mapM int?)
    else none
  | _ => none

def Graph.ofText? (text : String) : Option Graph :=
  match Text.pieces text.toList with
  | first :: rest =>
    if first = "strict graph \x7b".toList ∧ rest.getLast? = some ['\x7d'] then
      (rest.dropLast.mapM Statement.ofLine?).map Graph.mk
    else none
  | [] => none

def Graph.nodes (g : Graph) : List (Int × String) :=
  g.statements.filterMap fun
    | .node id label => some (id, label)
    | .edges .. => none

def Graph.edges (g : Graph) : List (Int × Int) :=
  g.statements.flatMap fun
    | .node .. => []
    | .edges id others => others.map (id, ·)

def Graph.Joined (g : Graph) (a b : Int) : Prop := (a, b) ∈ g.edges ∨ (b, a) ∈ g.edges

end Abacus.Dot
