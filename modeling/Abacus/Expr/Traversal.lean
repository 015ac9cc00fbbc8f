/-
  Abacus.Expr.Traversal — a tree visited, drawn and written as a graph, each with a stack, so
  that a deep tree costs no depth of calls.

  A walk visits a node before its operands and the whole left operand before the right one.
  It can be stopped and taken up again. A text in place of an operand is taken off the stack
  and refused; the walk then goes on behind it. A finished walk stays finished.

  A drawing has one line for each node, above those of its operands: a lead that shows where
  the operands of its ancestors go on, a mark that shows whether it is the last operand of its
  parent, its label and its position. The root has neither lead nor mark.

  A graph in the DOT language names each node by its position. Its statement gives its label,
  and below it, if it has operands, one line of edges names them all. The statements stand in
  the order of a walk. In the tree of a text no two nodes share a position, so the names are
  distinct. A text in place of an operand has no position: the statement of the node above it
  fails with `Fault.noPosition`. Such a text at the root fails as every walk over it does.
-/

import Abacus.Expr
import Abacus.Text.Lines

namespace Abacus

/-! # Walks -/

structure Walk where
  pending : List Expr
  deriving DecidableEq, Repr

namespace Walk

def ofRoot (root : Expr) : Walk := ⟨[root]⟩

/-- The next node, or the refusal of the text that stands in its place, with the walk
    behind it; nothing at the end of the walk. -/
def next? : Walk → Option (Except Expr.Fault Expr × Walk)
  | ⟨[]⟩ => none
  | ⟨e :: es⟩ =>
    match e.children with
    | .ok kids => some (.ok e, ⟨kids ++ es⟩)
    | .error f => some (.error f, ⟨es⟩)

def remaining (w : Walk) : Nat := Expr.totalSize w.pending

theorem remaining_lt_of_next? {w w' : Walk} {r : Except Expr.Fault Expr}
    (h : w.next? = some (r, w')) : w'.remaining < w.remaining := by
  obtain ⟨_ | ⟨e, es⟩⟩ := w
  · simp [next?] at h
  · simp only [next?] at h
    split at h <;> simp only [Option.some.injEq, Prod.mk.injEq] at h <;> obtain ⟨-, rfl⟩ := h
    · rename_i kids hk
      have := Expr.totalSize_children hk
      simp only [remaining, Expr.totalSize_append, Expr.totalSize]
      omega
    · have := Expr.size_pos e
      simp only [remaining, Expr.totalSize]
      omega

/-- Every node that is left, unless a text stands among them: then the nodes before it are
    lost and the walk goes on behind it. -/
def rest (w : Walk) : Except Expr.Fault (List Expr) × Walk :=
  match _h : w.next? with
  | none => (.ok [], w)
  | some (.error f, w') => (.error f, w')
  | some (.ok e, w') =>
    let (es, last) := w'.rest
    (es.map (e :: ·), last)
termination_by w.remaining
decreasing_by exact remaining_lt_of_next? _h

end Walk

namespace Expr

def nodes (e : Expr) : Except Fault (List Expr) := (Walk.ofRoot e).rest.1

def count (e : Expr) : Except Fault Nat := e.nodes.map List.length

end Expr

end Abacus

/-! # Drawings -/

namespace Abacus.Expr

inductive Place where
  | root
  | inner
  | last
  deriving DecidableEq, Repr

def Place.mark : Place → String
  | .root => ""
  | .inner => "├── "
  | .last => "└── "

def Place.indent : Place → String
  | .root => ""
  | .inner => "│   "
  | .last => "    "

structure Pending where
  node : Expr
  lead : String
  place : Place

def siblings (lead : String) : List Expr → List Pending
  | [] => []
  | [e] => [⟨e, lead, .last⟩]
  | e :: es => ⟨e, lead, .inner⟩ :: siblings lead es

theorem map_node_siblings (lead : String) (es : List Expr) :
    (siblings lead es).map Pending.node = es := by
  fun_induction siblings lead es <;> simp_all

def Pending.line (p : Pending) : Except Fault String := do
  let label ← p.node.label
  let position ← p.node.position
  return p.lead ++ p.place.mark ++ label ++ " @" ++ toString position

/-- The lines of the nodes on a stack and of all below them. -/
def drawPending : List Pending → Except Fault (List String)
  | [] => .ok []
  | p :: ps =>
    match p.line, _h : p.node.children with
    | .ok line, .ok kids => do
      let lines ← drawPending (siblings (p.lead ++ p.place.indent) kids ++ ps)
      return line :: lines
    | .error f, _ => .error f
    | _, .error f => .error f
termination_by ps => totalSize (ps.map Pending.node)
decreasing_by
  have := totalSize_children _h
  rw [List.map_append, map_node_siblings, totalSize_append, List.map_cons]
  simp only [totalSize]
  omega

def drawingLines (e : Expr) : Except Fault (List String) := drawPending [⟨e, "", .root⟩]

/-- The drawn tree; its last line is ended too. -/
def drawing (e : Expr) : Except Fault String := do
  let lines ← e.drawingLines
  return Text.joined lines ++ "\n"

/-! # Graphs -/

/-- The statement of a node, followed by the line of its edges if it has any. -/
def statement (e : Expr) : Except Fault String := do
  let name := toString (← e.position)
  let label ← e.label
  let node := "  " ++ name ++ " [ label = \"" ++ label ++ "\" ]"
  let kids ← (← e.children).mapM position
  match kids with
  | [] => return node
  | _ => return node ++ "\n  " ++ name ++ " -- \x7b " ++ " ".intercalate (kids.map toString) ++ " \x7d"

def statements (w : Walk) : Except Fault (List String) :=
  match _h : w.next? with
  | none => .ok []
  | some (.error f, _) => .error f
  | some (.ok e, w') => do
    let first ← e.statement
    let rest ← statements w'
    return first :: rest
termination_by w.remaining
decreasing_by exact Walk.remaining_lt_of_next? _h

def graph (e : Expr) : Except Fault String := do
  let all ← statements (Walk.ofRoot e)
  return "strict graph \x7b\n" ++ Text.joined all ++ "\n\x7d"

end Abacus.Expr
