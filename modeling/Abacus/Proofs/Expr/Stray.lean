/-
  Abacus.Proofs.Expr.Stray — a tree that holds a text is refused for the leftmost one.

  Going over a tree from left to right meets the leftmost text first (`Meets`), and each way of
  going over it fails there:

  - `Meets.drawing`, `Meets.nodes`: drawing the tree and walking over it to the end.
  - `Meets.graph`: the graph fails earlier, at the first node in pre-order that has a text for
    an operand: the edges of its statement need the position of the text.

  That the tree in one line fails there too is `Meets.prefixText`.
-/

import Abacus.Proofs.Expr.Drawing
import Abacus.Proofs.Expr.Graph
import Abacus.Proofs.Expr.Line
import Abacus.Workbench

namespace Abacus.Expr

variable {text : String} {e : Expr}

theorem Meets.isNode (h : Meets text e) (hne : e ≠ .stray text) : e.IsNode := by
  cases h with
  | here => exact absurd rfl hne
  | operand => exact isNode_unary _ _ _
  | left | right => exact isNode_binary _ _ _ _

/-! ## Negated many times -/

section Negated

variable (position : Int) (n : Nat) (e : Expr)

theorem height_negated : (Workbench.negated position n e).height = e.height + n := by
  induction n generalizing position e with
  | zero => rfl
  | succ n ih =>
    rw [Workbench.negated, ih, height]
    omega

theorem noStray_negated : (Workbench.negated position n e).NoStray ↔ e.NoStray := by
  induction n generalizing position e with
  | zero => rfl
  | succ n ih => exact ih _ _

theorem fits_negated : (Workbench.negated position n e).Fits ↔ e.Fits := by
  induction n generalizing position e with
  | zero => rfl
  | succ n ih => exact ih _ _

end Negated

/-! ## Drawn -/

theorem drawPending_stray (text : String) (path : List Bool) (ps : List Pending) :
    drawPending (pendingAt path (.stray text) :: ps) = .error (.notAnExpression text) := by
  rw [drawPending]
  split
  · rename_i hl _
    cases hl
  · rename_i hl
    cases hl
    rfl
  · rename_i hk _
    cases hk
    rfl

theorem Meets.drawPending (h : Meets text e) (path : List Bool) (ps : List Pending) :
    Expr.drawPending (pendingAt path e :: ps) = .error (.notAnExpression text) := by
  induction h generalizing path ps with
  | here => exact drawPending_stray text path ps
  | operand _ ih =>
    rw [drawPending_cons (isNode_unary _ _ _), operands, siblings_single, List.singleton_append, ih]
    rfl
  | left _ ih =>
    rw [drawPending_cons (isNode_binary _ _ _ _), operands, siblings_pair, List.cons_append, ih]
    rfl
  | right hl _ ih =>
    rw [drawPending_cons (isNode_binary _ _ _ _), operands, siblings_pair, List.cons_append,
      List.singleton_append, drawPending_of_noStray hl, ih]
    rfl

theorem Meets.drawing (h : Meets text e) : e.drawing = .error (.notAnExpression text) := by
  have hroot : pendingAt [] e = ⟨e, "", .root⟩ := rfl
  have hd := h.drawPending [] []
  rw [hroot] at hd
  unfold Expr.drawing drawingLines
  rw [hd]
  rfl

/-! ## Walked over -/

theorem rest_stray (text : String) (es : List Expr) :
    (⟨.stray text :: es⟩ : Walk).rest = (.error (.notAnExpression text), ⟨es⟩) := by
  rw [Walk.rest]
  split
  · rename_i hn
    cases hn
  · rename_i hn
    cases hn
    rfl
  · rename_i hn
    cases hn

theorem Meets.rest (h : Meets text e) (es : List Expr) :
    (⟨e :: es⟩ : Walk).rest.1 = .error (.notAnExpression text) := by
  induction h generalizing es with
  | here => rw [rest_stray]
  | @operand op position a _ ih =>
    rw [Walk.rest_of_children [a] rfl, Walk.ahead, List.singleton_append, ih]
    rfl
  | @left op position lhs rhs _ ih =>
    rw [Walk.rest_of_children [lhs, rhs] rfl, Walk.ahead, List.cons_append, ih]
    rfl
  | @right op position lhs rhs hl _ ih =>
    obtain ⟨visited, -, hrest⟩ := Walk.rest_of_noStray hl
    rw [Walk.rest_of_children [lhs, rhs] rfl, Walk.ahead, List.cons_append, List.singleton_append,
      hrest, Walk.ahead, ih]
    rfl

theorem Meets.nodes (h : Meets text e) : e.nodes = .error (.notAnExpression text) :=
  h.rest []

/-! ## As a graph -/

/-- A text stands for an operand of the node itself. -/
def HasStray (e : Expr) : Prop := ∃ text, .stray text ∈ e.operands

theorem isNode_of_not_hasStray (h : ¬ e.HasStray) : ∀ m ∈ e.operands, m.IsNode := by
  rintro m hm text rfl
  exact h ⟨text, hm⟩

theorem not_hasStray_of_noStray (h : e.NoStray) : ¬ e.HasStray := by
  rintro ⟨text, hm⟩
  exact noStray_of_mem_operands h hm

theorem mapM_position_of_stray {kids : List Expr} (h : .stray text ∈ kids) :
    kids.mapM position = .error .noPosition := by
  induction kids with
  | nil => cases h
  | cons m ms ih =>
    rw [List.mapM_cons]
    by_cases hm : m = .stray text
    · rw [hm]
      rfl
    · have hms : .stray text ∈ ms := (List.mem_cons.mp h).resolve_left (Ne.symm hm)
      rw [ih hms]
      cases m <;> rfl

/-- The edges of a node need the positions of its operands. -/
theorem statement_of_hasStray (h : e.HasStray) : e.statement = .error .noPosition := by
  obtain ⟨text, hm⟩ := h
  have hn : e.IsNode := by
    rintro _ rfl
    cases hm
  unfold statement
  rw [position_of_isNode hn, label_of_isNode hn, children_of_isNode hn]
  simp only [bind, Except.bind, mapM_position_of_stray hm]

theorem statements_of_hasStray (h : e.HasStray) (es : List Expr) :
    statements ⟨e :: es⟩ = .error .noPosition := by
  have hn : e.IsNode := by
    rintro _ rfl
    obtain ⟨_, hm⟩ := h
    cases hm
  rw [statements_of_isNode hn, statement_of_hasStray h]
  rfl

theorem statements_of_not_hasStray (hn : e.IsNode) (h : ¬ e.HasStray) (es : List Expr) :
    statements ⟨e :: es⟩ =
      (statements ⟨e.operands ++ es⟩).map (Text.joined e.statementLines :: ·) := by
  rw [statements_of_isNode hn, statement_of_isNode hn (isNode_of_not_hasStray h)]
  rfl

/-- Where a node comes first in pre-order, it is the next one on the stack, and its operands come
    behind it. -/
theorem exists_cons_of_preOrder {es : List Expr} {more : List (Except Fault Expr)}
    (h : es.flatMap preOrder = .ok e :: more) :
    ∃ rest, es = e :: rest ∧ e.IsNode ∧ (e.operands ++ rest).flatMap preOrder = more := by
  cases es with
  | nil => cases h
  | cons first rest =>
    rw [List.flatMap_cons] at h
    rcases first.isNode_or_stray with hn | ⟨text, rfl⟩
    · rw [preOrder_of_isNode hn] at h
      obtain ⟨hfirst, hmore⟩ := List.cons.inj h
      obtain rfl := Except.ok.inj hfirst
      exact ⟨rest, rfl, hn, List.flatMap_append.trans hmore⟩
    · cases h

/-- The statements end at the first node in pre-order that has a text for an operand. -/
theorem statements_of_first_hasStray {visited es : List Expr} {after : List (Except Fault Expr)}
    (h : es.flatMap preOrder = visited.map Except.ok ++ .ok e :: after) (he : e.HasStray)
    (hv : ∀ n ∈ visited, ¬ n.HasStray) : statements ⟨es⟩ = .error .noPosition := by
  induction visited generalizing es with
  | nil =>
    obtain ⟨rest, rfl, -, -⟩ := exists_cons_of_preOrder h
    exact statements_of_hasStray he rest
  | cons n visited ih =>
    obtain ⟨hn, hv⟩ := List.forall_mem_cons.mp hv
    obtain ⟨rest, rfl, hnode, hrest⟩ := exists_cons_of_preOrder h
    rw [statements_of_not_hasStray hnode hn, ih hrest hv]
    rfl

/-- The first node in pre-order that has a text for an operand. -/
theorem Meets.first_hasStray (h : Meets text e) (hn : e.IsNode) :
    ∃ (visited : List Expr) (m : Expr) (after : List (Except Fault Expr)),
      e.preOrder = visited.map Except.ok ++ .ok m :: after ∧ m.HasStray ∧
        ∀ n ∈ visited, n.IsNode ∧ ¬ n.HasStray := by
  -- a node without a text for an operand is passed, and so is a left operand without texts
  induction h with
  | here => exact absurd rfl (hn text)
  | @operand op position a _ ih =>
    by_cases hs : HasStray (.unary op position a)
    · exact ⟨[], _, _, rfl, hs, by simp⟩
    · have ha : a.IsNode := isNode_of_not_hasStray hs a (by simp [operands])
      obtain ⟨visited, m, after, hp, hm, hv⟩ := ih ha
      refine ⟨.unary op position a :: visited, m, after, ?_, hm,
        List.forall_mem_cons.mpr ⟨⟨hn, hs⟩, hv⟩⟩
      rw [preOrder, hp]
      rfl
  | @left op position lhs rhs _ ih =>
    by_cases hs : HasStray (.binary op position lhs rhs)
    · exact ⟨[], _, _, rfl, hs, by simp⟩
    · have hl : lhs.IsNode := isNode_of_not_hasStray hs lhs (by simp [operands])
      obtain ⟨visited, m, after, hp, hm, hv⟩ := ih hl
      refine ⟨.binary op position lhs rhs :: visited, m, after ++ rhs.preOrder, ?_, hm,
        List.forall_mem_cons.mpr ⟨⟨hn, hs⟩, hv⟩⟩
      rw [preOrder, hp]
      simp
  | @right op position lhs rhs hl _ ih =>
    by_cases hs : HasStray (.binary op position lhs rhs)
    · exact ⟨[], _, _, rfl, hs, by simp⟩
    · have hr : rhs.IsNode := isNode_of_not_hasStray hs rhs (by simp [operands])
      obtain ⟨visited, m, after, hp, hm, hv⟩ := ih hr
      have hls : ∀ n ∈ lhs.subtrees, n.IsNode ∧ ¬ n.HasStray := by
        intro n hmem
        have hn := noStray_of_mem_subtrees hl hmem
        exact ⟨hn.isNode, not_hasStray_of_noStray hn⟩
      refine ⟨.binary op position lhs rhs :: (lhs.subtrees ++ visited), m, after, ?_, hm,
        List.forall_mem_cons.mpr ⟨⟨hn, hs⟩, List.forall_mem_append.mpr ⟨hls, hv⟩⟩⟩
      rw [preOrder, preOrder_eq_subtrees hl, hp]
      simp

theorem Meets.graph (h : Meets text e) :
    (e = .stray text → e.graph = .error (.notAnExpression text)) ∧
      (e ≠ .stray text → e.graph = .error .noPosition) := by
  constructor
  · rintro rfl
    unfold Expr.graph Walk.ofRoot
    rw [Expr.statements]
    rfl
  · intro hne
    obtain ⟨visited, m, after, hp, hm, hv⟩ := h.first_hasStray (h.isNode hne)
    have hstack : [e].flatMap preOrder = visited.map Except.ok ++ .ok m :: after := by
      rw [List.flatMap_singleton, hp]
    unfold Expr.graph Walk.ofRoot
    rw [statements_of_first_hasStray hstack hm fun n hn => (hv n hn).2]
    rfl

end Abacus.Expr
