/-
  Abacus.Proofs.Evaluation.Stray — evaluating a tree that holds a text.

  - `recursive_of_meets`: evaluation ends at the leftmost text, and until then has noted the
    nodes to the left of that text (`Expr.leftOfStray`) in post-order and no other.
  - `usable_or_refused`: a tree without a text has a value, a line, a drawing, nodes and a
    graph. Any other is refused in all five ways for its leftmost text, but where that text is
    not the whole tree the graph already fails for the first node in pre-order above a text.
    Of the five ways only the line is under a limit on calls, and a tree with more levels than
    the limit allows has none.
-/

import Abacus.Expr.Orders
import Abacus.Proofs.Evaluation.Structural
import Abacus.Proofs.Expr.Stray

namespace Abacus

namespace Expr

variable {text : String}

/-! ## The leaf that is the leftmost text -/

theorem leaves_length_pos (e : Expr) : 0 < e.leaves.length := by
  induction e with
  | binary _ _ lhs rhs ihl ihr =>
    rw [leaves, List.length_append]
    omega
  | unary _ _ operand ih => exact ih
  | constant | stray => exact Nat.one_pos

theorem noStray_of_mem_leaves {e : Expr} (h : e.NoStray) : ∀ leaf ∈ e.leaves, leaf.NoStray := by
  induction e with
  | binary _ _ _ _ ihl ihr => exact List.forall_mem_append.mpr ⟨ihl h.1, ihr h.2⟩
  | unary _ _ _ ih => exact ih h
  | constant position value =>
    intro leaf hmem
    rw [List.mem_singleton.mp hmem]
    exact h
  | stray => exact absurd h id

section strayIndex

variable {op : BinaryOp} {position : Int} {lhs rhs : Expr}

theorem strayIndex_binary_left (h : lhs.strayIndex < lhs.leaves.length) :
    strayIndex (.binary op position lhs rhs) = lhs.strayIndex := by
  unfold strayIndex at h ⊢
  rw [leaves, List.takeWhile_append, if_neg (Nat.ne_of_lt h)]

theorem strayIndex_binary_right (h : lhs.NoStray) :
    strayIndex (.binary op position lhs rhs) = lhs.leaves.length + rhs.strayIndex := by
  unfold strayIndex
  have hall : ∀ leaf ∈ lhs.leaves, decide leaf.NoStray = true := by
    intro leaf hmem
    exact decide_eq_true (noStray_of_mem_leaves h leaf hmem)
  rw [leaves, List.takeWhile_append_of_pos hall, List.length_append]

end strayIndex

theorem lt_of_getElem?_leaves {e leaf : Expr} {i : Nat} (h : e.leaves[i]? = some leaf) :
    i < e.leaves.length :=
  (List.getElem?_eq_some_iff.mp h).1

theorem Meets.getElem?_leaves {e : Expr} (h : Meets text e) :
    e.leaves[e.strayIndex]? = some (.stray text) := by
  induction h with
  | here => rfl
  | operand _ ih => exact ih
  | @left op position lhs rhs _ ih =>
    have hlt := lt_of_getElem?_leaves ih
    rw [strayIndex_binary_left hlt, leaves, List.getElem?_append_left hlt, ih]
  | right hl _ ih =>
    rw [strayIndex_binary_right hl, leaves, List.getElem?_append_right (Nat.le_add_right _ _),
      Nat.add_sub_cancel_left, ih]

theorem Meets.strayIndex_lt {e : Expr} (h : Meets text e) : e.strayIndex < e.leaves.length :=
  lt_of_getElem?_leaves h.getElem?_leaves

/-! ## The nodes to the left of a leaf -/

/-- The nodes whose leaves are all among the first `n`, in post-order. -/
def within (n first : Nat) (e : Expr) : List Expr :=
  ((e.spans first).filter fun span => decide (span.2 ≤ n)).map Prod.fst

theorem leftOfStray_eq_within (e : Expr) : e.leftOfStray = e.within e.strayIndex 0 := rfl

theorem spans_add (k first : Nat) (e : Expr) :
    e.spans (k + first) = (e.spans first).map fun span => (span.1, k + span.2) := by
  induction e generalizing first with
  | binary _ _ _ _ ihl ihr => simp [spans, ihl, ihr, Nat.add_assoc]
  | unary _ _ _ ih => simp [spans, ih, Nat.add_assoc]
  | constant | stray => rfl

theorem map_fst_spans (first : Nat) (e : Expr) : (e.spans first).map Prod.fst = e.postOrder := by
  induction e generalizing first with
  | binary _ _ _ _ ihl ihr => simp [spans, postOrder, ihl, ihr]
  | unary _ _ _ ih => simp [spans, postOrder, ih]
  | constant | stray => rfl

theorem mem_spans {first : Nat} {e : Expr} {span : Expr × Nat} (h : span ∈ e.spans first) :
    first < span.2 ∧ span.2 ≤ first + e.leaves.length := by
  induction e generalizing first with
  | binary op position lhs rhs ihl ihr =>
    have hpos := lhs.leaves_length_pos
    rw [leaves, List.length_append]
    rcases List.mem_append.mp h with h | h
    · rcases List.mem_append.mp h with h | h
      · have := ihl h
        omega
      · have := ihr h
        omega
    · rw [List.mem_singleton.mp h]
      dsimp only
      omega
  | unary op position operand ih =>
    have hpos := operand.leaves_length_pos
    rw [leaves]
    rcases List.mem_append.mp h with h | h
    · exact ih h
    · rw [List.mem_singleton.mp h]
      dsimp only
      omega
  | constant | stray =>
    rw [List.mem_singleton.mp h]
    exact ⟨Nat.lt_succ_self first, Nat.le_refl _⟩

theorem within_of_le {n first : Nat} {e : Expr} (h : first + e.leaves.length ≤ n) :
    e.within n first = e.postOrder := by
  have hall : ∀ span ∈ e.spans first, decide (span.2 ≤ n) = true := by
    intro span hmem
    exact decide_eq_true (Nat.le_trans (mem_spans hmem).2 h)
  rw [within, List.filter_eq_self.mpr hall, map_fst_spans]

theorem within_of_ge {n first : Nat} (e : Expr) (h : n ≤ first) : e.within n first = [] := by
  have hnone : ∀ span ∈ e.spans first, ¬ decide (span.2 ≤ n) = true := by
    intro span hmem hle
    have := (mem_spans hmem).1
    have := of_decide_eq_true hle
    omega
  rw [within, List.filter_eq_nil_iff.mpr hnone, List.map_nil]

theorem within_add (k n first : Nat) (e : Expr) :
    e.within (k + n) (k + first) = e.within n first := by
  unfold within
  rw [spans_add, List.filter_map, List.map_map]
  simp only [Function.comp_def, Nat.add_le_add_iff_left]

theorem within_unary {n first : Nat} (op : UnaryOp) (position : Int) {operand : Expr}
    (h : n < first + operand.leaves.length) :
    within n first (.unary op position operand) = operand.within n first := by
  unfold within
  rw [spans, List.filter_append, List.filter_singleton, decide_eq_false (Nat.not_le.mpr h)]
  simp

theorem within_binary {n first : Nat} (op : BinaryOp) (position : Int) {lhs rhs : Expr}
    (h : n < first + (lhs.leaves.length + rhs.leaves.length)) :
    within n first (.binary op position lhs rhs) =
      lhs.within n first ++ rhs.within n (first + lhs.leaves.length) := by
  unfold within
  rw [spans, List.filter_append, List.filter_append, List.filter_singleton,
    decide_eq_false (Nat.not_le.mpr h)]
  simp

theorem leftOfStray_unary (op : UnaryOp) (position : Int) {operand : Expr}
    (h : Meets text operand) :
    leftOfStray (.unary op position operand) = operand.leftOfStray := by
  have hlt : operand.strayIndex < 0 + operand.leaves.length := by
    rw [Nat.zero_add]
    exact h.strayIndex_lt
  exact within_unary op position hlt

theorem leftOfStray_left (op : BinaryOp) (position : Int) {lhs : Expr} (rhs : Expr)
    (h : Meets text lhs) :
    leftOfStray (.binary op position lhs rhs) = lhs.leftOfStray := by
  have hlt := h.strayIndex_lt
  rw [leftOfStray_eq_within, strayIndex_binary_left hlt, within_binary _ _ (by omega),
    within_of_ge rhs (by omega), List.append_nil, leftOfStray_eq_within]

theorem leftOfStray_right (op : BinaryOp) (position : Int) {lhs rhs : Expr} (hl : lhs.NoStray)
    (h : Meets text rhs) :
    leftOfStray (.binary op position lhs rhs) = lhs.postOrder ++ rhs.leftOfStray := by
  have hlt := h.strayIndex_lt
  rw [leftOfStray_eq_within, strayIndex_binary_right hl, within_binary _ _ (by omega),
    within_of_le (by omega), Nat.add_comm 0, within_add, leftOfStray_eq_within]

end Expr

/-! ## Evaluated -/

namespace Operations

/-- Evaluation has noted what lies to the left of the text that it ends at. -/
theorem recursive_of_meets (o : Operations) {text : String} {e : Expr} (hf : e.Fits)
    (h : e.Meets text) : Evaluation.recursive o.arithmetic e =
      ⟨e.leftOfStray.map o.event, .error (.tree (.notAnExpression text))⟩ := by
  -- what is finished before the text is met are left operands without texts, noted as a whole
  induction h with
  | here => rfl
  | @operand op position operand hm ih =>
    rw [Evaluation.recursive, ih hf, Expr.leftOfStray_unary op position hm]
    rfl
  | @left op position lhs rhs hm ih =>
    rw [Evaluation.recursive, ih hf.1, Expr.leftOfStray_left op position rhs hm]
    rfl
  | @right op position lhs rhs hl hm ih =>
    rw [Evaluation.recursive, o.recursive_of_operations hl hf.1, ih hf.2,
      Expr.leftOfStray_right op position hl hm, List.map_append]
    rfl

end Operations

namespace Expr

theorem Meets.ofExpr {text : String} {e : Expr} (hf : e.Fits) (h : Meets text e) :
    Evaluation.ofExpr Binary64.arithmetic e =
      ⟨e.leftOfStray.map Operations.ieee.event, .error (.tree (.notAnExpression text))⟩ := by
  rw [Evaluation.ofExpr_eq_recursive, ← Operations.arithmetic_ieee]
  exact Operations.ieee.recursive_of_meets hf h

/-! ## All ways of going over a tree -/

/-- Every way of going over the tree comes to its end, the line if there is room for its calls. -/
structure Usable (e : Expr) : Prop where
  value : ∀ tracing, ∃ x, (e.evaluate tracing).outcome = .ok x
  line : ∀ limit : Limit, limit.Allows e.height → ∃ line, e.prefixText limit = .ok line
  line_too_deep : ∀ limit : Limit, ¬ limit.Allows e.height → e.prefixText limit = .error .tooDeep
  drawing : ∃ picture, e.drawing = .ok picture
  nodes : ∃ visited, e.nodes = .ok visited
  graph : ∃ source, e.graph = .ok source

/-- Every way of going over the tree ends at a text, or at a node above one. -/
structure Refused (text : String) (e : Expr) : Prop where
  value : ∀ tracing, (e.evaluate tracing).outcome = .error (.tree (.notAnExpression text))
  line : ∀ limit : Limit, limit.Allows e.reach → e.prefixText limit = .error (.notAnExpression text)
  line_too_deep : ∀ limit : Limit, ¬ limit.Allows e.reach → e.prefixText limit = .error .tooDeep
  drawing : e.drawing = .error (.notAnExpression text)
  nodes : e.nodes = .error (.notAnExpression text)
  graph_text : e = .stray text → e.graph = .error (.notAnExpression text)
  graph_node : e ≠ .stray text → e.graph = .error .noPosition
  /-- The statement that the graph fails in, and those before it. -/
  statement : e ≠ .stray text →
    ∃ (visited : List Expr) (above : Expr) (after : List (Except Fault Expr)),
      e.preOrder = visited.map Except.ok ++ .ok above :: after ∧
        above.HasStray ∧ above.statement = .error .noPosition ∧
        ∀ node ∈ visited, ¬ node.HasStray ∧ ∃ source, node.statement = .ok source
  /-- The lines of an evaluation up to its end. -/
  printed : (e.evaluate true).printed =
    e.leftOfStray.map fun node => (Operations.ieee.event node).line Binary64.text

theorem usable_of_noStray {e : Expr} (hf : e.Fits) (h : e.NoStray) : e.Usable where
  value tracing := by
    refine ⟨Operations.ieee.value e, ?_⟩
    cases tracing <;> exact value_eq_ok h hf
  line limit hl := by
    rw [← reach_of_noStray h] at hl
    rw [(needsCalls_prefixText e).allowed hl]
    exact prefixText_of_noStray h
  line_too_deep limit hl := by
    rw [← reach_of_noStray h] at hl
    exact (needsCalls_prefixText e).refused hl
  drawing := ⟨_, drawing_of_noStray h⟩
  nodes := (nodes_of_noStray h).imp fun _ hv => hv.1
  graph := ⟨_, graph_of_noStray h⟩

theorem Meets.refused {text : String} {e : Expr} (hf : e.Fits) (h : Meets text e) :
    e.Refused text where
  value tracing := by
    rw [evaluate, Evaluation.transcript, h.ofExpr hf]
  line limit hl := ((needsCalls_prefixText e).allowed hl).trans h.prefixText
  line_too_deep limit hl := (needsCalls_prefixText e).refused hl
  drawing := h.drawing
  nodes := h.nodes
  graph_text := h.graph.1
  graph_node := h.graph.2
  statement hne := by
    obtain ⟨visited, above, after, hp, ha, hv⟩ := h.first_hasStray (h.isNode hne)
    refine ⟨visited, above, after, hp, ha, statement_of_hasStray ha, ?_⟩
    intro node hmem
    obtain ⟨hn, hs⟩ := hv node hmem
    exact ⟨hs, _, statement_of_isNode hn (isNode_of_not_hasStray hs)⟩
  printed := by
    rw [evaluate, Evaluation.transcript, h.ofExpr hf]
    exact List.map_map

theorem usable_or_refused {e : Expr} (hf : e.Fits) :
    (e.NoStray → e.Usable) ∧
    (¬ e.NoStray → ∃ text, e.leftmostStray? = some text ∧ e.Refused text ∧
      (Evaluation.Fault.tree (.notAnExpression text)).message =
        "Not an expression node: " ++ Text.quoted text) := by
  refine ⟨usable_of_noStray hf, ?_⟩
  intro hs
  rw [← leftmostStray?_eq_none_iff] at hs
  obtain ⟨text, ht⟩ := Option.ne_none_iff_exists'.mp hs
  exact ⟨text, ht, (meets_of_leftmostStray? ht).refused hf, rfl⟩

/-- The number 1 under 5000 negations has no line where 1000 calls are allowed. -/
theorem not_usable_of_deep_negation : ∃ deep : Expr,
    deep = Workbench.negated 1 5000 (.constant 0 1) ∧ deep.Fits ∧ deep.NoStray ∧
      ¬ ∃ line, deep.prefixText (some 1000) = .ok line := by
  -- as a variable, so that nothing unfolds the negations
  generalize hn : 5000 = n
  have hf := (fits_negated 1 n (.constant 0 1)).mpr (by decide)
  have hs := (noStray_negated 1 n (.constant 0 1)).mpr trivial
  have hlevels : ¬ Limit.Allows (some 1000) (Workbench.negated 1 n (.constant 0 1)).height := by
    rw [Limit.allows_some, height_negated, ← hn]
    decide
  refine ⟨_, rfl, hf, hs, ?_⟩
  rw [(needsCalls_prefixText _).refused (reach_of_noStray hs ▸ hlevels)]
  nofun

/-- In `-4 + "x" * (2 / "y")` the left operand is evaluated and printed before `x` is met. -/
theorem refused_in_right_operand : ∃ e : Expr,
    e = .binary .add 3 (.unary .negate 0 (.constant 1 4))
      (.binary .multiply 7 (.stray "x") (.binary .divide 9 (.constant 8 2) (.stray "y"))) ∧
    e.Fits ∧ e.leftmostStray? = some "x" ∧ e.Refused "x" ∧
    (e.evaluate true).printed = ["[EVAL] constant 4 @ 1", "[EVAL] - @ 0 -> -4.0"] := by
  refine ⟨_, rfl, ?_⟩
  generalize he : binary .add 3 (.unary .negate 0 (.constant 1 4))
    (.binary .multiply 7 (.stray "x") (.binary .divide 9 (.constant 8 2) (.stray "y"))) = e
  have hf : e.Fits := by
    subst he
    decide
  have hs : ¬ e.NoStray := by
    subst he
    decide
  have hx : e.leftmostStray? = some "x" := by
    subst he
    rfl
  obtain ⟨text, ht, hr, -⟩ := (usable_or_refused hf).2 hs
  obtain rfl : "x" = text := Option.some.inj (hx.symm.trans ht)
  refine ⟨hf, hx, hr, ?_⟩
  rw [hr.printed, ← he]
  decide +kernel

end Expr

end Abacus
