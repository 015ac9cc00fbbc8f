/-
  Abacus.Proofs.Expr.Unambiguous — a drawing or a graph determines the tree.

  What a node shows and where it stands tell the node, but for the two signs that are written
  alike: that of a negation and that of a difference (`sameRoot_of_caption`). So a tree is read
  off its lines from the top, and only how many operands such a sign has must be read off what
  comes next:

  - `outline_append_inj`: in a drawing, off the mark of the next line;
  - `statements_append_inj`: in a graph, off the edges of the statement.

  Whatever follows the lines of a tree, they end where the tree does. `drawing_eq_iff` and
  `graph_eq_iff`: so trees with one drawing or one graph are equal, positions included.
-/

import Abacus.Proofs.Expr.Graph
import Abacus.Proofs.Expr.Drawing

namespace Abacus

open Text

/-! ## Captions -/

theorem toString_int_inj {i j : Int} (h : toString i = toString j) : i = j :=
  Option.some.inj (by rw [← Dot.int?_toString, h, Dot.int?_toString])

theorem toString_nat_inj {m n : Nat} (h : toString m = toString n) : m = n :=
  Int.ofNat.inj (toString_int_inj (i := m) (j := n) h)

theorem BinaryOp.symbol_inj {op op' : BinaryOp} (h : op.symbol = op'.symbol) : op = op' := by
  revert h
  cases op <;> cases op' <;> decide

theorem BinaryOp.symbol_ne_toString (op : BinaryOp) (n : Nat) : op.symbol ≠ toString n := by
  have hsign : ∃ c, c.isDigit = false ∧ c ∈ op.symbol.toList := by
    cases op with
    | add => exact ⟨'+', rfl, by decide⟩
    | subtract => exact ⟨'-', rfl, by decide⟩
    | multiply => exact ⟨'*', rfl, by decide⟩
    | divide => exact ⟨'/', rfl, by decide⟩
  obtain ⟨c, hc, hmem⟩ := hsign
  intro h
  rw [h] at hmem
  exact not_mem_toString_nat hc n hmem

namespace Expr

inductive SameRoot : Expr → Expr → Prop
  | constant (position : Int) (value : Nat) :
      SameRoot (.constant position value) (.constant position value)
  | unary (op : UnaryOp) (position : Int) (operand operand' : Expr) :
      SameRoot (.unary op position operand) (.unary op position operand')
  | binary (op : BinaryOp) (position : Int) (lhs rhs lhs' rhs' : Expr) :
      SameRoot (.binary op position lhs rhs) (.binary op position lhs' rhs')
  | negation (op : UnaryOp) (position : Int) (operand lhs rhs : Expr) :
      SameRoot (.unary op position operand) (.binary .subtract position lhs rhs)
  | difference (op : UnaryOp) (position : Int) (lhs rhs operand : Expr) :
      SameRoot (.binary .subtract position lhs rhs) (.unary op position operand)

theorem sameRoot_of_caption {a b : Expr} (ha : a.NoStray) (hb : b.NoStray)
    (hcaption : a.caption = b.caption) (hplace : a.place = b.place) : SameRoot a b := by
  cases a with
  | stray => exact absurd ha id
  | binary op position lhs rhs =>
    cases b with
    | stray => exact absurd hb id
    | binary op' position' lhs' rhs' =>
      obtain rfl : op = op' := BinaryOp.symbol_inj hcaption
      obtain rfl : position = position' := hplace
      exact .binary ..
    | unary op' position' operand =>
      obtain rfl : op = .subtract := BinaryOp.symbol_inj hcaption
      obtain rfl : position = position' := hplace
      exact .difference ..
    | constant position' value => exact absurd hcaption (op.symbol_ne_toString value)
  | unary op position operand =>
    cases b with
    | stray => exact absurd hb id
    | binary op' position' lhs rhs =>
      obtain rfl : .subtract = op' := BinaryOp.symbol_inj hcaption
      obtain rfl : position = position' := hplace
      exact .negation ..
    | unary op' position' operand' =>
      obtain rfl : position = position' := hplace
      exact .unary ..
    | constant position' value => exact absurd hcaption (BinaryOp.subtract.symbol_ne_toString value)
  | constant position value =>
    cases b with
    | stray => exact absurd hb id
    | binary op' position' lhs rhs => exact absurd hcaption.symm (op'.symbol_ne_toString value)
    | unary op' position' operand =>
      exact absurd hcaption.symm (BinaryOp.subtract.symbol_ne_toString value)
    | constant position' value' =>
      obtain rfl : value = value' := toString_nat_inj hcaption
      obtain rfl : position = position' := hplace
      exact .constant ..

/-! ## Drawings -/

theorem outlineLine_inj {path : List Bool} {label label' : String} {position position' : Int}
    (hl : ' ' ∉ label.toList) (h : outlineLine path label position = outlineLine path label' position') :
    label = label' ∧ position = position' := by
  have hchars : label.toList ++ ' ' :: ('@' :: (toString position).toList) =
      label'.toList ++ ' ' :: ('@' :: (toString position').toList) := by
    simpa [outlineLine] using congrArg String.toList h
  have hp : ' ' ∉ '@' :: (toString position).toList :=
    List.not_mem_cons_of_ne_of_not_mem (by decide) (Dot.no_space_toString position)
  obtain ⟨hlabel, -, hposition⟩ := (List.append_cons_inj_of_notMem hl hp).mp hchars
  exact ⟨String.toList_inj.mp hlabel,
    toString_int_inj (String.toList_inj.mp (List.cons.inj hposition).2)⟩

theorem outlineLine_ne (path : List Bool) (label label' : String) (position position' : Int) :
    outlineLine (path ++ [true]) label position ≠ outlineLine (path ++ [false]) label' position' := by
  intro h
  have hmark : mark true ++ (label ++ (" @" ++ toString position)) =
      mark false ++ (label' ++ (" @" ++ toString position')) := by
    simpa only [outlineLine, lead_concat, String.append_assoc, String.append_right_inj] using h
  have hhead := congrArg (fun text => text.toList.head?) hmark
  simp [mark] at hhead

theorem sameRoot_of_outline {a b : Expr} (ha : a.NoStray) (hb : b.NoStray) {path : List Bool}
    {as bs : List String} (h : a.outline path ++ as = b.outline path ++ bs) : SameRoot a b := by
  obtain ⟨as', has⟩ := outline_eq_cons ha path
  obtain ⟨bs', hbs⟩ := outline_eq_cons hb path
  rw [has, hbs] at h
  have hline := (List.cons.inj h).1
  obtain ⟨hcaption, hplace⟩ := outlineLine_inj (not_mem_caption ha rfl (by decide)) hline
  exact sameRoot_of_caption ha hb hcaption hplace

/-- The first operand of a binary operator is marked otherwise than that of a unary one. -/
theorem outline_append_ne {a b : Expr} (ha : a.NoStray) (hb : b.NoStray) (path : List Bool)
    (as bs : List String) : a.outline (path ++ [true]) ++ as ≠ b.outline (path ++ [false]) ++ bs := by
  obtain ⟨as', has⟩ := outline_eq_cons ha (path ++ [true])
  obtain ⟨bs', hbs⟩ := outline_eq_cons hb (path ++ [false])
  rw [has, hbs]
  intro h
  exact outlineLine_ne _ _ _ _ _ (List.cons.inj h).1

theorem outline_append_inj {a b : Expr} (ha : a.NoStray) (hb : b.NoStray) {path : List Bool}
    {as bs : List String} (h : a.outline path ++ as = b.outline path ++ bs) : a = b ∧ as = bs := by
  -- a tree takes its own lines and no more, so the right operand begins where the left one ends
  induction a generalizing b path as bs with
  | binary op position lhs rhs ihl ihr =>
    cases sameRoot_of_outline ha hb h with
    | binary _ _ _ _ lhs' rhs' =>
      simp only [outline, List.cons_append, List.append_assoc, List.cons.injEq, true_and] at h
      obtain ⟨rfl, hrhs⟩ := ihl ha.1 hb.1 h
      obtain ⟨rfl, hrest⟩ := ihr ha.2 hb.2 hrhs
      exact ⟨rfl, hrest⟩
    | difference op' _ _ _ operand =>
      simp only [outline, List.cons_append, List.append_assoc] at h
      exact absurd (List.cons.inj h).2 (outline_append_ne (b := operand) ha.1 hb path _ _)
  | unary op position operand ih =>
    cases sameRoot_of_outline ha hb h with
    | unary _ _ _ operand' =>
      simp only [outline, List.cons_append, List.cons.injEq, true_and] at h
      obtain ⟨rfl, hrest⟩ := ih (b := operand') ha hb h
      exact ⟨rfl, hrest⟩
    | negation _ _ _ lhs rhs =>
      simp only [outline, List.cons_append, List.append_assoc] at h
      exact absurd (List.cons.inj h).2.symm (outline_append_ne (b := operand) hb.1 ha path _ _)
  | constant position value =>
    cases sameRoot_of_outline ha hb h
    exact ⟨rfl, List.append_cancel_left h⟩
  | stray => exact absurd ha id

theorem drawing_eq_iff {a b : Expr} (ha : a.NoStray) (hb : b.NoStray) :
    ∃ drawn drawn', a.drawing = .ok drawn ∧ b.drawing = .ok drawn' ∧ (drawn = drawn' ↔ a = b) := by
  refine ⟨_, _, drawing_of_noStray ha, drawing_of_noStray hb, ?_, ?_⟩
  · intro h
    have hlines : a.outline [] = b.outline [] := by
      rw [← linesOf_joined (outline_ne_nil ha []) (isLine_of_mem_outline ha),
        ← linesOf_joined (outline_ne_nil hb []) (isLine_of_mem_outline hb),
        (String.append_left_inj "\n").mp h]
    exact (outline_append_inj ha hb (congrArg (· ++ []) hlines)).1
  · rintro rfl
    rfl

/-- Read from the top, `-1-1` and `-(1-1)` show the same, and where all positions are one number
    they differ in the leads of their lines only. -/
theorem drawing_ne_of_grouped_difference :
    let difference := binary .subtract (-5) (.unary .negate (-5) (.constant (-5) 1)) (.constant (-5) 1)
    let negation := unary .negate (-5) (.binary .subtract (-5) (.constant (-5) 1) (.constant (-5) 1))
    (difference.NoStray ∧ negation.NoStray) ∧ ∃ drawn drawn', difference.drawing = .ok drawn ∧
      negation.drawing = .ok drawn' ∧ drawn ≠ drawn' := by
  intro difference negation
  have hd : difference.NoStray := by decide
  have hn : negation.NoStray := by decide
  obtain ⟨drawn, drawn', hdrawn, hdrawn', hiff⟩ := drawing_eq_iff hd hn
  exact ⟨⟨hd, hn⟩, drawn, drawn', hdrawn, hdrawn', fun h => absurd (hiff.mp h) (by decide)⟩

/-! ## Graphs -/

open Dot

theorem statements_binary (op : BinaryOp) (position : Int) (lhs rhs : Expr) :
    (binary op position lhs rhs).subtrees.flatMap statementsOf =
      .node position op.symbol :: .edges position [lhs.place, rhs.place] ::
        (lhs.subtrees.flatMap statementsOf ++ rhs.subtrees.flatMap statementsOf) := by
  simp [subtrees, statementsOf, operands, place, caption]

theorem statements_unary (op : UnaryOp) (position : Int) (operand : Expr) :
    (unary op position operand).subtrees.flatMap statementsOf =
      .node position op.symbol :: .edges position [operand.place] ::
        operand.subtrees.flatMap statementsOf := by
  simp [subtrees, statementsOf, operands, place, caption]

/-- The statements of a tree begin with that of its root. -/
theorem statements_eq_cons (e : Expr) : ∃ below,
    e.subtrees.flatMap statementsOf = .node e.place e.caption :: below := by
  rw [e.subtrees_eq_cons]
  exact ⟨_, rfl⟩

theorem sameRoot_of_statements {a b : Expr} (ha : a.NoStray) (hb : b.NoStray) {as bs : List Statement}
    (h : a.subtrees.flatMap statementsOf ++ as = b.subtrees.flatMap statementsOf ++ bs) :
    SameRoot a b := by
  obtain ⟨as', has⟩ := statements_eq_cons a
  obtain ⟨bs', hbs⟩ := statements_eq_cons b
  rw [has, hbs] at h
  obtain ⟨hplace, hcaption⟩ := Statement.node.inj (List.cons.inj h).1
  exact sameRoot_of_caption ha hb hcaption hplace

theorem statements_append_inj {a b : Expr} (ha : a.NoStray) (hb : b.NoStray)
    {as bs : List Statement}
    (h : a.subtrees.flatMap statementsOf ++ as = b.subtrees.flatMap statementsOf ++ bs) :
    a = b ∧ as = bs := by
  induction a generalizing b as bs with
  | binary op position lhs rhs ihl ihr =>
    cases sameRoot_of_statements ha hb h with
    | binary _ _ _ _ lhs' rhs' =>
      simp only [statements_binary, List.cons_append, List.append_assoc, List.cons.injEq] at h
      obtain ⟨rfl, hrhs⟩ := ihl ha.1 hb.1 h.2.2
      obtain ⟨rfl, hrest⟩ := ihr ha.2 hb.2 hrhs
      exact ⟨rfl, hrest⟩
    | difference op' _ _ _ operand =>
      simp [statements_binary, statements_unary] at h
  | unary op position operand ih =>
    cases sameRoot_of_statements ha hb h with
    | unary _ _ _ operand' =>
      simp only [statements_unary, List.cons_append, List.cons.injEq] at h
      obtain ⟨rfl, hrest⟩ := ih (b := operand') ha hb h.2.2
      exact ⟨rfl, hrest⟩
    | negation _ _ _ lhs rhs =>
      simp [statements_binary, statements_unary] at h
  | constant position value =>
    cases sameRoot_of_statements ha hb h
    exact ⟨rfl, List.append_cancel_left h⟩
  | stray => exact absurd ha id

theorem graph_eq_iff {a b : Expr} (ha : a.NoStray) (hb : b.NoStray) :
    ∃ dot dot', a.graph = .ok dot ∧ b.graph = .ok dot' ∧ (dot = dot' ↔ a = b) := by
  refine ⟨_, _, graph_of_noStray ha, graph_of_noStray hb, ?_, ?_⟩
  · intro h
    have hread : some (Dot.Graph.mk (a.subtrees.flatMap statementsOf)) =
        some (Dot.Graph.mk (b.subtrees.flatMap statementsOf)) := by
      rw [← ofText?_graphLines ha, h, ofText?_graphLines hb]
    have hstatements := Dot.Graph.mk.inj (Option.some.inj hread)
    exact (statements_append_inj ha hb (congrArg (· ++ []) hstatements)).1
  · rintro rfl
    rfl

/-- Where all positions are one number, the edges of `-1-1` and `-(1-1)` tell them apart. -/
theorem graph_ne_of_grouped_difference :
    let difference := binary .subtract 3 (.unary .negate 3 (.constant 3 1)) (.constant 3 1)
    let negation := unary .negate 3 (.binary .subtract 3 (.constant 3 1) (.constant 3 1))
    (difference.NoStray ∧ negation.NoStray) ∧ ∃ dot dot', difference.graph = .ok dot ∧
      negation.graph = .ok dot' ∧ dot ≠ dot' := by
  intro difference negation
  have hd : difference.NoStray := by decide
  have hn : negation.NoStray := by decide
  obtain ⟨dot, dot', hdot, hdot', hiff⟩ := graph_eq_iff hd hn
  exact ⟨⟨hd, hn⟩, dot, dot', hdot, hdot', fun h => absurd (hiff.mp h) (by decide)⟩

end Expr

end Abacus
