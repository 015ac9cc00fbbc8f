/-
  Abacus.Proofs.Expr.Graph — the graph of a tree, written and read again.

  `graph_of_noStray`: the graph of a tree is its heading, one line for each node and behind it
  one for its edges if it has operands, and its end. None of these lines holds a line feed
  (`isLine_of_mem_graphLines`), so they can be told apart again.

  The words of a line come back from the line if none of them holds a space
  (`words_intercalate`), an integer from its text (`int?_toString`) and a label from between
  its quotes, so each line is read as the statement that it was written for.

  `ofText?_graphLines`: so the graph of a tree is read as the statements of its nodes, in
  pre-order.
-/

import Abacus.Dot
import Abacus.Expr.Traversal
import Abacus.Proofs.Expr.Walk
import Abacus.Proofs.Text.Lines

namespace Abacus

/-! # Graphs written -/

open Text

namespace Expr

def nodeLine (e : Expr) : String := "  " ++ toString e.place ++ " [ label = \"" ++ e.caption ++ "\" ]"

def edgeLine (e : Expr) : String :=
  "  " ++ toString e.place ++ " -- \x7b " ++
    " ".intercalate (e.operands.map fun kid => toString kid.place) ++ " \x7d"

def statementLines (e : Expr) : List String :=
  e.nodeLine :: if e.operands = [] then [] else [e.edgeLine]

def graphLines (e : Expr) : List String :=
  "strict graph \x7b" :: (e.subtrees.flatMap statementLines ++ ["\x7d"])

theorem mapM_position_of_isNode {kids : List Expr} (h : ∀ m ∈ kids, m.IsNode) :
    kids.mapM position = .ok (kids.map place) := by
  induction kids with
  | nil => rfl
  | cons m ms ih =>
    obtain ⟨hm, hms⟩ := List.forall_mem_cons.mp h
    rw [List.mapM_cons, position_of_isNode hm, ih hms]
    rfl

/-- A node has a statement if its operands are nodes, whatever is below them. -/
theorem statement_of_isNode {e : Expr} (h : e.IsNode) (ho : ∀ m ∈ e.operands, m.IsNode) :
    e.statement = .ok (joined e.statementLines) := by
  have hkids := mapM_position_of_isNode ho
  unfold statement
  rw [position_of_isNode h, label_of_isNode h, children_of_isNode h]
  simp only [bind, Except.bind, hkids]
  unfold statementLines
  cases ho : e.operands with
  | nil => simp [joined, nodeLine, pure, Except.pure]
  | cons m ms =>
    have hfeed : "\n  " = "\n" ++ "  " := rfl
    simp only [List.map_cons, List.map_map, pure, Except.pure, Except.ok.injEq, reduceCtorEq,
      if_false, joined, String.intercalate_cons_cons, String.intercalate_singleton, nodeLine, edgeLine,
      ho, hfeed, String.append_assoc]
    rfl

theorem statement_of_noStray {e : Expr} (h : e.NoStray) : e.statement = .ok (joined e.statementLines) :=
  statement_of_isNode h.isNode fun _ hm => (noStray_of_mem_operands h hm).isNode

/-! ## The statements of a walk -/

theorem statements_nil : statements ⟨[]⟩ = .ok [] := by
  rw [statements]
  rfl

/-- Before what is left of a walk comes the statement of its next node. -/
theorem statements_of_isNode {e : Expr} (h : e.IsNode) (es : List Expr) : statements ⟨e :: es⟩ =
    e.statement.bind fun first => (statements ⟨e.operands ++ es⟩).map (first :: ·) := by
  have hn := Walk.next?_of_children (children_of_isNode h) es
  rw [statements]
  split
  · rename_i hnone
    rw [hn] at hnone
    cases hnone
  · rename_i herror
    rw [hn] at herror
    cases herror
  · rename_i e' w' hsome
    rw [hn] at hsome
    cases hsome
    cases e.statement with
    | error f => rfl
    | ok first => cases statements ⟨e.operands ++ es⟩ <;> rfl

theorem statements_cons {e : Expr} (h : e.NoStray) (es : List Expr) : statements ⟨e :: es⟩ =
    (statements ⟨e.operands ++ es⟩).map (joined e.statementLines :: ·) := by
  rw [statements_of_isNode h.isNode, statement_of_noStray h]
  rfl

theorem statements_of_noStray {e : Expr} (h : e.NoStray) (es : List Expr) : statements ⟨e :: es⟩ =
    (statements ⟨es⟩).map (e.subtrees.map (joined ·.statementLines) ++ ·) := by
  induction e generalizing es with
  | binary op position lhs rhs ihl ihr =>
    rw [statements_cons h]
    show (statements ⟨lhs :: rhs :: es⟩).map ([_] ++ ·) = _
    rw [ihl h.1, ihr h.2, map_append_map, map_append_map]
    simp only [subtrees, List.map_cons, List.map_append, List.cons_append, List.nil_append,
      List.append_assoc]
  | unary op position operand ih =>
    rw [statements_cons h]
    show (statements ⟨operand :: es⟩).map ([_] ++ ·) = _
    rw [ih h, map_append_map]
    rfl
  | constant => exact statements_cons h es
  | stray => exact absurd h id

/-! ## The text of a graph -/

theorem joined_append {as bs : List String} (ha : as ≠ []) (hb : bs ≠ []) :
    joined (as ++ bs) = joined as ++ "\n" ++ joined bs :=
  String.intercalate_append_of_ne_nil ha hb

/-- Lines may be joined piece by piece. -/
theorem joined_map_joined {pieces : List (List String)} (h : ∀ p ∈ pieces, p ≠ []) :
    joined (pieces.map joined) = joined pieces.flatten := by
  induction pieces with
  | nil => rfl
  | cons p ps ih =>
    obtain ⟨hp, hps⟩ := List.forall_mem_cons.mp h
    cases ps with
    | nil => simp [joined]
    | cons q qs =>
      have hq : (q :: qs).flatten ≠ [] := by
        have := hps q List.mem_cons_self
        simp [this]
      rw [List.map_cons, List.flatten_cons, joined_append hp hq, ← ih hps]
      exact joined_append (List.cons_ne_nil (joined p) []) (by simp)

theorem statementLines_ne_nil (e : Expr) : e.statementLines ≠ [] := by
  simp [statementLines]

theorem graph_of_noStray {e : Expr} (h : e.NoStray) : e.graph = .ok (joined e.graphLines) := by
  have hw := statements_of_noStray h []
  rw [statements_nil] at hw
  have hall : joined (e.subtrees.map (joined ·.statementLines)) =
      joined (e.subtrees.flatMap statementLines) := by
    rw [List.flatMap_def, ← joined_map_joined, List.map_map]
    · rfl
    · simp [statementLines_ne_nil]
  have hne : e.subtrees.flatMap statementLines ≠ [] := by
    rw [subtrees_eq_cons, List.flatMap_cons]
    simp [statementLines_ne_nil]
  have hlines : joined e.graphLines =
      "strict graph \x7b" ++ "\n" ++ (joined (e.subtrees.flatMap statementLines) ++ "\n" ++ "\x7d") := by
    unfold graphLines
    rw [← List.singleton_append, joined_append (by simp) (by simp), joined_append hne (by simp)]
    rfl
  unfold graph Walk.ofRoot
  rw [hw]
  simp only [bind, Except.bind, Except.map, List.append_nil, hall, hlines, pure, Except.pure,
    String.append_assoc]
  rfl

/-! ## Lines -/

/-- Labels are made of digits and of the characters of operators. -/
theorem not_mem_caption {e : Expr} (h : e.NoStray) {c : Char} (hc : c.isDigit = false)
    (hop : c ∉ ['+', '-', '*', '/']) : c ∉ e.caption.toList := by
  have hbinary : ∀ op : BinaryOp, op.symbol.toList ⊆ ['+', '-', '*', '/'] := fun op => by
    cases op <;> decide
  cases e with
  | binary op => exact fun hm => hop (hbinary op hm)
  | unary op => exact fun hm => hop (hbinary .subtract hm)
  | constant _ value => exact not_mem_toString_nat hc value
  | stray => exact absurd h id

theorem isLine_intercalate {texts : List String} (h : ∀ text ∈ texts, IsLine text) :
    IsLine (" ".intercalate texts) := by
  induction texts with
  | nil => simp [IsLine]
  | cons a as ih =>
    obtain ⟨ha, has⟩ := List.forall_mem_cons.mp h
    cases as with
    | nil => rwa [String.intercalate_singleton]
    | cons b bs =>
      rw [String.intercalate_cons_cons]
      exact isLine_append (isLine_append ha (by decide)) (ih has)

theorem isLine_of_mem_statementLines {e : Expr} (h : e.NoStray) :
    ∀ line ∈ e.statementLines, IsLine line := by
  have hplace := isLine_toString_int e.place
  have hnode : IsLine e.nodeLine :=
    isLine_append (isLine_append (isLine_append (isLine_append (by decide) hplace) (by decide))
      (not_mem_caption h rfl (by decide))) (by decide)
  have hkids : IsLine (" ".intercalate (e.operands.map fun kid => toString kid.place)) := by
    refine isLine_intercalate fun text ht => ?_
    obtain ⟨kid, -, rfl⟩ := List.mem_map.mp ht
    exact isLine_toString_int _
  have hedge : IsLine e.edgeLine :=
    isLine_append (isLine_append (isLine_append (isLine_append (by decide) hplace) (by decide))
      hkids) (by decide)
  unfold statementLines
  split <;> simp [hnode, hedge]

theorem isLine_of_mem_graphLines {e : Expr} (h : e.NoStray) : ∀ line ∈ e.graphLines, IsLine line := by
  intro line hl
  simp only [graphLines, List.mem_cons, List.mem_append, List.not_mem_nil, or_false,
    List.mem_flatMap] at hl
  rcases hl with rfl | ⟨m, hm, hl⟩ | rfl
  · decide
  · exact isLine_of_mem_statementLines (noStray_of_mem_subtrees h hm) line hl
  · decide

end Expr

end Abacus

/-! # Graphs read -/

namespace Abacus.Dot

/-! ## Words -/

theorem words_append {w : List Char} (h : ' ' ∉ w) (cs : List Char) :
    words (w ++ ' ' :: cs) = w :: words cs := by
  induction w with
  | nil => simp [words]
  | cons c w ih =>
    simp only [List.mem_cons, not_or] at h
    rw [List.cons_append, words, if_neg (Ne.symm h.1), ih h.2]

theorem words_of_no_space {w : List Char} (h : ' ' ∉ w) : words w = [w] := by
  induction w with
  | nil => rfl
  | cons c w ih =>
    simp only [List.mem_cons, not_or] at h
    rw [words, if_neg (Ne.symm h.1), ih h.2]

/-- Words without spaces come back from the line that they make. -/
theorem words_intercalate {ws : List (List Char)} (hne : ws ≠ []) (h : ∀ w ∈ ws, ' ' ∉ w) :
    words ([' '].intercalate ws) = ws := by
  induction ws with
  | nil => exact absurd rfl hne
  | cons w ws ih =>
    obtain ⟨hw, hws⟩ := List.forall_mem_cons.mp h
    cases ws with
    | nil => rw [List.intercalate_singleton, words_of_no_space hw]
    | cons v vs =>
      rw [List.intercalate_cons_cons, List.append_assoc, List.singleton_append, words_append hw,
        ih (by simp) hws]

/-! ## Integers and labels -/

theorem no_space_toString (i : Int) : ' ' ∉ (toString i).toList :=
  not_mem_toString_int rfl (by decide) i

theorem int?_toString (i : Int) : int? (toString i).toList = some i := by
  have hd : (Nat.toDigits 10 i.natAbs).all Char.isDigit = true :=
    List.all_eq_true.mpr fun c => Binary64.isDigit_of_mem_toDigits
  have hne : (Nat.toDigits 10 i.natAbs).isEmpty = false := by
    simp [Nat.toDigits_ne_nil]
  rw [toList_toString_int]
  split
  · rw [List.singleton_append, int?, hd, hne, Nat.ofDigitChars_ten_toDigits]
    simp only [Bool.false_eq_true, Bool.not_true, or_self, if_false, Option.some.injEq]
    omega
  · rw [List.nil_append, int?, hd, hne, Nat.ofDigitChars_ten_toDigits]
    · simp only [Bool.false_eq_true, Bool.not_true, or_self, if_false, Option.some.injEq]
      omega
    · intro digits hdigits
      have hminus : '-' ∉ Nat.toDigits 10 i.natAbs :=
        not_mem_of_digits rfl fun d => Binary64.isDigit_of_mem_toDigits
      exact hminus (by rw [hdigits]; exact List.mem_cons_self)

theorem unquote?_quoted (label : String) : unquote? ('"' :: (label.toList ++ ['"'])) = some label := by
  simp [unquote?]

/-! ## Lines -/

open Abacus.Expr

def statementsOf (e : Expr) : List Statement :=
  .node e.place e.caption :: if e.operands = [] then [] else [.edges e.place (e.operands.map place)]

theorem ofLine?_nodeLine {e : Expr} (h : e.NoStray) :
    Statement.ofLine? e.nodeLine.toList = some (.node e.place e.caption) := by
  have hwords : words e.nodeLine.toList = [[], [], (toString e.place).toList, ['['],
      ['l', 'a', 'b', 'e', 'l'], ['='], '"' :: (e.caption.toList ++ ['"']), [']']] := by
    have hline : e.nodeLine.toList = [' '].intercalate [[], [], (toString e.place).toList, ['['],
        ['l', 'a', 'b', 'e', 'l'], ['='], '"' :: (e.caption.toList ++ ['"']), [']']] := by
      simp [nodeLine, List.intercalate]
    rw [hline, words_intercalate (by simp)]
    have := no_space_toString e.place
    have hcaption : ' ' ∉ e.caption.toList := not_mem_caption h rfl (by decide)
    simp_all
  unfold Statement.ofLine?
  rw [hwords]
  simp only [int?_toString, unquote?_quoted]
  rfl

theorem mapM_int?_toString (is : List Int) :
    (is.map fun i => (toString i).toList).mapM int? = some is := by
  induction is with
  | nil => rfl
  | cons i is ih =>
    rw [List.map_cons, List.mapM_cons, int?_toString, ih]
    rfl

theorem words_edgeLine {e : Expr} (h : e.operands ≠ []) : words e.edgeLine.toList =
    [[], [], (toString e.place).toList, ['-', '-'], ['\x7b']] ++
      (((e.operands.map place).map fun i => (toString i).toList) ++ [['\x7d']]) := by
  have hline : e.edgeLine = " ".intercalate (["", "", toString e.place, "--", "\x7b"] ++
      ((e.operands.map fun kid => toString kid.place) ++ ["\x7d"])) := by
    rw [String.intercalate_append_of_ne_nil (by simp) (by simp),
      String.intercalate_append_of_ne_nil (by simpa using h) (by simp)]
    rw [← String.toList_inj]
    simp [edgeLine, String.intercalate_cons_cons]
  have hspace : " ".toList = [' '] := rfl
  rw [hline, String.toList_intercalate, hspace, words_intercalate (by simp)]
  · simp
  · simp only [List.map_append, List.map_cons, List.map_nil, List.map_map, List.mem_append, List.mem_cons,
      List.not_mem_nil, or_false, List.mem_map]
    rintro w ((rfl | rfl | rfl | rfl | rfl) | ⟨kid, -, rfl⟩ | rfl)
    · decide
    · decide
    · exact no_space_toString _
    · decide
    · decide
    · exact no_space_toString _
    · decide

theorem ofLine?_edgeLine {e : Expr} (h : e.operands ≠ []) :
    Statement.ofLine? e.edgeLine.toList = some (.edges e.place (e.operands.map place)) := by
  unfold Statement.ofLine?
  rw [words_edgeLine h]
  simp only [List.cons_append, List.nil_append, List.getLast?_concat, if_true, List.dropLast_concat,
    int?_toString, mapM_int?_toString]
  rfl

theorem mapM_ofLine?_statementLines {e : Expr} (h : e.NoStray) :
    (e.statementLines.map String.toList).mapM Statement.ofLine? = some (statementsOf e) := by
  unfold statementLines statementsOf
  split
  · simp [ofLine?_nodeLine h]
  · rename_i ho
    simp [ofLine?_nodeLine h, ofLine?_edgeLine ho]

/-! ## Graphs -/

theorem mapM_ofLine?_flatMap {es : List Expr} (h : ∀ e ∈ es, e.NoStray) :
    ((es.flatMap statementLines).map String.toList).mapM Statement.ofLine? =
      some (es.flatMap statementsOf) := by
  induction es with
  | nil => rfl
  | cons e es ih =>
    obtain ⟨he, hes⟩ := List.forall_mem_cons.mp h
    rw [List.flatMap_cons, List.map_append, List.mapM_append, mapM_ofLine?_statementLines he, ih hes]
    rfl

theorem ofText?_graphLines {e : Expr} (h : e.NoStray) :
    Graph.ofText? (Text.joined e.graphLines) = some ⟨e.subtrees.flatMap statementsOf⟩ := by
  have hpieces : Text.pieces (Text.joined e.graphLines).toList = e.graphLines.map String.toList := by
    have hl : Text.linesOf (Text.joined e.graphLines) = e.graphLines :=
      Text.linesOf_joined (by simp [graphLines]) (isLine_of_mem_graphLines h)
    simpa [Text.linesOf, Function.comp_def] using congrArg (List.map String.toList) hl
  unfold Graph.ofText?
  rw [hpieces]
  simp only [graphLines, List.map_cons, List.map_append, List.map_nil]
  rw [List.getLast?_append, List.dropLast_concat]
  have hm := mapM_ofLine?_flatMap fun m (hm : m ∈ e.subtrees) => noStray_of_mem_subtrees h hm
  simp [hm]

end Abacus.Dot
