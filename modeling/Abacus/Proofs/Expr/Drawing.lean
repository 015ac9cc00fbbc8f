/-
  Abacus.Proofs.Expr.Drawing — a drawn tree is its outline, line by line.

  A node on the stack stands at the end of a path, and its lead and its place are those of the
  path (`pendingAt`). `drawPending_of_noStray`: so a tree on the stack is drawn as its outline
  below the path, and then what lies on the stack under it.

  One node may stand in a tree more than once, so a place of the tree is told by its address:
  for each step from the root down, the index of the operand that is gone to.

  - `mem_addresses`: `addresses` lists the addresses that lead to a place of the tree.
  - `pairwise_addresses`: they are listed in lexicographic order, so each of them once, and a
    place before those below it and before those to its right.
  - `map_at?_addresses`: in that order the trees at the addresses are the subtrees in pre-order.
  - `map_lineAt?_addresses`: the line of an address is told by the path to it and by the node
    there (`lineAt?`); the outline of a tree has the lines of its addresses, in their order.

  `drawing_line_by_line`: so a drawing has one line for each place of the tree, in the order in
  which a walk comes to it, and a line feed behind each.
-/

import Abacus.Expr.Orders
import Abacus.Expr.Traversal
import Abacus.Proofs.Expr.Graph
import Abacus.Proofs.Expr.Walk

namespace Abacus.Expr

/-! # Outlines -/

def columns (path : List Bool) : String := String.join (path.map column)

def placeAt (path : List Bool) : Place :=
  match path.getLast? with
  | none => .root
  | some true => .inner
  | some false => .last

def pendingAt (path : List Bool) (e : Expr) : Pending := ⟨e, columns path.dropLast, placeAt path⟩

theorem lead_concat (path : List Bool) (followed : Bool) :
    lead (path ++ [followed]) = columns path ++ mark followed := by
  induction path with
  | nil => simp [lead, columns]
  | cons f path ih =>
    have hlead : lead (f :: (path ++ [followed])) = column f ++ lead (path ++ [followed]) := by
      cases path <;> rfl
    rw [List.cons_append, hlead, ih]
    simp [columns, String.append_assoc]

theorem lead_eq (path : List Bool) : columns path.dropLast ++ (placeAt path).mark = lead path := by
  rcases List.eq_nil_or_concat path with rfl | ⟨path, followed, rfl⟩
  · simp [columns, placeAt, Place.mark, lead]
  · rw [List.concat_eq_append, lead_concat, List.dropLast_concat, placeAt, List.getLast?_concat]
    cases followed <;> rfl

theorem columns_eq (path : List Bool) :
    columns path.dropLast ++ (placeAt path).indent = columns path := by
  rcases List.eq_nil_or_concat path with rfl | ⟨path, followed, rfl⟩
  · simp [columns, placeAt, Place.indent]
  · rw [List.concat_eq_append, List.dropLast_concat, placeAt, List.getLast?_concat]
    cases followed <;> simp [columns, Place.indent, column]

/-! ## Drawing -/

theorem siblings_pair (path : List Bool) (a b : Expr) : siblings (columns path) [a, b] =
    [pendingAt (path ++ [true]) a, pendingAt (path ++ [false]) b] := by
  simp [siblings, pendingAt, placeAt]

theorem siblings_single (path : List Bool) (e : Expr) :
    siblings (columns path) [e] = [pendingAt (path ++ [false]) e] := by
  simp [siblings, pendingAt, placeAt]

/-- Drawing a node draws its line, then its operands, then the rest of the stack. -/
theorem drawPending_cons {path : List Bool} {e : Expr} (h : e.IsNode) (ps : List Pending) :
    drawPending (pendingAt path e :: ps) =
      (drawPending (siblings (columns path) e.operands ++ ps)).map
        (outlineLine path e.caption e.place :: ·) := by
  have hline : (pendingAt path e).line = .ok (outlineLine path e.caption e.place) := by
    simp only [Pending.line, pendingAt, label_of_isNode h, position_of_isNode h, bind, Except.bind,
      pure, Except.pure, lead_eq]
    rfl
  have hkids : (pendingAt path e).node.children = .ok e.operands := children_of_isNode h
  have hlead : (pendingAt path e).lead ++ (pendingAt path e).place.indent = columns path := columns_eq path
  rw [drawPending]
  split
  · rename_i line kids hl hk
    rw [hline] at hl
    rw [hkids] at hk
    cases hl
    cases hk
    rw [hlead]
    cases drawPending (siblings (columns path) e.operands ++ ps) <;> rfl
  · rename_i herror
    rw [hline] at herror
    cases herror
  · rename_i herror _
    rw [hkids] at herror
    cases herror

theorem drawPending_of_noStray {e : Expr} (h : e.NoStray) (path : List Bool) (ps : List Pending) :
    drawPending (pendingAt path e :: ps) = (drawPending ps).map (e.outline path ++ ·) := by
  induction e generalizing path ps with
  | binary op position lhs rhs ihl ihr =>
    rw [drawPending_cons h.isNode, operands, siblings_pair, List.cons_append, List.singleton_append,
      ihl h.1, ihr h.2, map_append_map]
    exact map_append_map [_] _ _
  | unary op position operand ih =>
    rw [drawPending_cons h.isNode, operands, siblings_single, List.singleton_append, ih h]
    exact map_append_map [_] _ _
  | constant => exact drawPending_cons h.isNode ps
  | stray => exact absurd h id

theorem drawingLines_eq_outline {e : Expr} (h : e.NoStray) : e.drawingLines = .ok (e.outline []) := by
  have hd := drawPending_of_noStray h [] []
  have hnil : drawPending [] = .ok [] := by rw [drawPending]
  rw [hnil] at hd
  have hroot : pendingAt [] e = ⟨e, "", .root⟩ := rfl
  rw [hroot] at hd
  rw [drawingLines, hd]
  simp [Except.map]

theorem drawing_of_noStray {e : Expr} (h : e.NoStray) :
    e.drawing = .ok (Text.joined (e.outline []) ++ "\n") := by
  rw [drawing, drawingLines_eq_outline h]
  rfl

/-! # Addresses -/

def at? (e : Expr) : List Nat → Option Expr
  | [] => some e
  | i :: address => e.operands[i]?.bind fun operand => operand.at? address

def addresses : Expr → List (List Nat)
  | .binary _ _ lhs rhs => [] :: (lhs.addresses.map (0 :: ·) ++ rhs.addresses.map (1 :: ·))
  | .unary _ _ operand => [] :: operand.addresses.map (0 :: ·)
  | .constant .. | .stray _ => [[]]

/-- For each step of an address, whether the operand gone to is followed by a sibling. -/
def path (e : Expr) : List Nat → List Bool
  | [] => []
  | i :: address =>
    decide (i + 1 < e.operands.length) ::
      (e.operands[i]?.map fun operand => operand.path address).getD []

theorem mem_addresses {e : Expr} {address : List Nat} :
    address ∈ e.addresses ↔ (e.at? address).isSome := by
  induction e generalizing address with
  | binary op position lhs rhs ihl ihr =>
    rcases address with _ | ⟨_ | _ | i, address⟩ <;> simp [addresses, at?, operands, ihl, ihr]
  | unary op position operand ih =>
    rcases address with _ | ⟨_ | i, address⟩ <;> simp [addresses, at?, operands, ih]
  | constant | stray => cases address <;> simp [addresses, at?, operands]

theorem pairwise_addresses (e : Expr) : e.addresses.Pairwise (List.Lex (· < ·)) := by
  have hbelow (i : Nat) {as : List (List Nat)} (h : as.Pairwise (List.Lex (· < ·))) :
      (as.map (i :: ·)).Pairwise (List.Lex (· < ·)) :=
    h.map _ fun _ _ => List.Lex.cons
  induction e with
  | binary op position lhs rhs ihl ihr =>
    refine List.Pairwise.cons ?_ (List.pairwise_append.mpr ⟨hbelow 0 ihl, hbelow 1 ihr, ?_⟩)
    · intro a ha
      rcases List.mem_append.mp ha with ha | ha <;>
        obtain ⟨b, -, rfl⟩ := List.mem_map.mp ha <;> exact .nil
    · intro a ha b hb
      obtain ⟨a, -, rfl⟩ := List.mem_map.mp ha
      obtain ⟨b, -, rfl⟩ := List.mem_map.mp hb
      exact .rel Nat.zero_lt_one
  | unary op position operand ih =>
    refine List.Pairwise.cons ?_ (hbelow 0 ih)
    intro a ha
    obtain ⟨b, -, rfl⟩ := List.mem_map.mp ha
    exact .nil
  | constant | stray => exact List.pairwise_singleton _ _

theorem map_at?_addresses (e : Expr) : e.addresses.map e.at? = e.subtrees.map some := by
  induction e with
  | binary op position lhs rhs ihl ihr =>
    simp only [addresses, subtrees, List.map_cons, List.map_append, List.map_map, ← ihl, ← ihr]
    rfl
  | unary op position operand ih =>
    simp only [addresses, subtrees, List.map_cons, List.map_map, ← ih]
    rfl
  | constant | stray => rfl

end Abacus.Expr

/-! # Lines -/

namespace Abacus

open Text

namespace Expr

def lineAt? (root : Expr) (address : List Nat) : Option String :=
  (root.at? address).map fun node => outlineLine (root.path address) node.caption node.place

/-! ## Addresses and lines -/

theorem map_outlineLine_addresses {e : Expr} (h : e.NoStray) (above : List Bool) :
    (e.addresses.map fun address => (e.at? address).map fun node =>
      outlineLine (above ++ e.path address) node.caption node.place) =
        (e.outline above).map some := by
  induction e generalizing above with
  | binary op position lhs rhs ihl ihr =>
    have hl := ihl h.1 (above ++ [true])
    have hr := ihr h.2 (above ++ [false])
    simp only [List.append_assoc, List.singleton_append] at hl hr
    simp only [addresses, outline, List.map_cons, List.map_append, List.map_map, ← hl, ← hr, path,
      List.append_nil]
    rfl
  | unary op position operand ih =>
    have ho := ih h (above ++ [false])
    simp only [List.append_assoc, List.singleton_append] at ho
    simp only [addresses, outline, List.map_cons, List.map_map, ← ho, path, List.append_nil]
    rfl
  | constant position value => simp [addresses, at?, path, outline, caption, place]
  | stray text => exact absurd h id

theorem map_lineAt?_addresses {e : Expr} (h : e.NoStray) :
    e.addresses.map e.lineAt? = (e.outline []).map some :=
  map_outlineLine_addresses h []

/-! ## Lines -/

theorem isLine_lead (path : List Bool) : IsLine (lead path) := by
  fun_induction lead path with
  | case1 => decide
  | case2 followed => cases followed <;> decide
  | case3 followed path hne ih =>
    refine isLine_append ?_ ih
    cases followed <;> decide

theorem isLine_outlineLine {label : String} (h : IsLine label) (path : List Bool) (position : Int) :
    IsLine (outlineLine path label position) :=
  isLine_append (isLine_append (isLine_append (isLine_lead path) h) (by decide))
    (isLine_toString_int position)

theorem isLine_of_mem_outline {e : Expr} (h : e.NoStray) {path : List Bool} :
    ∀ line ∈ e.outline path, IsLine line := by
  have hcaption {m : Expr} (hm : m.NoStray) : IsLine m.caption := not_mem_caption hm rfl (by decide)
  induction e generalizing path with
  | binary op position lhs rhs ihl ihr =>
    refine List.forall_mem_cons.mpr ⟨isLine_outlineLine (hcaption h) path position, ?_⟩
    exact List.forall_mem_append.mpr ⟨ihl h.1, ihr h.2⟩
  | unary op position operand ih =>
    exact List.forall_mem_cons.mpr ⟨isLine_outlineLine (hcaption h) path position, ih h⟩
  | constant position value =>
    exact List.forall_mem_singleton.mpr (isLine_outlineLine (hcaption h) path position)
  | stray text => exact absurd h id

/-- The outline of a tree begins with the line of its root. -/
theorem outline_eq_cons {e : Expr} (h : e.NoStray) (path : List Bool) :
    ∃ below, e.outline path = outlineLine path e.caption e.place :: below := by
  cases e with
  | stray => exact absurd h id
  | binary | unary | constant => exact ⟨_, rfl⟩

theorem outline_ne_nil {e : Expr} (h : e.NoStray) (path : List Bool) : e.outline path ≠ [] := by
  obtain ⟨below, hcons⟩ := outline_eq_cons h path
  rw [hcons]
  exact List.cons_ne_nil _ _

/-! ## Drawings -/

theorem drawing_line_by_line {root : Expr} (h : root.NoStray) :
    root.addresses.Pairwise (List.Lex (· < ·)) ∧
    (∀ address, address ∈ root.addresses ↔ (root.at? address).isSome) ∧
    ∃ (nodes : List Expr) (lines : List String), root.nodes = .ok nodes ∧
      root.drawing = .ok (String.join (lines.map (· ++ "\n"))) ∧
      root.addresses.map root.at? = nodes.map some ∧
      root.addresses.map root.lineAt? = lines.map some ∧
      ∀ line ∈ lines, IsLine line := by
  refine ⟨pairwise_addresses root, fun _ => mem_addresses, root.subtrees, root.outline [],
    nodes_eq_subtrees h, ?_, map_at?_addresses root, map_lineAt?_addresses h,
    isLine_of_mem_outline h⟩
  rw [drawing_of_noStray h, joined_append_feed (outline_ne_nil h [])]

/-- In `(3--2)*1` the negation stands below a node that is followed by a sibling. -/
theorem drawing_of_grouped_difference :
    NoStray (.binary .multiply 6 (.binary .subtract 2 (.constant 1 3) (.unary .negate 3 (.constant 4 2)))
      (.constant 7 1)) ∧
    drawing (.binary .multiply 6 (.binary .subtract 2 (.constant 1 3) (.unary .negate 3 (.constant 4 2)))
      (.constant 7 1)) =
        .ok "* @6\n├── - @2\n│   ├── 3 @1\n│   └── - @3\n│       └── 2 @4\n└── 1 @7\n" := by
  generalize hroot : binary .multiply 6 (.binary .subtract 2 (.constant 1 3)
    (.unary .negate 3 (.constant 4 2))) (.constant 7 1) = root
  have h : root.NoStray := by
    subst hroot
    decide
  obtain ⟨-, -, nodes, lines, -, hdrawing, -, hlines, -⟩ := drawing_line_by_line h
  have hlit : root.addresses.map root.lineAt? = ["* @6", "├── - @2", "│   ├── 3 @1", "│   └── - @3",
      "│       └── 2 @4", "└── 1 @7"].map some := by
    subst hroot
    decide +kernel
  rw [hlit] at hlines
  obtain rfl := List.map_injective_iff.mpr (fun _ _ => Option.some.inj) hlines
  exact ⟨h, hdrawing⟩

end Expr

end Abacus
