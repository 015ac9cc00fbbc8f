/-
  Abacus.Proofs.Expr.Walk — a walk visits a tree in pre-order.

  - `rest_of_noStray`: over a tree without texts in place of operands a walk goes on with what
    lies on its stack below the tree, having visited the nodes of the tree in pre-order.
  - `nodes_of_noStray` / `count_of_noStray`: so the nodes of such a tree are its pre-order, and
    there are as many as the tree is large.
  - `positions_preOrder_perm`: the nodes stand where the entries of the tree do.

  A node of a tree is told by the subtree that it is the root of, and `subtrees` lists them in
  pre-order. `place`, `caption` and `operands` are what a node shows, without the refusal of a
  text in place of an operand: where no such text is, they are the same
  (`position_eq_place` and its neighbours, `nodes_eq_subtrees`).

  - `operands_perm`: each node but the root is an operand of one node, once.

  A request for the next node is answered with a node, with the refusal of a text in its place,
  or, at the end of the walk, with nothing (`visit?`); the walk goes on behind it (`advance`).
  `upcoming` lists what lies on the stack in pre-order, from the top down.

  - `upcoming_step`: one request takes the first entry off that list and leaves the others, also
    when it is refused.
  - `visits_eq` / `visits_append_upcoming`: so any number of requests have been answered with a
    front of the list, and with nothing when all of it has been handed out.
  - `next?_eq_error`: a refused request takes the text that it is refused for, and no more.
  - `visits_in_preOrder`: from the root, the list is the pre-order of the tree.
-/

import Mathlib.Data.List.Nodup
import Abacus.Expr.Orders
import Abacus.Expr.Traversal

namespace Abacus

/-! # Whole walks -/

namespace Walk

/-! ## The next node, then the rest -/

theorem rest_done : (⟨[]⟩ : Walk).rest = (.ok [], ⟨[]⟩) := by
  rw [rest]
  rfl

def ahead (visited : List Expr) (r : Except Expr.Fault (List Expr) × Walk) :
    Except Expr.Fault (List Expr) × Walk :=
  (r.1.map (visited ++ ·), r.2)

theorem ahead_ahead (ms ns : List Expr) (r : Except Expr.Fault (List Expr) × Walk) :
    ahead ms (ahead ns r) = ahead (ms ++ ns) r := by
  obtain ⟨outcome, w⟩ := r
  cases outcome with
  | error f => rfl
  | ok es => simp [ahead, Except.map]

theorem next?_of_children {e : Expr} {kids : List Expr} (h : e.children = .ok kids) (es : List Expr) :
    (⟨e :: es⟩ : Walk).next? = some (.ok e, ⟨kids ++ es⟩) := by
  simp only [next?, h]

theorem rest_of_children {e : Expr} (kids : List Expr) (h : e.children = .ok kids) (es : List Expr) :
    (⟨e :: es⟩ : Walk).rest = ahead [e] (⟨kids ++ es⟩ : Walk).rest := by
  have hn := next?_of_children h es
  rw [rest]
  split
  · rename_i hnone
    rw [hn] at hnone
    cases hnone
  · rename_i herror
    rw [hn] at herror
    cases herror
  · rename_i e' w' hsome
    rw [hn] at hsome
    cases hsome
    rfl

/-! ## Whole trees -/

theorem rest_of_noStray {e : Expr} (h : e.NoStray) : ∃ visited : List Expr,
    visited.map Except.ok = e.preOrder ∧
      ∀ es, (⟨e :: es⟩ : Walk).rest = ahead visited (⟨es⟩ : Walk).rest := by
  induction e with
  | binary op position lhs rhs ihl ihr =>
    obtain ⟨ls, hls, hl⟩ := ihl h.1
    obtain ⟨rs, hrs, hr⟩ := ihr h.2
    refine ⟨.binary op position lhs rhs :: (ls ++ rs), ?_, ?_⟩
    · simp [Expr.preOrder, hls, hrs]
    · intro es
      rw [rest_of_children [lhs, rhs] rfl, List.cons_append, hl, List.singleton_append, hr,
        ahead_ahead, ahead_ahead]
      rfl
  | unary op position operand ih =>
    obtain ⟨ns, hns, hn⟩ := ih h
    refine ⟨.unary op position operand :: ns, ?_, ?_⟩
    · simp [Expr.preOrder, hns]
    · intro es
      rw [rest_of_children [operand] rfl, List.singleton_append, hn, ahead_ahead]
      rfl
  | constant position value =>
    refine ⟨[.constant position value], rfl, ?_⟩
    intro es
    exact rest_of_children [] rfl es
  | stray text => exact absurd h id

end Walk

namespace Expr

theorem nodes_of_noStray {e : Expr} (h : e.NoStray) :
    ∃ visited : List Expr, e.nodes = .ok visited ∧ visited.map Except.ok = e.preOrder := by
  obtain ⟨visited, hv, hr⟩ := Walk.rest_of_noStray h
  refine ⟨visited, ?_, hv⟩
  unfold nodes Walk.ofRoot
  rw [hr, Walk.rest_done]
  simp [Walk.ahead, Except.map]

theorem count_of_noStray {e : Expr} (h : e.NoStray) : e.count = .ok e.size := by
  obtain ⟨visited, hn, hv⟩ := nodes_of_noStray h
  have hl : visited.length = e.size := by
    rw [← length_preOrder, ← hv, List.length_map]
  unfold count
  rw [hn, ← hl]
  rfl

/-! ## Nodes and entries -/

theorem length_inOrder {e : Expr} (h : e.NoStray) : e.inOrder.length = e.size := by
  induction e with
  | binary _ _ _ _ ihl ihr => simp [inOrder, size, ihl h.1, ihr h.2, Nat.add_assoc]
  | unary _ _ _ ih => simp [inOrder, size, ih h]
  | constant => rfl
  | stray => exact absurd h id

theorem positions_preOrder_perm {e : Expr} (h : e.NoStray) :
    (e.preOrder.map fun visit => visit.bind position).Perm
      (e.inOrder.map fun entry => .ok entry.position) := by
  induction e with
  | binary op p lhs rhs ihl ihr =>
    have hp := (ihl h.1).append (ihr h.2)
    simp only [preOrder, inOrder, List.map_cons, List.map_append] at hp ⊢
    exact (hp.cons _).trans List.perm_middle.symm
  | unary op p operand ih => exact (ih h).cons _
  | constant p value => exact List.Perm.refl _
  | stray text => exact absurd h id

/-- Where entries stand at different places, so do nodes. -/
theorem nodup_positions_of_inOrder {e : Expr} (h : e.NoStray) {visited : List Expr}
    (hv : visited.map Except.ok = e.preOrder) (hd : (e.inOrder.map Entry.position).Nodup) :
    (visited.map position).Nodup := by
  have hp := positions_preOrder_perm h
  rw [← hv, List.map_map] at hp
  refine hp.nodup_iff.mpr ?_
  rw [show (fun entry : Entry => (Except.ok entry.position : Except Fault Int)) =
    Except.ok ∘ Entry.position from rfl, ← List.map_map]
  exact hd.map fun p q hpq => Except.ok.inj hpq

end Expr

end Abacus

/-! # Nodes and operands -/

namespace Abacus.Expr

/-- The position of a node; a text has none, and counts as standing at 0. -/
def place : Expr → Int
  | .binary _ position _ _ | .unary _ position _ | .constant position _ => position
  | .stray _ => 0

def caption : Expr → String
  | .binary op .. => op.symbol
  | .unary op .. => op.symbol
  | .constant _ value => toString value
  | .stray text => text

def operands : Expr → List Expr
  | .binary _ _ lhs rhs => [lhs, rhs]
  | .unary _ _ operand => [operand]
  | .constant .. | .stray _ => []

def subtrees : Expr → List Expr
  | .binary op position lhs rhs => .binary op position lhs rhs :: (lhs.subtrees ++ rhs.subtrees)
  | .unary op position operand => .unary op position operand :: operand.subtrees
  | .constant position value => [.constant position value]
  | .stray text => [.stray text]

/-- The tree is a node, whatever its operands are. -/
def IsNode (e : Expr) : Prop := ∀ text, e ≠ .stray text

theorem isNode_binary (op : BinaryOp) (position : Int) (lhs rhs : Expr) :
    IsNode (.binary op position lhs rhs) := nofun

theorem isNode_unary (op : UnaryOp) (position : Int) (operand : Expr) :
    IsNode (.unary op position operand) := nofun

theorem isNode_constant (position : Int) (value : Nat) : IsNode (.constant position value) := nofun

theorem isNode_or_stray (e : Expr) : e.IsNode ∨ ∃ text, e = .stray text := by
  cases e with
  | stray text => exact .inr ⟨text, rfl⟩
  | binary op position lhs rhs => exact .inl (isNode_binary op position lhs rhs)
  | unary op position operand => exact .inl (isNode_unary op position operand)
  | constant position value => exact .inl (isNode_constant position value)

theorem NoStray.isNode {e : Expr} (h : e.NoStray) : e.IsNode := by
  rintro text rfl
  exact h

section IsNode

variable {e : Expr} (h : e.IsNode)
include h

theorem position_of_isNode : e.position = .ok e.place := by
  cases e with
  | stray text => exact absurd rfl (h text)
  | binary | unary | constant => rfl

theorem label_of_isNode : e.label = .ok e.caption := by
  cases e with
  | stray text => exact absurd rfl (h text)
  | binary | unary | constant => rfl

theorem children_of_isNode : e.children = .ok e.operands := by
  cases e with
  | stray text => exact absurd rfl (h text)
  | binary | unary | constant => rfl

/-- A node comes first in its pre-order, and its operands follow one by one. -/
theorem preOrder_of_isNode : e.preOrder = .ok e :: e.operands.flatMap preOrder := by
  cases e with
  | stray text => exact absurd rfl (h text)
  | binary | unary | constant => simp [preOrder, operands]

end IsNode

theorem position_eq_place {e : Expr} (h : e.NoStray) : e.position = .ok e.place :=
  position_of_isNode h.isNode

theorem label_eq_caption {e : Expr} (h : e.NoStray) : e.label = .ok e.caption :=
  label_of_isNode h.isNode

theorem children_eq_operands {e : Expr} (h : e.NoStray) : e.children = .ok e.operands :=
  children_of_isNode h.isNode

theorem noStray_of_mem_operands {e m : Expr} (h : e.NoStray) (hm : m ∈ e.operands) : m.NoStray := by
  cases e with
  | binary _ _ lhs rhs =>
    simp only [operands, List.mem_cons, List.not_mem_nil, or_false] at hm
    rcases hm with rfl | rfl
    · exact h.1
    · exact h.2
  | unary _ _ operand =>
    rw [List.mem_singleton.mp hm]
    exact h
  | constant | stray => cases hm

theorem size_lt_of_mem_operands {e m : Expr} (hm : m ∈ e.operands) : m.size < e.size := by
  cases e with
  | binary _ _ lhs rhs =>
    simp only [operands, List.mem_cons, List.not_mem_nil, or_false] at hm
    simp only [size]
    rcases hm with rfl | rfl <;> omega
  | unary _ _ operand =>
    rw [List.mem_singleton.mp hm]
    exact Nat.lt_succ_self _
  | constant | stray => cases hm

/-- What is put before a listing in two steps may be put before it in one. -/
theorem map_append_map (as bs : List String) (r : Except Fault (List String)) :
    (r.map (bs ++ ·)).map (as ++ ·) = r.map ((as ++ bs) ++ ·) := by
  cases r <;> simp [Except.map]

/-! ## Subtrees -/

theorem preOrder_eq_subtrees {e : Expr} (h : e.NoStray) : e.preOrder = e.subtrees.map Except.ok := by
  induction e with
  | binary _ _ _ _ ihl ihr => simp [preOrder, subtrees, ihl h.1, ihr h.2]
  | unary _ _ _ ih => simp [preOrder, subtrees, ih h]
  | constant => rfl
  | stray => exact absurd h id

theorem nodes_eq_subtrees {e : Expr} (h : e.NoStray) : e.nodes = .ok e.subtrees := by
  obtain ⟨visited, hn, hv⟩ := nodes_of_noStray h
  rw [preOrder_eq_subtrees h] at hv
  rw [hn, List.map_injective_iff.mpr (fun _ _ => Except.ok.inj) hv]

theorem length_subtrees (e : Expr) : e.subtrees.length = e.size := by
  induction e with
  | binary _ _ _ _ ihl ihr => simp [subtrees, size, ihl, ihr]
  | unary _ _ _ ih => simp [subtrees, size, ih]
  | constant => rfl
  | stray => rfl

theorem subtrees_eq_cons (e : Expr) : e.subtrees = e :: e.subtrees.tail := by
  cases e <;> rfl

theorem noStray_of_mem_subtrees {e m : Expr} (h : e.NoStray) (hm : m ∈ e.subtrees) : m.NoStray := by
  induction e with
  | binary _ _ _ _ ihl ihr =>
    rcases List.mem_cons.mp hm with rfl | hm
    · exact h
    · exact (List.mem_append.mp hm).elim (ihl h.1) (ihr h.2)
  | unary _ _ _ ih =>
    rcases List.mem_cons.mp hm with rfl | hm
    · exact h
    · exact ih h hm
  | constant | stray =>
    rw [List.mem_singleton.mp hm]
    exact h

/-- The operands of all nodes are the nodes below the root, each once. -/
theorem operands_perm (e : Expr) : (e.subtrees.flatMap operands).Perm e.subtrees.tail := by
  induction e with
  | binary op position lhs rhs ihl ihr =>
    have hl : (lhs :: lhs.subtrees.flatMap operands).Perm lhs.subtrees := by
      rw [lhs.subtrees_eq_cons]
      exact (lhs.subtrees_eq_cons ▸ ihl).cons lhs
    have hr : (rhs :: rhs.subtrees.flatMap operands).Perm rhs.subtrees := by
      rw [rhs.subtrees_eq_cons]
      exact (rhs.subtrees_eq_cons ▸ ihr).cons rhs
    have hswap : (rhs :: (lhs.subtrees.flatMap operands ++ rhs.subtrees.flatMap operands)).Perm
        (lhs.subtrees.flatMap operands ++ rhs :: rhs.subtrees.flatMap operands) :=
      List.perm_middle.symm
    simp only [subtrees, List.flatMap_cons, List.flatMap_append, List.tail_cons, operands]
    exact (hswap.cons lhs).trans (hl.append hr)
  | unary op position operand ih =>
    simp only [subtrees, List.flatMap_cons, List.tail_cons, operands]
    rw [operand.subtrees_eq_cons]
    exact (operand.subtrees_eq_cons ▸ ih).cons operand
  | constant => exact List.Perm.refl _
  | stray => exact List.Perm.refl _

end Abacus.Expr

/-! # Requests -/

namespace Abacus.Walk

open Abacus.Expr

def visit? (w : Walk) : Option (Except Fault Expr) := w.next?.map Prod.fst

/-- The walk behind a request for its next node; a finished walk stays as it is. -/
def advance (w : Walk) : Walk := (w.next?.map Prod.snd).getD w

def visits (w : Walk) : Nat → List (Option (Except Fault Expr))
  | 0 => []
  | n + 1 => w.visit? :: w.advance.visits n

def after (w : Walk) : Nat → Walk
  | 0 => w
  | n + 1 => w.advance.after n

def upcoming (w : Walk) : List (Except Fault Expr) := w.pending.flatMap preOrder

/-! ## One request -/

theorem next?_of_isNode {e : Expr} (h : e.IsNode) (es : List Expr) :
    (⟨e :: es⟩ : Walk).next? = some (.ok e, ⟨e.operands ++ es⟩) :=
  next?_of_children (children_of_isNode h) es

/-- A refused request takes the text off the stack and leaves all that lies below it. -/
theorem next?_eq_error {w later : Walk} {f : Fault} (h : w.next? = some (.error f, later)) :
    ∃ text, w.pending = .stray text :: later.pending ∧ f = .notAnExpression text := by
  obtain ⟨_ | ⟨e, es⟩⟩ := w
  · cases h
  · rcases e.isNode_or_stray with hn | ⟨text, rfl⟩
    · rw [next?_of_isNode hn] at h
      cases h
    · cases h
      exact ⟨text, rfl, rfl⟩

/-- A request is answered with the first entry of what is still to be visited, and the others
    are left. -/
theorem upcoming_step (w : Walk) :
    w.visit? = w.upcoming.head? ∧ w.advance.upcoming = w.upcoming.tail := by
  obtain ⟨_ | ⟨e, es⟩⟩ := w
  · exact ⟨rfl, rfl⟩
  · rcases e.isNode_or_stray with hn | ⟨text, rfl⟩
    · simp [visit?, advance, next?_of_isNode hn, upcoming, preOrder_of_isNode hn]
    · exact ⟨rfl, rfl⟩

/-! ## Any number of requests -/

theorem upcoming_after (w : Walk) (n : Nat) : (w.after n).upcoming = w.upcoming.drop n := by
  induction n generalizing w with
  | zero => rfl
  | succ n ih => rw [after, ih, (upcoming_step w).2, List.drop_tail]

/-- The answers are what was still to be visited, one by one, and nothing behind the last. -/
theorem visits_eq (w : Walk) (n : Nat) : w.visits n =
    (w.upcoming.take n).map some ++ List.replicate (n - w.upcoming.length) none := by
  induction n generalizing w with
  | zero => simp [visits]
  | succ n ih =>
    obtain ⟨hvisit, hadvance⟩ := upcoming_step w
    rw [visits, ih, hvisit, hadvance]
    cases w.upcoming with
    | nil => simp [List.replicate_succ]
    | cons r rs => simp

/-- What has been handed out and what lies on the stack are together what was to be visited. -/
theorem visits_append_upcoming (w : Walk) (n : Nat) :
    (w.visits n).filterMap id ++ (w.after n).upcoming = w.upcoming := by
  have hgiven : (w.visits n).filterMap id = w.upcoming.take n := by
    rw [visits_eq, List.filterMap_append, List.filterMap_map]
    simp
  rw [hgiven, upcoming_after, List.take_append_drop]

theorem visits_add (w : Walk) (m n : Nat) : w.visits (m + n) = w.visits m ++ (w.after m).visits n := by
  induction m generalizing w with
  | zero => simp [visits, after]
  | succ m ih =>
    rw [Nat.succ_add, visits, visits, ih, after]
    rfl

theorem length_upcoming_ofRoot (root : Expr) : (ofRoot root).upcoming.length = root.size := by
  rw [upcoming, ofRoot, List.flatMap_singleton, length_preOrder]

theorem visits_in_preOrder (root : Expr) (calls : Nat) :
    let start := Walk.ofRoot root
    let walk := start.after calls
    (start.visits calls).filterMap id ++ walk.pending.flatMap preOrder = root.preOrder ∧
    start.visits calls =
      (root.preOrder.take calls).map some ++ List.replicate (calls - root.size) none ∧
    (root.IsNode → start.visit? = some (.ok root)) ∧
    (∀ f later, walk.next? = some (.error f, later) →
      ∃ text, walk.pending = .stray text :: later.pending ∧ f = .notAnExpression text ∧
        ∀ more, start.visits (calls + (more + 1)) =
          start.visits calls ++ some (.error f) :: later.visits more) ∧
    (root.size ≤ calls → walk.next? = none) := by
  intro start walk
  have hroot : start.upcoming = root.preOrder := List.flatMap_singleton ..
  refine ⟨?_, ?_, ?_, ?_, ?_⟩
  · rw [← hroot]
    exact visits_append_upcoming start calls
  · rw [visits_eq, length_upcoming_ofRoot, hroot]
  · intro hn
    rw [visit?, show start = ⟨[root]⟩ from rfl, next?_of_isNode hn]
    rfl
  · intro f later hnext
    obtain ⟨text, hpending, hf⟩ := next?_eq_error hnext
    refine ⟨text, hpending, hf, ?_⟩
    intro more
    rw [visits_add, visits]
    show start.visits calls ++ walk.visit? :: walk.advance.visits more = _
    rw [visit?, advance, hnext]
    rfl
  · intro hsize
    have hleft : walk.upcoming = [] := by
      rw [upcoming_after, List.drop_eq_nil_iff, length_upcoming_ofRoot]
      exact hsize
    have hvisit : walk.visit? = none := by rw [(upcoming_step walk).1, hleft, List.head?_nil]
    exact Option.map_eq_none_iff.mp hvisit

/-- Over `"x" - 7` the second request is refused for `x`, the third is answered with `7`, and the
    walk is finished. -/
theorem visits_of_stray_difference :
    let start := Walk.ofRoot (.binary .subtract 4 (.stray "x") (.constant 6 7))
    (IsNode (.binary .subtract 4 (.stray "x") (.constant 6 7)) ∧
      start.visit? = some (.ok (.binary .subtract 4 (.stray "x") (.constant 6 7)))) ∧
    ((start.after 1).next? = some (.error (.notAnExpression "x"), ⟨[.constant 6 7]⟩) ∧
      start.visits 4 = start.visits 1 ++ some (.error (.notAnExpression "x")) ::
        (⟨[.constant 6 7]⟩ : Walk).visits 2) ∧
    (size (.binary .subtract 4 (.stray "x") (.constant 6 7)) ≤ 3 ∧ (start.after 3).next? = none) := by
  obtain ⟨-, -, hfirst, -, -⟩ := visits_in_preOrder (.binary .subtract 4 (.stray "x") (.constant 6 7)) 0
  obtain ⟨-, -, -, hrefused, -⟩ := visits_in_preOrder (.binary .subtract 4 (.stray "x") (.constant 6 7)) 1
  obtain ⟨-, -, -, -, hend⟩ := visits_in_preOrder (.binary .subtract 4 (.stray "x") (.constant 6 7)) 3
  have hnode := isNode_binary .subtract 4 (.stray "x") (.constant 6 7)
  obtain ⟨text, -, -, hmore⟩ := hrefused _ _ rfl
  exact ⟨⟨hnode, hfirst hnode⟩, ⟨rfl, hmore 2⟩, ⟨by decide, hend (by decide)⟩⟩

end Abacus.Walk
