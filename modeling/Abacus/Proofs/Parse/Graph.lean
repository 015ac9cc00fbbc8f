/-
  Abacus.Proofs.Parse.Graph — the graph of a text is its tree.

  A graph names its nodes by their positions. In the tree of a text no two nodes share one
  (`nodup_places`), so naming them loses nothing: the edges are those between a node and its
  operands, each once (`mem_edges_iff`, `nodup_pairs`).

  `graph_depicts`: so the graph of a text, read as an undirected strict graph, is its tree.
-/

import Mathlib.Data.List.Nodup
import Mathlib.Data.Sym.Sym2
import Abacus.Proofs.Expr.Graph
import Abacus.Proofs.Parse.InOrder

namespace Abacus

namespace Dot

open Abacus.Expr

def graphOf (root : Expr) : Graph := ⟨root.subtrees.flatMap statementsOf⟩

theorem nodes_graphOf (root : Expr) :
    (graphOf root).nodes = root.subtrees.map fun m => (m.place, m.caption) := by
  unfold graphOf Graph.nodes
  induction root.subtrees with
  | nil => rfl
  | cons m ms ih =>
    rw [List.flatMap_cons, List.filterMap_append, ih, List.map_cons, statementsOf]
    split <;> rfl

theorem edges_graphOf (root : Expr) :
    (graphOf root).edges = root.subtrees.flatMap fun m => m.operands.map fun n => (m.place, n.place) := by
  unfold graphOf Graph.edges
  induction root.subtrees with
  | nil => rfl
  | cons m ms ih =>
    rw [List.flatMap_cons, List.flatMap_append, ih, List.flatMap_cons, statementsOf]
    split
    · rename_i ho
      simp [ho]
    · simp

theorem ids_graphOf (root : Expr) : (graphOf root).nodes.map Prod.fst = root.subtrees.map place := by
  rw [nodes_graphOf, List.map_map]
  rfl

/-- The ends of edges behind their beginnings are the nodes below the root, each once. -/
theorem ends_graphOf_perm (root : Expr) :
    ((graphOf root).edges.map Prod.snd).Perm (root.subtrees.tail.map place) := by
  have hends : (graphOf root).edges.map Prod.snd = (root.subtrees.flatMap operands).map place := by
    rw [edges_graphOf, List.map_flatMap, List.map_flatMap]
    simp [Function.comp_def]
  rw [hends]
  exact root.operands_perm.map place

theorem length_edges_graphOf (root : Expr) : (graphOf root).edges.length + 1 = root.size := by
  have hl := (ends_graphOf_perm root).length_eq
  have hs := congrArg List.length root.subtrees_eq_cons
  rw [List.length_map, List.length_map] at hl
  rw [length_subtrees, List.length_cons] at hs
  omega

theorem mem_edges_graphOf {root : Expr} {edge : Int × Int} : edge ∈ (graphOf root).edges ↔
    ∃ m ∈ root.subtrees, ∃ n ∈ m.operands, edge = (m.place, n.place) := by
  simp only [edges_graphOf, List.mem_flatMap, List.mem_map, eq_comm]

theorem mem_subtrees_of_mem_operands {root m n : Expr} (hm : m ∈ root.subtrees) (hn : n ∈ m.operands) :
    n ∈ root.subtrees :=
  List.mem_of_mem_tail (root.operands_perm.subset (List.mem_flatMap.mpr ⟨m, hm, hn⟩))

/-! ## Trees whose nodes stand at different places -/

section Places

variable {root : Expr} (hd : (root.subtrees.map place).Nodup)
include hd

theorem mem_edges_iff {m n : Expr} (hm : m ∈ root.subtrees) (hn : n ∈ root.subtrees) :
    (m.place, n.place) ∈ (graphOf root).edges ↔ n ∈ m.operands := by
  rw [mem_edges_graphOf]
  constructor
  · rintro ⟨m', hm', n', hn', heq⟩
    obtain ⟨hmm, hnn⟩ := Prod.mk.inj heq
    obtain rfl : m = m' := List.inj_on_of_nodup_map hd hm hm' hmm
    obtain rfl : n = n' := List.inj_on_of_nodup_map hd hn (mem_subtrees_of_mem_operands hm hn') hnn
    exact hn'
  · intro h
    exact ⟨m, hm, n, h, rfl⟩

/-- No edge is there twice, whichever way round it is named. -/
theorem nodup_pairs : ((graphOf root).edges.map fun edge => s(edge.1, edge.2)).Nodup := by
  have hends : ((graphOf root).edges.map Prod.snd).Nodup :=
    (ends_graphOf_perm root).nodup_iff.mpr (hd.sublist ((List.tail_sublist _).map place))
  refine List.Nodup.map_on ?_ hends.of_map
  intro a ha b hb hab
  obtain ⟨m, hm, n, hn, rfl⟩ := mem_edges_graphOf.mp ha
  have hn' := mem_subtrees_of_mem_operands hm hn
  rcases Sym2.eq_iff.mp hab with ⟨h1, h2⟩ | ⟨h1, h2⟩
  · exact Prod.ext h1 h2
  · -- the other way round the parent would be an operand of its own operand
    have hback : (n.place, m.place) ∈ (graphOf root).edges := by
      obtain rfl : b = (n.place, m.place) := Prod.ext h2.symm h1.symm
      exact hb
    have hm' := (mem_edges_iff hd hn' hm).mp hback
    have := size_lt_of_mem_operands hn
    have := size_lt_of_mem_operands hm'
    omega

theorem ne_of_mem_edges {edge : Int × Int} (h : edge ∈ (graphOf root).edges) : edge.1 ≠ edge.2 := by
  obtain ⟨m, hm, n, hn, rfl⟩ := mem_edges_graphOf.mp h
  intro heq
  obtain rfl : m = n := List.inj_on_of_nodup_map hd hm (mem_subtrees_of_mem_operands hm hn) heq
  exact Nat.lt_irrefl _ (size_lt_of_mem_operands hn)

theorem mem_edges_position_iff (hs : root.NoStray) {m n : Expr} (hm : m ∈ root.subtrees)
    (hn : n ∈ root.subtrees) {p q : Int} {kids : List Expr} (hp : m.position = .ok p)
    (hq : n.position = .ok q) (hkids : m.children = .ok kids) :
    (p, q) ∈ (graphOf root).edges ↔ n ∈ kids := by
  have hm' := noStray_of_mem_subtrees hs hm
  rw [position_eq_place hm'] at hp
  rw [position_eq_place (noStray_of_mem_subtrees hs hn)] at hq
  rw [children_eq_operands hm'] at hkids
  rw [← Except.ok.inj hp, ← Except.ok.inj hq, ← Except.ok.inj hkids]
  exact mem_edges_iff hd hm hn

end Places

/-- The graph is the tree: a node for each of the tree's nodes, in the order of a walk, with
    its position as its name and with its label; and an edge for each operand. -/
structure Depicts (g : Graph) (root : Expr) (visited : List Expr) : Prop where
  root_first : visited.head? = some root
  nodes : g.nodes.map (fun node => (.ok node.1, .ok node.2)) =
    visited.map fun m => (m.position, m.label)
  /-- No two nodes have one name. -/
  nodup_ids : (g.nodes.map Prod.fst).Nodup
  /-- What an edge joins are nodes of the graph, and not one node with itself. -/
  ends_mem : ∀ edge ∈ g.edges, edge.1 ∈ g.nodes.map Prod.fst ∧ edge.2 ∈ g.nodes.map Prod.fst
  ends_ne : ∀ edge ∈ g.edges, edge.1 ≠ edge.2
  /-- Edges lead from the nodes to their operands. -/
  mem_edges : ∀ m ∈ visited, ∀ n ∈ visited, ∀ p q kids, m.position = .ok p → n.position = .ok q →
    m.children = .ok kids → ((p, q) ∈ g.edges ↔ n ∈ kids)
  /-- Read without a direction, they join the nodes of which one is an operand of the other. -/
  joined_iff : ∀ m ∈ visited, ∀ n ∈ visited, ∀ p q ms ns, m.position = .ok p → n.position = .ok q →
    m.children = .ok ms → n.children = .ok ns → (g.Joined p q ↔ n ∈ ms ∨ m ∈ ns)
  /-- Every node but the first is named once as an operand, and the first never. -/
  operands_perm : (g.edges.map Prod.snd).Perm (g.nodes.map Prod.fst).tail
  /-- No edge is named twice, whichever way round. -/
  nodup_pairs : (g.edges.map fun edge => s(edge.1, edge.2)).Nodup
  length_nodes : g.nodes.length = root.size
  length_edges : g.edges.length + 1 = root.size

/-- Where no two nodes of a tree stand at one place, its statements are the tree. -/
theorem depicts_graphOf {root : Expr} (hs : root.NoStray) (hd : (root.subtrees.map place).Nodup) :
    Depicts (graphOf root) root root.subtrees where
  root_first := by rw [subtrees_eq_cons]; rfl
  nodes := by
    rw [nodes_graphOf, List.map_map]
    refine List.map_congr_left fun m hm => ?_
    have hm := noStray_of_mem_subtrees hs hm
    rw [position_eq_place hm, label_eq_caption hm]
    rfl
  nodup_ids := by rw [ids_graphOf]; exact hd
  ends_mem := by
    intro edge hedge
    obtain ⟨m, hm, n, hn, rfl⟩ := mem_edges_graphOf.mp hedge
    rw [ids_graphOf]
    exact ⟨List.mem_map_of_mem hm, List.mem_map_of_mem (mem_subtrees_of_mem_operands hm hn)⟩
  ends_ne := fun _ => ne_of_mem_edges hd
  mem_edges := fun _ hm _ hn _ _ _ => mem_edges_position_iff hd hs hm hn
  joined_iff := fun _ hm _ hn _ _ _ _ hp hq hms hns =>
    or_congr (mem_edges_position_iff hd hs hm hn hp hq hms) (mem_edges_position_iff hd hs hn hm hq hp hns)
  operands_perm := by
    rw [ids_graphOf, ← List.map_tail]
    exact ends_graphOf_perm root
  nodup_pairs := nodup_pairs hd
  length_nodes := by rw [nodes_graphOf, List.length_map, length_subtrees]
  length_edges := length_edges_graphOf root

end Dot

namespace Parse

open Grammar

/-- In a text no two nodes stand at one place. -/
theorem nodup_places {limit : Limit} {text : String} {root : Expr}
    (h : Expr.ofText limit text = .ok root) : (root.subtrees.map Expr.place).Nodup := by
  obtain ⟨hd, -⟩ := derives_of_ofText h
  have hs := hd.noStray
  have hentries : root.inOrder = Token.entries (Token.scan text) := by
    have := hd.entries (uncut_nil _)
    rwa [List.append_nil, Token.entries_nil, List.append_nil, eq_comm] at this
  have hsorted : (root.inOrder.map Entry.position).Pairwise (· < ·) := by
    have := Token.entries_scan_increasing text (Token.scan text).length
    rwa [List.take_length, ← hentries] at this
  have hpositions := Expr.nodup_positions_of_inOrder hs (Expr.preOrder_eq_subtrees hs).symm
    (hsorted.imp fun hlt => Int.ne_of_lt hlt)
  have hok : root.subtrees.map Expr.position = (root.subtrees.map Expr.place).map Except.ok := by
    rw [List.map_map]
    exact List.map_congr_left fun m hm =>
      Expr.position_eq_place (Expr.noStray_of_mem_subtrees hs hm)
  rw [hok] at hpositions
  exact hpositions.of_map

theorem graph_depicts {limit : Limit} {text : String} {root : Expr}
    (h : Expr.ofText limit text = .ok root) : ∃ dot g visited, root.graph = .ok dot ∧
      Dot.Graph.ofText? dot = some g ∧ root.nodes = .ok visited ∧ Dot.Depicts g root visited := by
  have hs : root.NoStray := (derives_of_ofText h).1.noStray
  exact ⟨_, _, _, Expr.graph_of_noStray hs, Dot.ofText?_graphLines hs, Expr.nodes_eq_subtrees hs,
    Dot.depicts_graphOf hs (nodup_places h)⟩

/-- In `-(1+1)` the two numbers and the two signs are four nodes. -/
theorem graph_of_negated_sum : Expr.ofText none "-(1+1)" =
      .ok (.unary .negate 0 (.binary .add 3 (.constant 2 1) (.constant 4 1))) ∧
    ∃ dot g visited, (Expr.unary .negate 0 (.binary .add 3 (.constant 2 1) (.constant 4 1))).graph =
        .ok dot ∧ Dot.Graph.ofText? dot = some g ∧
      (Expr.unary .negate 0 (.binary .add 3 (.constant 2 1) (.constant 4 1))).nodes = .ok visited ∧
      Dot.Depicts g (.unary .negate 0 (.binary .add 3 (.constant 2 1) (.constant 4 1))) visited :=
  have h : Expr.ofText none "-(1+1)" =
    .ok (.unary .negate 0 (.binary .add 3 (.constant 2 1) (.constant 4 1))) := rfl
  ⟨h, graph_depicts h⟩

end Parse

end Abacus
