/-
  Abacus.Proofs.Parse.InOrder — parsing loses, doubles and moves nothing.

  - `length_entries`: tokens have as many entries as operators and runs of digits.
  - `entries_scan_increasing`: the entries of a text stand in the order of their positions, no
    two at the same.
  - `Derives.entries`: what tokens derive has their operators and numbers as its entries, in
    the same order.
  - `inOrder_eq_entries`: so the tree of a parse has the entries of the tokens it took, and a
    walk over it visits as many nodes as there are operators and numbers among them. In a text
    no two nodes stand at the same position.
-/

import Abacus.Expr.Orders
import Abacus.Proofs.Expr.Walk
import Abacus.Proofs.Grammar.Checking
import Abacus.Proofs.Parse.Derivation
import Abacus.Token.Scanner

namespace Abacus.Token

/-! # Entries of tokens -/

variable {t : Token} {ts : List Token}

def isOperator (t : Token) : Bool := t.kind.operator?.isSome

/-- How many numbers the digits among tokens make, each counted at its last digit. -/
def literals : List Token → Nat
  | [] => 0
  | t :: ts => literals ts + if t.isDigit && !ts.head?.any isDigit then 1 else 0

/-! ## Entries, token by token -/

theorem entries_nil : entries [] = [] := by rw [entries]

theorem entries_digit (h : t.isDigit = true) : entries (t :: ts) =
    .number (Grammar.numeral (t :: ts.takeWhile isDigit)) t.position :: entries (ts.dropWhile isDigit) := by
  rw [entries, if_pos h]

theorem entries_operator {symbol : String} (h : t.kind.operator? = some symbol) :
    entries (t :: ts) = .operator symbol t.position :: entries ts := by
  have hd : ¬ t.isDigit = true := by
    intro hd
    have hk : t.kind = .digit := by simpa [isDigit] using hd
    rw [hk] at h
    cases h
  rw [entries, if_neg hd, h]

theorem entries_silent (hd : t.isDigit = false) (h : t.kind.operator? = none) :
    entries (t :: ts) = entries ts := by
  rw [entries, if_neg (by simp [hd]), h]

theorem entries_digits {d : Token} {ds rest : List Token} (hd : ∀ t ∈ d :: ds, t.isDigit = true)
    (hr : ∀ b ∈ rest.head?, b.isDigit = false) :
    entries (d :: ds ++ rest) = .number (Grammar.numeral (d :: ds)) d.position :: entries rest := by
  have hds : ∀ t ∈ ds, t.isDigit = true := fun t ht => hd t (List.mem_cons_of_mem d ht)
  rw [List.cons_append, entries_digit (hd d List.mem_cons_self), Grammar.takeWhile_digits hds hr,
    Grammar.dropWhile_digits hds hr]

/-! ## How many entries there are -/

theorem isOperator_eq_false_of_isDigit (h : t.isDigit = true) : t.isOperator = false := by
  have hk : t.kind = .digit := by simpa [isDigit] using h
  simp [isOperator, hk, Kind.operator?]

/-- A run of digits is one number. -/
theorem literals_digit (h : t.isDigit = true) :
    literals (t :: ts) = literals (ts.dropWhile isDigit) + 1 := by
  induction ts generalizing t with
  | nil => simp [literals, h]
  | cons u us ih =>
    by_cases hu : u.isDigit = true
    · rw [literals, ih hu, List.dropWhile_cons_of_pos hu]
      simp [hu]
    · rw [literals, List.dropWhile_cons_of_neg hu]
      simp [h, hu]

theorem countP_isOperator_dropWhile (ts : List Token) :
    (ts.dropWhile isDigit).countP isOperator = ts.countP isOperator := by
  induction ts with
  | nil => rfl
  | cons t ts ih =>
    by_cases ht : t.isDigit = true
    · rw [List.dropWhile_cons_of_pos ht, ih,
        List.countP_cons_of_neg (by simp [isOperator_eq_false_of_isDigit ht])]
    · rw [List.dropWhile_cons_of_neg ht]

theorem length_entries (ts : List Token) :
    (entries ts).length = ts.countP isOperator + literals ts := by
  induction ts using entries.induct with
  | case1 => simp [entries_nil, literals]
  | case2 t ts ht ih =>
    rw [entries_digit ht, List.length_cons, ih, countP_isOperator_dropWhile, literals_digit ht,
      List.countP_cons_of_neg (by simp [isOperator_eq_false_of_isDigit ht])]
    omega
  | case3 t ts ht symbol hs ih =>
    rw [entries_operator hs, List.length_cons, ih, literals, List.countP_cons_of_pos (by simp [isOperator, hs])]
    simp [ht]
    omega
  | case4 t ts ht hs ih =>
    rw [entries_silent (by simpa using ht) hs, ih, literals, List.countP_cons_of_neg (by simp [isOperator, hs])]
    simp [ht]

/-! ## Where entries stand -/

/-- Entries stand where tokens stand, in the same order. -/
theorem positions_entries_sublist (ts : List Token) :
    ((entries ts).map Entry.position).Sublist (ts.map position) := by
  induction ts using entries.induct with
  | case1 => simp [entries_nil]
  | case2 t ts ht ih =>
    rw [entries_digit ht]
    exact (ih.trans ((List.dropWhile_suffix isDigit).sublist.map position)).cons_cons t.position
  | case3 t ts ht symbol hs ih =>
    rw [entries_operator hs]
    exact ih.cons_cons t.position
  | case4 t ts ht hs ih =>
    rw [entries_silent (by simpa using ht) hs]
    exact ih.cons t.position

theorem le_position_of_mem_scanFrom {p : Nat} {cs : List Char} (h : t ∈ scanFrom p cs) :
    (p : Int) ≤ t.position := by
  induction cs generalizing p with
  | nil => cases h
  | cons c cs ih =>
    unfold scanFrom at h
    split at h
    · have := ih h
      omega
    · rcases List.mem_cons.mp h with rfl | h
      · exact Int.le_refl _
      · have := ih h
        omega

theorem scanFrom_increasing (p : Nat) (cs : List Char) :
    ((scanFrom p cs).map position).Pairwise (· < ·) := by
  induction cs generalizing p with
  | nil => exact List.Pairwise.nil
  | cons c cs ih =>
    unfold scanFrom
    split
    · exact ih (p + 1)
    · rw [List.map_cons, List.pairwise_cons]
      refine ⟨?_, ih (p + 1)⟩
      intro q hq
      obtain ⟨t, ht, rfl⟩ := List.mem_map.mp hq
      have := le_position_of_mem_scanFrom ht
      show (p : Int) < t.position
      omega

theorem entries_scan_increasing (text : String) (k : Nat) :
    ((entries ((scan text).take k)).map Entry.position).Pairwise (· < ·) := by
  have hs := (List.take_sublist k (scan text)).map position
  exact (scanFrom_increasing 0 text.toList).sublist ((positions_entries_sublist _).trans hs)

end Abacus.Token

/-! # Entries of trees -/

namespace Abacus

namespace Grammar

theorem operator?_of_additive {k : Token.Kind} {op : BinaryOp} (h : additive? k = some op) :
    k.operator? = some op.symbol := by
  cases k <;> cases h <;> rfl

theorem operator?_of_multiplicative {k : Token.Kind} {op : BinaryOp}
    (h : multiplicative? k = some op) : k.operator? = some op.symbol := by
  cases k <;> cases h <;> rfl

/-- The entries of a chain are those of its operands around its operator. -/
theorem entries_chain {t : Token} {op : BinaryOp} {ls rs rest : List Token} {l r : Expr}
    (ho : t.kind.operator? = some op.symbol)
    (hl : Token.entries (ls ++ t :: (rs ++ rest)) = l.inOrder ++ Token.entries (t :: (rs ++ rest)))
    (hr : Token.entries (rs ++ rest) = r.inOrder ++ Token.entries rest) :
    Token.entries (ls ++ t :: rs ++ rest) =
      (Expr.binary op t.position l r).inOrder ++ Token.entries rest := by
  rw [List.append_assoc, List.cons_append, hl, Token.entries_operator ho, hr]
  simp [Expr.inOrder]

theorem Derives.entries {n : Nonterminal} {ts : List Token} {e : Expr} (h : Derives n ts e)
    {rest : List Token} (hu : Uncut ts rest) :
    Token.entries (ts ++ rest) = e.inOrder ++ Token.entries rest := by
  induction h generalizing rest with
  | number hd => exact Token.entries_digits hd ((uncut_digits (by simp) hd).mp hu)
  | integer _ ih => exact ih hu
  | @negation t ts e hk _ ih =>
    have ho : t.kind.operator? = some "-" := by rw [hk]; rfl
    rw [List.cons_append, Token.entries_operator ho, ih hu.tail]
    rfl
  | @group first last ts e hf _ hl ih =>
    have hfirst := isDigit_eq_false_of_kind hf (by decide)
    have hlast := isDigit_eq_false_of_kind hl (by decide)
    rw [List.cons_append, List.cons_append, List.append_assoc, List.singleton_append,
      Token.entries_silent hfirst (by rw [hf]; rfl), ih (uncut_of_not_digit hlast),
      Token.entries_silent hlast (by rw [hl]; rfl)]
  | factor _ ih => exact ih hu
  | product _ ho _ ihl ihr =>
    exact entries_chain (operator?_of_multiplicative ho)
      (ihl (uncut_of_not_digit (isDigit_eq_false_of_operator (.inr ho)))) (ihr hu.of_append.tail)
  | term _ ih => exact ih hu
  | sum _ ho _ ihl ihr =>
    exact entries_chain (operator?_of_additive ho)
      (ihl (uncut_of_not_digit (isDigit_eq_false_of_operator (.inl ho)))) (ihr hu.of_append.tail)

end Grammar

namespace Parse

open Grammar

theorem inOrder_eq_entries {limit : Limit} {debug : Bool} {tokens : List Token} {p : Partial}
    (hw : ∀ t ∈ tokens, t.Decimal) (h : (parse limit debug tokens).outcome = .ok p) :
    p.node.inOrder = Token.entries (tokens.take p.offset) ∧
    p.node.count = .ok ((tokens.take p.offset).countP Token.isOperator +
      Token.literals (tokens.take p.offset)) ∧
    ∀ text, tokens = Token.scan text →
      (p.node.inOrder.map Entry.position).Pairwise (· < ·) ∧
      ∃ visited, p.node.nodes = .ok visited ∧ (visited.map Expr.position).Nodup := by
  rw [parse_outcome] at h
  obtain ⟨hd, -⟩ := derives_of_run hw h
  have hs : p.node.NoStray := hd.noStray
  have he : p.node.inOrder = Token.entries (tokens.take p.offset) := by
    have := hd.entries (uncut_nil _)
    rwa [List.append_nil, Token.entries_nil, List.append_nil, eq_comm] at this
  refine ⟨he, ?_, ?_⟩
  · rw [Expr.count_of_noStray hs, ← Expr.length_inOrder hs, he, Token.length_entries]
  · rintro text rfl
    have hp : (p.node.inOrder.map Entry.position).Pairwise (· < ·) := by
      rw [he]
      exact Token.entries_scan_increasing text p.offset
    obtain ⟨visited, hn, hv⟩ := Expr.nodes_of_noStray hs
    exact ⟨hp, visited, hn, Expr.nodup_positions_of_inOrder hs hv (hp.imp fun hlt => Int.ne_of_lt hlt)⟩

/-- In `-(12+3)*4)` the group leaves no entry, and the last parenthesis is not taken. -/
theorem inOrder_of_negated_group :
    (∀ t ∈ Token.scan "-(12+3)*4)", t.Decimal) ∧
    (parse none false (Token.scan "-(12+3)*4)")).outcome = .ok
      ⟨.binary .multiply 7 (.unary .negate 0 (.binary .add 4 (.constant 2 12) (.constant 5 3)))
        (.constant 8 4), Token.scan "-(12+3)*4)", 9⟩ ∧
    [.operator "-" 0, .number 12 2, .operator "+" 4, .number 3 5, .operator "*" 7, .number 4 8] =
      Token.entries ((Token.scan "-(12+3)*4)").take 9) := by
  have hw : ∀ t ∈ Token.scan "-(12+3)*4)", t.Decimal := fun _ => Token.decimal_of_mem_scan
  have h : (parse none false (Token.scan "-(12+3)*4)")).outcome = .ok
      ⟨.binary .multiply 7 (.unary .negate 0 (.binary .add 4 (.constant 2 12) (.constant 5 3)))
        (.constant 8 4), Token.scan "-(12+3)*4)", 9⟩ := rfl
  exact ⟨hw, h, (inOrder_eq_entries hw h).1⟩

end Parse

end Abacus
