/-
  Abacus.Proofs.Parse.Operands — what a run notes accounts for the tokens that it takes.

  A token begins an operand by itself and by the token before it: a digit behind no digit begins a
  number, a minus behind no operand a negation, and an opening parenthesis always a group. So the
  operands of tokens can be listed without running a production (`operandsBehind`).

  - `operandsBehind_digits`, `operandsBehind_silent`: the operands of a stretch of digits, and of a
    token that begins none.
  - `Takes.accounts`: a production that takes tokens notes their operands in order, its sums and
    products by the expressions and terms that it begins.
  - `noted_runLines`: each thing noted is one line of the run, and no other line reads like it.

  `trace_accounts` puts them together with `Abacus.Proofs.Parse.Forward`.
-/

import Abacus.Proofs.Expr.Walk
import Abacus.Proofs.Expr.Spelling
import Abacus.Proofs.Parse.Depth
import Abacus.Proofs.Parse.Derivation
import Abacus.Proofs.Parse.Forward

namespace Abacus

open Grammar

/-! ## Operands of tokens and trees -/

def Token.endsOperand (t : Token) : Bool := t.isDigit || t.kind == .rightParen

namespace Expr

def negation? : Expr → Option Int
  | .unary .negate position _ => some position
  | .binary .. | .constant .. | .stray _ => none

def isSum : Expr → Bool
  | .binary op .. => op == .add || op == .subtract
  | .unary .. | .constant .. | .stray _ => false

def isProduct : Expr → Bool
  | .binary op .. => op == .multiply || op == .divide
  | .unary .. | .constant .. | .stray _ => false

end Expr

namespace Parse

namespace Event

def isOperand : Event → Bool
  | .integer .. | .negation _ | .group _ => true
  | .expression _ | .term _ => false

def negation? : Event → Option Int
  | .negation position => some position
  | .expression _ | .term _ | .integer .. | .group _ => none

end Event

/-- The operand that a token begins, between the token before it and the tokens behind it. -/
def operandAt? (before : Option Token) (t : Token) (behind : List Token) : Option Event :=
  match t.kind with
  | .digit =>
    if before.any Token.isDigit then none
    else some (.integer (numeral (t :: behind.takeWhile Token.isDigit)) t.position)
  | .minus => if before.any Token.endsOperand then none else some (.negation t.position)
  | .leftParen => some (.group t.position)
  | _ => none

def operandsBehind (before : Option Token) : List Token → List Event
  | [] => []
  | t :: ts => (operandAt? before t ts).toList ++ operandsBehind (some t) ts

section Tokens

variable {before : Option Token} {t : Token} {ts : List Token} {event : Event}

theorem operandsBehind_silent (h : operandAt? before t ts = none) :
    operandsBehind before (t :: ts) = operandsBehind (some t) ts := by
  rw [operandsBehind, h]
  rfl

theorem operandsBehind_some (h : operandAt? before t ts = some event) :
    operandsBehind before (t :: ts) = event :: operandsBehind (some t) ts := by
  rw [operandsBehind, h]
  rfl

theorem not_isDigit_of_not_endsOperand (h : before.any Token.endsOperand = false) :
    before.any Token.isDigit = false := by
  rcases before with _ | b
  · rfl
  · exact (Bool.or_eq_false_iff.mp h).1

theorem endsOperand_eq_false_of_kind {k : Token.Kind} (h : t.kind = k) (hdigit : k ≠ .digit)
    (hclose : k ≠ .rightParen) : t.endsOperand = false := by
  simp [Token.endsOperand, Token.isDigit, h, hdigit, hclose]

theorem endsOperand_eq_false_of_operator {op : BinaryOp}
    (h : additive? t.kind = some op ∨ multiplicative? t.kind = some op) : t.endsOperand = false := by
  rcases h with h | h <;> cases hk : t.kind <;> rw [hk] at h <;> cases h <;>
    exact endsOperand_eq_false_of_kind hk nofun nofun

/-- An operator behind an operand begins none itself: a minus there is a subtraction. -/
theorem operandAt?_operator {op : BinaryOp} (hb : before.any Token.endsOperand = true)
    (h : additive? t.kind = some op ∨ multiplicative? t.kind = some op) :
    operandAt? before t ts = none := by
  rcases h with h | h <;> cases hk : t.kind <;> rw [hk] at h <;> cases h <;> simp [operandAt?, hk, hb]

/-- Digits behind a digit go on its number. -/
theorem operandsBehind_digits {d : Token} {ds rest : List Token} (hd : d.isDigit = true)
    (hds : ∀ t ∈ ds, t.isDigit = true) :
    operandsBehind (some d) (ds ++ rest) = operandsBehind (d :: ds).getLast? rest := by
  induction ds generalizing d with
  | nil => rfl
  | cons u us ih =>
    obtain ⟨hu, hus⟩ := List.forall_mem_cons.mp hds
    have hkind : u.kind = .digit := by simpa [Token.isDigit] using hu
    have hnone : operandAt? (some d) u (us ++ rest) = none := by simp [operandAt?, hkind, hd]
    rw [List.cons_append, operandsBehind_silent hnone, ih hu hus, List.getLast?_cons_cons]

end Tokens

/-! ## Accounts -/

def beginning : Nonterminal → Nat → List Event
  | .expression, index => [.expression index]
  | .term, index => [.term index]
  | .factor, _ | .integer, _ => []

/-- What a production notes accounts for the tokens that it takes and for its tree. -/
structure Accounts (n : Nonterminal) (taken : List Token) (e : Expr) (trace : List Event) : Prop where
  ends : taken.getLast?.any Token.endsOperand = true
  operands : ∀ before rest, before.any Token.endsOperand = false → Uncut taken rest →
    operandsBehind before (taken ++ rest) =
      trace.filter Event.isOperand ++ operandsBehind taken.getLast? rest
  negations : trace.filterMap Event.negation? = e.subtrees.filterMap Expr.negation?
  expressions : (trace.filterMap Event.expression?).length =
    (if n = .expression then 1 else 0) + e.subtrees.countP Expr.isSum + countKind .leftParen taken
  terms : (trace.filterMap Event.term?).length =
    (if n = .expression ∨ n = .term then 1 else 0) + e.subtrees.countP Expr.isSum +
      e.subtrees.countP Expr.isProduct + countKind .leftParen taken

theorem Accounts.ne_nil {n : Nonterminal} {taken : List Token} {e : Expr} {trace : List Event}
    (h : Accounts n taken e trace) : taken ≠ [] := by
  rintro rfl
  cases h.ends

theorem countKind_digits {k : Token.Kind} (hk : k ≠ .digit) {ds : List Token}
    (h : ∀ t ∈ ds, t.isDigit = true) : countKind k ds = 0 := by
  refine List.countP_eq_zero.mpr ?_
  intro t ht
  have hkind : t.kind = .digit := by simpa [Token.isDigit] using h t ht
  simp [hkind, hk.symm]

section Composed

variable {n m : Nonterminal} {t : Token} {taken ls rs ds : List Token} {e l r : Expr}
  {trace trace' : List Event}

theorem accounts_number {d : Token} (hds : ∀ t ∈ d :: ds, t.isDigit = true) :
    Accounts .factor (d :: ds) (.constant d.position (numeral (d :: ds)))
      [.integer (numeral (d :: ds)) d.position] where
  ends := by
    rw [List.getLast?_eq_some_getLast (List.cons_ne_nil d ds)]
    simp [Token.endsOperand, hds _ (List.getLast_mem (List.cons_ne_nil d ds))]
  operands := by
    intro before rest hb hu
    obtain ⟨hd, hds'⟩ := List.forall_mem_cons.mp hds
    have hkind : d.kind = .digit := by simpa [Token.isDigit] using hd
    have hbefore := not_isDigit_of_not_endsOperand hb
    have hrest := (uncut_digits (List.cons_ne_nil d ds) hds).mp hu
    have hsome : operandAt? before d (ds ++ rest) =
        some (.integer (numeral (d :: ds)) d.position) := by
      simp [operandAt?, hkind, hbefore, takeWhile_digits hds' hrest]
    rw [List.cons_append, operandsBehind_some hsome, operandsBehind_digits hd hds']
    rfl
  negations := rfl
  expressions := by
    rw [countKind_digits (by decide) hds]
    rfl
  terms := by
    rw [countKind_digits (by decide) hds]
    rfl

theorem accounts_negation (hk : t.kind = .minus) (h : Accounts .factor taken e trace) :
    Accounts .factor (t :: taken) (.unary .negate t.position e) (.negation t.position :: trace) where
  ends := by
    rw [List.getLast?_cons_of_ne_nil h.ne_nil]
    exact h.ends
  operands := by
    intro before rest hb hu
    have hsome : operandAt? before t (taken ++ rest) = some (.negation t.position) := by
      simp [operandAt?, hk, hb]
    have ht : (some t).any Token.endsOperand = false := endsOperand_eq_false_of_kind hk nofun nofun
    rw [List.cons_append, operandsBehind_some hsome, h.operands _ rest ht hu.tail,
      List.getLast?_cons_of_ne_nil h.ne_nil]
    rfl
  negations := congrArg (t.position :: ·) h.negations
  expressions := by
    show (trace.filterMap Event.expression?).length = _
    rw [h.expressions]
    simp [Expr.subtrees, Expr.isSum, countKind, hk]
  terms := by
    show (trace.filterMap Event.term?).length = _
    rw [h.terms]
    simp [Expr.subtrees, Expr.isSum, Expr.isProduct, countKind, hk]

theorem accounts_group {first last : Token} (hf : first.kind = .leftParen)
    (hl : last.kind = .rightParen) (h : Accounts .expression taken e trace) :
    Accounts .factor (first :: taken ++ [last]) e (.group first.position :: trace) where
  ends := by
    rw [List.getLast?_concat]
    simp [Token.endsOperand, hl]
  operands := by
    intro before rest _ _
    have hsome : operandAt? before first (taken ++ last :: rest) = some (.group first.position) := by
      simp [operandAt?, hf]
    have hfirst : (some first).any Token.endsOperand = false := endsOperand_eq_false_of_kind hf nofun nofun
    have hlast : operandAt? taken.getLast? last rest = none := by simp [operandAt?, hl]
    have hu : Uncut taken (last :: rest) := uncut_of_not_digit (isDigit_eq_false_of_kind hl nofun)
    rw [List.append_assoc, List.cons_append, List.singleton_append, operandsBehind_some hsome,
      h.operands _ _ hfirst hu, operandsBehind_silent hlast, List.getLast?_concat]
    rfl
  negations := h.negations
  expressions := by
    show (trace.filterMap Event.expression?).length = _
    rw [h.expressions]
    simp [countKind, hf, hl]
    omega
  terms := by
    show (trace.filterMap Event.term?).length = _
    rw [h.terms]
    simp [countKind, hf, hl]
    omega

theorem accounts_single (hm : operand? n = some m) (h : Accounts m taken e trace) (index : Nat) :
    Accounts n taken e (beginning n index ++ trace) := by
  cases n <;> cases hm
  · refine ⟨h.ends, h.operands, h.negations, ?_, h.terms⟩
    show (trace.filterMap Event.expression?).length + 1 = _
    rw [h.expressions]
    simp
    omega
  · refine ⟨h.ends, h.operands, h.negations, h.expressions, ?_⟩
    show (trace.filterMap Event.term?).length + 1 = _
    rw [h.terms]
    simp
    omega

theorem operands_chain {op : BinaryOp}
    (ho : additive? t.kind = some op ∨ multiplicative? t.kind = some op)
    (hl : Accounts m ls l trace) (hr : Accounts n rs r trace') (before : Option Token) (rest : List Token)
    (hb : before.any Token.endsOperand = false) (hu : Uncut (ls ++ t :: rs) rest) :
    operandsBehind before (ls ++ t :: rs ++ rest) =
      (trace ++ trace').filter Event.isOperand ++ operandsBehind (ls ++ t :: rs).getLast? rest := by
  have hul : Uncut ls (t :: (rs ++ rest)) := uncut_of_not_digit (isDigit_eq_false_of_operator ho)
  have hlast : (ls ++ t :: rs).getLast? = rs.getLast? := by
    rw [List.getLast?_append_of_ne_nil _ (List.cons_ne_nil t rs), List.getLast?_cons_of_ne_nil hr.ne_nil]
  calc operandsBehind before (ls ++ t :: rs ++ rest)
    _ = operandsBehind before (ls ++ t :: (rs ++ rest)) := by rw [List.append_assoc, List.cons_append]
    _ = trace.filter Event.isOperand ++ operandsBehind ls.getLast? (t :: (rs ++ rest)) :=
        hl.operands before _ hb hul
    _ = trace.filter Event.isOperand ++ operandsBehind (some t) (rs ++ rest) := by
        rw [operandsBehind_silent (operandAt?_operator hl.ends ho)]
    _ = trace.filter Event.isOperand ++
          (trace'.filter Event.isOperand ++ operandsBehind rs.getLast? rest) := by
        rw [hr.operands (some t) rest (endsOperand_eq_false_of_operator ho) hu.of_append.tail]
    _ = _ := by rw [hlast, List.filter_append, List.append_assoc]

theorem accounts_chain {op : BinaryOp} (hm : operand? n = some m) (ho : operator? n t.kind = some op)
    (hl : Accounts m ls l trace) (hr : Accounts n rs r trace') (index : Nat) :
    Accounts n (ls ++ t :: rs) (.binary op t.position l r) (beginning n index ++ (trace ++ trace')) := by
  have hparens : countKind .leftParen (ls ++ t :: rs) =
      countKind .leftParen ls + countKind .leftParen rs := by
    rcases operator?_some ho with h | h <;> cases hk : t.kind <;> rw [hk] at h <;> cases h <;>
      simp [countKind, hk]
  have hends : (ls ++ t :: rs).getLast?.any Token.endsOperand = true := by
    rw [List.getLast?_append_of_ne_nil _ (List.cons_ne_nil t rs), List.getLast?_cons_of_ne_nil hr.ne_nil]
    exact hr.ends
  have hoperands := operands_chain (operator?_some ho) hl hr
  have hnegations : (trace ++ trace').filterMap Event.negation? =
      (Expr.binary op t.position l r).subtrees.filterMap Expr.negation? := by
    rw [List.filterMap_append, hl.negations, hr.negations, ← List.filterMap_append]
    rfl
  have hexpressions : ((trace ++ trace').filterMap Event.expression?).length =
      (trace.filterMap Event.expression?).length + (trace'.filterMap Event.expression?).length := by
    rw [List.filterMap_append, List.length_append]
  have hterms : ((trace ++ trace').filterMap Event.term?).length =
      (trace.filterMap Event.term?).length + (trace'.filterMap Event.term?).length := by
    rw [List.filterMap_append, List.length_append]
  rw [hl.expressions, hr.expressions] at hexpressions
  rw [hl.terms, hr.terms] at hterms
  cases n <;> cases hm
  · have hsum : (op == .add || op == .subtract) = true ∧ (op == .multiply || op == .divide) = false := by
      cases hk : t.kind <;> rw [hk] at ho <;> cases ho <;> decide
    refine ⟨hends, hoperands, hnegations, ?_, ?_⟩
    · show ((trace ++ trace').filterMap Event.expression?).length + 1 = _
      rw [hexpressions]
      simp [hparens, Expr.subtrees, Expr.isSum, hsum]
      omega
    · show ((trace ++ trace').filterMap Event.term?).length = _
      rw [hterms]
      simp [hparens, Expr.subtrees, Expr.isSum, Expr.isProduct, hsum]
      omega
  · have hproduct : (op == .add || op == .subtract) = false ∧ (op == .multiply || op == .divide) = true := by
      cases hk : t.kind <;> rw [hk] at ho <;> cases ho <;> decide
    refine ⟨hends, hoperands, hnegations, ?_, ?_⟩
    · show ((trace ++ trace').filterMap Event.expression?).length = _
      rw [hexpressions]
      simp [hparens, Expr.subtrees, Expr.isSum, hproduct]
      omega
    · show ((trace ++ trace').filterMap Event.term?).length + 1 = _
      rw [hterms]
      simp [hparens, Expr.subtrees, Expr.isSum, Expr.isProduct, hproduct]
      omega

end Composed

/-! ## Runs account for what they take -/

section Chain

variable {op? : Token.Kind → Option BinaryOp} {operand tail : Nat → List Token → Run Parsed}
  {index : Nat} {ts : List Token} {left right : Parsed}

theorem trace_chain_single (h : (operand index ts).outcome = .ok left)
    (hr : ∀ t ∈ left.rest.head?, op? t.kind = none ∧ t.kind ≠ .unrecognized) :
    (chain op? operand tail index ts).trace = (operand index ts).trace := by
  unfold chain
  rw [Run.bind_of_ok h]
  rcases hl : left.rest with _ | ⟨t, us⟩
  · exact List.append_nil _
  · obtain ⟨ho, hk⟩ := hr t (by rw [hl]; rfl)
    simp only [ho, if_neg hk]
    exact List.append_nil _

theorem trace_chain_tail {t : Token} {us : List Token} {op : BinaryOp}
    (h : (operand index ts).outcome = .ok left) (hl : left.rest = t :: us) (ho : op? t.kind = some op)
    (hr : (tail (left.offset + 1) us).outcome = .ok right) :
    (chain op? operand tail index ts).trace =
      (operand index ts).trace ++ (tail (left.offset + 1) us).trace := by
  unfold chain
  rw [Run.bind_of_ok h]
  simp only [hl, ho]
  rw [Run.bind_of_ok hr]
  exact congrArg (_ ++ ·) (List.append_nil _)

end Chain

theorem trace_production {n m : Nonterminal} (hm : operand? n = some m) (budget index : Nat)
    (ts : List Token) : (production n (budget + 1) index ts).trace =
      beginning n index ++ (chain (operator? n) (production m budget) (production n budget) index ts).trace := by
  cases n <;> cases hm <;> rfl

section Factor

variable {budget index : Nat} {t : Token} {ts : List Token} {p : Parsed}

theorem trace_negation (hk : t.kind = .minus) (h : (production .factor budget (index + 1) ts).outcome = .ok p) :
    (production .factor (budget + 1) index (t :: ts)).trace =
      .negation t.position :: (production .factor budget (index + 1) ts).trace := by
  have hdigit : t.isDigit = false := isDigit_eq_false_of_kind hk nofun
  have hliteral : literal index (t :: ts) = pure none := by simp [literal, hdigit]
  rw [factor_call, hliteral]
  show (unnumbered _ _ index (t :: ts)).trace = _
  simp only [unnumbered, hk]
  rw [Run.bind_of_ok rfl, Run.bind_of_ok h]
  exact congrArg (_ :: ·) (List.append_nil _)

theorem trace_group {last : Token} {rest : List Token} (hk : t.kind = .leftParen)
    (h : (production .expression budget (index + 1) ts).outcome = .ok p) (hp : p.rest = last :: rest)
    (hl : last.kind = .rightParen) :
    (production .factor (budget + 1) index (t :: ts)).trace =
      .group t.position :: (production .expression budget (index + 1) ts).trace := by
  have hdigit : t.isDigit = false := isDigit_eq_false_of_kind hk nofun
  have hliteral : literal index (t :: ts) = pure none := by simp [literal, hdigit]
  rw [factor_call, hliteral]
  show (unnumbered _ _ index (t :: ts)).trace = _
  simp only [unnumbered, hk]
  rw [Run.bind_of_ok rfl, Run.bind_of_ok h]
  simp only [hp, if_pos hl]
  exact congrArg (_ :: ·) (List.append_nil _)

theorem trace_number {d : Token} {ds rest : List Token} (hd : ∀ t ∈ d :: ds, t.isDigit = true)
    (hw : ∀ t ∈ d :: ds, t.Decimal) (hr : ∀ b ∈ rest.head?, b.isDigit = false)
    (hle : numeral (d :: ds) ≤ Expr.largest) :
    (production .factor (budget + 1) index (d :: ds ++ rest)).trace =
      [.integer (numeral (d :: ds)) d.position] := by
  have hread : readDigits d.position 0 (d :: ds) = .ok (numeral (d :: ds) : Int) :=
    (readDigits_eq hd hw d.position (n := 0) (Nat.zero_le _)).trans (if_pos hle)
  have hnode : Expr.constant? d.position (numeral (d :: ds)) =
      .ok (.constant d.position (numeral (d :: ds))) := Expr.constant?_eq_ok_iff.mpr ⟨_, hle, rfl, rfl⟩
  have hliteral : literal index (d :: ds ++ rest) =
      ⟨[.integer (numeral (d :: ds)) d.position], 0,
        .ok (some ⟨.constant d.position (numeral (d :: ds)), index + (ds.length + 1), rest⟩)⟩ := by
    unfold literal
    rw [takeWhile_digits hd hr, dropWhile_digits hd hr]
    dsimp only
    rw [hread, Run.bind_of_ok rfl, hnode]
    rfl
  rw [factor_call, hliteral]
  rfl

end Factor

theorem Takes.accounts {n : Nonterminal} {ts rest : List Token} {e : Expr} (h : Takes n ts e rest)
    (hn : n ≠ .integer) (hw : ∀ t ∈ ts, t.Decimal) :
    ∃ taken, ts = taken ++ rest ∧ ∀ budget index, calls n ts ≤ budget →
      Accounts n taken e (production n budget index ts).trace := by
  induction h with
  | number => exact absurd rfl hn
  | integer h =>
    cases h with
    | number h =>
      obtain ⟨d, us, rfl, hd, -⟩ := number?_eq_some h
      obtain ⟨ds, rest', hus, hds, hr⟩ := exists_digits us hd
      rw [hus] at h hw ⊢
      have hw := (List.forall_mem_append.mp hw).1
      rw [number?_eq_of_decimal hds hw hr] at h
      split at h
      · rename_i hle
        obtain ⟨rfl, rfl⟩ := Prod.mk.inj (Except.ok.inj (Option.some.inj h))
        refine ⟨d :: ds, rfl, for_budgets hn fun budget index _ => ?_⟩
        rw [trace_number hds hw hr hle]
        exact accounts_number hds
      · cases Option.some.inj h
    | single hm | chain hm => cases hm
  | @negation t ts rest e hk ht ih =>
    obtain ⟨taken, rfl, ih⟩ := ih hn (List.forall_mem_cons.mp hw).2
    refine ⟨t :: taken, rfl, for_budgets hn fun budget index hb => ?_⟩
    have hc := calls_negation hk (taken ++ rest)
    have ho := ht.outcome hn (show _ ≤ budget by omega) (index + 1)
    rw [trace_negation hk ho]
    exact accounts_negation hk (ih budget (index + 1) (by omega))
  | @group first last ts rest e hk ht hl ih =>
    obtain ⟨taken, rfl, ih⟩ := ih nofun (List.forall_mem_cons.mp hw).2
    refine ⟨first :: taken ++ [last], by simp, for_budgets hn fun budget index hb => ?_⟩
    have hc := calls_group hk (taken ++ last :: rest)
    have ho := ht.outcome nofun (show _ ≤ budget by omega) (index + 1)
    rw [trace_group hk ho rfl hl]
    exact accounts_group hk hl (ih budget (index + 1) (by omega))
  | @single n m ts rest e hm ht hh ih =>
    have hn' := (ne_integer_of_operand hm).2
    obtain ⟨taken, rfl, ih⟩ := ih hn' hw
    refine ⟨taken, rfl, for_budgets hn fun budget index hb => ?_⟩
    have hc := calls_operand hm (taken ++ rest)
    have ho := ht.outcome hn' (show _ ≤ budget by omega) index
    rw [trace_production hm, trace_chain_single ho hh]
    exact accounts_single hm (ih budget index (by omega)) index
  | @chain n m t op ts us rest l r hm hl hop hr ihl ihr =>
    have hn' := (ne_integer_of_operand hm).2
    obtain ⟨ls, rfl, ihl⟩ := ihl hn' hw
    obtain ⟨rs, rfl, ihr⟩ := ihr hn (List.forall_mem_cons.mp (List.forall_mem_append.mp hw).2).2
    refine ⟨ls ++ t :: rs, by simp, for_budgets hn fun budget index hb => ?_⟩
    have hc := calls_operand hm (ls ++ t :: (rs ++ rest))
    have hu := calls_tail (n := n) hl hop
    have hol := hl.outcome hn' (show _ ≤ budget by omega) index
    have hor := hr.outcome hn (show _ ≤ budget by omega)
    rw [trace_production hm, trace_chain_tail hol rfl hop (hor _)]
    exact accounts_chain hm hop (ihl budget index (by omega)) (ihr budget _ (by omega)) index

/-! ## Lines -/

namespace Event

def line (event : Event) : String := logLine event.describe

def initials : Event → Char × Char
  | .expression _ => ('e', 'x')
  | .term _ => ('t', 'e')
  | .integer .. => ('i', 'n')
  | .negation _ => ('n', 'e')
  | .group _ => ('g', 'r')

def behindInitials : Event → List Char
  | .expression index => "pression @ ".toList ++ (toString index).toList
  | .term index => "rm @ ".toList ++ (toString index).toList
  | .integer value position =>
    "teger ".toList ++ ((toString value).toList ++ (' ' :: '@' :: ' ' :: (toString position).toList))
  | .negation position => "gation @ ".toList ++ (toString position).toList
  | .group position => "oup @ ".toList ++ (toString position).toList

theorem toList_describe (event : Event) : event.describe.toList =
    event.initials.1 :: event.initials.2 :: event.behindInitials := by
  cases event with
  | integer value position =>
    have htext : (Event.integer value position).describe =
        "integer " ++ toString value ++ " @ " ++ toString position := rfl
    simp only [htext, String.toList_append, List.append_assoc]
    rfl
  | expression index | term index =>
    simp only [describe, String.toList_append]
    rfl
  | negation position | group position =>
    simp only [describe, String.toList_append]
    rfl

theorem describe_inj {a b : Event} (h : a.describe = b.describe) : a = b := by
  have hlist := congrArg String.toList h
  rw [toList_describe, toList_describe] at hlist
  simp only [List.cons.injEq] at hlist
  obtain ⟨hfirst, hsecond, hbehind⟩ := hlist
  cases a <;> cases b <;> cases hfirst
  case expression.expression.refl i j =>
    exact congrArg _ (toString_nat_inj (String.toList_inj.mp (List.append_cancel_left hbehind)))
  case term.term.refl i j =>
    exact congrArg _ (toString_nat_inj (String.toList_inj.mp (List.append_cancel_left hbehind)))
  case negation.negation.refl i j =>
    exact congrArg _ (toString_int_inj (String.toList_inj.mp (List.append_cancel_left hbehind)))
  case group.group.refl i j =>
    exact congrArg _ (toString_int_inj (String.toList_inj.mp (List.append_cancel_left hbehind)))
  case integer.integer.refl v i w j =>
    obtain ⟨rfl, hrest⟩ := toString_append_inj (by simp [isNumeric]) (by simp [isNumeric])
      (List.append_cancel_left hbehind)
    simp only [List.cons.injEq, true_and] at hrest
    rw [toString_int_inj (String.toList_inj.mp hrest)]

theorem line_inj {a b : Event} (h : a.line = b.line) : a = b := by
  have hlist := congrArg String.toList h
  simp only [line, logLine, String.toList_append] at hlist
  exact describe_inj (String.toList_inj.mp (List.append_cancel_left hlist))

theorem line_ne_logLine {text : String} {c d : Char} (h : ∃ cs, text.toList = c :: d :: cs)
    {event : Event} (hcd : event.initials ≠ (c, d)) : event.line ≠ logLine text := by
  intro hline
  obtain ⟨cs, h⟩ := h
  have hlist := congrArg String.toList hline
  simp only [line, logLine, String.toList_append] at hlist
  have hlist := List.append_cancel_left hlist
  rw [h, toList_describe] at hlist
  simp only [List.cons.injEq] at hlist
  exact hcd (Prod.ext hlist.1 hlist.2.1)

end Event

/-- The events are the lines behind the first, each one line and in order, and no other line reads
    like one. -/
def Noted (printed : List String) (events : List Event) : Prop :=
  ∀ event : Event, printed.head? ≠ some event.line ∧
    ∀ i, printed[i + 1]? = some event.line ↔ events[i]? = some event

/-- What a run prints at its end is no event. -/
theorem line_not_mem_closingLines (event : Event) (limit : Limit) (outcome : Except Failure Partial) :
    event.line ∉ closingLines limit outcome := by
  intro h
  obtain ⟨p, text, -, hline⟩ := mem_closingLines h
  have htext : ∃ cs, s!"parsed {text}, {p.remaining.length} tokens left".toList = 'p' :: 'a' :: cs := by
    simp only [String.toList_append, List.append_assoc]
    exact ⟨_, rfl⟩
  exact Event.line_ne_logLine htext (by cases event <;> simp [Event.initials]) hline

theorem noted_runLines (limit : Limit) (tokens : List Token) (r : Run Partial) :
    Noted (runLines limit tokens r) r.trace := by
  intro event
  refine ⟨?_, ?_⟩
  · intro h
    have htext : ∃ cs, s!"tokens: {Token.listing tokens}".toList = 't' :: 'o' :: cs := by
      simp only [String.toList_append]
      exact ⟨_, rfl⟩
    exact Event.line_ne_logLine htext (by cases event <;> simp [Event.initials]) (Option.some.inj h).symm
  · intro i
    have hevent : (r.trace.map (logLine ·.describe))[i]? = some event.line ↔ r.trace[i]? = some event := by
      rw [List.getElem?_map, Option.map_eq_some_iff]
      constructor
      · rintro ⟨other, hother, hline⟩
        rw [hother, Event.line_inj hline]
      · intro h
        exact ⟨event, h, rfl⟩
    rw [runLines, List.getElem?_cons_succ]
    by_cases hlt : i < r.trace.length
    · rw [List.getElem?_append_left (by simpa using hlt)]
      exact hevent
    · rw [List.getElem?_append_right (by simpa using hlt), List.getElem?_eq_none_iff.mpr (Nat.le_of_not_lt hlt)]
      refine iff_of_false ?_ (Option.some_ne_none event).symm
      intro h
      exact line_not_mem_closingLines event limit r.outcome (List.mem_of_getElem? h)

/-! ## Parses -/

theorem accounts_of_run {tokens : List Token} (hw : ∀ t ∈ tokens, t.Decimal) {p : Partial}
    (h : (run none tokens).outcome = .ok p) :
    Accounts .expression (tokens.take p.offset) p.node (run none tokens).trace ∧ p.node.NoStray := by
  obtain ⟨rfl, -, htakes⟩ := takes_of_run h
  obtain ⟨taken, htaken, haccounts⟩ := htakes.accounts nofun hw
  have htake : p.tokens.take p.offset = taken :=
    List.append_cancel_right ((List.take_append_drop p.offset p.tokens).trans htaken)
  rw [htake, trace_run]
  exact ⟨haccounts _ 0 (Nat.le_of_eq (calls_expression _)), (htake ▸ (derives_of_run hw h).1).noStray⟩

/-- What debugging prints about the parse of a text is one pass over its tokens, and it accounts for
    what is taken: the operands among the tokens in order, and the nodes and groups by the
    expressions and terms that begin. -/
theorem trace_accounts (text : String) :
    ∃ events, Noted (parse none true (Token.scan text)).printed events ∧ SinglePass events ∧
      ∀ p, (parse none true (Token.scan text)).outcome = .ok p →
        events.filter Event.isOperand = operandsBehind none ((Token.scan text).take p.offset) ∧
        ∃ visited, p.node.nodes = .ok visited ∧
          events.filterMap Event.negation? = visited.filterMap Expr.negation? ∧
          (events.filterMap Event.expression?).length =
            1 + visited.countP Expr.isSum + countKind .leftParen ((Token.scan text).take p.offset) ∧
          (events.filterMap Event.term?).length =
            (events.filterMap Event.expression?).length + visited.countP Expr.isProduct := by
  refine ⟨(run none (Token.scan text)).trace, noted_runLines _ _ _, singlePass_run _, ?_⟩
  intro p hp
  rw [parse_outcome] at hp
  obtain ⟨haccounts, hs⟩ := accounts_of_run (fun _ => Token.decimal_of_mem_scan) hp
  have hoperands := haccounts.operands none [] rfl (uncut_nil _)
  rw [List.append_nil] at hoperands
  have hexpressions := haccounts.expressions
  have hterms := haccounts.terms
  rw [if_pos rfl] at hexpressions
  rw [if_pos (.inl rfl)] at hterms
  refine ⟨?_, p.node.subtrees, Expr.nodes_eq_subtrees hs, haccounts.negations, hexpressions, by omega⟩
  rw [hoperands]
  exact (List.append_nil _).symm

/-- The trace of `-(12+3)*4)`, where the last parenthesis is not taken. -/
theorem accounts_of_negated_group :
    (parse none true (Token.scan "-(12+3)*4)")).outcome = .ok
      ⟨.binary .multiply 7 (.unary .negate 0 (.binary .add 4 (.constant 2 12) (.constant 5 3)))
        (.constant 8 4), Token.scan "-(12+3)*4)", 9⟩ ∧
    ∃ events, Noted (parse none true (Token.scan "-(12+3)*4)")).printed events ∧
      events.filter Event.isOperand =
        [.negation 0, .group 1, .integer 12 2, .integer 3 5, .integer 4 8] ∧
      (events.filterMap Event.expression?).length = 3 ∧ (events.filterMap Event.term?).length = 4 := by
  have h : (parse none true (Token.scan "-(12+3)*4)")).outcome = .ok
      ⟨.binary .multiply 7 (.unary .negate 0 (.binary .add 4 (.constant 2 12) (.constant 5 3)))
        (.constant 8 4), Token.scan "-(12+3)*4)", 9⟩ := rfl
  obtain ⟨events, hnoted, -, haccounts⟩ := trace_accounts "-(12+3)*4)"
  obtain ⟨hoperands, visited, hvisited, -, hexpressions, hterms⟩ := haccounts _ h
  rw [Expr.nodes_eq_subtrees (by decide)] at hvisited
  cases hvisited
  rw [hexpressions] at hterms
  exact ⟨h, events, hnoted, hoperands, hexpressions, hterms⟩

end Parse

end Abacus
