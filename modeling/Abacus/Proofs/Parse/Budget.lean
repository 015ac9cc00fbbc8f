/-
  Abacus.Proofs.Parse.Budget — runs end by the rules, unless their budget is too small.

  - `follows_rules`: every run of a production, on any budget, ends by a rule of
    `Abacus.Proofs.Parse.Rules`, or is too deep for a budget of less than `calls`.
  - `Takes.outcome` / `Fails.outcome`: on a budget of `calls` a run ends as the rules say.
  - `run_none_eq_ok_iff` / `run_none_eq_error_iff`: so a run without a limit is the rules,
    and `run_outcome_or_deep`: a limit changes an outcome only to being too deep.
  - `parse_outcome`: printing changes no outcome, since every tree of a run can be shown under
    its limit.
-/

import Abacus.Proofs.Expr.Line
import Abacus.Proofs.Parse.Rules

namespace Abacus.Parse

open Grammar (Nonterminal additive? multiplicative?)

/-! ## Calls that suffice -/

def height : Nonterminal → Nat
  | .expression => 3
  | .term => 2
  | .factor => 1
  | .integer => 0

/-- A budget that suffices for a nonterminal: `depthBound` for a whole expression. -/
def calls (n : Nonterminal) (ts : List Token) : Nat :=
  height n + 3 * ts.countP (·.kind == .leftParen) +
    ts.countP fun t => (additive? t.kind).isSome || (multiplicative? t.kind).isSome

theorem calls_expression (ts : List Token) : calls .expression ts = depthBound ts := rfl

theorem calls_operand {n m : Nonterminal} (h : operand? n = some m) (ts : List Token) :
    calls n ts = calls m ts + 1 := by
  cases n <;> cases h <;> (simp only [calls, height]; omega)

theorem calls_pos {n : Nonterminal} (h : n ≠ .integer) (ts : List Token) : 0 < calls n ts := by
  cases n
  case integer => exact absurd rfl h
  all_goals simp only [calls, height]; omega

theorem calls_mono {us ts : List Token} (h : us <:+ ts) (n : Nonterminal) : calls n us ≤ calls n ts := by
  have h1 := h.sublist.countP_le (p := (·.kind == Token.Kind.leftParen))
  have h2 := h.sublist.countP_le
    (p := fun t : Token => (additive? t.kind).isSome || (multiplicative? t.kind).isSome)
  simp only [calls]; omega

theorem operator?_some {n : Nonterminal} {k : Token.Kind} {op : BinaryOp} (h : operator? n k = some op) :
    additive? k = some op ∨ multiplicative? k = some op := by
  cases n
  case expression => exact Or.inl h
  case term => exact Or.inr h
  all_goals cases h

/-- A tail needs one call less than its chain: the operator before it is a token of its own. -/
theorem calls_tail {n m : Nonterminal} {t : Token} {op : BinaryOp} {ts us : List Token} {l : Expr}
    (h : Takes m ts l (t :: us)) (ho : operator? n t.kind = some op) : calls n us + 1 ≤ calls n ts := by
  refine Nat.le_trans ?_ (calls_mono h.suffix.1 n)
  have ht : ((additive? t.kind).isSome || (multiplicative? t.kind).isSome) = true := by
    rcases operator?_some ho with h | h <;> simp [h]
  simp only [calls, List.countP_cons, ht, if_true]; omega

theorem calls_negation {t : Token} (h : t.kind = .minus) (ts : List Token) :
    calls .factor ts + 1 = calls .factor (t :: ts) := by
  simp [calls, h, additive?]; omega

theorem calls_group {t : Token} (h : t.kind = .leftParen) (ts : List Token) :
    calls .expression ts + 1 = calls .factor (t :: ts) := by
  simp [calls, h, additive?, multiplicative?, height]; omega

/-! ## Outcomes of the productions -/

section Chain

variable {op? : Token.Kind → Option BinaryOp} {operand tail : Nat → List Token → Run Parsed}
variable {index : Nat} {ts : List Token}

theorem chain_error {f : Failure} (h : (operand index ts).outcome = .error f) :
    (chain op? operand tail index ts).outcome = .error f := by
  simp [chain, h, Except.bind]

theorem chain_single {left : Parsed} (h : (operand index ts).outcome = .ok left)
    (hr : ∀ t ∈ left.rest.head?, op? t.kind = none ∧ t.kind ≠ .unrecognized) :
    (chain op? operand tail index ts).outcome = .ok left := by
  simp only [chain, Run.outcome_bind, h, Except.bind]
  rcases hl : left.rest with _ | ⟨t, us⟩
  · rfl
  · obtain ⟨ho, hk⟩ := hr t (by simp [hl])
    simp [ho, hk]

theorem chain_stranger {left : Parsed} {t : Token} {us : List Token}
    (h : (operand index ts).outcome = .ok left) (hl : left.rest = t :: us) (ho : op? t.kind = none)
    (hk : t.kind = .unrecognized) :
    (chain op? operand tail index ts).outcome =
      .error (.refused (.placed .invalidToken (some t.position))) := by
  rw [hk] at ho
  simp [chain, h, Except.bind, hl, ho, hk]

theorem chain_tail {left : Parsed} {t : Token} {us : List Token} {op : BinaryOp}
    (h : (operand index ts).outcome = .ok left) (hl : left.rest = t :: us)
    (ho : op? t.kind = some op) :
    (chain op? operand tail index ts).outcome = (tail (left.offset + 1) us).outcome.map fun right =>
      ⟨.binary op t.position left.node right.node, right.offset, right.rest⟩ := by
  simp only [chain, Run.outcome_bind, h, Except.bind, hl, ho, Run.outcome_pure]
  cases (tail (left.offset + 1) us).outcome <;> rfl

end Chain

/-- The production of a nonterminal. A number is taken by the production of factors. -/
def production : Nonterminal → (budget index : Nat) → List Token → Run Parsed
  | .expression => expression
  | .term => term
  | .factor | .integer => factor

theorem production_chain {n m : Nonterminal} (hm : operand? n = some m) (budget index : Nat)
    (ts : List Token) : (production n (budget + 1) index ts).outcome =
      (chain (operator? n) (production m budget) (production n budget) index ts).outcome := by
  cases n <;> cases hm
  · simp only [production, expression, Run.outcome_call, Run.outcome_bind, Run.outcome_note, Except.bind]
    rfl
  · simp only [production, term, Run.outcome_call, Run.outcome_bind, Run.outcome_note, Except.bind]
    rfl

section Factor

variable {budget index : Nat} {t : Token} {ts : List Token}

theorem factor_number {r : Except Failure (Expr × List Token)} (h : number? ts = some r) :
    (factor (budget + 1) index ts).outcome =
      r.map fun x => ⟨x.1, index + (ts.length - x.2.length), x.2⟩ := by
  simp only [factor, Run.outcome_call, Run.outcome_bind, literal_outcome, h]
  cases r <;> rfl

theorem factor_nil : (factor (budget + 1) index []).outcome = .error (.refused .unexpectedEof) := rfl

theorem factor_minus (hk : t.kind = .minus) :
    (factor (budget + 1) index (t :: ts)).outcome =
      (factor budget (index + 1) ts).outcome.map fun p =>
        ⟨.unary .negate t.position p.node, p.offset, p.rest⟩ := by
  have hn : number? (t :: ts) = none := number?_eq_none_of_kind hk (by decide) ts
  simp only [factor, Run.outcome_call, Run.outcome_bind, literal_outcome, hn, hk, Run.outcome_note,
    Except.bind]
  cases (factor budget (index + 1) ts).outcome <;> rfl

theorem factor_group (hk : t.kind = .leftParen) :
    (factor (budget + 1) index (t :: ts)).outcome =
      (expression budget (index + 1) ts).outcome.bind fun p =>
        match p.rest with
        | [] => .error (.refused .unexpectedEof)
        | u :: us =>
          if u.kind = .rightParen then .ok ⟨p.node, p.offset + 1, us⟩
          else .error (.refused (.placed .invalidGroup (some u.position))) := by
  have hn : number? (t :: ts) = none := number?_eq_none_of_kind hk (by decide) ts
  simp only [factor, Run.outcome_call, Run.outcome_bind, literal_outcome, hn, hk, Run.outcome_note,
    Except.bind]
  rcases (expression budget (index + 1) ts).outcome with f | p
  · rfl
  · simp only
    rcases p.rest with _ | ⟨u, us⟩
    · rfl
    · simp only; split <;> rfl

theorem factor_expected (hd : t.isDigit = false) (h1 : t.kind ≠ .minus) (h2 : t.kind ≠ .leftParen) :
    (factor (budget + 1) index (t :: ts)).outcome =
      .error (.refused (.placed .factorExpected (some t.position))) := by
  have hn : number? (t :: ts) = none := number?_eq_none_iff.mpr (by simpa using hd)
  simp only [factor, Run.outcome_call, Run.outcome_bind, literal_outcome, hn, Except.bind]
  rfl

end Factor

/-! ## Runs end by the rules -/

/-- The outcome of a run is what a rule says, or the budget was too small. A tree has no more
    levels than there were calls to make. -/
def FollowsRules (budget : Nat) (n : Nonterminal) (index : Nat) (ts : List Token) :
    Except Failure Parsed → Prop
  | .ok p => Takes n ts p.node p.rest ∧ p.offset + p.rest.length = index + ts.length ∧
      p.node.height ≤ budget
  | .error f => Fails n ts f ∨ (f = .refused .nestingTooDeep ∧ budget < calls n ts)

theorem follows_deep {n : Nonterminal} (hn : n ≠ .integer) (index : Nat) (ts : List Token) :
    FollowsRules 0 n index ts (.error (.refused .nestingTooDeep)) :=
  Or.inr ⟨rfl, calls_pos hn ts⟩

theorem follows_chain {budget index : Nat} {n m : Nonterminal} {ts : List Token}
    (hm : operand? n = some m)
    (hl : FollowsRules budget m index ts (production m budget index ts).outcome)
    (hr : ∀ i us, FollowsRules budget n i us (production n budget i us).outcome) :
    FollowsRules (budget + 1) n index ts (production n (budget + 1) index ts).outcome := by
  rw [production_chain hm]
  have hc := calls_operand hm ts
  rcases ho : (production m budget index ts).outcome with f | left
  · rw [chain_error ho]
    rw [ho] at hl
    rcases hl with hf | ⟨rfl, hb⟩
    · exact Or.inl (.operand hm hf)
    · exact Or.inr ⟨rfl, by omega⟩
  rw [ho] at hl
  obtain ⟨hl, hlen, hheight⟩ := hl
  rcases hrest : left.rest with _ | ⟨t, us⟩
  · have hh : ∀ t ∈ left.rest.head?, operator? n t.kind = none ∧ t.kind ≠ .unrecognized := by
      simp [hrest]
    rw [chain_single ho hh]
    exact ⟨.single hm hl hh, hlen, Nat.le_succ_of_le hheight⟩
  rw [hrest] at hl hlen
  rcases hop : operator? n t.kind with _ | op
  · by_cases hk : t.kind = .unrecognized
    · rw [chain_stranger ho hrest hop hk]
      exact Or.inl (.stranger hm hl hk)
    · have hh : ∀ t ∈ left.rest.head?, operator? n t.kind = none ∧ t.kind ≠ .unrecognized := by
        simp [hrest, hop, hk]
      rw [chain_single ho hh]
      rw [← hrest] at hl hlen
      exact ⟨.single hm hl hh, hlen, Nat.le_succ_of_le hheight⟩
  · rw [chain_tail ho hrest hop]
    have ht := hr (left.offset + 1) us
    have hu := calls_tail (n := n) hl hop
    rcases htail : (production n budget (left.offset + 1) us).outcome with f | right
    · rw [htail] at ht
      rcases ht with hf | ⟨rfl, hb⟩
      · exact Or.inl (.tail hm hl hop hf)
      · exact Or.inr ⟨rfl, by omega⟩
    · rw [htail] at ht
      obtain ⟨hr, hlenr, hheightr⟩ := ht
      refine ⟨.chain hm hl hop hr, ?_, Nat.succ_le_succ (Nat.max_le.mpr ⟨hheight, hheightr⟩)⟩
      rw [List.length_cons] at hlen
      show right.offset + right.rest.length = index + ts.length
      omega

theorem follows_negation {budget index : Nat} {t : Token} {ts : List Token} (hk : t.kind = .minus)
    (hf : FollowsRules budget .factor (index + 1) ts (factor budget (index + 1) ts).outcome) :
    FollowsRules (budget + 1) .factor index (t :: ts) (factor (budget + 1) index (t :: ts)).outcome := by
  rw [factor_minus hk]
  have hc := calls_negation hk ts
  rcases ho : (factor budget (index + 1) ts).outcome with f | p
  · rw [ho] at hf
    rcases hf with hf | ⟨rfl, hb⟩
    · exact Or.inl (.negation hk hf)
    · exact Or.inr ⟨rfl, by omega⟩
  · rw [ho] at hf
    obtain ⟨ht, hlen, hheight⟩ := hf
    refine ⟨.negation hk ht, ?_, Nat.succ_le_succ hheight⟩
    show p.offset + p.rest.length = index + (ts.length + 1)
    omega

theorem follows_group {budget index : Nat} {t : Token} {ts : List Token} (hg : t.kind = .leftParen)
    (he : FollowsRules budget .expression (index + 1) ts (expression budget (index + 1) ts).outcome) :
    FollowsRules (budget + 1) .factor index (t :: ts) (factor (budget + 1) index (t :: ts)).outcome := by
  rw [factor_group hg]
  have hc := calls_group hg ts
  rcases ho : (expression budget (index + 1) ts).outcome with f | p
  · rw [ho] at he
    rcases he with hf | ⟨rfl, hb⟩
    · exact Or.inl (.group hg hf)
    · exact Or.inr ⟨rfl, by omega⟩
  · rw [ho] at he
    obtain ⟨ht, hlen, hheight⟩ := he
    simp only [Except.bind]
    rcases hrest : p.rest with _ | ⟨u, us⟩
    · rw [hrest] at ht
      exact Or.inl (.unclosed hg ht)
    · rw [hrest] at ht hlen
      by_cases hu : u.kind = .rightParen
      · simp only [hu, if_true]
        refine ⟨.group hg ht hu, ?_, Nat.le_succ_of_le hheight⟩
        simp only [List.length_cons] at hlen ⊢; omega
      · simp only [hu, if_false]
        exact Or.inl (.misclosed hg ht hu)

theorem follows_factor {budget : Nat}
    (he : ∀ i us, FollowsRules budget .expression i us (expression budget i us).outcome)
    (hf : ∀ i us, FollowsRules budget .factor i us (factor budget i us).outcome)
    (index : Nat) (ts : List Token) :
    FollowsRules (budget + 1) .factor index ts (factor (budget + 1) index ts).outcome := by
  rcases hn : number? ts with _ | (f | ⟨e, rest⟩)
  · rcases ts with _ | ⟨t, us⟩
    · rw [factor_nil]
      exact Or.inl .ended
    by_cases hk : t.kind = .minus
    · exact follows_negation hk (hf (index + 1) us)
    by_cases hg : t.kind = .leftParen
    · exact follows_group hg (he (index + 1) us)
    · have hd : t.isDigit = false := number?_eq_none_iff.mp hn t rfl
      rw [factor_expected hd hk hg]
      exact Or.inl (.expected hd hk hg)
  · rw [factor_number hn]
    exact Or.inl (.integer (.number hn))
  · rw [factor_number hn]
    have := (number?_ok_suffix hn).2
    obtain ⟨position, value, rfl⟩ := number?_ok_constant hn
    refine ⟨.integer (.number hn), ?_, Nat.succ_le_succ (Nat.zero_le budget)⟩
    show index + (ts.length - rest.length) + rest.length = index + ts.length
    omega

theorem follows_rules {n : Nonterminal} (hn : n ≠ .integer) (budget index : Nat) (ts : List Token) :
    FollowsRules budget n index ts (production n budget index ts).outcome := by
  -- all productions at once: each calls others on a budget of one less
  induction budget generalizing n index ts with
  | zero => cases n <;> exact follows_deep hn index ts
  | succ budget ih =>
    cases n with
    | expression => exact follows_chain rfl (ih (by simp) _ _) fun i us => ih (by simp) i us
    | term => exact follows_chain rfl (ih (by simp) _ _) fun i us => ih (by simp) i us
    | factor =>
      exact follows_factor (fun i us => ih (n := .expression) (by simp) i us)
        (fun i us => ih (n := .factor) (by simp) i us) index ts
    | integer => exact absurd rfl hn

/-! ## Rules are followed by runs -/

theorem ne_integer_of_operand {n m : Nonterminal} (h : operand? n = some m) :
    n ≠ .integer ∧ m ≠ .integer := by
  cases n <;> cases h <;> simp

/-- A budget that suffices is not empty. -/
theorem for_budgets {n : Nonterminal} (hn : n ≠ .integer) {ts : List Token} {P : Nat → Nat → Prop}
    (h : ∀ budget index, calls n ts ≤ budget + 1 → P (budget + 1) index) :
    ∀ budget index, calls n ts ≤ budget → P budget index
  | 0, _, hb => absurd hb (Nat.not_le_of_lt (calls_pos hn ts))
  | budget + 1, index, hb => h budget index hb

theorem Takes.outcome_aux {n : Nonterminal} {ts rest : List Token} {e : Expr} (h : Takes n ts e rest)
    (hn : n ≠ .integer) : ∀ budget index, calls n ts ≤ budget →
      ∃ k, (production n budget index ts).outcome = .ok ⟨e, k, rest⟩ := by
  induction h with
  | number => exact absurd rfl hn
  | integer h =>
    refine for_budgets hn fun budget index hb => ?_
    cases h with
    | number h => exact ⟨_, factor_number h⟩
    | single hm | chain hm => cases hm
  | @negation t ts rest e hk ht ih =>
    refine for_budgets hn fun budget index hb => ?_
    have hc := calls_negation hk ts
    obtain ⟨k, ho⟩ := ih hn budget (index + 1) (by omega)
    refine ⟨k, ?_⟩
    show (factor (budget + 1) index (t :: ts)).outcome = _
    rw [factor_minus hk, show (factor budget (index + 1) ts).outcome = _ from ho]
    rfl
  | @group first last ts rest e hk ht hl ih =>
    refine for_budgets hn fun budget index hb => ?_
    have hc := calls_group hk ts
    obtain ⟨k, ho⟩ := ih (by simp) budget (index + 1) (by omega)
    refine ⟨k + 1, ?_⟩
    show (factor (budget + 1) index (first :: ts)).outcome = _
    rw [factor_group hk, show (expression budget (index + 1) ts).outcome = _ from ho]
    simp [Except.bind, hl]
  | @single n m ts rest e hm ht hh ih =>
    refine for_budgets hn fun budget index hb => ?_
    have hc := calls_operand hm ts
    obtain ⟨k, ho⟩ := ih (ne_integer_of_operand hm).2 budget index (by omega)
    exact ⟨k, by rw [production_chain hm, chain_single ho hh]⟩
  | @chain n m t op ts us rest l r hm hl hop hr ihl ihr =>
    refine for_budgets hn fun budget index hb => ?_
    have hc := calls_operand hm ts
    have hu := calls_tail (n := n) hl hop
    obtain ⟨j, hoj⟩ := ihl (ne_integer_of_operand hm).2 budget index (by omega)
    obtain ⟨k, hok⟩ := ihr hn budget (j + 1) (by omega)
    exact ⟨k, by rw [production_chain hm, chain_tail hoj rfl hop, hok]; rfl⟩

/-- What a rule takes, a run on a budget that suffices takes. -/
theorem Takes.outcome {n : Nonterminal} {ts rest : List Token} {e : Expr} (h : Takes n ts e rest)
    (hn : n ≠ .integer) {budget : Nat} (hb : calls n ts ≤ budget) (index : Nat) :
    (production n budget index ts).outcome = .ok ⟨e, index + (ts.length - rest.length), rest⟩ := by
  obtain ⟨k, hk⟩ := h.outcome_aux hn budget index hb
  have hf := follows_rules hn budget index ts
  rw [hk] at hf
  have hlen : k + rest.length = index + ts.length := hf.2.1
  rw [hk, show k = index + (ts.length - rest.length) by have := h.suffix.2; omega]

/-- Where a rule fails, a run on a budget that suffices fails in the same way. -/
theorem Fails.outcome {n : Nonterminal} {ts : List Token} {f : Failure} (h : Fails n ts f)
    (hn : n ≠ .integer) : ∀ budget index, calls n ts ≤ budget →
      (production n budget index ts).outcome = .error f := by
  induction h with
  | number => exact absurd rfl hn
  | integer h =>
    refine for_budgets hn fun budget index hb => ?_
    cases h with
    | number h => exact factor_number h
    | operand hm | stranger hm | tail hm => cases hm
  | ended =>
    refine for_budgets hn fun budget index _ => ?_
    exact @factor_nil budget index
  | expected hd h1 h2 =>
    exact for_budgets hn fun _ _ _ => factor_expected hd h1 h2
  | @negation t ts f hk _ ih =>
    refine for_budgets hn fun budget index hb => ?_
    have hc := calls_negation hk ts
    show (factor (budget + 1) index (t :: ts)).outcome = _
    rw [factor_minus hk, show (factor budget (index + 1) ts).outcome = _ from ih hn budget _ (by omega)]
    rfl
  | @group t ts f hk _ ih =>
    refine for_budgets hn fun budget index hb => ?_
    have hc := calls_group hk ts
    show (factor (budget + 1) index (t :: ts)).outcome = _
    rw [factor_group hk,
      show (expression budget (index + 1) ts).outcome = _ from ih (by simp) budget _ (by omega)]
    rfl
  | @unclosed t ts e hk ht =>
    refine for_budgets hn fun budget index hb => ?_
    have hc := calls_group hk ts
    show (factor (budget + 1) index (t :: ts)).outcome = _
    rw [factor_group hk, show (expression budget (index + 1) ts).outcome = _ from
      ht.outcome (by simp) (by omega) (index + 1)]
    rfl
  | @misclosed t u ts us e hk ht hu =>
    refine for_budgets hn fun budget index hb => ?_
    have hc := calls_group hk ts
    show (factor (budget + 1) index (t :: ts)).outcome = _
    rw [factor_group hk, show (expression budget (index + 1) ts).outcome = _ from
      ht.outcome (by simp) (by omega) (index + 1)]
    simp [Except.bind, hu]
  | @operand n m ts f hm _ ih =>
    refine for_budgets hn fun budget index hb => ?_
    have hc := calls_operand hm ts
    rw [production_chain hm, chain_error (ih (ne_integer_of_operand hm).2 budget index (by omega))]
  | @stranger n m t ts us e hm ht hk =>
    refine for_budgets hn fun budget index hb => ?_
    have hc := calls_operand hm ts
    have hop : operator? n t.kind = none := by cases n <;> simp [operator?, hk, additive?, multiplicative?]
    rw [production_chain hm,
      chain_stranger (ht.outcome (ne_integer_of_operand hm).2 (by omega) index) rfl hop hk]
  | @tail n m t op ts us l f hm hl hop _ ih =>
    refine for_budgets hn fun budget index hb => ?_
    have hc := calls_operand hm ts
    have hu := calls_tail (n := n) hl hop
    rw [production_chain hm, chain_tail (hl.outcome (ne_integer_of_operand hm).2 (by omega) index) rfl hop,
      ih hn budget _ (by omega)]
    rfl

/-- One of the rules applies, whatever the tokens are. -/
theorem takes_or_fails {n : Nonterminal} (hn : n ≠ .integer) (ts : List Token) :
    (∃ e rest, Takes n ts e rest) ∨ ∃ f, Fails n ts f := by
  have h := follows_rules hn (calls n ts) 0 ts
  rcases ho : (production n (calls n ts) 0 ts).outcome with f | p
  · rw [ho] at h
    rcases h with hf | ⟨-, hb⟩
    · exact Or.inr ⟨f, hf⟩
    · exact absurd hb (Nat.lt_irrefl _)
  · rw [ho] at h
    exact Or.inl ⟨p.node, p.rest, h.1⟩

/-- What is taken is determined by the tokens. -/
theorem Takes.unique {n : Nonterminal} {ts rest rest' : List Token} {e e' : Expr} (hn : n ≠ .integer)
    (h : Takes n ts e rest) (h' : Takes n ts e' rest') : e = e' ∧ rest = rest' := by
  have ho := (h.outcome hn (Nat.le_refl _) 0).symm.trans (h'.outcome hn (Nat.le_refl _) 0)
  simp only [Except.ok.injEq, Parsed.mk.injEq] at ho
  exact ⟨ho.1, ho.2.2⟩

/-! ## Runs on whole lists -/

/-- What a run over a whole list makes of the outcome of its production. -/
theorem run_outcome (limit : Limit) (ts : List Token) :
    (run limit ts).outcome =
      (expression (limit.budget ts) 0 ts).outcome.map fun p => ⟨p.node, ts, p.offset⟩ := by
  simp only [run, Run.outcome_bind, Run.outcome_pure]
  cases (expression (limit.budget ts) 0 ts).outcome <;> rfl

theorem Takes.run_none {ts rest : List Token} {e : Expr} (h : Takes .expression ts e rest) :
    (run none ts).outcome = .ok ⟨e, ts, ts.length - rest.length⟩ := by
  rw [run_outcome, show (expression (Limit.budget none ts) 0 ts).outcome = _ from
    h.outcome (by simp) (Nat.le_of_eq (calls_expression ts)) 0]
  simp [Except.map]

theorem Fails.run_none {ts : List Token} {f : Failure} (h : Fails .expression ts f) :
    (run none ts).outcome = .error f := by
  rw [run_outcome, show (expression (Limit.budget none ts) 0 ts).outcome = _ from
    h.outcome (by simp) _ 0 (Nat.le_of_eq (calls_expression ts))]
  rfl

/-- Without a limit a run takes the tree that the rules take. -/
theorem run_none_eq_ok_iff {ts : List Token} {p : Partial} :
    (run none ts).outcome = .ok p ↔
      p.tokens = ts ∧ p.offset ≤ ts.length ∧ Takes .expression ts p.node p.remaining := by
  constructor
  · intro h
    rcases takes_or_fails (n := .expression) (by simp) ts with ⟨e, rest, ht⟩ | ⟨f, hf⟩
    · rw [ht.run_none] at h
      cases h
      refine ⟨rfl, Nat.sub_le _ _, ?_⟩
      show Takes .expression ts e (ts.drop (ts.length - rest.length))
      rwa [← List.suffix_iff_eq_drop.mp ht.suffix.1]
    · rw [hf.run_none] at h
      cases h
  · obtain ⟨e, us, k⟩ := p
    rintro ⟨rfl, hk, ht⟩
    have hk : k ≤ us.length := hk
    rw [ht.run_none]
    simp only [Partial.remaining, List.length_drop, Except.ok.injEq, Partial.mk.injEq, true_and]
    omega

/-- Without a limit a run fails where the rules fail. -/
theorem run_none_eq_error_iff {ts : List Token} {f : Failure} :
    (run none ts).outcome = .error f ↔ Fails .expression ts f := by
  refine ⟨fun h => ?_, Fails.run_none⟩
  rcases takes_or_fails (n := .expression) (by simp) ts with ⟨e, rest, ht⟩ | ⟨g, hg⟩
  · rw [ht.run_none] at h
    cases h
  · rw [hg.run_none] at h
    cases h
    exact hg

/-- Without a limit no run is too deep: no tokens exhaust the budget `depthBound`. -/
theorem run_none_ne_deep (ts : List Token) :
    (run none ts).outcome ≠ .error (.refused .nestingTooDeep) :=
  fun h => (run_none_eq_error_iff.mp h).ne_deep rfl

/-- A limit changes the outcome of a run only to being too deep. -/
theorem run_outcome_or_deep (limit : Limit) (ts : List Token) :
    (run limit ts).outcome = .error (.refused .nestingTooDeep) ∨
      (run limit ts).outcome = (run none ts).outcome := by
  have h := follows_rules (n := .expression) (by simp) (limit.budget ts) 0 ts
  rcases ho : (production .expression (limit.budget ts) 0 ts).outcome with f | p
  · have hr : (run limit ts).outcome = .error f := by
      rw [run_outcome, show (expression (limit.budget ts) 0 ts).outcome = _ from ho]; rfl
    rw [ho] at h
    rcases h with hf | ⟨rfl, -⟩
    · exact Or.inr (hr.trans hf.run_none.symm)
    · exact Or.inl hr
  · rw [ho] at h
    obtain ⟨ht, hlen, -⟩ := h
    right
    rw [ht.run_none, run_outcome, show (expression (limit.budget ts) 0 ts).outcome = _ from ho]
    simp only [Except.map, Except.ok.injEq, Partial.mk.injEq, true_and]
    omega

/-- With a limit or without, a run that succeeds takes what the rules take. -/
theorem takes_of_run {limit : Limit} {tokens : List Token} {p : Partial}
    (h : (run limit tokens).outcome = .ok p) :
    p.tokens = tokens ∧ p.offset ≤ tokens.length ∧ Takes .expression tokens p.node p.remaining := by
  rcases run_outcome_or_deep limit tokens with hdeep | hnone
  · rw [hdeep] at h
    cases h
  · rw [hnone] at h
    exact run_none_eq_ok_iff.mp h

/-! ## What is printed -/

theorem mem_closingLines {limit : Limit} {outcome : Except Failure Partial} {line : String}
    (h : line ∈ closingLines limit outcome) : ∃ (p : Partial) (text : String),
      p.node.prefixText none = .ok text ∧
        line = logLine s!"parsed {text}, {p.remaining.length} tokens left" := by
  rcases outcome with f | p
  · cases h
  · have hmem : line ∈ (closingLine limit p).toOption.toList := h
    unfold closingLine at hmem
    rcases ht : p.node.prefixText limit with f | text
    · rw [ht] at hmem
      cases hmem
    · rw [ht] at hmem
      exact ⟨p, text, Expr.prefixText_none_of_ok ht, List.mem_singleton.mp hmem⟩

section Lines

variable {limit : Limit} {ts : List Token} {p : Partial}

theorem noStray_of_run (h : (run limit ts).outcome = .ok p) : p.node.NoStray :=
  (takes_of_run h).2.2.noStray

/-- A run has made as many calls as its tree has levels, so the limit has room for these. -/
theorem allows_height_of_run (h : (run limit ts).outcome = .ok p) : limit.Allows p.node.height := by
  rintro calls rfl
  have hf := follows_rules (n := .expression) (by simp) calls 0 ts
  rw [run_outcome, show Limit.budget (some calls) ts = calls from rfl] at h
  rcases ho : (expression calls 0 ts).outcome with f | parsed
  · rw [ho] at h
    cases h
  · rw [ho] at h
    rw [show (production .expression calls 0 ts).outcome = _ from ho] at hf
    cases h
    exact hf.2.2

theorem prefixText_of_run (h : (run limit ts).outcome = .ok p) :
    ∃ text, p.node.prefixText none = .ok text ∧ p.node.prefixText limit = .ok text := by
  have hs := noStray_of_run h
  obtain ⟨text, ht⟩ := Expr.prefixText_of_noStray hs
  have hallows := allows_height_of_run h
  rw [← Expr.reach_of_noStray hs] at hallows
  exact ⟨text, ht, ((Expr.needsCalls_prefixText p.node).allowed hallows).trans ht⟩

/-- Every tree of a run is shown when debugging. -/
theorem closingLine_of_run (h : (run limit ts).outcome = .ok p) :
    ∃ line, closingLine none p = .ok line ∧ closingLine limit p = .ok line := by
  obtain ⟨text, hn, hl⟩ := prefixText_of_run h
  unfold closingLine
  rw [hn, hl]
  exact ⟨_, rfl, rfl⟩

end Lines

theorem closingLines_run (limit : Limit) (ts : List Token) :
    closingLines limit (run limit ts).outcome = closingLines none (run limit ts).outcome := by
  rcases ho : (run limit ts).outcome with f | p
  · rfl
  · obtain ⟨line, hn, hl⟩ := closingLine_of_run ho
    show (closingLine limit p).toOption.toList = (closingLine none p).toOption.toList
    rw [hn, hl]

theorem parse_outcome (limit : Limit) (debug : Bool) (ts : List Token) :
    (parse limit debug ts).outcome = (run limit ts).outcome := by
  cases debug with
  | false => rfl
  | true =>
    show ((run limit ts).outcome.bind fun p => (closingLine limit p).map fun _ => p) = _
    rcases ho : (run limit ts).outcome with f | p
    · rfl
    · obtain ⟨line, -, hl⟩ := closingLine_of_run ho
      show (closingLine limit p).map (fun _ => p) = _
      rw [hl]
      rfl

/-- A parse depends on its limit through its run alone. -/
theorem parse_eq (limit : Limit) (debug : Bool) (ts : List Token) :
    parse limit debug ts =
      ⟨if debug then runLines none ts (run limit ts) else [], (run limit ts).outcome⟩ := by
  refine Transcript.ext ?_ (parse_outcome limit debug ts)
  cases debug with
  | false => rfl
  | true =>
    show runLines limit ts (run limit ts) = _
    rw [runLines, closingLines_run]
    rfl

end Abacus.Parse
