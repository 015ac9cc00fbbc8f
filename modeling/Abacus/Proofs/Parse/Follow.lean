/-
  Abacus.Proofs.Parse.Follow — what stands behind the tokens that a production takes.

  - `Takes.ends` / `Takes.digit_behind`: behind what a nonterminal takes stands no operator that it
    would have taken as well, and a digit only behind a group.
  - `production_takes`: a production that ends at an index, on any budget, leaves the tokens from
    there on.
  - `unguarded_eq`: a term refuses the character outside the grammar behind it, so expressions that
    do not look for one run as those that do.

  `follow_sets` puts them together, for all indices and budgets and for whole parses.
-/

import Abacus.Proofs.Parse.Derivation
import Abacus.Proofs.Parse.Depth

namespace Abacus.Parse

open Grammar (Nonterminal additive? multiplicative?)

/-! ## Expressions that do not look for strangers -/

/-- A chain that takes whatever is no operator behind its first operand as its end. -/
def unguardedChain (op? : Token.Kind → Option BinaryOp) (operand tail : Nat → List Token → Run Parsed)
    (index : Nat) (tokens : List Token) : Run Parsed := do
  let left ← operand index tokens
  match left.rest with
  | [] => return left
  | t :: rest =>
    match op? t.kind with
    | some op =>
      let right ← tail (left.offset + 1) rest
      return ⟨.binary op t.position left.node right.node, right.offset, right.rest⟩
    | none => return left

mutual

def unguardedExpression : (budget index : Nat) → List Token → Run Parsed
  | 0, _, _ => .refuse .nestingTooDeep
  | budget + 1, index, tokens => .call do
    .note (.expression index)
    unguardedChain additive? (unguardedTerm budget) (unguardedExpression budget) index tokens

def unguardedTerm : (budget index : Nat) → List Token → Run Parsed
  | 0, _, _ => .refuse .nestingTooDeep
  | budget + 1, index, tokens => .call do
    .note (.term index)
    chain multiplicative? (unguardedFactor budget) (unguardedTerm budget) index tokens

def unguardedFactor : (budget index : Nat) → List Token → Run Parsed
  | 0, _, _ => .refuse .nestingTooDeep
  | budget + 1, index, tokens => .call do
    match ← literal index tokens with
    | some number => return number
    | none => unnumbered (unguardedExpression budget) (unguardedFactor budget) index tokens

end

def unguardedRun (limit : Limit) (tokens : List Token) : Run Partial := do
  let parsed ← unguardedExpression (limit.budget tokens) 0 tokens
  return ⟨parsed.node, tokens, parsed.offset⟩

/-- The expression at the front of a list of tokens, found by terms that look for strangers and
    expressions that do not. -/
def unguardedParse (limit : Limit) (debug : Bool) (tokens : List Token) : Transcript Failure Partial :=
  report limit debug tokens (unguardedRun limit tokens)

/-! ## Behind what is taken -/

theorem Takes.ends {n : Nonterminal} {ts rest : List Token} {e : Expr} (h : Takes n ts e rest) :
    ∀ t ∈ rest.head?, Ends n t.kind := by
  induction h with
  | number | integer | negation | group => exact fun _ _ => trivial
  | single hm _ hh ih =>
    intro t ht
    exact (ends_iff_of_operand hm _).mpr ⟨hh t ht, ih t ht⟩
  | chain _ _ _ _ _ ihr => exact ihr

/-- A number takes all the digits there are, so a digit stands only behind a parenthesis. -/
theorem Takes.digit_behind {n : Nonterminal} {ts rest : List Token} {e : Expr} (h : Takes n ts e rest) :
    ∀ t ∈ rest.head?, t.isDigit = true →
      ∃ taken last, ts = taken ++ last :: rest ∧ last.kind = .rightParen := by
  induction h with
  | number h =>
    intro t ht hd
    obtain ⟨d, us, -, -, rfl⟩ := number?_eq_ok h
    rw [Grammar.head?_dropWhile_digits us t ht] at hd
    cases hd
  | integer _ ih | single _ _ _ ih => exact ih
  | @negation first _ _ _ _ _ ih =>
    intro t ht hd
    obtain ⟨taken, last, rfl, hl⟩ := ih t ht hd
    exact ⟨first :: taken, last, rfl, hl⟩
  | @group first last _ _ _ _ ht hl _ =>
    intro _ _ _
    obtain ⟨taken, rfl⟩ := ht.suffix.1
    exact ⟨first :: taken, last, rfl, hl⟩
  | @chain _ _ op _ _ _ _ _ _ _ hl _ _ _ ihr =>
    intro t ht hd
    obtain ⟨left, rfl⟩ := hl.suffix.1
    obtain ⟨taken, last, rfl, hlast⟩ := ihr t ht hd
    exact ⟨left ++ op :: taken, last, by simp, hlast⟩

theorem ends_term_iff (k : Token.Kind) :
    Ends .term k ↔ k ≠ .star ∧ k ≠ .solidus ∧ k ≠ .unrecognized := by
  cases k <;> simp [Ends, multiplicative?]

/-- A digit at an index stands behind a parenthesis that closes a group. -/
def DigitBehindGroup (tokens : List Token) (k : Nat) : Prop :=
  ∀ t, tokens[k]? = some t → t.isDigit = true → ∃ s, tokens[k - 1]? = some s ∧ s.kind = .rightParen

section Production

variable {n : Nonterminal} (hn : n ≠ .integer) {budget index : Nat} {tokens : List Token} {p : Parsed}
  (h : (production n budget index (tokens.drop index)).outcome = .ok p)
include hn h

theorem production_takes :
    Takes n (tokens.drop index) p.node p.rest ∧ p.rest = tokens.drop p.offset ∧
      p.offset + p.rest.length = index + (tokens.drop index).length := by
  have hrules := follows_rules hn budget index (tokens.drop index)
  rw [h] at hrules
  obtain ⟨ht, hlength, -⟩ := hrules
  refine ⟨ht, ?_, hlength⟩
  have hshorter := ht.suffix.2
  have hoffset : p.offset = index + ((tokens.drop index).length - p.rest.length) := by omega
  rw [hoffset, ← List.drop_drop]
  exact List.suffix_iff_eq_drop.mp ht.suffix.1

theorem production_ends {t : Token} (ht : tokens[p.offset]? = some t) : Ends n t.kind := by
  obtain ⟨htakes, hrest, -⟩ := production_takes hn h
  refine htakes.ends t ?_
  rw [hrest, List.head?_drop]
  exact ht

theorem production_digit : DigitBehindGroup tokens p.offset := by
  intro t ht hd
  obtain ⟨htakes, hrest, hlength⟩ := production_takes hn h
  have hhead : t ∈ p.rest.head? := by
    rw [hrest, List.head?_drop]
    exact ht
  obtain ⟨taken, last, hts, hlast⟩ := htakes.digit_behind t hhead hd
  refine ⟨last, ?_, hlast⟩
  have hbefore : p.offset - 1 = index + taken.length := by
    rw [hts, List.length_append, List.length_cons] at hlength
    omega
  rw [hbefore, ← List.getElem?_drop, hts, List.getElem?_append_right (Nat.le_refl _), Nat.sub_self]
  rfl

end Production

/-- No character outside the grammar stands behind a term. -/
theorem not_stranger_behind_term {budget index : Nat} {tokens : List Token} {left : Parsed}
    (h : (production .term budget index tokens).outcome = .ok left) :
    ∀ t ∈ left.rest.head?, t.kind ≠ .unrecognized := by
  intro t ht
  have hrules := follows_rules (n := .term) (by simp) budget index tokens
  rw [h] at hrules
  exact (hrules.1.ends t ht).2

/-! ## The look for strangers behind terms -/

/-- What follows a run matters only for what the run ends with. -/
theorem Run.bind_congr {α β : Type} {r : Run α} {next next' : α → Run β}
    (h : ∀ a, r.outcome = .ok a → next a = next' a) : r >>= next = r >>= next' := by
  rcases ho : r.outcome with f | a
  · rw [bind_of_error ho, bind_of_error ho]
  · rw [bind_of_ok ho, bind_of_ok ho, h a ho]

theorem unguardedChain_eq {op? : Token.Kind → Option BinaryOp}
    {operand tail : Nat → List Token → Run Parsed} {index : Nat} {tokens : List Token}
    (h : ∀ left, (operand index tokens).outcome = .ok left →
      ∀ t ∈ left.rest.head?, t.kind ≠ .unrecognized) :
    unguardedChain op? operand tail index tokens = chain op? operand tail index tokens := by
  unfold unguardedChain chain
  refine Run.bind_congr fun left hleft => ?_
  rcases hrest : left.rest with _ | ⟨t, rest⟩
  · rfl
  · have ht : t.kind ≠ .unrecognized := h left hleft t (by rw [hrest]; rfl)
    dsimp only
    rcases op? t.kind with _ | op
    · exact (if_neg ht).symm
    · rfl

theorem unguarded_eq (budget : Nat) :
    unguardedExpression budget = production .expression budget ∧
      unguardedTerm budget = production .term budget ∧
      unguardedFactor budget = production .factor budget := by
  induction budget with
  | zero => exact ⟨rfl, rfl, rfl⟩
  | succ budget ih =>
    obtain ⟨he, ht, hf⟩ := ih
    refine ⟨?_, ?_, ?_⟩
    · funext index tokens
      rw [expression_call, unguardedExpression, he, ht]
      refine congrArg Run.call (Run.bind_congr fun _ _ => ?_)
      exact unguardedChain_eq fun left => not_stranger_behind_term
    · funext index tokens
      rw [term_call, unguardedTerm, ht, hf]
    · funext index tokens
      rw [unguardedFactor, he, hf]
      exact (factor_call budget index tokens).symm

theorem unguardedParse_eq (limit : Limit) (debug : Bool) (tokens : List Token) :
    unguardedParse limit debug tokens = parse limit debug tokens := by
  have hrun : unguardedRun limit tokens = run limit tokens := by
    rw [unguardedRun, (unguarded_eq _).1]
    rfl
  unfold unguardedParse parse
  rw [hrun]

theorem follow_sets :
    (∀ (tokens : List Token) (budget index : Nat) (p : Parsed),
      ((factor budget index (tokens.drop index)).outcome = .ok p → DigitBehindGroup tokens p.offset) ∧
      ((term budget index (tokens.drop index)).outcome = .ok p → DigitBehindGroup tokens p.offset ∧
        ∀ t, tokens[p.offset]? = some t →
          t.kind ≠ .star ∧ t.kind ≠ .solidus ∧ t.kind ≠ .unrecognized) ∧
      ((expression budget index (tokens.drop index)).outcome = .ok p → DigitBehindGroup tokens p.offset ∧
        ∀ t, tokens[p.offset]? = some t →
          t.kind ≠ .plus ∧ t.kind ≠ .minus ∧ t.kind ≠ .star ∧ t.kind ≠ .solidus ∧
            t.kind ≠ .unrecognized)) ∧
    (∀ (budget index : Nat) (tokens : List Token) (left : Parsed),
      (term budget index tokens).outcome = .ok left →
        ∀ t ∈ left.rest.head?, t.kind ≠ .unrecognized) ∧
    (∀ (budget index : Nat) (tokens : List Token),
      unguardedExpression budget index tokens = expression budget index tokens) ∧
    ∀ (limit : Limit) (debug : Bool) (tokens : List Token),
      unguardedParse limit debug tokens = parse limit debug tokens := by
  refine ⟨?_, fun budget index tokens left h => not_stranger_behind_term h, ?_, unguardedParse_eq⟩
  · intro tokens budget index p
    refine ⟨fun h => production_digit (n := .factor) (by simp) h, ?_, ?_⟩
    · intro h
      refine ⟨production_digit (n := .term) (by simp) h, ?_⟩
      intro t ht
      exact (ends_term_iff t.kind).mp (production_ends (n := .term) (by simp) h ht)
    · intro h
      refine ⟨production_digit (n := .expression) (by simp) h, ?_⟩
      intro t ht
      exact (ends_expression_iff t.kind).mp (production_ends (n := .expression) (by simp) h ht)
  · intro budget index tokens
    rw [(unguarded_eq budget).1]
    rfl

/-- In `2*(3)4?` the factor that is a group ends at a digit, and the parser stops there; in `12?` a
    number ends at the question mark, which is refused without the look of the expression. -/
theorem follow_of_group_before_digit :
    ((factor 9 2 ((Token.scan "2*(3)4?").drop 2)).outcome =
        .ok ⟨.constant 3 3, 5, (Token.scan "2*(3)4?").drop 5⟩ ∧
      DigitBehindGroup (Token.scan "2*(3)4?") 5) ∧
    ((term 9 0 ((Token.scan "2*(3)4?").drop 0)).outcome =
        .ok ⟨.binary .multiply 1 (.constant 0 2) (.constant 3 3), 5, (Token.scan "2*(3)4?").drop 5⟩ ∧
      ∀ t ∈ ((Token.scan "2*(3)4?").drop 5).head?, t.kind ≠ .unrecognized) ∧
    unguardedParse none true (Token.scan "12?") = parse none true (Token.scan "12?") ∧
    (unguardedParse none true (Token.scan "12?")).outcome =
      .error (.refused (.placed .invalidToken (some 2))) := by
  obtain ⟨hends, hbehind, -, hparse⟩ := follow_sets
  have hfactor : (factor 9 2 ((Token.scan "2*(3)4?").drop 2)).outcome =
      .ok ⟨.constant 3 3, 5, (Token.scan "2*(3)4?").drop 5⟩ := rfl
  have hterm : (term 9 0 ((Token.scan "2*(3)4?").drop 0)).outcome =
      .ok ⟨.binary .multiply 1 (.constant 0 2) (.constant 3 3), 5, (Token.scan "2*(3)4?").drop 5⟩ := rfl
  exact ⟨⟨hfactor, (hends _ 9 2 _).1 hfactor⟩, ⟨hterm, hbehind 9 0 _ _ hterm⟩, hparse _ _ _, rfl⟩

end Abacus.Parse
