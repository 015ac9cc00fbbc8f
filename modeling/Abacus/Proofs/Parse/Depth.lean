/-
  Abacus.Proofs.Parse.Depth — a limit on the nesting changes nothing but runs that go deeper, and
  the tokens bound how deep a run goes.

  Where `Abacus.Proofs.Parse.Budget` speaks of outcomes, this module speaks of whole runs: each
  production is a call of a body that runs other productions on a budget of one less
  (`expression_call`, `term_call`, `factor_call`).

  `Capped limit r s` says what becomes of a run `s` under a limit: the run `r`, which is `s`
  itself if `s` stays within the limit, and else is too deep.

  - `capped_production`: a production on a budget is so capped, against the same production on
    any larger budget.
  - `capped_run`: so a parse with a limit is the one without, capped; and no parse goes deeper
    than its tokens say (`depth_run_none_le`).
  - `parse_limited`: hence a parse that stays within the limit is the same with it, in all that
    it prints and gives, errors included; any other is too deep; and a larger limit changes no
    other answer.
  - `depth_production_le`: a production on a budget makes no more calls at once than that.
  - `production_settled`: on any budget that suffices it is the same run, and no call of it is
    denied; so the recursion ends by itself.
  - `callBound_scan`: how many calls suffice can be read off the characters of a text; digits and
    blanks are not counted.

  `recursion_bounded`: three calls for the whole, three for each group that is opened and one for
  each operator are always enough.
-/

import Abacus.Parse.Partial
import Abacus.Proofs.Parse.Budget
import Abacus.Proofs.Parse.Lookahead
import Abacus.Proofs.Token.Scanner
import Abacus.Token.Scanner

namespace Abacus.Parse

/-! # Whole runs -/

open Grammar (additive? multiplicative?)

/-! ## Runs in sequence -/

namespace Run

variable {α β : Type}

theorem bind_of_ok {r : Run α} {a : α} (h : r.outcome = .ok a) (next : α → Run β) :
    r >>= next = ⟨r.trace ++ (next a).trace, max r.depth (next a).depth, (next a).outcome⟩ := by
  show r.andThen next = _
  unfold andThen
  rw [h]

theorem bind_of_error {r : Run α} {f : Failure} (h : r.outcome = .error f) (next : α → Run β) :
    r >>= next = ⟨r.trace, r.depth, .error f⟩ := by
  show r.andThen next = _
  unfold andThen
  rw [h]

/-- Of two runs in sequence the deeper one says how deep they go. -/
theorem depth_bind_le {budget : Nat} {r : Run α} {next : α → Run β} (h : r.depth ≤ budget)
    (hn : ∀ a, (next a).depth ≤ budget) : (r >>= next).depth ≤ budget := by
  rcases ho : r.outcome with f | a
  · rw [bind_of_error ho]
    exact h
  · rw [bind_of_ok ho]
    exact Nat.max_le.mpr ⟨h, hn a⟩

/-- Work without calls, behind work without calls, makes none. -/
theorem depth_bind_eq_zero {r : Run α} {next : α → Run β} (h : r.depth = 0)
    (hn : ∀ a, (next a).depth = 0) : (r >>= next).depth = 0 :=
  Nat.le_zero.mp (depth_bind_le (Nat.le_of_eq h) fun a => Nat.le_of_eq (hn a))

end Run

/-! ## Calls -/

/-- To read a number no production is called. -/
theorem depth_literal (index : Nat) (tokens : List Token) : (literal index tokens).depth = 0 := by
  unfold literal
  split
  · rfl
  · refine Run.depth_bind_eq_zero rfl fun value => ?_
    exact Run.depth_bind_eq_zero rfl fun _ => Run.depth_bind_eq_zero rfl fun node => rfl

/-- The body of a factor that is no number, with the productions that it calls. -/
def unnumbered (expression factor : Nat → List Token → Run Parsed) (index : Nat) :
    List Token → Run Parsed
  | [] => .refuse .unexpectedEof
  | t :: rest =>
    match t.kind with
    | .minus => do
      .note (.negation t.position)
      let operand ← factor (index + 1) rest
      return ⟨.unary .negate t.position operand.node, operand.offset, operand.rest⟩
    | .leftParen => do
      .note (.group t.position)
      let inner ← expression (index + 1) rest
      match inner.rest with
      | [] => .refuse .unexpectedEof
      | close :: rest =>
        if close.kind = .rightParen then return ⟨inner.node, inner.offset + 1, rest⟩
        else .refuse (.placed .invalidGroup (some close.position))
    | _ => .refuse (.placed .factorExpected (some t.position))

variable (budget index : Nat) (tokens : List Token)

theorem expression_call : production .expression (budget + 1) index tokens = .call (do
    .note (.expression index)
    chain additive? (production .term budget) (production .expression budget) index tokens) := rfl

theorem term_call : production .term (budget + 1) index tokens = .call (do
    .note (.term index)
    chain multiplicative? (production .factor budget) (production .term budget) index tokens) := rfl

theorem factor_call : production .factor (budget + 1) index tokens = .call (do
    match ← literal index tokens with
    | some number => return number
    | none => unnumbered (production .expression budget) (production .factor budget) index tokens) := by
  show Run.call _ = Run.call _
  refine congrArg Run.call (congrArg (literal index tokens >>= ·) (funext fun number => ?_))
  cases number with
  | some number => rfl
  | none => cases tokens <;> rfl

end Abacus.Parse

/-! # Limits -/

namespace Abacus.Parse

open Grammar (Nonterminal additive? multiplicative?)

variable {α β : Type}

/-! ## Runs under a limit -/

/-- The run `r` is `s` if that stays within the limit, and is too deep otherwise. -/
def Capped (limit : Nat) (r s : Run α) : Prop :=
  (s.depth ≤ limit → r = s) ∧ (limit < s.depth → r.outcome = .error (.refused .nestingTooDeep))

theorem capped_of_depth_le {limit : Nat} {r : Run α} (h : r.depth ≤ limit) : Capped limit r r :=
  ⟨fun _ => rfl, fun hlt => absurd h (Nat.not_le_of_lt hlt)⟩

theorem capped_flat (limit : Nat) {r : Run α} (h : r.depth = 0) : Capped limit r r :=
  capped_of_depth_le (h ▸ Nat.zero_le limit)

theorem capped_note (limit : Nat) (event : Event) : Capped limit (.note event) (.note event) :=
  capped_flat limit rfl

/-- Without a call to spare no call is made. -/
theorem capped_zero (s : Run α) : Capped 0 (.refuse .nestingTooDeep) s.call :=
  ⟨fun h => absurd h (Nat.not_succ_le_zero s.depth), fun _ => rfl⟩

theorem Capped.call {limit : Nat} {r s : Run α} (h : Capped limit r s) :
    Capped (limit + 1) r.call s.call := by
  constructor
  · intro hle
    rw [h.1 (Nat.le_of_succ_le_succ hle)]
  · intro hlt
    exact h.2 (Nat.lt_of_succ_lt_succ hlt)

theorem Capped.bind {limit : Nat} {r s : Run α} (h : Capped limit r s) {next next' : α → Run β}
    (hn : ∀ a, Capped limit (next a) (next' a)) : Capped limit (r >>= next) (s >>= next') := by
  by_cases hs : s.depth ≤ limit
  · rw [h.1 hs]
    rcases ho : s.outcome with f | a
    · rw [Run.bind_of_error ho, Run.bind_of_error ho]
      exact capped_of_depth_le hs
    · rw [Run.bind_of_ok ho, Run.bind_of_ok ho]
      obtain ⟨hsame, hdeep⟩ := hn a
      constructor
      · intro hle
        rw [hsame (Nat.le_trans (Nat.le_max_right ..) hle)]
      · intro hlt
        have ha : limit < (next' a).depth := by
          simp only [] at hlt
          omega
        exact hdeep ha
  · -- the first run is too deep already, and nothing behind it is run
    have hdeep := h.2 (Nat.lt_of_not_le hs)
    have hlt : limit < (s >>= next').depth := by
      rcases ho : s.outcome with f | a
      · rw [Run.bind_of_error ho]
        exact Nat.lt_of_not_le hs
      · rw [Run.bind_of_ok ho]
        exact Nat.lt_of_lt_of_le (Nat.lt_of_not_le hs) (Nat.le_max_left ..)
    refine ⟨fun hle => absurd hlt (Nat.not_lt_of_le hle), fun _ => ?_⟩
    rw [Run.bind_of_error hdeep]

/-! ## Productions on two budgets -/

section Bodies

variable {limit : Nat} {expression expression' term term' factor factor' : Nat → List Token → Run Parsed}

theorem capped_chain {op? : Token.Kind → Option BinaryOp}
    {operand operand' tail tail' : Nat → List Token → Run Parsed}
    (ho : ∀ i ts, Capped limit (operand i ts) (operand' i ts))
    (ht : ∀ i ts, Capped limit (tail i ts) (tail' i ts)) (index : Nat) (tokens : List Token) :
    Capped limit (chain op? operand tail index tokens) (chain op? operand' tail' index tokens) := by
  unfold chain
  refine (ho index tokens).bind fun left => ?_
  rcases left.rest with _ | ⟨t, rest⟩
  · exact capped_flat limit rfl
  · dsimp only
    rcases op? t.kind with _ | op
    · dsimp only
      split <;> exact capped_flat limit rfl
    · exact (ht (left.offset + 1) rest).bind fun right => capped_flat limit rfl

theorem capped_unnumbered (he : ∀ i ts, Capped limit (expression i ts) (expression' i ts))
    (hf : ∀ i ts, Capped limit (factor i ts) (factor' i ts)) (index : Nat) (tokens : List Token) :
    Capped limit (unnumbered expression factor index tokens)
      (unnumbered expression' factor' index tokens) := by
  rcases tokens with _ | ⟨t, rest⟩
  · exact capped_flat limit rfl
  · simp only [unnumbered]
    split
    · refine (capped_note limit _).bind fun _ => ?_
      exact (hf (index + 1) rest).bind fun operand => capped_flat limit rfl
    · refine (capped_note limit _).bind fun _ => (he (index + 1) rest).bind fun inner => ?_
      split
      · exact capped_flat limit rfl
      · split <;> exact capped_flat limit rfl
    · exact capped_flat limit rfl

end Bodies

theorem capped_production {n : Nonterminal} (hn : n ≠ .integer) {budget larger : Nat}
    (h : budget ≤ larger) (index : Nat) (tokens : List Token) :
    Capped budget (production n budget index tokens) (production n larger index tokens) := by
  induction budget generalizing n larger index tokens with
  | zero =>
    rcases larger with _ | larger
    · cases n <;> exact capped_flat 0 rfl
    · cases n with
      | expression => exact capped_zero _
      | term => exact capped_zero _
      | factor => exact capped_zero _
      | integer => exact absurd rfl hn
  | succ budget ih =>
    obtain ⟨larger, rfl⟩ : ∃ k, larger = k + 1 := ⟨larger - 1, by omega⟩
    have h : budget ≤ larger := Nat.le_of_succ_le_succ h
    have he := fun i ts => ih (n := .expression) (by simp) h i ts
    have ht := fun i ts => ih (n := .term) (by simp) h i ts
    have hf := fun i ts => ih (n := .factor) (by simp) h i ts
    cases n with
    | expression =>
      rw [expression_call, expression_call]
      refine Capped.call ((capped_note budget _).bind fun _ => ?_)
      exact capped_chain ht he index tokens
    | term =>
      rw [term_call, term_call]
      refine Capped.call ((capped_note budget _).bind fun _ => ?_)
      exact capped_chain hf ht index tokens
    | factor =>
      rw [factor_call, factor_call]
      refine Capped.call ((capped_flat budget (depth_literal index tokens)).bind fun number => ?_)
      rcases number with _ | number
      · exact capped_unnumbered he hf index tokens
      · exact capped_flat budget rfl
    | integer => exact absurd rfl hn

/-! ## Parses under a limit -/

/-- A parse on a budget, whatever suffices. -/
theorem run_eq_bind (limit : Limit) (tokens : List Token) : run limit tokens = do
    let parsed ← production .expression (limit.budget tokens) 0 tokens
    return ⟨parsed.node, tokens, parsed.offset⟩ := rfl

/-- A parse with a limit is the parse without one, capped. -/
theorem capped_run (limit : Nat) (tokens : List Token) :
    Capped limit (run (some limit) tokens) (run none tokens) := by
  have hrun : ∀ smaller larger : Limit, smaller.budget tokens ≤ larger.budget tokens →
      Capped (smaller.budget tokens) (run smaller tokens) (run larger tokens) := by
    intro smaller larger h
    rw [run_eq_bind, run_eq_bind]
    exact (capped_production (by simp) h 0 tokens).bind fun parsed => capped_flat _ rfl
  rcases Nat.le_total limit (depthBound tokens) with h | h
  · exact hrun (some limit) none h
  · -- the budget of the parse without a limit is not exhausted, so a larger one changes nothing
    obtain ⟨hsame, hdeep⟩ := hrun none (some limit) h
    have hle : (run (some limit) tokens).depth ≤ depthBound tokens := by
      by_cases hle : (run (some limit) tokens).depth ≤ depthBound tokens
      · exact hle
      · exact absurd (hdeep (Nat.lt_of_not_le hle)) (run_none_ne_deep tokens)
    rw [hsame hle]
    exact capped_of_depth_le (Nat.le_trans hle h)

/-- No run goes deeper than the bound that is read off its tokens. -/
theorem depth_run_none_le (tokens : List Token) : (run none tokens).depth ≤ depthBound tokens := by
  refine Nat.le_of_not_lt fun hlt => run_none_ne_deep tokens ?_
  -- a limit at the bound is the budget that a run without a limit has anyway
  exact (capped_run (depthBound tokens) tokens).2 hlt

theorem run_of_allows {limit : Limit} {tokens : List Token} (h : limit.Allows (depthBound tokens)) :
    run limit tokens = run none tokens := by
  cases limit with
  | none => rfl
  | some calls =>
    exact (capped_run calls tokens).1 (Nat.le_trans (depth_run_none_le tokens) (h calls rfl))

theorem parse_of_run_eq {limit limit' : Limit} {tokens : List Token}
    (h : run limit tokens = run limit' tokens) (debug : Bool) :
    parse limit debug tokens = parse limit' debug tokens := by
  rw [parse_eq, parse_eq, h]

theorem parse_limited (limit : Nat) (debug : Bool) (tokens : List Token) :
    ((run none tokens).depth ≤ limit → parse (some limit) debug tokens = parse none debug tokens) ∧
    (limit < (run none tokens).depth →
      (parse (some limit) debug tokens).outcome = .error (.refused .nestingTooDeep)) ∧
    (parse none debug tokens).outcome ≠ .error (.refused .nestingTooDeep) ∧
    ∀ larger, limit ≤ larger →
      (parse (some limit) debug tokens).outcome ≠ .error (.refused .nestingTooDeep) →
      parse (some larger) debug tokens = parse (some limit) debug tokens := by
  obtain ⟨hsame, hdeep⟩ := capped_run limit tokens
  simp only [parse_outcome]
  refine ⟨fun h => parse_of_run_eq (hsame h) debug, hdeep, run_none_ne_deep tokens, ?_⟩
  intro larger hlarger hne
  have hle : (run none tokens).depth ≤ limit := by
    by_cases hle : (run none tokens).depth ≤ limit
    · exact hle
    · exact absurd (hdeep (Nat.lt_of_not_le hle)) hne
  have hlarge : run (some larger) tokens = run none tokens :=
    (capped_run larger tokens).1 (Nat.le_trans hle hlarger)
  exact parse_of_run_eq (hlarge.trans (hsame hle).symm) debug

/-- In `1?((1` the question mark is met before the groups, so a limit of three calls does not
    hide it; without the question mark the same groups are too deep. -/
theorem limited_stranger_before_groups :
    (parse (some 3) true (Token.scan "1?((1") = parse none true (Token.scan "1?((1") ∧
      (parse none true (Token.scan "1?((1")).outcome =
        .error (.refused (.placed .invalidToken (some 1)))) ∧
    (parse (some 3) true (Token.scan "((1")).outcome = .error (.refused .nestingTooDeep) ∧
    (parse none true (Token.scan "((1")).outcome = .error (.refused .unexpectedEof) ∧
    parse (some 30) true (Token.scan "((1") = parse (some 9) true (Token.scan "((1") :=
  ⟨⟨(parse_limited 3 true _).1 (by decide), rfl⟩,
    (parse_limited 3 true _).2.1 (by decide), rfl,
    (parse_limited 9 true _).2.2.2 30 (by decide) nofun⟩

end Abacus.Parse

/-! # Bounds -/

namespace Abacus

open Grammar (Nonterminal additive? multiplicative?)

namespace Parse

/-! ## Calls on a budget -/

theorem Run.depth_flat {α : Type} {budget : Nat} {r : Run α} (h : r.depth = 0) : r.depth ≤ budget :=
  h ▸ Nat.zero_le budget

section Bodies

variable {budget : Nat} {expression factor : Nat → List Token → Run Parsed}

theorem depth_chain_le {op? : Token.Kind → Option BinaryOp} {operand tail : Nat → List Token → Run Parsed}
    (ho : ∀ i ts, (operand i ts).depth ≤ budget) (ht : ∀ i ts, (tail i ts).depth ≤ budget)
    (index : Nat) (tokens : List Token) : (chain op? operand tail index tokens).depth ≤ budget := by
  unfold chain
  refine Run.depth_bind_le (ho index tokens) fun left => ?_
  rcases left.rest with _ | ⟨t, rest⟩
  · exact Run.depth_flat rfl
  · dsimp only
    rcases op? t.kind with _ | op
    · dsimp only
      split <;> exact Run.depth_flat rfl
    · exact Run.depth_bind_le (ht _ _) fun right => Run.depth_flat rfl

theorem depth_unnumbered_le (he : ∀ i ts, (expression i ts).depth ≤ budget)
    (hf : ∀ i ts, (factor i ts).depth ≤ budget) (index : Nat) (tokens : List Token) :
    (unnumbered expression factor index tokens).depth ≤ budget := by
  rcases tokens with _ | ⟨t, rest⟩
  · exact Run.depth_flat rfl
  · simp only [unnumbered]
    split
    · refine Run.depth_bind_le (Run.depth_flat rfl) fun _ => ?_
      exact Run.depth_bind_le (hf _ _) fun operand => Run.depth_flat rfl
    · refine Run.depth_bind_le (Run.depth_flat rfl) fun _ => ?_
      refine Run.depth_bind_le (he _ _) fun inner => ?_
      split
      · exact Run.depth_flat rfl
      · split <;> exact Run.depth_flat rfl
    · exact Run.depth_flat rfl

end Bodies

theorem depth_production_le (n : Nonterminal) (budget index : Nat) (tokens : List Token) :
    (production n budget index tokens).depth ≤ budget := by
  induction budget generalizing n index tokens with
  | zero => cases n <;> exact Run.depth_flat rfl
  | succ budget ih =>
    have hfactor : (production .factor (budget + 1) index tokens).depth ≤ budget + 1 := by
      rw [factor_call]
      refine Nat.succ_le_succ (Run.depth_bind_le (Run.depth_flat (depth_literal index tokens)) ?_)
      rintro (_ | number)
      · exact depth_unnumbered_le (ih .expression) (ih .factor) index tokens
      · exact Run.depth_flat rfl
    cases n with
    | expression =>
      rw [expression_call]
      refine Nat.succ_le_succ (Run.depth_bind_le (Run.depth_flat rfl) fun _ => ?_)
      exact depth_chain_le (ih .term) (ih .expression) index tokens
    | term =>
      rw [term_call]
      refine Nat.succ_le_succ (Run.depth_bind_le (Run.depth_flat rfl) fun _ => ?_)
      exact depth_chain_le (ih .factor) (ih .term) index tokens
    | factor => exact hfactor
    | integer => exact hfactor

/-! ## Budgets that suffice -/

section Suffices

variable {n : Nonterminal} (hn : n ≠ .integer) {budget : Nat} {tokens : List Token}
  (h : calls n tokens ≤ budget) (index : Nat)
include hn h

/-- No call is denied. -/
theorem production_ne_deep :
    (production n budget index tokens).outcome ≠ .error (.refused .nestingTooDeep) := by
  intro hdeep
  rcases takes_or_fails hn tokens with ⟨e, rest, ht⟩ | ⟨f, hf⟩
  · rw [ht.outcome hn h index] at hdeep
    cases hdeep
  · rw [hf.outcome hn budget index h] at hdeep
    exact hf.ne_deep (Except.error.inj hdeep)

/-- A larger budget changes nothing. -/
theorem production_settled :
    production n budget index tokens = production n (calls n tokens) index tokens := by
  obtain ⟨hsame, hdeep⟩ := capped_production hn h index tokens
  refine (hsame (Nat.le_of_not_lt fun hlt => ?_)).symm
  exact production_ne_deep hn (Nat.le_refl _) index (hdeep hlt)

end Suffices

/-- However large the budget is, no more calls are active at once than suffice. -/
theorem depth_production_le_calls {n : Nonterminal} (hn : n ≠ .integer) (budget index : Nat)
    (tokens : List Token) : (production n budget index tokens).depth ≤ calls n tokens := by
  rcases Nat.le_total budget (calls n tokens) with h | h
  · exact Nat.le_trans (depth_production_le n budget index tokens) h
  · rw [production_settled hn h]
    exact depth_production_le n _ index tokens

/-! ## Counting tokens -/

def countKind (k : Token.Kind) (tokens : List Token) : Nat := tokens.countP (·.kind == k)

/-- Three calls for the whole, three for each group that is opened and one for each operator. -/
def callBound (tokens : List Token) : Nat :=
  3 + 3 * countKind .leftParen tokens +
    (countKind .plus tokens + countKind .minus tokens + countKind .star tokens +
      countKind .solidus tokens)

theorem depthBound_eq_callBound (tokens : List Token) : depthBound tokens = callBound tokens := by
  have hoperator : ∀ k : Token.Kind, ((additive? k).isSome || (multiplicative? k).isSome) =
      (k == .plus || k == .minus || k == .star || k == .solidus) := by
    intro k
    cases k <;> rfl
  unfold depthBound callBound countKind
  simp only [hoperator]
  induction tokens with
  | nil => rfl
  | cons t ts ih =>
    simp only [List.countP_cons]
    cases t.kind <;> simp <;> omega

/-- A character that is alone in its class has as many tokens as it has places in the text. -/
theorem countKind_scanFrom {k : Token.Kind} {c : Char} (hk : Token.Kind.ofChar c = k)
    (hc : ∀ b, k.Holds b → b = c) (hblank : Token.isBlank c = false) (p : Nat) (cs : List Char) :
    countKind k (Token.scanFrom p cs) = cs.count c := by
  have hkind : ∀ b, Token.Kind.ofChar b = k ↔ b = c :=
    fun b => ⟨fun h => hc b (h ▸ Token.Kind.holds_ofChar b), fun h => h ▸ hk⟩
  unfold countKind
  induction cs generalizing p with
  | nil => rfl
  | cons b cs ih =>
    unfold Token.scanFrom
    split
    · rename_i hb
      have hne : b ≠ c := fun h => Bool.false_ne_true (hblank.symm.trans (h ▸ hb))
      rw [ih, List.count_cons_of_ne hne]
    · rw [List.countP_cons, List.count_cons, ih]
      simp [hkind]

/-- The bound that can be read off a text: digits and blanks are not counted. -/
theorem callBound_scan (text : String) :
    callBound (Token.scan text) = 3 + 3 * text.toList.count '(' +
      (text.toList.count '+' + text.toList.count '-' + text.toList.count '*' +
        text.toList.count '/') := by
  have hcount : ∀ k c, Token.Kind.ofChar c = k → (∀ b, k.Holds b → b = c) →
      Token.isBlank c = false → countKind k (Token.scan text) = text.toList.count c :=
    fun k c hk hc hblank => countKind_scanFrom hk hc hblank 0 text.toList
  unfold callBound
  rw [hcount .leftParen '(' rfl (fun b h => h) rfl, hcount .plus '+' rfl (fun b h => h) rfl,
    hcount .minus '-' rfl (fun b h => h) rfl, hcount .star '*' rfl (fun b h => h) rfl,
    hcount .solidus '/' rfl (fun b h => h) rfl]

/-- Literals and blanks add nothing to the bound. -/
theorem callBound_padded {before padding behind : List Char}
    (h : ∀ c ∈ padding, c.isDigit = true ∨ Token.isBlank c = true) :
    callBound (Token.scan (String.ofList (before ++ padding ++ behind))) =
      callBound (Token.scan (String.ofList (before ++ behind))) := by
  have habsent : ∀ c : Char, c.isDigit = false → Token.isBlank c = false → padding.count c = 0 := by
    intro c hdigit hblank
    refine List.count_eq_zero_of_not_mem fun hc => ?_
    rcases h c hc with h | h
    · exact Bool.false_ne_true (hdigit.symm.trans h)
    · exact Bool.false_ne_true (hblank.symm.trans h)
  simp only [callBound_scan, String.toList_ofList, List.count_append]
  rw [habsent '(' rfl rfl, habsent '+' rfl rfl, habsent '-' rfl rfl, habsent '*' rfl rfl,
    habsent '/' rfl rfl]
  rfl

/-! ## All runs -/

theorem calls_le_callBound (n : Nonterminal) (tokens : List Token) :
    calls n tokens ≤ callBound tokens :=
  depthBound_eq_callBound tokens ▸ calls_le_depthBound n tokens

theorem depth_run_le (limit : Limit) (tokens : List Token) :
    (run limit tokens).depth ≤ callBound tokens := by
  have hproduction := depth_production_le_calls (n := .expression) (by simp) (limit.budget tokens) 0 tokens
  rw [run_eq_bind]
  refine Run.depth_bind_le ?_ fun parsed => Run.depth_flat rfl
  exact Nat.le_trans hproduction (calls_le_callBound .expression tokens)

theorem run_ne_deep {limit : Nat} {tokens : List Token} (h : callBound tokens ≤ limit) :
    (run (some limit) tokens).outcome ≠ .error (.refused .nestingTooDeep) := by
  rw [← depthBound_eq_callBound] at h
  rw [run_of_allows (Limit.allows_some.mpr h)]
  exact run_none_ne_deep tokens

/-- What is left over behind a tree is refused for itself. -/
theorem whole_ne_deep (p : Partial) : p.whole ≠ .error (.refused .nestingTooDeep) := by
  unfold Partial.whole
  split <;> simp

theorem ofText_ne_deep {limit : Nat} {text : String} (h : callBound (Token.scan text) ≤ limit) :
    Expr.ofText (some limit) text ≠ .error (.refused .nestingTooDeep) := by
  have hrun := run_ne_deep h
  show (run (some limit) (Token.scan text)).outcome.bind Partial.whole ≠ _
  rcases ho : (run (some limit) (Token.scan text)).outcome with f | p
  · rw [ho] at hrun
    exact fun h => hrun (congrArg Except.error (Except.error.inj h))
  · exact whole_ne_deep p

theorem recursion_bounded :
    (∀ (tokens : List Token) (n : Nonterminal), n ≠ .integer → ∀ index,
      (∀ budget, (production n budget index tokens).depth ≤ callBound tokens) ∧
      ∃ r : Run Parsed, r.outcome ≠ .error (.refused .nestingTooDeep) ∧
        ∀ budget, callBound tokens ≤ budget → production n budget index tokens = r) ∧
    (∀ (tokens : List Token) (limit : Limit), (run limit tokens).depth ≤ callBound tokens) ∧
    (∀ (tokens : List Token) (limit : Nat) (debug : Bool), callBound tokens ≤ limit →
      (parse (some limit) debug tokens).outcome ≠ .error (.refused .nestingTooDeep)) ∧
    (∀ (text : String) (limit : Nat), callBound (Token.scan text) ≤ limit →
      Expr.ofText (some limit) text ≠ .error (.refused .nestingTooDeep)) ∧
    ∀ before padding behind : List Char,
      (∀ c ∈ padding, c.isDigit = true ∨ Token.isBlank c = true) →
      callBound (Token.scan (String.ofList (before ++ padding ++ behind))) =
        callBound (Token.scan (String.ofList (before ++ behind))) := by
  refine ⟨fun tokens n hn index => ⟨fun budget => ?_, ?_⟩, fun tokens limit => depth_run_le limit tokens,
    fun tokens limit debug h => parse_outcome (some limit) debug tokens ▸ run_ne_deep h, fun text limit h => ofText_ne_deep h,
    fun before padding behind h => callBound_padded h⟩
  · exact Nat.le_trans (depth_production_le_calls hn budget index tokens) (calls_le_callBound n tokens)
  · refine ⟨production n (calls n tokens) index tokens,
      production_ne_deep hn (Nat.le_refl _) index, fun budget h => ?_⟩
    exact production_settled hn (Nat.le_trans (calls_le_callBound n tokens) h) index

/-- Eleven calls are enough for `((1+2))*3`, and as many for longer numbers with blanks. -/
theorem nested_product_bounded :
    (callBound (Token.scan "((1+2))*3") = 11 ∧
      Expr.ofText (some 11) "((1+2))*3" ≠ .error (.refused .nestingTooDeep)) ∧
    callBound (Token.scan "((1 234 +2))*3") = callBound (Token.scan "((1+2))*3") := by
  have hpadding : ∀ c ∈ [' ', '2', '3', '4', ' '], c.isDigit = true ∨ Token.isBlank c = true := by
    simp [Token.isBlank]
  have hbound : callBound (Token.scan "((1+2))*3") = 11 := by decide
  have hpadded := recursion_bounded.2.2.2.2 ['(', '(', '1'] _ ['+', '2', ')', ')', '*', '3'] hpadding
  exact ⟨⟨hbound, recursion_bounded.2.2.2.1 _ 11 (Nat.le_of_eq hbound)⟩, hpadded⟩

end Parse

end Abacus
