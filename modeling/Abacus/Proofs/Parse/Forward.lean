/-
  Abacus.Proofs.Parse.Forward — the productions pass over the tokens once, from left to right.

  The beginnings of expressions and terms have ranks: first by the token where they begin, and at
  one token the expression before the term.

  - `forward_production`: what a production notes has increasing ranks, and all of them lie between
    the token where it begins and the one where it ends; on any budget, however it ends.
  - `opened_production`: each expression begins with a term, unless a call of it is denied.

  `singlePass_run`: so without a limit no expression and no term is tried twice at one token, and
  none behind a later one.
-/

import Abacus.Proofs.Parse.Depth

namespace Abacus.Parse

open Grammar (Nonterminal additive? multiplicative?)

variable {α β : Type}

namespace Event

def index? : Event → Option Nat
  | .expression index | .term index => some index
  | .integer .. | .negation _ | .group _ => none

def expression? : Event → Option Nat
  | .expression index => some index
  | _ => none

def term? : Event → Option Nat
  | .term index => some index
  | _ => none

/-- Where the beginning of an expression or of a term stands in a pass over the tokens. -/
def rank? : Event → Option Nat
  | .expression index => some (2 * index)
  | .term index => some (2 * index + 1)
  | .integer .. | .negation _ | .group _ => none

end Event

/-- Each expression begins with a term, and that is the next thing noted. -/
def TermBehind (events : List Event) : Prop :=
  ∀ i index, events[i]? = some (.expression index) → events[i + 1]? = some (.term index)

/-- A pass over the tokens from left to right in which no production is tried twice at a token. -/
structure SinglePass (trace : List Event) : Prop where
  in_order : (trace.filterMap Event.index?).Pairwise (· ≤ ·)
  expressions_once : (trace.filterMap Event.expression?).Nodup
  terms_once : (trace.filterMap Event.term?).Nodup
  term_behind : TermBehind trace

/-! ## Ranks -/

def ranks (trace : List Event) : List Nat := trace.filterMap Event.rank?

theorem ranks_append (trace trace' : List Event) : ranks (trace ++ trace') = ranks trace ++ ranks trace' :=
  List.filterMap_append

/-- The ranks of a run increase from `lo` on, and stay below the token where the run ends. -/
structure Forward (lo : Nat) (r : Run Parsed) : Prop where
  increasing : (ranks r.trace).Pairwise (· < ·)
  above : ∀ k ∈ ranks r.trace, lo ≤ k
  within : ∀ p, r.outcome = .ok p → lo ≤ 2 * p.offset ∧ ∀ k ∈ ranks r.trace, k < 2 * p.offset

theorem Forward.mono {lo lo' : Nat} {r : Run Parsed} (h : Forward lo r) (hle : lo' ≤ lo) :
    Forward lo' r where
  increasing := h.increasing
  above k hk := Nat.le_trans hle (h.above k hk)
  within p hp := ⟨Nat.le_trans hle (h.within p hp).1, (h.within p hp).2⟩

theorem Forward.call {lo : Nat} {r : Run Parsed} (h : Forward lo r) : Forward lo r.call :=
  ⟨h.increasing, h.above, h.within⟩

theorem forward_refuse (lo : Nat) (err : ParseError) : Forward lo (.refuse err) := by
  refine ⟨List.Pairwise.nil, nofun, ?_⟩
  rintro p ⟨⟩

theorem forward_pure {lo : Nat} {p : Parsed} (h : lo ≤ 2 * p.offset) : Forward lo (pure p) := by
  refine ⟨List.Pairwise.nil, nofun, ?_⟩
  rintro q ⟨⟩
  exact ⟨h, nofun⟩

/-- What is run behind a run goes on at the token where that has ended. -/
theorem Forward.bind {lo : Nat} {r : Run Parsed} {next : Parsed → Run Parsed} (h : Forward lo r)
    (hn : ∀ p, Forward (2 * p.offset) (next p)) : Forward lo (r >>= next) := by
  rcases ho : r.outcome with f | p
  · rw [Run.bind_of_error ho]
    refine ⟨h.increasing, h.above, ?_⟩
    rintro p ⟨⟩
  · obtain ⟨hlo, hbelow⟩ := h.within p ho
    rw [Run.bind_of_ok ho]
    refine ⟨?_, ?_, ?_⟩
    · rw [ranks_append, List.pairwise_append]
      refine ⟨h.increasing, (hn p).increasing, ?_⟩
      intro j hj k hk
      exact Nat.lt_of_lt_of_le (hbelow j hj) ((hn p).above k hk)
    · intro k hk
      rw [ranks_append, List.mem_append] at hk
      rcases hk with hk | hk
      · exact h.above k hk
      · exact Nat.le_trans hlo ((hn p).above k hk)
    · intro q hq
      obtain ⟨hpq, hwithin⟩ := (hn p).within q hq
      refine ⟨Nat.le_trans hlo hpq, ?_⟩
      intro k hk
      rw [ranks_append, List.mem_append] at hk
      rcases hk with hk | hk
      · exact Nat.lt_of_lt_of_le (hbelow k hk) hpq
      · exact hwithin k hk

/-- A run without ranks of its own leaves them to what is run behind it. -/
theorem forward_behind {lo : Nat} {r : Run α} {next : α → Run Parsed} (h : ranks r.trace = [])
    (hn : ∀ a, r.outcome = .ok a → Forward lo (next a)) : Forward lo (r >>= next) := by
  rcases ho : r.outcome with f | a
  · rw [Run.bind_of_error ho]
    refine ⟨by simp [h], by simp [h], ?_⟩
    rintro p ⟨⟩
  · have hnext := hn a ho
    rw [Run.bind_of_ok ho]
    have hranks : ranks (r.trace ++ (next a).trace) = ranks (next a).trace := by
      rw [ranks_append, h, List.nil_append]
    exact ⟨hranks ▸ hnext.increasing, hranks ▸ hnext.above, hranks ▸ hnext.within⟩

theorem forward_begin {lo rank : Nat} {event : Event} (he : event.rank? = some rank) (hlt : rank < lo)
    {r : Run Parsed} (h : Forward lo r) : Forward rank (Run.note event >>= fun _ => r) := by
  rw [Run.bind_of_ok rfl]
  have hranks : ranks ([event] ++ r.trace) = rank :: ranks r.trace := by
    simp [ranks, he]
  refine ⟨?_, ?_, ?_⟩
  · show (ranks ([event] ++ r.trace)).Pairwise _
    rw [hranks, List.pairwise_cons]
    exact ⟨fun k hk => Nat.lt_of_lt_of_le hlt (h.above k hk), h.increasing⟩
  · intro k hk
    have hk : k ∈ rank :: ranks r.trace := hranks ▸ hk
    rcases List.mem_cons.mp hk with rfl | hk
    · exact Nat.le_refl k
    · exact Nat.le_trans (Nat.le_of_lt hlt) (h.above k hk)
  · intro p hp
    obtain ⟨hlo, hwithin⟩ := h.within p hp
    refine ⟨by omega, ?_⟩
    intro k hk
    have hk : k ∈ rank :: ranks r.trace := hranks ▸ hk
    rcases List.mem_cons.mp hk with rfl | hk
    · omega
    · exact hwithin k hk

theorem ranks_bind {r : Run α} {next : α → Run β} (h : ranks r.trace = [])
    (hn : ∀ a, ranks (next a).trace = []) : ranks (r >>= next).trace = [] := by
  rcases ho : r.outcome with f | a
  · rw [Run.bind_of_error ho]
    exact h
  · rw [Run.bind_of_ok ho, ranks_append, h, hn a]
    rfl

/-! ## Productions forward -/

def start : Nonterminal → Nat → Nat
  | .expression, index => 2 * index
  | .term, index => 2 * index + 1
  | .factor, index | .integer, index => 2 * index + 2

theorem le_start (n : Nonterminal) (index : Nat) : 2 * index ≤ start n index := by
  cases n <;> simp only [start] <;> omega

/-- A number has no ranks and ends behind the token where it begins. -/
theorem ranks_literal (index : Nat) (tokens : List Token) : ranks (literal index tokens).trace = [] := by
  unfold literal
  split
  · rfl
  · refine ranks_bind rfl fun value => ?_
    exact ranks_bind rfl fun _ => ranks_bind rfl fun node => rfl

theorem lt_offset_of_literal {index : Nat} {tokens : List Token} {number : Parsed}
    (h : (literal index tokens).outcome = .ok (some number)) : index < number.offset := by
  rw [literal_outcome] at h
  rcases hn : number? tokens with _ | (f | ⟨e, rest⟩)
  · rw [hn] at h
    cases h
  · rw [hn] at h
    cases h
  · rw [hn] at h
    obtain rfl := Option.some.inj (Except.ok.inj h)
    have := (number?_ok_suffix hn).2
    show index < index + (tokens.length - rest.length)
    omega

section Bodies

variable {expression factor : Nat → List Token → Run Parsed}

theorem forward_chain {lo index : Nat} {tokens : List Token} {op? : Token.Kind → Option BinaryOp}
    {operand tail : Nat → List Token → Run Parsed} (ho : Forward lo (operand index tokens))
    (ht : ∀ i ts, Forward (2 * i) (tail i ts)) : Forward lo (chain op? operand tail index tokens) := by
  unfold chain
  refine ho.bind fun left => ?_
  rcases left.rest with _ | ⟨t, rest⟩
  · exact forward_pure (Nat.le_refl _)
  · dsimp only
    rcases op? t.kind with _ | op
    · dsimp only
      split
      · exact forward_refuse _ _
      · exact forward_pure (Nat.le_refl _)
    · refine ((ht (left.offset + 1) rest).mono (by omega)).bind fun right => ?_
      exact forward_pure (Nat.le_refl _)

theorem forward_unnumbered (he : ∀ i ts, Forward (2 * i) (expression i ts))
    (hf : ∀ i ts, Forward (2 * i) (factor i ts)) (index : Nat) (tokens : List Token) :
    Forward (2 * index + 2) (unnumbered expression factor index tokens) := by
  rcases tokens with _ | ⟨t, rest⟩
  · exact forward_refuse _ _
  · simp only [unnumbered]
    split
    · refine forward_behind rfl fun _ _ => ?_
      refine ((hf (index + 1) rest).mono (by omega)).bind fun operand => ?_
      exact forward_pure (Nat.le_refl _)
    · refine forward_behind rfl fun _ _ => ?_
      refine ((he (index + 1) rest).mono (by omega)).bind fun inner => ?_
      split
      · exact forward_refuse _ _
      · split
        · exact forward_pure (Nat.mul_le_mul_left 2 (Nat.le_succ _))
        · exact forward_refuse _ _
    · exact forward_refuse _ _

end Bodies

theorem forward_production (n : Nonterminal) (budget index : Nat) (tokens : List Token) :
    Forward (start n index) (production n budget index tokens) := by
  induction budget generalizing n index tokens with
  | zero => cases n <;> exact forward_refuse _ _
  | succ budget ih =>
    have hfrom (n : Nonterminal) (i : Nat) (ts : List Token) :
        Forward (2 * i) (production n budget i ts) := (ih n i ts).mono (le_start n i)
    have hfactor : Forward (2 * index + 2) (production .factor (budget + 1) index tokens) := by
      rw [factor_call]
      refine Forward.call (forward_behind (ranks_literal index tokens) ?_)
      rintro (_ | number) hnumber
      · exact forward_unnumbered (hfrom .expression) (hfrom .factor) index tokens
      · have hlt := lt_offset_of_literal hnumber
        exact forward_pure (by omega)
    cases n with
    | expression =>
      rw [expression_call]
      refine Forward.call (forward_begin rfl (Nat.lt_succ_self _) ?_)
      exact forward_chain (ih .term index tokens) (hfrom .expression)
    | term =>
      rw [term_call]
      refine Forward.call (forward_begin rfl (Nat.lt_succ_self _) ?_)
      exact forward_chain (ih .factor index tokens) (hfrom .term)
    | factor => exact hfactor
    | integer => exact hfactor

/-! ## Expressions begin with terms -/

theorem TermBehind.append {trace trace' : List Event} (h : TermBehind trace) (h' : TermBehind trace') :
    TermBehind (trace ++ trace') := by
  intro i index hi
  by_cases hlt : i < trace.length
  · rw [List.getElem?_append_left hlt] at hi
    have hnext := h i index hi
    have hlt' : i + 1 < trace.length := (List.getElem?_eq_some_iff.mp hnext).1
    rw [List.getElem?_append_left hlt', hnext]
  · rw [List.getElem?_append_right (by omega)] at hi
    rw [List.getElem?_append_right (by omega), Nat.succ_sub (by omega)]
    exact h' _ index hi

theorem termBehind_cons {event : Event} {trace : List Event} (h : TermBehind trace)
    (hfirst : ∀ index, event = .expression index → trace.head? = some (.term index)) :
    TermBehind (event :: trace) := by
  intro i index hi
  cases i with
  | zero =>
    have hevent : event = .expression index := Option.some.inj hi
    rw [List.getElem?_cons_succ, ← List.head?_eq_getElem?]
    exact hfirst index hevent
  | succ i => exact h i index hi

/-- In what a run notes each expression begins with a term, unless the run is too deep. -/
def Opened (r : Run α) : Prop :=
  r.outcome = .error (.refused .nestingTooDeep) ∨ TermBehind r.trace

theorem opened_of_empty {r : Run α} (h : r.trace = []) : Opened r := by
  refine .inr ?_
  rw [h]
  exact nofun

theorem Opened.call {r : Run α} (h : Opened r) : Opened r.call := h

theorem Opened.bind {r : Run α} {next : α → Run β} (h : Opened r) (hn : ∀ a, Opened (next a)) :
    Opened (r >>= next) := by
  rcases ho : r.outcome with f | a
  · rw [Run.bind_of_error ho]
    rcases h with hdeep | htrace
    · rw [ho] at hdeep
      cases hdeep
      exact .inl rfl
    · exact .inr htrace
  · rw [Run.bind_of_ok ho]
    rcases h with hdeep | htrace
    · rw [ho] at hdeep
      cases hdeep
    · exact (hn a).imp id htrace.append

theorem opened_note {event : Event} (h : event.expression? = none) : Opened (Run.note event) := by
  refine .inr (termBehind_cons nofun ?_)
  rintro index rfl
  cases h

theorem opened_literal (index : Nat) (tokens : List Token) : Opened (literal index tokens) := by
  unfold literal
  split
  · exact opened_of_empty rfl
  · refine (opened_of_empty rfl).bind fun value => (opened_note rfl).bind fun _ => ?_
    exact (opened_of_empty rfl).bind fun node => opened_of_empty rfl

section Bodies

variable {expression factor : Nat → List Token → Run Parsed}

theorem opened_chain {op? : Token.Kind → Option BinaryOp} {operand tail : Nat → List Token → Run Parsed}
    (ho : ∀ i ts, Opened (operand i ts)) (ht : ∀ i ts, Opened (tail i ts)) (index : Nat)
    (tokens : List Token) : Opened (chain op? operand tail index tokens) := by
  unfold chain
  refine (ho index tokens).bind fun left => ?_
  rcases left.rest with _ | ⟨t, rest⟩
  · exact opened_of_empty rfl
  · dsimp only
    rcases op? t.kind with _ | op
    · dsimp only
      split <;> exact opened_of_empty rfl
    · exact (ht _ _).bind fun right => opened_of_empty rfl

theorem opened_unnumbered (he : ∀ i ts, Opened (expression i ts)) (hf : ∀ i ts, Opened (factor i ts))
    (index : Nat) (tokens : List Token) : Opened (unnumbered expression factor index tokens) := by
  rcases tokens with _ | ⟨t, rest⟩
  · exact opened_of_empty rfl
  · simp only [unnumbered]
    split
    · refine (opened_note rfl).bind fun _ => (hf _ _).bind fun operand => ?_
      exact opened_of_empty rfl
    · refine (opened_note rfl).bind fun _ => (he _ _).bind fun inner => ?_
      split
      · exact opened_of_empty rfl
      · split <;> exact opened_of_empty rfl
    · exact opened_of_empty rfl

end Bodies

/-- A chain begins with what its first operand begins with. -/
theorem head?_trace_bind {r : Run α} {next : α → Run β} {event : Event}
    (h : r.trace.head? = some event) : (r >>= next).trace.head? = some event := by
  rcases ho : r.outcome with f | a
  · rw [Run.bind_of_error ho]
    exact h
  · rw [Run.bind_of_ok ho, List.head?_append, h]
    rfl

theorem head?_term (budget index : Nat) (tokens : List Token) :
    (production .term (budget + 1) index tokens).trace.head? = some (.term index) := by
  rw [term_call]
  exact head?_trace_bind rfl

theorem opened_production (n : Nonterminal) (budget index : Nat) (tokens : List Token) :
    Opened (production n budget index tokens) := by
  induction budget generalizing n index tokens with
  | zero => cases n <;> exact opened_of_empty rfl
  | succ budget ih =>
    have hfactor : Opened (production .factor (budget + 1) index tokens) := by
      rw [factor_call]
      refine Opened.call ((opened_literal index tokens).bind ?_)
      rintro (_ | number)
      · exact opened_unnumbered (ih .expression) (ih .factor) index tokens
      · exact opened_of_empty rfl
    cases n with
    | expression =>
      rw [expression_call]
      refine Opened.call ?_
      have hchain : Opened (chain additive? (production .term budget) (production .expression budget)
          index tokens) := opened_chain (ih .term) (ih .expression) index tokens
      rw [Run.bind_of_ok rfl]
      rcases hchain with hdeep | htrace
      · exact .inl hdeep
      · cases budget with
        | zero => exact .inl rfl
        | succ budget =>
          refine .inr (termBehind_cons htrace ?_)
          rintro _ ⟨⟩
          exact head?_trace_bind (head?_term budget index tokens)
    | term =>
      rw [term_call]
      exact Opened.call ((opened_note rfl).bind fun _ => opened_chain (ih .factor) (ih .term) index tokens)
    | factor => exact hfactor
    | integer => exact hfactor

/-! ## Whole runs -/

theorem trace_run (limit : Limit) (tokens : List Token) :
    (run limit tokens).trace = (production .expression (limit.budget tokens) 0 tokens).trace := by
  show ((production .expression (limit.budget tokens) 0 tokens >>= fun parsed =>
    pure ⟨parsed.node, tokens, parsed.offset⟩ : Run Partial)).trace = _
  rcases ho : (production .expression (limit.budget tokens) 0 tokens).outcome with f | p
  · rw [Run.bind_of_error ho]
  · rw [Run.bind_of_ok ho]
    exact List.append_nil _

/-- Increasing ranks allow nothing twice. -/
theorem pairwise_of_ranks {trace : List Event} (h : (ranks trace).Pairwise (· < ·)) {f : Event → Option Nat}
    {rel : Nat → Nat → Prop} (hf : ∀ a b j k, f a = some j → f b = some k →
      ∃ r s, a.rank? = some r ∧ b.rank? = some s ∧ (r < s → rel j k)) :
    (trace.filterMap f).Pairwise rel := by
  rw [ranks, List.pairwise_filterMap] at h
  rw [List.pairwise_filterMap]
  refine h.imp ?_
  intro a b hab j hj k hk
  obtain ⟨r, s, hr, hs, hrel⟩ := hf a b j k hj hk
  exact hrel (hab r hr s hs)

theorem singlePass_run (tokens : List Token) : SinglePass (run none tokens).trace := by
  have hranks : (ranks (run none tokens).trace).Pairwise (· < ·) := by
    rw [trace_run]
    exact (forward_production .expression _ 0 tokens).increasing
  refine ⟨?_, ?_, ?_, ?_⟩
  · refine pairwise_of_ranks hranks ?_
    intro a b j k ha hb
    cases a <;> cases ha <;> cases b <;> cases hb <;> exact ⟨_, _, rfl, rfl, fun h => by omega⟩
  · refine pairwise_of_ranks hranks ?_
    intro a b j k ha hb
    cases a <;> cases ha
    cases b <;> cases hb
    exact ⟨_, _, rfl, rfl, fun h => by omega⟩
  · refine pairwise_of_ranks hranks ?_
    intro a b j k ha hb
    cases a <;> cases ha
    cases b <;> cases hb
    exact ⟨_, _, rfl, rfl, fun h => by omega⟩
  · rw [trace_run]
    have hopened := opened_production .expression (Limit.budget none tokens) 0 tokens
    rcases hopened with hdeep | htrace
    · refine absurd ?_ (run_none_ne_deep tokens)
      rw [run_outcome]
      show (production .expression _ 0 tokens).outcome.map _ = _
      rw [hdeep]
      rfl
    · exact htrace

end Abacus.Parse
