/-
  Abacus.Proofs.Parse.Lookahead — productions look one token ahead and remember nothing.

  - `Takes.other_rest`: what is taken stays taken when other tokens stand behind it, as long as
    the first of them is the same, or there is none in both cases.
  - `Fails.append`: an error stays when more tokens follow, unless it is that the tokens have
    ended.
  - `runAt_eq_ok_iff` / `runAt_eq_error_iff`: the rules say how a nonterminal ends at an index.
  - `looks_one_token_ahead`: so what becomes of a nonterminal at an index depends on the tokens
    from there to the one behind what it takes, and on nothing before or behind them; and a text
    that is refused at a place stays refused there however it goes on.
-/

import Mathlib.Data.List.Basic
import Abacus.Proofs.Parse.Derivation
import Abacus.Proofs.Token.Scanner

namespace Abacus.Parse

open Grammar

/-! ## Other tokens behind -/

theorem number?_other_rest {ts rest : List Token} {e : Expr} (h : number? ts = some (.ok (e, rest))) :
    ∃ taken, ts = taken ++ rest ∧
      ∀ others : List Token, others.head? = rest.head? → number? (taken ++ others) = some (.ok (e, others)) := by
  obtain ⟨d, us, rfl, hd, hr⟩ := number?_eq_some h
  rcases hn : numberNode d (us.takeWhile Token.isDigit) with f | node
  · rw [hn] at hr
    cases hr
  · rw [hn] at hr
    obtain ⟨rfl, rfl⟩ := Prod.mk.inj (Except.ok.inj hr)
    refine ⟨d :: us.takeWhile Token.isDigit, ?_, ?_⟩
    · rw [List.cons_append, List.takeWhile_append_dropWhile]
    · intro others ho
      have hall := all_takeWhile_digits us
      have hend : ∀ t ∈ others.head?, t.isDigit = false := by
        rw [ho]
        exact head?_dropWhile_digits us
      rw [List.cons_append, number?_cons_of_digit hd, takeWhile_digits hall hend,
        dropWhile_digits hall hend, hn]
      rfl

theorem Takes.other_rest {n : Nonterminal} {ts rest : List Token} {e : Expr} (h : Takes n ts e rest) :
    ∃ taken, ts = taken ++ rest ∧
      ∀ others : List Token, others.head? = rest.head? → Takes n (taken ++ others) e others := by
  induction h with
  | number h =>
    obtain ⟨taken, hts, hn⟩ := number?_other_rest h
    exact ⟨taken, hts, fun others ho => .number (hn others ho)⟩
  | integer _ ih =>
    obtain ⟨taken, hts, ht⟩ := ih
    exact ⟨taken, hts, fun others ho => .integer (ht others ho)⟩
  | @negation t _ _ _ hk _ ih =>
    obtain ⟨taken, rfl, ht⟩ := ih
    exact ⟨t :: taken, rfl, fun others ho => .negation hk (ht others ho)⟩
  | @group first last _ rest e hk _ hl ih =>
    obtain ⟨taken, rfl, ht⟩ := ih
    refine ⟨first :: (taken ++ [last]), by simp, ?_⟩
    intro others _
    have hinside : Takes .expression (taken ++ [last] ++ others) e (last :: others) := by
      rw [List.append_assoc]
      exact ht (last :: others) rfl
    exact .group hk hinside hl
  | single hm _ hh ih =>
    obtain ⟨taken, hts, ht⟩ := ih
    exact ⟨taken, hts, fun others ho => .single hm (ht others ho) (ho ▸ hh)⟩
  | @chain n m t op _ _ rest l r hm _ hop _ ihl ihr =>
    obtain ⟨left, rfl, hl⟩ := ihl
    obtain ⟨right, rfl, hr⟩ := ihr
    refine ⟨left ++ t :: right, by simp, ?_⟩
    intro others ho
    have hleft : Takes m (left ++ t :: right ++ others) l (t :: (right ++ others)) := by
      rw [List.append_assoc]
      exact hl (t :: (right ++ others)) rfl
    exact .chain hm hleft hop (hr others ho)

theorem Takes.append {n : Nonterminal} {ts rest : List Token} {e : Expr} (h : Takes n ts e rest)
    (hr : rest ≠ []) (more : List Token) : Takes n (ts ++ more) e (rest ++ more) := by
  obtain ⟨taken, rfl, ht⟩ := h.other_rest
  rw [List.append_assoc]
  exact ht (rest ++ more) (List.head?_append_of_ne_nil _ hr)

/-! ## More tokens behind an error -/

theorem takeWhile_prefix_append (ts more : List Token) :
    ts.takeWhile Token.isDigit <+: (ts ++ more).takeWhile Token.isDigit := by
  rw [List.takeWhile_append]
  split
  · exact (List.takeWhile_prefix Token.isDigit).trans (List.prefix_append ..)
  · exact List.prefix_refl _

/-- Reading stops at the first digits that are too large, whatever comes behind them. -/
theorem readDigits_append_error {start value : Int} {ds : List Token} {f : Failure}
    (h : readDigits start value ds = .error f) (more : List Token) :
    readDigits start value (ds ++ more) = .error f := by
  induction ds generalizing value with
  | nil => cases h
  | cons d ds ih =>
    rw [List.cons_append]
    rcases hw : d.worth with x | worth
    · simpa only [readDigits, hw] using h
    · simp only [readDigits, hw] at h ⊢
      split at h
      · rename_i hgt
        rw [if_pos hgt, h]
      · rename_i hle
        rw [if_neg hle]
        exact ih h

theorem numberNode_append_refused {d : Token} {ds : List Token} {err : ParseError}
    (h : numberNode d ds = .error (.refused err)) (more : List Token) :
    numberNode d (ds ++ more) = .error (.refused err) := by
  rcases numberNode_error h with hr | ⟨x, hx⟩
  · exact numberNode_of_unread (readDigits_append_error hr more)
  · cases hx

theorem number?_append_refused {ts : List Token} {err : ParseError}
    (h : number? ts = some (.error (.refused err))) (more : List Token) :
    number? (ts ++ more) = some (.error (.refused err)) := by
  obtain ⟨d, us, rfl, hd, hres⟩ := number?_eq_some h
  rcases hn : numberNode d (us.takeWhile Token.isDigit) with f | node
  · rw [hn] at hres
    cases hres
    obtain ⟨es, hes⟩ := takeWhile_prefix_append us more
    rw [List.cons_append, number?_cons_of_digit hd, ← hes, numberNode_append_refused hn es]
    rfl
  · rw [hn] at hres; cases hres

theorem Fails.append {n : Nonterminal} {ts : List Token} {f : Failure} {err : ParseError}
    (h : Fails n ts f) (hf : f = .refused err) (he : err ≠ .unexpectedEof) (more : List Token) :
    Fails n (ts ++ more) f := by
  induction h with
  | number h => exact .number (hf ▸ number?_append_refused (hf ▸ h) more)
  | integer _ ih => exact .integer (ih hf)
  | ended | unclosed => cases hf; exact absurd rfl he
  | expected hd h1 h2 => exact .expected hd h1 h2
  | negation hk _ ih => exact .negation hk (ih hf)
  | group hk _ ih => exact .group hk (ih hf)
  | misclosed hk ht hu => exact .misclosed hk (ht.append (by simp) more) hu
  | operand hm _ ih => exact .operand hm (ih hf)
  | stranger hm ht hk => exact .stranger hm (ht.append (by simp) more) hk
  | tail hm ht hop _ ih => exact .tail hm (ht.append (by simp) more) hop (ih hf)

/-- Tokens that are refused, other than for having ended, stay refused when more follow. -/
theorem readWhole_append_refused {ts : List Token} {err : ParseError}
    (h : readWhole none ts = .error (.refused err)) (he : err ≠ .unexpectedEof) (more : List Token) :
    readWhole none (ts ++ more) = .error (.refused err) := by
  rcases takes_or_fails (n := .expression) (by simp) ts with ⟨e, rest, ht⟩ | ⟨f, hf⟩
  · rw [ht.readWhole] at h
    rcases rest with _ | ⟨t, us⟩
    · cases h
    · exact (ht.append (by simp) more).readWhole.trans h
  · rw [hf.readWhole] at h
    cases h
    exact (hf.append rfl he more).readWhole

/-! ## Nonterminals at an index -/

/-- A number is taken by its own rule only. -/
theorem takes_integer_iff {ts rest : List Token} {e : Expr} :
    Takes .integer ts e rest ↔ number? ts = some (.ok (e, rest)) := by
  constructor
  · intro h
    cases h with
    | number h => exact h
    | single hm | chain hm => cases hm
  · intro h
    exact .number h

theorem fails_integer_iff {ts : List Token} {f : Failure} :
    Fails .integer ts f ↔ number? ts = some (.error f) := by
  constructor
  · intro h
    cases h with
    | number h => exact h
    | operand hm | stranger hm | tail hm => cases hm
  · intro h
    exact .number h

theorem calls_le_depthBound (n : Nonterminal) (ts : List Token) : calls n ts ≤ depthBound ts := by
  rw [← calls_expression]
  cases n <;> simp [calls, height]

theorem outcome_runNonterminal {n : Nonterminal} (hn : n ≠ .integer) (budget index : Nat)
    (ts : List Token) :
    (runNonterminal n budget index ts).outcome = (production n budget index ts).outcome.map some := by
  have hmap (r : Run Parsed) : (some <$> r : Run (Option Parsed)).outcome = r.outcome.map some := by
    show (r >>= fun p => pure (some p)).outcome = _
    rw [Run.outcome_bind]
    cases r.outcome <;> rfl
  cases n with
  | expression | term | factor => exact hmap _
  | integer => exact absurd rfl hn

section At

variable {n : Nonterminal} {tokens rest : List Token} {index : Nat} {e : Expr} {f : Failure}

theorem Takes.runAt (h : Takes n (tokens.drop index) e rest) :
    (runAt n tokens index).outcome =
      .ok (some ⟨e, index + ((tokens.drop index).length - rest.length), rest⟩) := by
  by_cases hn : n = .integer
  · subst hn
    show (literal index (tokens.drop index)).outcome = _
    rw [literal_outcome, takes_integer_iff.mp h]
    rfl
  · unfold Parse.runAt
    rw [outcome_runNonterminal hn, h.outcome hn (calls_le_depthBound n _) index]
    rfl

theorem Fails.runAt (h : Fails n (tokens.drop index) f) : (runAt n tokens index).outcome = .error f := by
  by_cases hn : n = .integer
  · subst hn
    show (literal index (tokens.drop index)).outcome = _
    rw [literal_outcome, fails_integer_iff.mp h]
    rfl
  · unfold Parse.runAt
    rw [outcome_runNonterminal hn, h.outcome hn _ index (calls_le_depthBound n _)]
    rfl

theorem runAt_of_none (h : number? (tokens.drop index) = none) :
    (runAt .integer tokens index).outcome = .ok none := by
  show (literal index (tokens.drop index)).outcome = _
  rw [literal_outcome, h]

/-- A nonterminal takes a tree, or fails, or is a number where no digit stands. -/
theorem takes_or_fails_or_none (n : Nonterminal) (ts : List Token) :
    (∃ e rest, Takes n ts e rest) ∨ (∃ f, Fails n ts f) ∨ n = .integer ∧ number? ts = none := by
  by_cases hn : n = .integer
  · subst hn
    rcases h : number? ts with _ | (f | ⟨e, rest⟩)
    · exact .inr (.inr ⟨rfl, rfl⟩)
    · exact .inr (.inl ⟨f, .number h⟩)
    · exact .inl ⟨e, rest, .number h⟩
  · rcases takes_or_fails hn ts with h | h
    · exact .inl h
    · exact .inr (.inl h)

theorem runAt_eq_ok_iff {p : Parsed} : (runAt n tokens index).outcome = .ok (some p) ↔
    Takes n (tokens.drop index) p.node p.rest ∧
      p.offset = index + ((tokens.drop index).length - p.rest.length) := by
  constructor
  · intro h
    rcases takes_or_fails_or_none n (tokens.drop index) with ⟨e, rest, ht⟩ | ⟨f, hf⟩ | ⟨rfl, hnone⟩
    · rw [ht.runAt] at h
      cases h
      exact ⟨ht, rfl⟩
    · rw [hf.runAt] at h
      cases h
    · rw [runAt_of_none hnone] at h
      cases h
  · intro h
    obtain ⟨ht, ho⟩ := h
    rw [ht.runAt, ← ho]

theorem runAt_eq_error_iff : (runAt n tokens index).outcome = .error f ↔
    Fails n (tokens.drop index) f := by
  constructor
  · intro h
    rcases takes_or_fails_or_none n (tokens.drop index) with ⟨e, rest, ht⟩ | ⟨g, hg⟩ | ⟨rfl, hnone⟩
    · rw [ht.runAt] at h
      cases h
    · rw [hg.runAt] at h
      cases h
      exact hg
    · rw [runAt_of_none hnone] at h
      cases h
  · intro hf
    exact hf.runAt

end At

/-- What was found, when so many more tokens lie before it. -/
def Parsed.later (count : Nat) (p : Parsed) : Parsed := { p with offset := p.offset + count }

/-- What becomes of a nonterminal at an index does not depend on the tokens before it. -/
theorem runAt_later (n : Nonterminal) (tokens : List Token) (index : Nat) :
    (runAt n tokens index).outcome =
      (runAt n (tokens.drop index) 0).outcome.map (Option.map (Parsed.later index)) := by
  rcases takes_or_fails_or_none n (tokens.drop index) with ⟨e, rest, ht⟩ | ⟨f, hf⟩ | ⟨rfl, hnone⟩
  · have hfront : Takes n ((tokens.drop index).drop 0) e rest := ht
    rw [ht.runAt, hfront.runAt, Nat.add_comm index]
    simp only [Except.map, Option.map, Parsed.later, List.drop_zero, Nat.zero_add]
  · have hfront : Fails n ((tokens.drop index).drop 0) f := hf
    rw [hf.runAt, hfront.runAt]
    rfl
  · have hfront : number? ((tokens.drop index).drop 0) = none := hnone
    rw [runAt_of_none hnone, runAt_of_none hfront]
    rfl

/-- Lists that agree from one index to another have the same tokens between them, and the same
    one at the second. -/
theorem drop_of_agreeing {tokens others : List Token} {index k : Nat} (hk : index ≤ k)
    (h : ∀ i, index ≤ i → i ≤ k → others[i]? = tokens[i]?) :
    others.drop index = (tokens.drop index).take (k - index) ++ others.drop k ∧
      (others.drop k).head? = (tokens.drop k).head? := by
  have htake : (others.drop index).take (k - index) = (tokens.drop index).take (k - index) := by
    apply List.ext_getElem?
    intro i
    rw [List.getElem?_take, List.getElem?_take, List.getElem?_drop, List.getElem?_drop]
    by_cases hi : i < k - index
    · rw [if_pos hi, if_pos hi, h (index + i) (by omega) (by omega)]
    · rw [if_neg hi, if_neg hi]
  constructor
  · have hdrop : others.drop k = (others.drop index).drop (k - index) := by
      rw [List.drop_drop, Nat.add_sub_cancel' hk]
    rw [← htake, hdrop, List.take_append_drop]
  · rw [List.head?_drop, List.head?_drop, h k hk (Nat.le_refl k)]

theorem runAt_of_agreeing {n : Nonterminal} {tokens others : List Token} {index : Nat} {p : Parsed}
    (h : (runAt n tokens index).outcome = .ok (some p))
    (ho : ∀ i, index ≤ i → i ≤ p.offset → others[i]? = tokens[i]?) :
    (runAt n others index).outcome = .ok (some ⟨p.node, p.offset, others.drop p.offset⟩) := by
  obtain ⟨ht, hoffset⟩ := runAt_eq_ok_iff.mp h
  obtain ⟨taken, hts, hother⟩ := ht.other_rest
  have hlength := congrArg List.length hts
  rw [List.length_append] at hlength
  have htaken : (tokens.drop index).take (p.offset - index) = taken := by
    rw [hts, List.take_append_of_le_length (by omega), List.take_of_length_le (by omega)]
  have hrest : tokens.drop p.offset = p.rest := by
    have hdrop : tokens.drop p.offset = (tokens.drop index).drop taken.length := by
      rw [List.drop_drop]
      congr 1
      omega
    rw [hdrop, hts, List.drop_left]
  obtain ⟨hfront, hhead⟩ := drop_of_agreeing (k := p.offset) (by omega) ho
  rw [htaken] at hfront
  rw [hrest] at hhead
  have hothers := hother (others.drop p.offset) hhead
  rw [← hfront] at hothers
  refine runAt_eq_ok_iff.mpr ⟨hothers, ?_⟩
  show p.offset = index + ((others.drop index).length - (others.drop p.offset).length)
  rw [hfront, List.length_append]
  omega

theorem looks_one_token_ahead :
    (∀ (n : Nonterminal) (tokens : List Token) (index : Nat),
      (runAt n tokens index).outcome =
        (runAt n (tokens.drop index) 0).outcome.map (Option.map (Parsed.later index)) ∧
      (∀ p, (runAt n tokens index).outcome = .ok (some p) →
        index < p.offset ∧ p.offset ≤ tokens.length ∧
        ∀ others : List Token, (∀ i, index ≤ i → i ≤ p.offset → others[i]? = tokens[i]?) →
          (runAt n others index).outcome = .ok (some ⟨p.node, p.offset, others.drop p.offset⟩)) ∧
      ∀ err, (runAt n tokens index).outcome = .error (.refused err) → err ≠ .unexpectedEof →
        ∀ more, (runAt n (tokens ++ more) index).outcome = .error (.refused err)) ∧
    ∀ (text : String) (err : ParseError), Expr.ofText none text = .error (.refused err) →
      err.position ≠ none → ∀ more, Expr.ofText none (text ++ more) = .error (.refused err) := by
  constructor
  · intro n tokens index
    refine ⟨runAt_later n tokens index, ?_, ?_⟩
    · intro p hp
      obtain ⟨ht, hoffset⟩ := runAt_eq_ok_iff.mp hp
      have hshorter := ht.suffix.2
      have hlength := tokens.length_drop (i := index)
      exact ⟨by omega, by omega, fun others => runAt_of_agreeing hp⟩
    · intro err herr he more
      have hf := (runAt_eq_error_iff.mp herr).append rfl he (more.drop (index - tokens.length))
      rw [← List.drop_append] at hf
      exact hf.runAt
  · intro text err herr hp more
    have he : err ≠ .unexpectedEof := by
      intro heof
      rw [heof] at hp
      exact hp rfl
    rw [ofText_eq_readWhole, Token.scan_append]
    exact readWhole_append_refused herr he _

/-- The group of `8*(1+2)*3` is the same between other tokens; what `2*)` and `1+?` are refused
    for stays when they go on. -/
theorem group_between_other_tokens :
    ((runAt .factor (Token.scan "8*(1+2)*3") 2).outcome =
        .ok (some ⟨.binary .add 4 (.constant 3 1) (.constant 5 2), 7, (Token.scan "8*(1+2)*3").drop 7⟩) ∧
      (∀ i, 2 ≤ i → i ≤ 7 → (Token.scan "-+(1+2)*")[i]? = (Token.scan "8*(1+2)*3")[i]?) ∧
      (runAt .factor (Token.scan "-+(1+2)*") 2).outcome =
        .ok (some ⟨.binary .add 4 (.constant 3 1) (.constant 5 2), 7, [⟨.star, "*", 7⟩]⟩)) ∧
    ((runAt .term (Token.scan "2*)") 0).outcome =
        .error (.refused (.placed .factorExpected (some 2))) ∧
      (runAt .term (Token.scan "2*)" ++ Token.scan "3") 0).outcome =
        .error (.refused (.placed .factorExpected (some 2)))) ∧
    Expr.ofText none "1+?" = .error (.refused (.placed .factorExpected (some 2))) ∧
    Expr.ofText none "1+?2" = .error (.refused (.placed .factorExpected (some 2))) := by
  obtain ⟨hruns, htexts⟩ := looks_one_token_ahead
  have hagree : ∀ i, 2 ≤ i → i ≤ 7 →
      (Token.scan "-+(1+2)*")[i]? = (Token.scan "8*(1+2)*3")[i]? := by
    intro i hlow hhigh
    have hall : ∀ i < 8, 2 ≤ i → (Token.scan "-+(1+2)*")[i]? = (Token.scan "8*(1+2)*3")[i]? := by decide
    exact hall i (Nat.lt_succ_of_le hhigh) hlow
  refine ⟨⟨rfl, hagree, ?_⟩, ⟨rfl, ?_⟩, rfl, ?_⟩
  · exact ((hruns .factor (Token.scan "8*(1+2)*3") 2).2.1 _ rfl).2.2 _ hagree
  · exact (hruns .term (Token.scan "2*)") 0).2.2 _ rfl (by decide) (Token.scan "3")
  · exact htexts "1+?" _ rfl (by decide) "2"

end Abacus.Parse
