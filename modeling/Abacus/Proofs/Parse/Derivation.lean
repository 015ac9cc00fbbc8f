/-
  Abacus.Proofs.Parse.Derivation — the parser finds what the grammar derives, and agrees with the
  checker.

  The tokens are decimal throughout: their digits are worth 0 to 9, as those of a text are.

  - `Takes.derives`: what a production takes, its nonterminal derives; the numbers fit, and
    what is left behind could not have been taken as well (`Uncut`, `Ends`).
  - `taken_of_derives`: conversely, what is derived is taken, if its numbers fit and what is
    behind it could not be taken as well.
  - `parse_eq_ok_iff_derives`: so parsing without a limit finds a tree exactly when the
    grammar derives it from a front of the tokens that ends there. That front is the longest
    that derives an expression, and derives no other tree.

  What the nested productions keep in their calls (groups that are open, operators and
  negations that wait for an operand) the checker replaces by one mode and one count.

  - `Takes.checkFrom` / `Fails.checkFrom`: over what a production takes, the checker moves
    from before an operand to behind it, and where a production fails, the checker refuses;
    both whatever the number of groups open around.
  - `ofText_eq_check`: so a text has a tree exactly when the checker accepts it, and else is
    refused for the cause and at the place that the checker gives.
-/

import Abacus.Parse.Partial
import Abacus.Proofs.Grammar.Checking
import Abacus.Proofs.Parse.Budget
import Abacus.Proofs.Parse.Rules

namespace Abacus.Parse

/-! # The parser and the grammar -/

open Grammar

/-- What may stand behind the tokens of a nonterminal. -/
def Ends : Nonterminal → Token.Kind → Prop
  | .expression, k => additive? k = none ∧ multiplicative? k = none ∧ k ≠ .unrecognized
  | .term, k => multiplicative? k = none ∧ k ≠ .unrecognized
  | .factor, _ | .integer, _ => True

theorem ends_iff_of_operand {n m : Nonterminal} (h : operand? n = some m) (k : Token.Kind) :
    Ends n k ↔ (operator? n k = none ∧ k ≠ .unrecognized) ∧ Ends m k := by
  cases n <;> cases h
  · exact ⟨fun h => ⟨⟨h.1, h.2.2⟩, h.2⟩, fun h => ⟨h.1.1, h.2⟩⟩
  · exact ⟨fun h => ⟨h, trivial⟩, fun h => h.1⟩

theorem ends_of_operator {n m : Nonterminal} {k : Token.Kind} {op : BinaryOp} (h : operand? n = some m)
    (ho : operator? n k = some op) : Ends m k := by
  cases n <;> cases h
  · cases k <;> simp_all [operator?, Ends, additive?, multiplicative?]
  · trivial

theorem derives_single {n m : Nonterminal} {ts : List Token} {e : Expr} (h : operand? n = some m)
    (hd : Derives m ts e) : Derives n ts e := by
  cases n <;> cases h
  · exact .term hd
  · exact .factor hd

theorem derives_chain {n m : Nonterminal} {t : Token} {op : BinaryOp} {ls rs : List Token} {l r : Expr}
    (h : operand? n = some m) (hl : Derives m ls l) (ho : operator? n t.kind = some op)
    (hr : Derives n rs r) : Derives n (ls ++ t :: rs) (.binary op t.position l r) := by
  cases n <;> cases h
  · exact .sum hl ho hr
  · exact .product hl ho hr

/-! ## What is taken is derived -/

theorem number?_eq_of_decimal {d : Token} {ds rest : List Token} (hd : ∀ t ∈ d :: ds, t.isDigit = true)
    (hw : ∀ t ∈ d :: ds, t.Decimal) (hr : ∀ b ∈ rest.head?, b.isDigit = false) :
    number? (d :: ds ++ rest) = some (if numeral (d :: ds) ≤ Expr.largest
      then .ok (.constant d.position (numeral (d :: ds)), rest)
      else .error (.refused (.placed .literalOverflow (some d.position)))) := by
  have hds : ∀ t ∈ ds, t.isDigit = true := fun t ht => hd t (List.mem_cons_of_mem d ht)
  rw [List.cons_append, number?_cons_of_digit (hd d List.mem_cons_self), takeWhile_digits hds hr,
    dropWhile_digits hds hr, numberNode_eq hd hw]
  split <;> rfl

theorem exists_digits {d : Token} (us : List Token) (hd : d.isDigit = true) :
    ∃ ds rest, d :: us = d :: ds ++ rest ∧ (∀ t ∈ d :: ds, t.isDigit = true) ∧
      ∀ b ∈ rest.head?, b.isDigit = false := by
  refine ⟨us.takeWhile Token.isDigit, us.dropWhile Token.isDigit, ?_, ?_, head?_dropWhile_digits us⟩
  · rw [List.cons_append, List.takeWhile_append_dropWhile]
  · exact List.forall_mem_cons.mpr ⟨hd, all_takeWhile_digits us⟩

theorem Takes.derives {n : Nonterminal} {ts rest : List Token} {e : Expr} (h : Takes n ts e rest)
    (hw : ∀ t ∈ ts, t.Decimal) :
    ∃ taken, ts = taken ++ rest ∧ Derives n taken e ∧ e.Fits ∧ Uncut taken rest ∧
      ∀ t ∈ rest.head?, Ends n t.kind := by
  induction h with
  | @number ts rest e h =>
    obtain ⟨d, us, rfl, hd, -⟩ := number?_eq_some h
    obtain ⟨ds, rest', hus, hds, hr⟩ := exists_digits us hd
    rw [hus] at h hw ⊢
    rw [number?_eq_of_decimal hds (List.forall_mem_append.mp hw).1 hr] at h
    split at h
    · rename_i hle
      simp only [Option.some.injEq, Except.ok.injEq, Prod.mk.injEq] at h
      obtain ⟨rfl, rfl⟩ := h
      exact ⟨d :: ds, rfl, .number hds, hle, uncut_of_head hr, fun _ _ => trivial⟩
    · cases Option.some.inj h
  | integer _ ih =>
    obtain ⟨taken, rfl, hd, hf, hu, -⟩ := ih hw
    exact ⟨taken, rfl, .integer hd, hf, hu, fun _ _ => trivial⟩
  | @negation t ts rest e hk _ ih =>
    obtain ⟨taken, rfl, hd, hf, hu, -⟩ := ih (List.forall_mem_cons.mp hw).2
    exact ⟨t :: taken, rfl, .negation hk hd, hf, (uncut_cons_iff hd.ne_nil).mpr hu, fun _ _ => trivial⟩
  | @group first last ts rest e hk _ hl ih =>
    obtain ⟨taken, rfl, hd, hf, -, -⟩ := ih (List.forall_mem_cons.mp hw).2
    refine ⟨first :: taken ++ [last], by simp, .group hk hd hl, hf, ?_, fun _ _ => trivial⟩
    exact (uncut_append_iff (by simp)).mpr
      (uncut_cons (isDigit_eq_false_of_kind hl (by decide)) (by simp [Uncut]))
  | single hm _ hh ih =>
    obtain ⟨taken, rfl, hd, hf, hu, he⟩ := ih hw
    exact ⟨taken, rfl, derives_single hm hd, hf, hu,
      fun t ht => (ends_iff_of_operand hm _).mpr ⟨hh t ht, he t ht⟩⟩
  | @chain n m t op ts us rest l r hm hl hop _ ihl ihr =>
    obtain ⟨ls, rfl, hdl, hfl, -, -⟩ := ihl hw
    have hwr := (List.forall_mem_append.mp hw).2
    obtain ⟨rs, rfl, hdr, hfr, hu, he⟩ := ihr (List.forall_mem_cons.mp hwr).2
    refine ⟨ls ++ t :: rs, by simp, derives_chain hm hdl hop hdr, ⟨hfl, hfr⟩, ?_, he⟩
    exact (uncut_append_iff (by simp)).mpr ((uncut_cons_iff hdr.ne_nil).mpr hu)

/-! ## What is derived is taken -/

/-- A production takes the tokens, wherever what follows cannot be taken as well. -/
def Taken (n : Nonterminal) (ts : List Token) (e : Expr) : Prop :=
  ∀ rest, Uncut ts rest → (∀ t ∈ rest.head?, Ends n t.kind) → Takes n (ts ++ rest) e rest

theorem taken_single {n m : Nonterminal} {ts : List Token} {e : Expr} (hm : operand? n = some m)
    (h : Taken m ts e) : Taken n ts e := by
  intro rest hu he
  have he := fun t ht => (ends_iff_of_operand hm _).mp (he t ht)
  exact .single hm (h rest hu fun t ht => (he t ht).2) fun t ht => (he t ht).1

theorem taken_chain {n m : Nonterminal} {t : Token} {op : BinaryOp} {ls rs : List Token} {l r : Expr}
    (hm : operand? n = some m) (hop : operator? n t.kind = some op)
    (hl : Taken m ls l) (hr : Taken n rs r) : Taken n (ls ++ t :: rs) (.binary op t.position l r) := by
  intro rest hu he
  have hul : Uncut ls (t :: (rs ++ rest)) :=
    uncut_of_not_digit (isDigit_eq_false_of_operator (operator?_some hop))
  have hur : Uncut rs rest := hu.of_append.tail
  rw [List.append_assoc, List.cons_append]
  refine .chain hm (hl _ hul ?_) hop (hr rest hur he)
  intro b hb
  cases hb
  exact ends_of_operator hm hop

theorem taken_group {first last : Token} {ts : List Token} {e : Expr} (hf : first.kind = .leftParen)
    (hl : last.kind = .rightParen) (h : Taken .expression ts e) :
    Taken .factor (first :: ts ++ [last]) e := by
  intro rest _ _
  have hu : Uncut ts (last :: rest) := uncut_of_not_digit (isDigit_eq_false_of_kind hl (by decide))
  have he : ∀ t ∈ (last :: rest).head?, Ends .expression t.kind := fun b hb => by
    cases hb; rw [hl]; exact ⟨rfl, rfl, by decide⟩
  rw [List.cons_append, List.cons_append, List.append_assoc]
  exact .group hf (h _ hu he) hl

theorem taken_of_derives {n : Nonterminal} {ts : List Token} {e : Expr} (h : Derives n ts e)
    (hw : ∀ t ∈ ts, t.Decimal) (hf : e.Fits) : Taken n ts e := by
  -- `Taken` speaks of all that may follow: an operand is followed by an operator, which its
  -- chain as a whole is not
  induction h with
  | @number d ds hd =>
    intro rest hu _
    refine .number ?_
    rw [number?_eq_of_decimal hd hw ((uncut_digits (by simp) hd).mp hu),
      if_pos (show numeral (d :: ds) ≤ Expr.largest from hf)]
  | integer _ ih => exact fun rest hu _ => .integer (ih hw hf rest hu fun _ _ => trivial)
  | negation hk _ ih =>
    intro rest hu _
    exact .negation hk (ih (List.forall_mem_cons.mp hw).2 hf rest hu.tail fun _ _ => trivial)
  | group hk _ hl ih =>
    have hw' := (List.forall_mem_append.mp hw).1
    exact taken_group hk hl (ih (List.forall_mem_cons.mp hw').2 hf)
  | factor _ ih => exact taken_single rfl (ih hw hf)
  | product _ ho _ ihl ihr =>
    obtain ⟨hwl, hwr⟩ := List.forall_mem_append.mp hw
    exact taken_chain rfl ho (ihl hwl hf.1) (ihr (List.forall_mem_cons.mp hwr).2 hf.2)
  | term _ ih => exact taken_single rfl (ih hw hf)
  | sum _ ho _ ihl ihr =>
    obtain ⟨hwl, hwr⟩ := List.forall_mem_append.mp hw
    exact taken_chain rfl ho (ihl hwl hf.1) (ihr (List.forall_mem_cons.mp hwr).2 hf.2)

/-! ## The longest expression at the front -/

/-- Nothing that stands behind the first `k` tokens could be taken together with them: no
    operator, no character outside the grammar, and no digit that goes on a number. -/
def EndsAt (tokens : List Token) (k : Nat) : Prop :=
  ∀ t, tokens[k]? = some t →
    t.kind ≠ .plus ∧ t.kind ≠ .minus ∧ t.kind ≠ .star ∧ t.kind ≠ .solidus ∧ t.kind ≠ .unrecognized ∧
      (t.isDigit = true → ∀ s, tokens[k - 1]? = some s → s.isDigit = false)

theorem ends_expression_iff (k : Token.Kind) : Ends .expression k ↔
    k ≠ .plus ∧ k ≠ .minus ∧ k ≠ .star ∧ k ≠ .solidus ∧ k ≠ .unrecognized := by
  cases k <;> simp [Ends, additive?, multiplicative?]

theorem endsAt_iff {tokens : List Token} {k : Nat} (hk : 0 < k) (hle : k ≤ tokens.length) :
    EndsAt tokens k ↔ Uncut (tokens.take k) (tokens.drop k) ∧
      ∀ t ∈ (tokens.drop k).head?, Ends .expression t.kind := by
  have hlast : (tokens.take k).getLast? = tokens[k - 1]? := by
    rw [List.getLast?_eq_getElem?, List.length_take, Nat.min_eq_left hle, List.getElem?_take_of_lt (by omega)]
  simp only [EndsAt, Uncut, hlast, List.head?_drop, Option.mem_def, ends_expression_iff]
  constructor
  · intro h
    refine ⟨fun a ha b hb hda => ?_, fun t ht => ?_⟩
    · by_cases hdb : b.isDigit = true
      · rw [(h b hb).2.2.2.2.2 hdb a ha] at hda; cases hda
      · simpa using hdb
    · obtain ⟨h1, h2, h3, h4, h5, -⟩ := h t ht
      exact ⟨h1, h2, h3, h4, h5⟩
  · rintro ⟨hu, he⟩ t ht
    obtain ⟨h1, h2, h3, h4, h5⟩ := he t ht
    refine ⟨h1, h2, h3, h4, h5, fun hd s hs => ?_⟩
    by_cases hds : s.isDigit = true
    · rw [hu s hs t ht hds] at hd; cases hd
    · simpa using hds

/-- No expression goes on behind one that has ended. -/
theorem not_derives_longer {taken rest us : List Token} {t : Token} {e e' : Expr}
    (h : Derives .expression taken e) (hf : e.Fits) (hu : Uncut taken (t :: rest))
    (he : Ends .expression t.kind) : ¬ Derives .expression (taken ++ t :: us) e' := by
  intro h'
  have hc := (h.checks 0 (t :: us) hu.front).1 hf
  rw [checkFrom_left he.1 he.2.1 he.2.2 (.inl rfl)] at hc
  rcases h'.check_cases with ⟨-, hc'⟩ | ⟨-, p, hc'⟩ <;> cases hc.symm.trans hc'

/-- The tree of a derivation is determined by its tokens, if its numbers fit. -/
theorem derives_unique {ts : List Token} {e e' : Expr} (hw : ∀ t ∈ ts, t.Decimal)
    (h : Derives .expression ts e) (h' : Derives .expression ts e') (hf : e.Fits) : e' = e := by
  have ht := taken_of_derives h hw hf [] (uncut_nil ts) (by simp)
  have hf' : e'.Fits := h'.fits_iff.mpr (h.fits_iff.mp hf)
  have ht' := taken_of_derives h' hw hf' [] (uncut_nil ts) (by simp)
  exact (ht'.unique (by simp) ht).1

theorem parse_eq_ok_iff_derives {tokens : List Token} (hw : ∀ t ∈ tokens, t.Decimal) (debug : Bool)
    (e : Expr) (k : Nat) :
    ((parse none debug tokens).outcome = .ok ⟨e, tokens, k⟩ ↔
      (k ≤ tokens.length ∧ Derives .expression (tokens.take k) e ∧ e.Fits) ∧ EndsAt tokens k) ∧
    ((parse none debug tokens).outcome = .ok ⟨e, tokens, k⟩ → ∀ j e', j ≤ tokens.length →
      Derives .expression (tokens.take j) e' → j ≤ k ∧ (j = k → e' = e)) := by
  have hparse : (parse none debug tokens).outcome = .ok ⟨e, tokens, k⟩ ↔
      k ≤ tokens.length ∧ Takes .expression tokens e (tokens.drop k) := by
    rw [parse_outcome, run_none_eq_ok_iff]
    exact ⟨fun h => h.2, fun h => ⟨rfl, h⟩⟩
  have hsound : Takes .expression tokens e (tokens.drop k) → Derives .expression (tokens.take k) e ∧
      e.Fits ∧ Uncut (tokens.take k) (tokens.drop k) ∧ ∀ t ∈ (tokens.drop k).head?, Ends .expression t.kind := by
    intro ht
    obtain ⟨taken, htaken, h⟩ := ht.derives hw
    rwa [List.append_cancel_right ((List.take_append_drop k tokens).trans htaken)]
  rw [hparse]
  refine ⟨⟨?_, ?_⟩, ?_⟩
  · rintro ⟨hk, ht⟩
    obtain ⟨hd, hf, h⟩ := hsound ht
    have hpos : 0 < k := Nat.pos_of_ne_zero fun h0 => hd.ne_nil (by simp [h0])
    exact ⟨⟨hk, hd, hf⟩, (endsAt_iff hpos hk).mpr h⟩
  · rintro ⟨⟨hk, hd, hf⟩, he⟩
    have hpos : 0 < k := Nat.pos_of_ne_zero fun h0 => hd.ne_nil (by simp [h0])
    obtain ⟨hu, he⟩ := (endsAt_iff hpos hk).mp he
    have ht := taken_of_derives hd (fun t ht => hw t (List.mem_of_mem_take ht)) hf _ hu he
    rw [List.take_append_drop] at ht
    exact ⟨hk, ht⟩
  · rintro ⟨hk, ht⟩ j e' hj hd'
    obtain ⟨hd, hf, hu, he⟩ := hsound ht
    refine ⟨Nat.le_of_not_lt fun hlt => ?_, ?_⟩
    · obtain ⟨t, us, hdrop⟩ : ∃ t us, tokens.drop k = t :: us :=
        List.exists_cons_of_ne_nil (by simp only [ne_eq, List.drop_eq_nil_iff]; omega)
      obtain ⟨i, rfl⟩ : ∃ i, j = k + (i + 1) := ⟨j - k - 1, by omega⟩
      rw [hdrop] at hu he
      rw [List.take_add, hdrop, List.take_succ_cons] at hd'
      exact not_derives_longer hd hf hu (he t rfl) hd'
    · rintro rfl
      exact derives_unique (fun t ht => hw t (List.mem_of_mem_take ht)) hd hd' hf

/-- In `8-3-2)` the chain groups to the right, and the parenthesis stays behind. -/
theorem derives_chain_before_parenthesis :
    Derives .expression ((Token.scan "8-3-2)").take 5)
      (.binary .subtract 1 (.constant 0 8) (.binary .subtract 3 (.constant 2 3) (.constant 4 2))) ∧
    ∀ j e', j ≤ 6 → Derives .expression ((Token.scan "8-3-2)").take j) e' → j ≤ 5 :=
  have h := @parse_eq_ok_iff_derives (Token.scan "8-3-2)") (fun _ => Token.decimal_of_mem_scan) false
    (.binary .subtract 1 (.constant 0 8) (.binary .subtract 3 (.constant 2 3) (.constant 4 2))) 5
  ⟨(h.1.mp rfl).1.2.1, fun j e' hj hd => (h.2 rfl j e' hj hd).1⟩

/-! # The parser and the checker -/

/-- The tree of tokens that are one whole expression. -/
def readWhole (limit : Limit) (ts : List Token) : Except Failure Expr :=
  (run limit ts).outcome.bind Partial.whole

theorem ofText_eq_readWhole (limit : Limit) (text : String) :
    Expr.ofText limit text = readWhole limit (Token.scan text) := rfl

/-! ## Productions as moves of the checker -/

/-- Debugging changes no tree. -/
theorem parseText_outcome (limit : Limit) (debug : Bool) (text : String) :
    (parseText limit debug text).outcome = Expr.ofText limit text := by
  show (parse limit debug (Token.scan text)).outcome.bind Partial.whole = _
  rw [parse_outcome]
  rfl

theorem Takes.checkFrom {n : Nonterminal} {ts rest : List Token} {e : Expr} (h : Takes n ts e rest)
    (hw : ∀ t ∈ ts, t.Decimal) (groups : Nat) :
    Grammar.checkFrom .operand groups ts = Grammar.checkFrom .after groups rest := by
  obtain ⟨taken, rfl, hd, hf, hu, -⟩ := h.derives hw
  exact (hd.checks groups rest hu).1 hf

/-- Behind an expression the checker goes on only to close a group. -/
theorem Takes.checkFrom_left {ts us : List Token} {t : Token} {e : Expr}
    (h : Takes .expression ts e (t :: us)) (hw : ∀ t ∈ ts, t.Decimal) {groups : Nat}
    (hg : groups = 0 ∨ t.kind ≠ .rightParen) :
    Grammar.checkFrom .operand groups ts =
      .error (.placed (if groups = 0 then .unexpectedToken else .invalidGroup) (some t.position)) := by
  obtain ⟨taken, -, -, -, -, he⟩ := h.derives hw
  obtain ⟨h1, h2, h3⟩ := he t rfl
  rw [h.checkFrom hw, Grammar.checkFrom_left h1 h2 h3 hg]

theorem Takes.decimal {n : Nonterminal} {ts rest : List Token} {e : Expr} (h : Takes n ts e rest)
    (hw : ∀ t ∈ ts, t.Decimal) : ∀ t ∈ rest, t.Decimal :=
  fun t ht => hw t (h.suffix.1.subset ht)

theorem number?_error_checkFrom {ts : List Token} {f : Failure} (h : number? ts = some (.error f))
    (hw : ∀ t ∈ ts, t.Decimal) :
    ∃ e, f = .refused e ∧ ∀ groups, checkFrom .operand groups ts = .error e := by
  obtain ⟨d, us, rfl, hd, -⟩ := number?_eq_some h
  obtain ⟨ds, rest, hus, hds, hr⟩ := exists_digits us hd
  rw [hus] at h hw ⊢
  rw [number?_eq_of_decimal hds (List.forall_mem_append.mp hw).1 hr] at h
  split at h
  · cases Option.some.inj h
  · rename_i hle
    simp only [Option.some.injEq, Except.error.injEq] at h
    refine ⟨_, h.symm, fun groups => ?_⟩
    rw [checkFrom_digits hds hr, if_pos (Nat.lt_of_not_le hle)]

theorem Fails.checkFrom {n : Nonterminal} {ts : List Token} {f : Failure} (h : Fails n ts f)
    (hw : ∀ t ∈ ts, t.Decimal) :
    ∃ e, f = .refused e ∧ ∀ groups, Grammar.checkFrom .operand groups ts = .error e := by
  induction h with
  | number h => exact number?_error_checkFrom h hw
  | integer _ ih => exact ih hw
  | ended => exact ⟨_, rfl, fun _ => checkFrom_operand_nil⟩
  | @expected t us hd h1 h2 =>
    have h0 : t.kind ≠ .digit := fun hk => by simp [Token.isDigit, hk] at hd
    exact ⟨_, rfl, fun _ => checkFrom_expected h0 h1 h2⟩
  | negation hk _ ih =>
    obtain ⟨e, rfl, hc⟩ := ih (List.forall_mem_cons.mp hw).2
    exact ⟨e, rfl, fun groups => (checkFrom_minus hk).trans (hc groups)⟩
  | group hk _ ih =>
    obtain ⟨e, rfl, hc⟩ := ih (List.forall_mem_cons.mp hw).2
    exact ⟨e, rfl, fun groups => (checkFrom_leftParen hk).trans (hc (groups + 1))⟩
  | unclosed hk ht =>
    refine ⟨_, rfl, fun groups => ?_⟩
    rw [checkFrom_leftParen hk, ht.checkFrom (List.forall_mem_cons.mp hw).2,
      checkFrom_after_nil, if_neg (Nat.succ_ne_zero groups)]
  | misclosed hk ht hu =>
    refine ⟨_, rfl, fun groups => ?_⟩
    rw [checkFrom_leftParen hk,
      ht.checkFrom_left (List.forall_mem_cons.mp hw).2 (.inr hu),
      if_neg (Nat.succ_ne_zero groups)]
  | operand _ _ ih => exact ih hw
  | stranger _ ht hk =>
    exact ⟨_, rfl, fun groups => (ht.checkFrom hw groups).trans (checkFrom_unrecognized hk)⟩
  | tail _ ht hop _ ih =>
    obtain ⟨e, rfl, hc⟩ := ih (List.forall_mem_cons.mp (ht.decimal hw)).2
    refine ⟨e, rfl, fun groups => ?_⟩
    rw [ht.checkFrom hw, checkFrom_operator (operator?_some hop), hc]

/-! ## Whole lists of tokens -/

theorem Takes.readWhole {ts rest : List Token} {e : Expr} (h : Takes .expression ts e rest) :
    Parse.readWhole none ts = match rest with
      | [] => .ok e
      | t :: _ => .error (.refused (.placed .unexpectedToken (some t.position))) := by
  have hs := List.suffix_iff_eq_drop.mp h.suffix.1
  have hpeek : ts[ts.length - rest.length]? = rest.head? := by
    rw [← List.head?_drop, ← hs]
  unfold Parse.readWhole
  rw [h.run_none]
  simp only [Except.bind, Partial.whole, Partial.peek, hpeek]
  cases rest <;> rfl

theorem Fails.readWhole {ts : List Token} {f : Failure} (h : Fails .expression ts f) :
    Parse.readWhole none ts = .error f := by
  unfold Parse.readWhole
  rw [h.run_none]
  rfl

/-- Decimal tokens are accepted, or refused, as the checker does it. -/
theorem readWhole_cases {ts : List Token} (hw : ∀ t ∈ ts, t.Decimal) :
    (∃ e, readWhole none ts = .ok e ∧ check ts = .ok ()) ∨
      ∃ err, readWhole none ts = .error (.refused err) ∧ check ts = .error err := by
  rcases takes_or_fails (n := .expression) (by simp) ts with ⟨e, rest, ht⟩ | ⟨f, hf⟩
  · rcases rest with _ | ⟨t, us⟩
    · exact Or.inl ⟨e, ht.readWhole, (ht.checkFrom hw 0).trans checkFrom_after_nil⟩
    · exact Or.inr ⟨_, ht.readWhole, ht.checkFrom_left hw (.inl (Eq.refl 0))⟩
  · obtain ⟨err, rfl, hc⟩ := hf.checkFrom hw
    exact Or.inr ⟨err, hf.readWhole, hc 0⟩

theorem readWhole_eq_error_iff {ts : List Token} (hw : ∀ t ∈ ts, t.Decimal) {err : ParseError} :
    readWhole none ts = .error (.refused err) ↔ check ts = .error err := by
  rcases readWhole_cases hw with ⟨e, hr, hc⟩ | ⟨err', hr, hc⟩
  · simp [hr, hc]
  · simp [hr, hc]

/-- What a run takes derives its tree, and the numbers of the tree fit. -/
theorem derives_of_run {limit : Limit} {tokens : List Token} {p : Partial}
    (hw : ∀ t ∈ tokens, t.Decimal) (h : (run limit tokens).outcome = .ok p) :
    Derives .expression (tokens.take p.offset) p.node ∧ p.node.Fits := by
  obtain ⟨rfl, -, ht⟩ := takes_of_run h
  obtain ⟨taken, htaken, hd, hf, -, -⟩ := ht.derives hw
  have htake : p.tokens.take p.offset = taken :=
    List.append_cancel_right ((List.take_append_drop p.offset p.tokens).trans htaken)
  rw [htake]
  exact ⟨hd, hf⟩

theorem derives_of_ofText {limit : Limit} {text : String} {e : Expr}
    (h : Expr.ofText limit text = .ok e) : Derives .expression (Token.scan text) e ∧ e.Fits := by
  rw [ofText_eq_readWhole, readWhole] at h
  rcases ho : (run limit (Token.scan text)).outcome with f | p
  · rw [ho] at h
    cases h
  · obtain ⟨hd, hf⟩ := derives_of_run (fun _ => Token.decimal_of_mem_scan) ho
    have htokens : p.tokens = Token.scan text := (takes_of_run ho).1
    rw [ho] at h
    simp only [Except.bind, Partial.whole, Partial.peek, htokens] at h
    split at h
    · rename_i hend
      obtain rfl : p.node = e := Except.ok.inj h
      rw [List.take_of_length_le (List.getElem?_eq_none_iff.mp hend)] at hd
      exact ⟨hd, hf⟩
    · cases h

theorem ofText_eq_check (text : String) :
    (Expr.ofText none text).map (fun _ => ()) = (check (Token.scan text)).mapError .refused := by
  rw [ofText_eq_readWhole]
  rcases readWhole_cases fun _ (ht : _ ∈ Token.scan text) => Token.decimal_of_mem_scan ht with
    ⟨e, hr, hc⟩ | ⟨err, hr, hc⟩
  · rw [hr, hc]
    rfl
  · rw [hr, hc]
    rfl

end Abacus.Parse
