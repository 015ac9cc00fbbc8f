/-
  Abacus.Proofs.Grammar.Checking — the checker on tokens that the grammar derives, and its way
  through any tokens.

  `Derives.checks`: over tokens that derive a tree, in any state that waits for an operand,
  the checker goes on behind them as after an operand, with as many groups open as before;
  unless a number of the tree does not fit in 64 bits, which is what it refuses then. The
  tokens behind must not go on a number that ends the derivation (`Uncut`). Hence whether the
  numbers of a tree fit can be read off its tokens (`Derives.fits_iff`).

  `Reaches` is one rule for each move of the checker, and `Stuck` one for each refusal.

  - `Reaches.checkFrom`: over tokens with a way, the checker goes on behind them in the state
    that they lead to.
  - `checkFrom_error`: where the checker refuses, there is a way up to the refused token.
  - `Reaches.completed`: behind every way there are tokens that end the expression: a number if
    an operand has to come next, and then what closes the groups.
-/

import Abacus.Grammar

namespace Abacus.Grammar

/-! # Derivations -/

/-! ## Moves of the checker -/

variable {t : Token} {ts : List Token} {groups : Nat}

theorem checkFrom_operand_nil : checkFrom .operand groups [] = .error .unexpectedEof := by
  rw [checkFrom]

theorem checkFrom_number (h : t.kind = .digit) :
    checkFrom .operand groups (t :: ts) =
      if numeral (t :: ts.takeWhile Token.isDigit) > Expr.largest then
        .error (.placed .literalOverflow (some t.position))
      else checkFrom .after groups (ts.dropWhile Token.isDigit) := by
  rw [checkFrom, h]

theorem checkFrom_minus (h : t.kind = .minus) :
    checkFrom .operand groups (t :: ts) = checkFrom .operand groups ts := by
  rw [checkFrom, h]

theorem checkFrom_leftParen (h : t.kind = .leftParen) :
    checkFrom .operand groups (t :: ts) = checkFrom .operand (groups + 1) ts := by
  rw [checkFrom, h]

theorem checkFrom_expected (h0 : t.kind ≠ .digit) (h1 : t.kind ≠ .minus) (h2 : t.kind ≠ .leftParen) :
    checkFrom .operand groups (t :: ts) = .error (.placed .factorExpected (some t.position)) := by
  cases hk : t.kind <;> simp_all [checkFrom]

theorem checkFrom_after_nil :
    checkFrom .after groups [] = if groups = 0 then .ok () else .error .unexpectedEof := by
  rw [checkFrom]

theorem checkFrom_after_cons : checkFrom .after groups (t :: ts) = match t.kind with
    | .plus | .minus | .star | .solidus => checkFrom .operand groups ts
    | .unrecognized => .error (.placed .invalidToken (some t.position))
    | .rightParen =>
      match groups with
      | 0 => .error (.placed .unexpectedToken (some t.position))
      | groups + 1 => checkFrom .after groups ts
    | _ =>
      if groups = 0 then .error (.placed .unexpectedToken (some t.position))
      else .error (.placed .invalidGroup (some t.position)) :=
  (checkFrom.eq_def .after groups (t :: ts)).trans rfl

theorem checkFrom_operator {op : BinaryOp}
    (h : additive? t.kind = some op ∨ multiplicative? t.kind = some op) :
    checkFrom .after groups (t :: ts) = checkFrom .operand groups ts := by
  rw [checkFrom_after_cons]
  cases hk : t.kind <;> simp_all [additive?, multiplicative?]

theorem checkFrom_unrecognized (h : t.kind = .unrecognized) :
    checkFrom .after groups (t :: ts) = .error (.placed .invalidToken (some t.position)) := by
  rw [checkFrom_after_cons, h]

theorem checkFrom_rightParen (h : t.kind = .rightParen) :
    checkFrom .after (groups + 1) (t :: ts) = checkFrom .after groups ts := by
  rw [checkFrom_after_cons, h]

/-- What is neither an operator nor outside the grammar ends an expression, and is refused
    unless it closes a group. -/
theorem checkFrom_left (h1 : additive? t.kind = none) (h2 : multiplicative? t.kind = none)
    (h3 : t.kind ≠ .unrecognized) (h4 : groups = 0 ∨ t.kind ≠ .rightParen) :
    checkFrom .after groups (t :: ts) =
      .error (.placed (if groups = 0 then .unexpectedToken else .invalidGroup) (some t.position)) := by
  rw [checkFrom_after_cons]
  cases hk : t.kind <;> simp_all [additive?, multiplicative?] <;> split <;> rfl

/-! ## Stretches of tokens -/

/-- No number goes on from one stretch of tokens into the next. -/
def Uncut (ls rs : List Token) : Prop :=
  ∀ a ∈ ls.getLast?, ∀ b ∈ rs.head?, a.isDigit = true → b.isDigit = false

theorem uncut_of_head {ls rs : List Token} (h : ∀ b ∈ rs.head?, b.isDigit = false) : Uncut ls rs :=
  fun _ _ b hb _ => h b hb

theorem uncut_nil (ls : List Token) : Uncut ls [] := uncut_of_head (by simp)

theorem uncut_of_not_digit {ls rs : List Token} {t : Token} (ht : t.isDigit = false) :
    Uncut ls (t :: rs) := by
  refine uncut_of_head fun b hb => ?_
  cases hb
  exact ht

/-- Only the first of the tokens behind matters. -/
theorem Uncut.front {ls rs us : List Token} {t : Token} (h : Uncut ls (t :: rs)) : Uncut ls (t :: us) :=
  fun a ha b hb => h a ha b hb

theorem uncut_append_iff {ls ms rs : List Token} (hm : ms ≠ []) : Uncut (ls ++ ms) rs ↔ Uncut ms rs := by
  simp [Uncut, List.getLast?_append, List.getLast?_eq_some_getLast hm]

theorem uncut_cons_iff {t : Token} {ms rs : List Token} (hm : ms ≠ []) :
    Uncut (t :: ms) rs ↔ Uncut ms rs :=
  @uncut_append_iff [t] ms rs hm

theorem Uncut.of_append {ls ms rs : List Token} (h : Uncut (ls ++ ms) rs) : Uncut ms rs := by
  by_cases hm : ms = []
  · rw [hm]
    simp [Uncut]
  · exact (uncut_append_iff hm).mp h

theorem Uncut.tail {t : Token} {ms rs : List Token} (h : Uncut (t :: ms) rs) : Uncut ms rs :=
  Uncut.of_append (show Uncut ([t] ++ ms) rs from h)

theorem uncut_cons {t : Token} {ms rs : List Token} (ht : t.isDigit = false) (h : Uncut ms rs) :
    Uncut (t :: ms) rs := by
  by_cases hm : ms = []
  · intro a ha b _ hda
    have ha : t = a := by simpa [hm] using ha
    rw [← ha, ht] at hda
    cases hda
  · exact (uncut_cons_iff hm).mpr h

theorem uncut_digits {ds rs : List Token} (hne : ds ≠ []) (hd : ∀ t ∈ ds, t.isDigit = true) :
    Uncut ds rs ↔ ∀ b ∈ rs.head?, b.isDigit = false := by
  refine ⟨fun h b hb => ?_, uncut_of_head⟩
  exact h _ (List.getLast?_eq_some_getLast hne) b hb (hd _ (List.getLast_mem hne))

theorem takeWhile_digits {ds rs : List Token} (hd : ∀ t ∈ ds, t.isDigit = true)
    (hr : ∀ b ∈ rs.head?, b.isDigit = false) : (ds ++ rs).takeWhile Token.isDigit = ds := by
  rw [List.takeWhile_append_of_pos hd]
  cases rs with
  | nil => simp
  | cons b bs => simp [hr b rfl]

theorem dropWhile_digits {ds rs : List Token} (hd : ∀ t ∈ ds, t.isDigit = true)
    (hr : ∀ b ∈ rs.head?, b.isDigit = false) : (ds ++ rs).dropWhile Token.isDigit = rs := by
  rw [List.dropWhile_append_of_pos hd]
  cases rs with
  | nil => rfl
  | cons b bs => simp [hr b rfl]

theorem all_takeWhile_digits (ts : List Token) : ∀ t ∈ ts.takeWhile Token.isDigit, t.isDigit = true :=
  List.all_eq_true.mp List.all_takeWhile

theorem head?_dropWhile_digits (ts : List Token) :
    ∀ b ∈ (ts.dropWhile Token.isDigit).head?, b.isDigit = false := by
  intro b hb
  have h := List.head?_dropWhile_not Token.isDigit ts
  rw [Option.mem_def.mp hb] at h
  exact h

theorem isDigit_eq_false_of_kind {t : Token} {k : Token.Kind} (h : t.kind = k) (hk : k ≠ .digit) :
    t.isDigit = false := by
  simpa [Token.isDigit, h] using hk

theorem isDigit_eq_false_of_operator {t : Token} {op : BinaryOp}
    (h : additive? t.kind = some op ∨ multiplicative? t.kind = some op) : t.isDigit = false := by
  cases hk : t.kind <;> simp_all [Token.isDigit, additive?, multiplicative?]

/-! ## The checker over a derivation -/

/-- The checker goes on behind tokens as after the operand `e`, unless a number in it is too
    large. -/
def Checks (ts : List Token) (e : Expr) : Prop :=
  ∀ groups rest, Uncut ts rest →
    (e.Fits → checkFrom .operand groups (ts ++ rest) = checkFrom .after groups rest) ∧
      (¬ e.Fits → ∃ p, checkFrom .operand groups (ts ++ rest) = .error (.placed .literalOverflow p))

theorem checkFrom_digits {d : Token} {ds rest : List Token} (hd : ∀ t ∈ d :: ds, t.isDigit = true)
    (hr : ∀ b ∈ rest.head?, b.isDigit = false) :
    checkFrom .operand groups (d :: ds ++ rest) =
      if numeral (d :: ds) > Expr.largest then .error (.placed .literalOverflow (some d.position))
      else checkFrom .after groups rest := by
  have hds : ∀ t ∈ ds, t.isDigit = true := fun t ht => hd t (List.mem_cons_of_mem d ht)
  have hk : d.kind = .digit := by simpa [Token.isDigit] using hd d List.mem_cons_self
  rw [List.cons_append, checkFrom_number hk, takeWhile_digits hds hr, dropWhile_digits hds hr]

theorem checks_digits {d : Token} {ds : List Token} (hd : ∀ t ∈ d :: ds, t.isDigit = true) :
    Checks (d :: ds) (.constant d.position (numeral (d :: ds))) := by
  intro groups rest hu
  rw [checkFrom_digits hd ((uncut_digits (by simp) hd).mp hu)]
  exact ⟨fun h => if_neg (Nat.not_lt_of_le h), fun h => ⟨_, if_pos (Nat.lt_of_not_le h)⟩⟩

theorem checks_group {first last : Token} {e : Expr} (hf : first.kind = .leftParen)
    (hl : last.kind = .rightParen) (h : Checks ts e) : Checks (first :: ts ++ [last]) e := by
  intro groups rest _
  have hu : Uncut ts (last :: rest) := uncut_of_not_digit (isDigit_eq_false_of_kind hl (by decide))
  obtain ⟨h1, h2⟩ := h (groups + 1) (last :: rest) hu
  rw [List.cons_append, List.cons_append, List.append_assoc, checkFrom_leftParen hf]
  exact ⟨fun he => (h1 he).trans (checkFrom_rightParen hl), h2⟩

theorem checks_operator {ls rs : List Token} {op : BinaryOp} {l r : Expr}
    (ho : additive? t.kind = some op ∨ multiplicative? t.kind = some op)
    (hl : Checks ls l) (hr : Checks rs r) : Checks (ls ++ t :: rs) (.binary op t.position l r) := by
  intro groups rest hu
  obtain ⟨hl, hl'⟩ := hl groups (t :: (rs ++ rest)) (uncut_of_not_digit (isDigit_eq_false_of_operator ho))
  obtain ⟨hr, hr'⟩ := hr groups rest hu.of_append.tail
  rw [List.append_assoc, List.cons_append]
  refine ⟨fun h => ?_, fun h => ?_⟩
  · rw [hl h.1, checkFrom_operator ho, hr h.2]
  · by_cases hlf : l.Fits
    · rw [hl hlf, checkFrom_operator ho]
      exact hr' fun hrf => h ⟨hlf, hrf⟩
    · exact hl' hlf

theorem Derives.checks {n : Nonterminal} {e : Expr} (h : Derives n ts e) : Checks ts e := by
  induction h with
  | number hd => exact checks_digits hd
  | integer _ ih => exact ih
  | negation hk _ ih =>
    intro groups rest hu
    rw [List.cons_append, checkFrom_minus hk]
    exact ih groups rest hu.tail
  | group hf _ hl ih => exact checks_group hf hl ih
  | factor _ ih => exact ih
  | product _ ho _ ihl ihr => exact checks_operator (.inr ho) ihl ihr
  | term _ ih => exact ih
  | sum _ ho _ ihl ihr => exact checks_operator (.inl ho) ihl ihr

/-- The checker accepts what is derived, or refuses it for a number that does not fit. -/
theorem Derives.check_cases {n : Nonterminal} {e : Expr} (h : Derives n ts e) :
    (e.Fits ∧ check ts = .ok ()) ∨
      (¬ e.Fits ∧ ∃ p, check ts = .error (.placed .literalOverflow p)) := by
  obtain ⟨h1, h2⟩ := h.checks 0 [] (uncut_nil ts)
  rw [List.append_nil] at h1 h2
  by_cases hf : e.Fits
  · exact Or.inl ⟨hf, (h1 hf).trans checkFrom_after_nil⟩
  · exact Or.inr ⟨hf, h2 hf⟩

/-- Whether the numbers of a tree fit is decided by its tokens. -/
theorem Derives.fits_iff {n : Nonterminal} {e : Expr} (h : Derives n ts e) :
    e.Fits ↔ check ts = .ok () := by
  rcases h.check_cases with ⟨hf, hc⟩ | ⟨hf, p, hc⟩
  · exact iff_of_true hf hc
  · exact iff_of_false hf (by simp [hc])

/-! # Ways of the checker -/

/-- `Reaches m g ts m' g'`: over `ts` the checker moves from mode `m` with `g` groups open to
    mode `m'` with `g'` groups open. -/
inductive Reaches : Mode → Nat → List Token → Mode → Nat → Prop
  | stay {m : Mode} {g : Nat} : Reaches m g [] m g
  | number {d : Token} {ds ts : List Token} {m : Mode} {g g' : Nat} :
      (∀ t ∈ d :: ds, t.isDigit = true) → (∀ t ∈ ts.head?, t.isDigit = false) →
      numeral (d :: ds) ≤ Expr.largest → Reaches .after g ts m g' →
      Reaches .operand g (d :: ds ++ ts) m g'
  | minus {t : Token} {ts : List Token} {m : Mode} {g g' : Nat} : t.kind = .minus →
      Reaches .operand g ts m g' → Reaches .operand g (t :: ts) m g'
  | leftParen {t : Token} {ts : List Token} {m : Mode} {g g' : Nat} : t.kind = .leftParen →
      Reaches .operand (g + 1) ts m g' → Reaches .operand g (t :: ts) m g'
  | operator {t : Token} {ts : List Token} {op : BinaryOp} {m : Mode} {g g' : Nat} :
      additive? t.kind = some op ∨ multiplicative? t.kind = some op →
      Reaches .operand g ts m g' → Reaches .after g (t :: ts) m g'
  | rightParen {t : Token} {ts : List Token} {m : Mode} {g g' : Nat} : t.kind = .rightParen →
      Reaches .after g ts m g' → Reaches .after (g + 1) (t :: ts) m g'

/-- `Stuck m g ts e`: in mode `m` with `g` groups open the checker refuses the front of `ts`. -/
inductive Stuck : Mode → Nat → List Token → ParseError → Prop
  | ended {m : Mode} {g : Nat} : m = .operand ∨ g ≠ 0 → Stuck m g [] .unexpectedEof
  | token {m : Mode} {g : Nat} {t : Token} {ts : List Token} {cause : ParseError.Cause} :
      cause ≠ .literalOverflow → checkFrom m g [t] = .error (.placed cause (some t.position)) →
      Stuck m g (t :: ts) (.placed cause (some t.position))
  | number {d : Token} {ds ts : List Token} {g : Nat} : (∀ t ∈ d :: ds, t.isDigit = true) →
      (∀ t ∈ ts.head?, t.isDigit = false) → numeral (d :: ds) > Expr.largest →
      Stuck .operand g (d :: ds ++ ts) (.placed .literalOverflow (some d.position))

/-! ## Going on behind a way -/

theorem head?_append_digits {ls rs : List Token} (hl : ∀ t ∈ ls.head?, t.isDigit = false)
    (hr : ls = [] → ∀ t ∈ rs.head?, t.isDigit = false) :
    ∀ t ∈ (ls ++ rs).head?, t.isDigit = false := by
  cases ls with
  | nil => exact hr rfl
  | cons => exact hl

theorem Reaches.checkFrom {m m' : Mode} {g g' : Nat} {ts rest : List Token} (h : Reaches m g ts m' g')
    (hu : Uncut ts rest) : Grammar.checkFrom m g (ts ++ rest) = Grammar.checkFrom m' g' rest := by
  induction h with
  | stay => rfl
  | @number d ds ts m g g' hd ht hle _ ih =>
    have hr : ∀ t ∈ (ts ++ rest).head?, t.isDigit = false := by
      refine head?_append_digits ht fun hts => ?_
      rw [hts, List.append_nil] at hu
      exact (uncut_digits (by simp) hd).mp hu
    rw [List.append_assoc, checkFrom_digits hd hr, if_neg (Nat.not_lt_of_le hle), ih hu.of_append]
  | minus hk _ ih => rw [List.cons_append, checkFrom_minus hk, ih hu.tail]
  | leftParen hk _ ih => rw [List.cons_append, checkFrom_leftParen hk, ih hu.tail]
  | operator ho _ ih => rw [List.cons_append, checkFrom_operator ho, ih hu.tail]
  | rightParen hk _ ih => rw [List.cons_append, checkFrom_rightParen hk, ih hu.tail]

/-- An operand comes next only where no number has just ended. -/
theorem Reaches.getLast?_of_operand {m m' : Mode} {g g' : Nat} {ts : List Token}
    (h : Reaches m g ts m' g') (hm : m' = .operand) : ∀ t ∈ ts.getLast?, t.isDigit = false := by
  have hcons : ∀ {t : Token} {ts : List Token}, t.isDigit = false →
      (∀ u ∈ ts.getLast?, u.isDigit = false) → ∀ u ∈ (t :: ts).getLast?, u.isDigit = false := by
    intro t ts ht hts u hu
    rw [List.getLast?_cons] at hu
    cases hl : ts.getLast? with
    | none => simp_all
    | some v => simp_all
  induction h with
  | stay => simp
  | @number d ds ts m g g' _ _ _ h ih =>
    have hne : ts ≠ [] := by
      rintro rfl
      cases h
      cases hm
    rw [List.getLast?_append, List.getLast?_eq_some_getLast hne]
    simpa [List.getLast?_eq_some_getLast hne] using ih hm
  | minus hk _ ih | leftParen hk _ ih | rightParen hk _ ih =>
    exact hcons (isDigit_eq_false_of_kind hk (by decide)) (ih hm)
  | operator ho _ ih => exact hcons (isDigit_eq_false_of_operator ho) (ih hm)

/-! ## Where the checker refuses -/

def StuckBehind (m : Mode) (g : Nat) (ts : List Token) (e : ParseError) : Prop :=
  ∃ pre post m' g', ts = pre ++ post ∧ Reaches m g pre m' g' ∧ Uncut pre post ∧ Stuck m' g' post e

theorem Stuck.here {m : Mode} {g : Nat} {ts : List Token} {e : ParseError} (h : Stuck m g ts e) :
    StuckBehind m g ts e :=
  ⟨[], ts, m, g, rfl, .stay, by simp [Uncut], h⟩

/-- A move over one token leads to where the checker is stuck behind it. -/
theorem StuckBehind.cons {m m' : Mode} {g g' : Nat} {t : Token} {ts : List Token} {e : ParseError}
    (ht : t.isDigit = false) (h : StuckBehind m' g' ts e)
    (hmove : ∀ {us m'' g''}, Reaches m' g' us m'' g'' → Reaches m g (t :: us) m'' g'') :
    StuckBehind m g (t :: ts) e := by
  obtain ⟨pre, post, m'', g'', rfl, hr, hu, hs⟩ := h
  exact ⟨t :: pre, post, m'', g'', rfl, hmove hr, uncut_cons ht hu, hs⟩

theorem StuckBehind.number {g : Nat} {d : Token} {ds ts : List Token} {e : ParseError}
    (hd : ∀ t ∈ d :: ds, t.isDigit = true) (ht : ∀ t ∈ ts.head?, t.isDigit = false)
    (hle : numeral (d :: ds) ≤ Expr.largest) (h : StuckBehind .after g ts e) :
    StuckBehind .operand g (d :: ds ++ ts) e := by
  obtain ⟨pre, post, m', g', rfl, hr, hu, hs⟩ := h
  have hpre : ∀ t ∈ pre.head?, t.isDigit = false := by
    cases pre with
    | nil => simp
    | cons => exact ht
  refine ⟨d :: ds ++ pre, post, m', g', (List.append_assoc ..).symm, .number hd hpre hle hr, ?_, hs⟩
  by_cases hne : pre = []
  · rw [hne] at ht
    exact uncut_of_head ht
  · exact (uncut_append_iff hne).mpr hu

theorem checkFrom_error {m : Mode} {g : Nat} {ts : List Token} {e : ParseError}
    (h : checkFrom m g ts = .error e) : StuckBehind m g ts e := by
  have hoperator {g : Nat} {t : Token} {ts : List Token} {op : BinaryOp}
      (ho : additive? t.kind = some op ∨ multiplicative? t.kind = some op)
      (h : StuckBehind .operand g ts e) : StuckBehind .after g (t :: ts) e :=
    h.cons (isDigit_eq_false_of_operator ho) (.operator ho)
  -- the branches of the checker in their order: 1 to 6 wait for an operand, 7 to 17 are after one
  fun_induction checkFrom m g ts with
  | case1 => cases h; exact (Stuck.ended (.inl rfl)).here
  | case2 g t ts hk hgt =>
    cases h
    have hd : ∀ u ∈ t :: ts.takeWhile Token.isDigit, u.isDigit = true :=
      List.forall_mem_cons.mpr ⟨by simp [Token.isDigit, hk], all_takeWhile_digits ts⟩
    have hs := Stuck.number (g := g) hd (head?_dropWhile_digits ts) hgt
    rw [List.cons_append, List.takeWhile_append_dropWhile] at hs
    exact hs.here
  | case3 g t ts hk hle ih =>
    have hd : ∀ u ∈ t :: ts.takeWhile Token.isDigit, u.isDigit = true :=
      List.forall_mem_cons.mpr ⟨by simp [Token.isDigit, hk], all_takeWhile_digits ts⟩
    have hs := StuckBehind.number hd (head?_dropWhile_digits ts) (Nat.le_of_not_lt hle) (ih h)
    rwa [List.cons_append, List.takeWhile_append_dropWhile] at hs
  | case4 g t ts hk ih => exact (ih h).cons (isDigit_eq_false_of_kind hk (by decide)) (.minus hk)
  | case5 g t ts hk ih => exact (ih h).cons (isDigit_eq_false_of_kind hk (by decide)) (.leftParen hk)
  | case6 g t ts h0 h1 h2 =>
    cases h
    exact (Stuck.token (by decide) (checkFrom_expected h0 h1 h2)).here
  | case7 => cases h
  | case8 g hg => cases h; exact (Stuck.ended (.inr hg)).here
  | case9 g t ts hk ih => exact hoperator (.inl (by rw [hk]; rfl)) (ih h)
  | case10 g t ts hk ih => exact hoperator (.inl (by rw [hk]; rfl)) (ih h)
  | case11 g t ts hk ih => exact hoperator (.inr (by rw [hk]; rfl)) (ih h)
  | case12 g t ts hk ih => exact hoperator (.inr (by rw [hk]; rfl)) (ih h)
  | case13 g t ts hk =>
    cases h
    exact (Stuck.token (by decide) (checkFrom_unrecognized hk)).here
  | case14 t ts hk =>
    cases h
    exact (Stuck.token (by decide) (by rw [checkFrom_after_cons, hk])).here
  | case15 t ts hk g ih => exact (ih h).cons (isDigit_eq_false_of_kind hk (by decide)) (.rightParen hk)
  | case16 t ts h1 h2 h3 h4 h5 h6 =>
    cases h
    exact (Stuck.token (by decide) (by rw [checkFrom_after_cons]; split <;> simp_all)).here
  | case17 g t ts hg h1 h2 h3 h4 h5 h6 =>
    cases h
    exact (Stuck.token (by decide) (by rw [checkFrom_after_cons]; split <;> simp_all)).here

/-! ## Ends -/

def closing (g : Nat) : List Token := List.replicate g ⟨.rightParen, ")", 0⟩

def completion : Mode → Nat → List Token
  | .operand, g => ⟨.digit, "0", 0⟩ :: closing g
  | .after, g => closing g

theorem head?_closing (g : Nat) : ∀ t ∈ (closing g).head?, t.isDigit = false := by
  cases g <;> simp [closing, List.replicate_succ, Token.isDigit]

theorem checkFrom_closing (g : Nat) : checkFrom .after g (closing g) = .ok () := by
  induction g with
  | zero => exact checkFrom_after_nil
  | succ g ih => exact (checkFrom_rightParen rfl).trans ih

theorem checkFrom_completion (m : Mode) (g : Nat) : checkFrom m g (completion m g) = .ok () := by
  cases m with
  | operand =>
    have hd : ∀ t ∈ [(⟨.digit, "0", 0⟩ : Token)], t.isDigit = true := by simp [Token.isDigit]
    rw [show completion .operand g = [⟨.digit, "0", 0⟩] ++ closing g from rfl,
      checkFrom_digits hd (head?_closing g), if_neg (by decide), checkFrom_closing]
  | after => exact checkFrom_closing g

/-- Every way from the beginning can be ended. -/
theorem Reaches.completed {m : Mode} {g : Nat} {ts : List Token} (h : Reaches .operand 0 ts m g) :
    check (ts ++ completion m g) = .ok () := by
  have hu : Uncut ts (completion m g) := by
    cases m with
    | operand =>
      intro a ha _ _ hda
      rw [h.getLast?_of_operand rfl a ha] at hda
      cases hda
    | after => exact uncut_of_head (head?_closing g)
  rw [check, h.checkFrom hu, checkFrom_completion]

end Abacus.Grammar
