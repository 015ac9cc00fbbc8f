/-
  Abacus.Proofs.Parse.Viable — errors are reported at the earliest token, and at one of the text.

  Tokens are viable if some continuation of them is accepted (`Viable`).

  - `not_viable_of_refused`: what is refused at a token stays refused however the tokens go on,
    so it is not viable.
  - `viable_of_reaches`: the tokens that the checker goes over are viable.
  - `ofText_refused_earliest`: so a text is refused at the first token with which it is not
    viable any more, and for having ended only where it is viable and not accepted.
  - `Fails.standsIn` / `readWhole_standsIn`: a production that refuses its tokens names a cause,
    and no other place than that of one of them, whatever the digits among them are worth; so
    does the parser for a whole list of tokens, also with a limit.
  - `ofText_valued_or_placed`: a text whose parsing goes right has a tree, that tree has a value
    in binary64 numbers, and any other text is refused; nothing else becomes of a text.
-/

import Abacus.Proofs.Evaluation.Structural
import Abacus.Proofs.Grammar.Checking
import Abacus.Proofs.Parse.Lookahead

namespace Abacus.Parse

/-! # The earliest token -/

open Grammar

def Accepted (ts : List Token) : Prop := ∃ e, readWhole none ts = .ok e

def Viable (ts : List Token) : Prop := ∃ more, Accepted (ts ++ more)

/-! ## What is refused at a token -/

theorem not_viable_of_refused {ts : List Token} {err : ParseError}
    (h : readWhole none ts = .error (.refused err)) (he : err ≠ .unexpectedEof) : ¬ Viable ts := by
  rintro ⟨more, e, haccepted⟩
  rw [readWhole_append_refused h he more] at haccepted
  cases haccepted

/-! ## What the checker goes over -/

theorem decimal_completion (m : Mode) (g : Nat) : ∀ t ∈ completion m g, t.Decimal := by
  have hclose : ∀ t ∈ closing g, t.Decimal := by
    intro t ht hd
    rw [(List.mem_replicate.mp ht).2] at hd
    cases hd
  cases m with
  | operand => exact List.forall_mem_cons.mpr ⟨fun _ => ⟨0, by decide, rfl⟩, hclose⟩
  | after => exact hclose

theorem accepted_iff_check {ts : List Token} (hw : ∀ t ∈ ts, t.Decimal) :
    Accepted ts ↔ check ts = .ok () := by
  unfold Accepted
  rcases readWhole_cases hw with ⟨e, hr, hc⟩ | ⟨err, hr, hc⟩
  · simp [hr, hc]
  · simp [hr, hc]

theorem viable_of_reaches {ts : List Token} {m : Mode} {g : Nat} (hw : ∀ t ∈ ts, t.Decimal)
    (h : Reaches .operand 0 ts m g) : Viable ts := by
  have hall : ∀ t ∈ ts ++ completion m g, t.Decimal :=
    List.forall_mem_append.mpr ⟨hw, decimal_completion m g⟩
  exact ⟨completion m g, (accepted_iff_check hall).mpr h.completed⟩

theorem not_viable_of_check {ts : List Token} {err : ParseError} (hw : ∀ t ∈ ts, t.Decimal)
    (h : check ts = .error err) (he : err ≠ .unexpectedEof) : ¬ Viable ts :=
  not_viable_of_refused ((readWhole_eq_error_iff hw).mpr h) he

/-! ## The earliest token -/

/-- The token at which decimal tokens are refused is the first with which they are not viable. -/
theorem earliest_of_token {ts : List Token} {cause : ParseError.Cause} {p : Option Int}
    (hw : ∀ t ∈ ts, t.Decimal) (h : check ts = .error (.placed cause p))
    (hc : cause ≠ .literalOverflow) : ∃ pre t post, ts = pre ++ t :: post ∧ p = some t.position ∧
      Viable pre ∧ ¬ Viable (pre ++ [t]) := by
  obtain ⟨pre, post, m, g, rfl, hr, hu, hs⟩ := checkFrom_error h
  cases hs with
  | @token _ _ t post _ _ ht =>
    refine ⟨pre, t, post, rfl, rfl, viable_of_reaches (List.forall_mem_append.mp hw).1 hr, ?_⟩
    have hcheck : check (pre ++ [t]) = .error (.placed cause (some t.position)) :=
      (hr.checkFrom hu.front).trans ht
    obtain ⟨hpre, hpost⟩ := List.forall_mem_append.mp hw
    refine not_viable_of_check (List.forall_mem_append.mpr ⟨hpre, ?_⟩) hcheck (by simp)
    exact List.forall_mem_singleton.mpr (List.forall_mem_cons.mp hpost).1
  | number => exact absurd rfl hc

/-- The number for which decimal tokens are refused is the first with which they are not
    viable. It begins behind a token that is no digit and goes on as far as the digits do. -/
theorem earliest_of_number {ts : List Token} {p : Option Int} (hw : ∀ t ∈ ts, t.Decimal)
    (h : check ts = .error (.placed .literalOverflow p)) :
    ∃ pre d ds post, ts = pre ++ (d :: ds ++ post) ∧ p = some d.position ∧
      ((∀ t ∈ d :: ds, t.isDigit = true) ∧ (∀ t ∈ pre.getLast?, t.isDigit = false) ∧
        ∀ t ∈ post.head?, t.isDigit = false) ∧
      Viable pre ∧ ¬ Viable (pre ++ d :: ds) := by
  obtain ⟨pre, post, m, g, rfl, hr, hu, hs⟩ := checkFrom_error h
  cases hs with
  | token hc => exact absurd rfl hc
  | @number d ds post _ hd hp hgt =>
    have hlast := hr.getLast?_of_operand rfl
    refine ⟨pre, d, ds, post, rfl, rfl, ⟨hd, hlast, hp⟩,
      viable_of_reaches (List.forall_mem_append.mp hw).1 hr, ?_⟩
    have hcheck : check (pre ++ d :: ds) = .error (.placed .literalOverflow (some d.position)) := by
      have hnum := @checkFrom_digits g d ds [] hd (by simp)
      rw [List.append_nil, if_pos hgt] at hnum
      exact (hr.checkFrom hu.front).trans hnum
    obtain ⟨hpre, hpost⟩ := List.forall_mem_append.mp hw
    refine not_viable_of_check (List.forall_mem_append.mpr ⟨hpre, ?_⟩) hcheck (by simp)
    exact (List.forall_mem_append.mp hpost).1

/-- Decimal tokens end too early exactly if they are viable and not accepted. -/
theorem check_eq_unexpectedEof_iff {ts : List Token} (hw : ∀ t ∈ ts, t.Decimal) :
    check ts = .error .unexpectedEof ↔ Viable ts ∧ ¬ Accepted ts := by
  rw [accepted_iff_check hw]
  constructor
  · intro h
    obtain ⟨pre, post, m, g, rfl, hr, -, hs⟩ := checkFrom_error h
    cases hs
    rw [List.append_nil] at hw h ⊢
    exact ⟨viable_of_reaches hw hr, by simp [h]⟩
  · rintro ⟨hv, hna⟩
    rcases hc : check ts with err | u
    · by_cases he : err = .unexpectedEof
      · rw [he]
      · exact absurd hv (not_viable_of_check hw hc he)
    · exact absurd hc hna

/-- A limit changes what becomes of a text only to being too deep. -/
theorem ofText_or_deep (limit : Limit) (text : String) :
    Expr.ofText limit text = .error (.refused .nestingTooDeep) ∨
      Expr.ofText limit text = Expr.ofText none text := by
  simp only [ofText_eq_readWhole, readWhole]
  rcases run_outcome_or_deep limit (Token.scan text) with h | h
  · exact Or.inl (by rw [h]; rfl)
  · exact Or.inr (by rw [h])

/-- A text has a tree or is refused; it is never at fault in another way. -/
theorem ofText_ok_or_refused (limit : Limit) (text : String) :
    (∃ e, Expr.ofText limit text = .ok e) ∨ ∃ err, Expr.ofText limit text = .error (.refused err) := by
  rcases ofText_or_deep limit text with hdeep | hnone
  · exact Or.inr ⟨_, hdeep⟩
  · rw [hnone, ofText_eq_readWhole]
    rcases readWhole_cases fun _ (ht : _ ∈ Token.scan text) => Token.decimal_of_mem_scan ht with
      ⟨e, hr, -⟩ | ⟨err, hr, -⟩
    · exact Or.inl ⟨e, hr⟩
    · exact Or.inr ⟨err, hr⟩

theorem ofText_none_eq_error_iff {text : String} {err : ParseError} :
    Expr.ofText none text = .error (.refused err) ↔ check (Token.scan text) = .error err :=
  readWhole_eq_error_iff fun _ => Token.decimal_of_mem_scan

theorem check_of_ofText_eq_error {limit : Limit} {text : String} {err : ParseError}
    (h : Expr.ofText limit text = .error (.refused err)) (he : err ≠ .nestingTooDeep) :
    check (Token.scan text) = .error err := by
  rcases ofText_or_deep limit text with hdeep | hnone
  · rw [hdeep] at h
    cases h
    exact absurd rfl he
  · exact ofText_none_eq_error_iff.mp (hnone ▸ h)

theorem ofText_refused_earliest (limit : Limit) (text : String) :
    (∀ cause p, cause ≠ .literalOverflow → Expr.ofText limit text = .error (.refused (.placed cause p)) →
      ∃ pre t post, Token.scan text = pre ++ t :: post ∧ p = some t.position ∧
        Viable pre ∧ ¬ Viable (pre ++ [t])) ∧
    (∀ p, Expr.ofText limit text = .error (.refused (.placed .literalOverflow p)) →
      ∃ pre d ds post, Token.scan text = pre ++ (d :: ds ++ post) ∧ p = some d.position ∧
        ((∀ t ∈ d :: ds, t.isDigit = true) ∧ (∀ t ∈ pre.getLast?, t.isDigit = false) ∧
          ∀ t ∈ post.head?, t.isDigit = false) ∧
        Viable pre ∧ ¬ Viable (pre ++ d :: ds)) ∧
    (Expr.ofText limit text = .error (.refused .unexpectedEof) ↔
      (Viable (Token.scan text) ∧ ¬ Accepted (Token.scan text)) ∧
        Expr.ofText limit text ≠ .error (.refused .nestingTooDeep)) ∧
    (Expr.ofText none text = .error (.refused .unexpectedEof) ↔
      Viable (Token.scan text) ∧ ¬ Accepted (Token.scan text)) := by
  have hw : ∀ t ∈ Token.scan text, t.Decimal := fun _ => Token.decimal_of_mem_scan
  have hnone : Expr.ofText none text = .error (.refused .unexpectedEof) ↔
      Viable (Token.scan text) ∧ ¬ Accepted (Token.scan text) :=
    ofText_none_eq_error_iff.trans (check_eq_unexpectedEof_iff hw)
  refine ⟨?_, ?_, ?_, hnone⟩
  · intro cause p hc h
    exact earliest_of_token hw (check_of_ofText_eq_error h (by simp)) hc
  · intro p h
    exact earliest_of_number hw (check_of_ofText_eq_error h (by simp))
  · constructor
    · intro h
      refine ⟨(check_eq_unexpectedEof_iff hw).mp (check_of_ofText_eq_error h (by simp)), ?_⟩
      rw [h]; simp
    · rintro ⟨hv, hdeep⟩
      rcases ofText_or_deep limit text with h | h
      · exact absurd h hdeep
      · rw [h]; exact hnone.mpr hv

/-- In `2*(1?2` nothing helps from the question mark on, and in the second text nothing helps
    the number; the third has ended too early. -/
theorem refused_earliest_stranger_number_end :
    (∃ pre t post, Token.scan "2*(1?2" = pre ++ t :: post ∧ some 4 = some t.position ∧
      Viable pre ∧ ¬ Viable (pre ++ [t])) ∧
    (∃ pre d ds post, Token.scan "1-99999999999999999999" = pre ++ (d :: ds ++ post) ∧
      some 2 = some d.position ∧
      ((∀ t ∈ d :: ds, t.isDigit = true) ∧ (∀ t ∈ pre.getLast?, t.isDigit = false) ∧
        ∀ t ∈ post.head?, t.isDigit = false) ∧
      Viable pre ∧ ¬ Viable (pre ++ d :: ds)) ∧
    Viable (Token.scan "1+") ∧ ¬ Accepted (Token.scan "1+") :=
  ⟨(ofText_refused_earliest none "2*(1?2").1 .invalidToken (some 4) (by decide) rfl,
    (ofText_refused_earliest none "1-99999999999999999999").2.1 (some 2) rfl,
    (ofText_refused_earliest none "1+").2.2.2.mp rfl⟩

end Abacus.Parse

/-! # The place of a refusal -/

namespace Abacus

/-- The refusal has a cause, and if it has a place, then that of one of the tokens. -/
def ParseError.StandsIn (ts : List Token) : ParseError → Prop
  | .unexpectedEof | .nestingTooDeep => True
  | .placed cause position => cause ≠ .unspecified ∧ ∃ t ∈ ts, position = some t.position

theorem ParseError.StandsIn.mono {ts us : List Token} {err : ParseError} (h : err.StandsIn ts)
    (hs : ts ⊆ us) : err.StandsIn us := by
  cases err with
  | unexpectedEof | nestingTooDeep => trivial
  | placed cause position =>
    obtain ⟨hc, t, ht, hp⟩ := h
    exact ⟨hc, t, hs ht, hp⟩

/-- A token stands at a character that is not blank. -/
theorem Token.exists_char_of_mem_scanFrom {t : Token} {p : Nat} {cs : List Char}
    (h : t ∈ scanFrom p cs) :
    ∃ (i : Nat) (c : Char), cs[i]? = some c ∧ isBlank c = false ∧ t.position = p + i := by
  induction cs generalizing p with
  | nil => cases h
  | cons c cs ih =>
    have hbehind (ht : t ∈ scanFrom (p + 1) cs) : ∃ (i : Nat) (d : Char),
        (c :: cs)[i]? = some d ∧ isBlank d = false ∧ t.position = p + i := by
      obtain ⟨i, d, hi, hd, hp⟩ := ih ht
      refine ⟨i + 1, d, hi, hd, ?_⟩
      omega
    rw [scanFrom] at h
    by_cases hc : isBlank c = true
    · rw [if_pos hc] at h
      exact hbehind h
    · rw [if_neg hc] at h
      rcases List.mem_cons.mp h with rfl | ht
      · exact ⟨0, c, rfl, eq_false_of_ne_true hc, by simp⟩
      · exact hbehind ht

namespace Parse

/-! ## Refusals of productions -/

/-- A number is refused at its first digit. -/
theorem numberNode_standsIn {d : Token} {ds : List Token} {err : ParseError}
    (h : numberNode d ds = .error (.refused err)) : err.StandsIn [d] := by
  rcases numberNode_error h with hr | ⟨x, hx⟩
  · rcases readDigits_error hr with he | ⟨x, hx⟩
    · obtain rfl := Failure.refused.inj he
      exact ⟨by decide, d, List.mem_singleton.mpr rfl, rfl⟩
    · cases hx
  · cases hx

theorem number?_standsIn {ts : List Token} {err : ParseError}
    (h : number? ts = some (.error (.refused err))) : err.StandsIn ts := by
  obtain ⟨d, us, rfl, -, hr⟩ := number?_eq_some h
  rcases hn : numberNode d (us.takeWhile Token.isDigit) with f | e
  · rw [hn] at hr
    obtain rfl := Except.error.inj hr
    exact (numberNode_standsIn hn).mono (List.cons_subset_cons d (List.nil_subset us))
  · rw [hn] at hr
    cases hr

/-- The token behind what a production takes. -/
theorem Takes.mem_of_cons {n : Grammar.Nonterminal} {t : Token} {ts us : List Token} {e : Expr}
    (h : Takes n ts e (t :: us)) : t ∈ ts :=
  h.suffix.1.subset List.mem_cons_self

theorem Fails.standsIn {n : Grammar.Nonterminal} {ts : List Token} {f : Failure}
    (h : Fails n ts f) : ∀ err, f = .refused err → err.StandsIn ts := by
  induction h with
  | number h =>
    rintro err rfl
    exact number?_standsIn h
  | integer _ ih | operand _ _ ih => exact ih
  | ended | unclosed =>
    rintro err ⟨⟩
    trivial
  | expected =>
    rintro err ⟨⟩
    exact ⟨by decide, _, List.mem_cons_self, rfl⟩
  | negation _ _ ih | group _ _ ih =>
    intro err he
    exact (ih err he).mono (List.subset_cons_self _ _)
  | misclosed _ ht _ =>
    rintro err ⟨⟩
    exact ⟨by decide, _, List.mem_cons_of_mem _ ht.mem_of_cons, rfl⟩
  | stranger _ ht _ =>
    rintro err ⟨⟩
    exact ⟨by decide, _, ht.mem_of_cons, rfl⟩
  | tail _ ht _ _ ih =>
    intro err he
    exact (ih err he).mono (List.Subset.trans (List.subset_cons_self _ _) ht.suffix.1.subset)

/-! ## Refusals of whole lists and texts -/

theorem readWhole_standsIn {limit : Limit} {ts : List Token} {err : ParseError}
    (h : readWhole limit ts = .error (.refused err)) : err.StandsIn ts := by
  rcases run_outcome_or_deep limit ts with hdeep | hnone
  · rw [readWhole, hdeep] at h
    obtain rfl := Failure.refused.inj (Except.error.inj h)
    trivial
  · have hsame : readWhole none ts = .error (.refused err) := by
      rw [← h, readWhole, readWhole, hnone]
    rcases takes_or_fails (n := .expression) (by simp) ts with ⟨e, rest, ht⟩ | ⟨f, hf⟩
    · rw [ht.readWhole] at hsame
      rcases rest with _ | ⟨t, us⟩
      · cases hsame
      · obtain rfl := Failure.refused.inj (Except.error.inj hsame)
        exact ⟨by decide, t, ht.mem_of_cons, rfl⟩
    · rw [hf.readWhole] at hsame
      exact hf.standsIn err (Except.error.inj hsame)

/-- The refusal has a cause, and if it has a place, then it is where a character of the text
    stands that is not blank. -/
theorem ofText_placed {limit : Limit} {text : String} {err : ParseError}
    (h : Expr.ofText limit text = .error (.refused err)) :
    err = .unexpectedEof ∨ err = .nestingTooDeep ∨
      ∃ (cause : ParseError.Cause) (i : Nat) (c : Char), err = .placed cause (some i) ∧
        cause ≠ .unspecified ∧ text.toList[i]? = some c ∧ Token.isBlank c = false := by
  have hs := readWhole_standsIn (ofText_eq_readWhole limit text ▸ h)
  cases err with
  | unexpectedEof => exact .inl rfl
  | nestingTooDeep => exact .inr (.inl rfl)
  | placed cause position =>
    obtain ⟨hc, t, ht, rfl⟩ := hs
    obtain ⟨i, c, hi, hb, hp⟩ := Token.exists_char_of_mem_scanFrom ht
    refine .inr (.inr ⟨cause, i, c, ?_, hc, hi, hb⟩)
    rw [hp, Int.natCast_zero, Int.zero_add]

theorem ofText_valued_or_placed (limit : Limit) (text : String) :
    (∃ e, Expr.ofText limit text = .ok e ∧ e.NoStray ∧ e.Fits ∧
      ∀ tracing, (e.evaluate tracing).outcome = .ok (Operations.ieee.value e)) ∨
    ∃ err, Expr.ofText limit text = .error (.refused err) ∧
      (err = .unexpectedEof ∨ err = .nestingTooDeep ∨
        ∃ (cause : ParseError.Cause) (i : Nat) (c : Char), err = .placed cause (some i) ∧
          cause ≠ .unspecified ∧ text.toList[i]? = some c ∧ Token.isBlank c = false) := by
  rcases ofText_ok_or_refused limit text with ⟨e, he⟩ | ⟨err, herr⟩
  · obtain ⟨hd, hf⟩ := derives_of_ofText he
    refine .inl ⟨e, he, hd.noStray, hf, ?_⟩
    intro tracing
    exact Expr.value_eq_ok hd.noStray hf
  · exact .inr ⟨err, herr, ofText_placed herr⟩

end Parse

end Abacus
