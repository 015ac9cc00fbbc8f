/-
  Abacus.Proofs.Parse.Relabelling — where tokens stand does not matter.

  The parser reads the classes of tokens and the lexemes of digits. Positions it only copies,
  into trees and into errors.

  - `respects_production`: a production on tokens moved to other places takes the same steps,
    as deep, and ends in the same way, but for the places.
  - `run_relabel` / `readWhole_relabel`: so does a parse, of the front of the tokens or of all
    of them, under any limit.
  - `run_of_relabelled` / `readWhole_of_relabelled`: tokens that stand elsewhere give the outcome
    that stands there.
  - `layout_irrelevant`: so tokens that stand elsewhere give the tree or the error that stands
    there; and of two texts that differ in blanks only, both have a tree or neither has, the
    trees are equal up to positions and have one value, and the errors are of one kind.
-/

import Mathlib.Data.List.Forall2
import Abacus.Proofs.Evaluation.Structural
import Abacus.Proofs.Expr.Line
import Abacus.Proofs.Parse.Depth
import Abacus.Proofs.Parse.Viable
import Abacus.Proofs.Token.Scanner

namespace Abacus

/-! ## Other places -/

def ParseError.mapPosition (f : Int → Int) : ParseError → ParseError
  | .placed cause position => .placed cause (position.map f)
  | .unexpectedEof => .unexpectedEof
  | .nestingTooDeep => .nestingTooDeep

theorem ParseError.name_mapPosition (f : Int → Int) (e : ParseError) :
    (e.mapPosition f).name = e.name := by
  cases e <;> rfl

theorem Expr.Alike.value_eq {e e' : Expr} (h : e.Alike e') : e.value = e'.value := by
  rw [← Expr.value_mapPositions (fun _ => 0) e, h, Expr.value_mapPositions]

namespace Token

/-- `u` is `t` at another place. Only a digit has to keep its lexeme. -/
structure Relabelled (f : Int → Int) (t u : Token) : Prop where
  kind : u.kind = t.kind
  position : u.position = f t.position
  lexeme : t.isDigit = true → u.lexeme = t.lexeme

/-- The token at another place, with no lexeme but that of a digit. -/
def relabel (f : Int → Int) (t : Token) : Token :=
  ⟨t.kind, if t.isDigit then t.lexeme else "", f t.position⟩

theorem worth_relabel (f : Int → Int) {t : Token} (h : t.isDigit = true) :
    (t.relabel f).worth = t.worth := by
  unfold worth relabel
  rw [if_pos h]

theorem relabel_eq_of_relabelled {f : Int → Int} {t u : Token} (h : Relabelled f t u) :
    u.relabel id = t.relabel f := by
  have hd : u.isDigit = t.isDigit := by simp only [isDigit, h.kind]
  unfold relabel
  rw [h.kind, hd, h.position]
  by_cases ht : t.isDigit = true
  · rw [if_pos ht, if_pos ht, h.lexeme ht]
    rfl
  · rw [if_neg ht, if_neg ht]
    rfl

theorem map_relabel_of_relabelled {f : Int → Int} {ts us : List Token}
    (h : List.Forall₂ (Relabelled f) ts us) : us.map (relabel id) = ts.map (relabel f) := by
  induction h with
  | nil => rfl
  | cons h _ ih => rw [List.map_cons, List.map_cons, relabel_eq_of_relabelled h, ih]

theorem takeWhile_relabel (f : Int → Int) (ts : List Token) :
    (ts.map (relabel f)).takeWhile isDigit = (ts.takeWhile isDigit).map (relabel f) :=
  List.takeWhile_map ..

theorem dropWhile_relabel (f : Int → Int) (ts : List Token) :
    (ts.map (relabel f)).dropWhile isDigit = (ts.dropWhile isDigit).map (relabel f) :=
  List.dropWhile_map ..

end Token

namespace Parse

open Grammar (Nonterminal additive? multiplicative?)

variable {α β γ δ : Type} (f : Int → Int)

def Failure.mapPosition : Failure → Failure
  | .refused e => .refused (e.mapPosition f)
  | .tree x => .tree x
  | .digit x => .digit x

def Event.mapPosition : Event → Event
  | .integer value position => .integer value (f position)
  | .negation position => .negation (f position)
  | .group position => .group (f position)
  | .expression index => .expression index
  | .term index => .term index

def Parsed.relabel (p : Parsed) : Parsed :=
  ⟨p.node.mapPositions f, p.offset, p.rest.map (Token.relabel f)⟩

def Partial.relabel (p : Partial) : Partial :=
  ⟨p.node.mapPositions f, p.tokens.map (Token.relabel f), p.offset⟩

/-- An outcome with its result mapped, and an error at its other place. -/
def moved (g : α → β) (outcome : Except Failure α) : Except Failure β :=
  (outcome.map g).mapError (Failure.mapPosition f)

def Run.relabel (g : α → β) (r : Run α) : Run β :=
  ⟨r.trace.map (Event.mapPosition f), r.depth, moved f g r.outcome⟩

variable {f}

theorem moved_ok (g : α → β) (a : α) : moved f g (.ok a) = .ok (g a) := rfl

theorem moved_error (g : α → β) (x : Failure) : moved f g (.error x) = .error (x.mapPosition f) := rfl

theorem Run.bind_relabel {g : α → γ} {h : β → δ} {r : Run α} {r' : Run γ} {next : α → Run β}
    {next' : γ → Run δ} (hr : r' = r.relabel f g) (hn : ∀ a, next' (g a) = (next a).relabel f h) :
    r' >>= next' = (r >>= next).relabel f h := by
  subst hr
  rcases ho : r.outcome with x | a
  · have ho' : (r.relabel f g).outcome = .error (x.mapPosition f) := by
      rw [relabel, ho, moved_error]
    rw [Run.bind_of_error ho, Run.bind_of_error ho']
    rfl
  · have ho' : (r.relabel f g).outcome = .ok (g a) := by
      rw [relabel, ho, moved_ok]
    rw [Run.bind_of_ok ho, Run.bind_of_ok ho', hn]
    simp only [relabel, List.map_append]

theorem Run.call_relabel {g : α → γ} {r : Run α} {r' : Run γ} (h : r' = r.relabel f g) :
    r'.call = r.call.relabel f g := by
  subst h
  rfl

/-! ## Numbers -/

theorem readDigits_relabel {ds : List Token} (hd : ∀ t ∈ ds, t.isDigit = true) (start value : Int) :
    readDigits (f start) value (ds.map (Token.relabel f)) = moved f id (readDigits start value ds) := by
  induction ds generalizing value with
  | nil => rfl
  | cons d ds ih =>
    have ih := fun value => ih (fun t ht => hd t (List.mem_cons_of_mem d ht)) value
    rw [List.map_cons, readDigits, readDigits, Token.worth_relabel f (hd d List.mem_cons_self)]
    rcases d.worth with x | worth
    · rfl
    · dsimp only
      split
      · rfl
      · exact ih _

theorem constant?_relabel (position value : Int) :
    (Expr.constant? (f position) value).mapError Failure.tree =
      moved f (Expr.mapPositions f) ((Expr.constant? position value).mapError Failure.tree) := by
  unfold Expr.constant?
  split <;> rfl

theorem literal_relabel (index : Nat) (tokens : List Token) :
    literal index (tokens.map (Token.relabel f)) =
      (literal index tokens).relabel f (Option.map (Parsed.relabel f)) := by
  have hall := Grammar.all_takeWhile_digits tokens
  unfold literal
  rw [Token.takeWhile_relabel, Token.dropWhile_relabel]
  generalize tokens.takeWhile Token.isDigit = digits at hall ⊢
  rcases digits with _ | ⟨d, ds⟩
  · rfl
  · refine Run.bind_relabel (g := id) ?_ fun value => ?_
    · exact congrArg Run.ofOutcome (readDigits_relabel hall d.position 0)
    · refine Run.bind_relabel (g := id) rfl fun _ => ?_
      refine Run.bind_relabel (congrArg Run.ofOutcome (constant?_relabel d.position value)) fun node => ?_
      simp only [List.length_map]
      rfl

/-! ## Productions -/

/-- On tokens at other places the production goes the same way. -/
def Respects (f : Int → Int) (production : Nat → List Token → Run Parsed) : Prop :=
  ∀ index tokens, production index (tokens.map (Token.relabel f)) =
    (production index tokens).relabel f (Parsed.relabel f)

theorem respects_chain {op? : Token.Kind → Option BinaryOp} {operand tail : Nat → List Token → Run Parsed}
    (ho : Respects f operand) (ht : Respects f tail) : Respects f (chain op? operand tail) := by
  intro index tokens
  unfold chain
  refine Run.bind_relabel (ho index tokens) fun left => ?_
  obtain ⟨node, offset, rest⟩ := left
  rcases rest with _ | ⟨t, rest⟩
  · rfl
  · simp only [Parsed.relabel, List.map_cons]
    rw [show (t.relabel f).kind = t.kind from rfl]
    rcases op? t.kind with _ | op
    · dsimp only
      split <;> rfl
    · exact Run.bind_relabel (ht (offset + 1) rest) fun right => rfl

theorem respects_unnumbered {expression factor : Nat → List Token → Run Parsed}
    (he : Respects f expression) (hf : Respects f factor) : Respects f (unnumbered expression factor) := by
  intro index tokens
  rcases tokens with _ | ⟨t, rest⟩
  · rfl
  · simp only [List.map_cons, unnumbered]
    rw [show (t.relabel f).kind = t.kind from rfl]
    split
    · refine Run.bind_relabel (g := id) rfl fun _ => ?_
      exact Run.bind_relabel (hf (index + 1) rest) fun operand => rfl
    · refine Run.bind_relabel (g := id) rfl fun _ => ?_
      refine Run.bind_relabel (he (index + 1) rest) fun inner => ?_
      obtain ⟨node, offset, rest⟩ := inner
      rcases rest with _ | ⟨close, rest⟩
      · rfl
      · simp only [Parsed.relabel, List.map_cons]
        rw [show (close.relabel f).kind = close.kind from rfl]
        split <;> rfl
    · rfl

theorem respects_production {n : Nonterminal} (hn : n ≠ .integer) (budget : Nat) :
    Respects f (production n budget) := by
  induction budget generalizing n with
  | zero =>
    intro index tokens
    cases n with
    | expression | term | factor => rfl
    | integer => exact absurd rfl hn
  | succ budget ih =>
    intro index tokens
    cases n with
    | expression =>
      rw [expression_call, expression_call]
      refine Run.call_relabel (Run.bind_relabel (g := id) rfl fun _ => ?_)
      exact respects_chain (ih (n := .term) (by simp)) (ih (n := .expression) (by simp)) index tokens
    | term =>
      rw [term_call, term_call]
      refine Run.call_relabel (Run.bind_relabel (g := id) rfl fun _ => ?_)
      exact respects_chain (ih (n := .factor) (by simp)) (ih (n := .term) (by simp)) index tokens
    | factor =>
      rw [factor_call, factor_call]
      refine Run.call_relabel (Run.bind_relabel (literal_relabel index tokens) fun number => ?_)
      rcases number with _ | number
      · exact respects_unnumbered (ih (n := .expression) (by simp)) (ih (n := .factor) (by simp)) index tokens
      · rfl
    | integer => exact absurd rfl hn

/-! ## Parses -/

theorem budget_relabel (limit : Limit) (tokens : List Token) :
    limit.budget (tokens.map (Token.relabel f)) = limit.budget tokens := by
  unfold Limit.budget depthBound
  rw [List.countP_map, List.countP_map]
  rfl

theorem run_relabel (limit : Limit) (tokens : List Token) :
    run limit (tokens.map (Token.relabel f)) = (run limit tokens).relabel f (Partial.relabel f) := by
  unfold run
  rw [budget_relabel]
  refine Run.bind_relabel (respects_production (n := .expression) (by simp) _ 0 tokens) fun parsed => ?_
  rfl

theorem whole_relabel (p : Partial) : (p.relabel f).whole = moved f (Expr.mapPositions f) p.whole := by
  unfold Partial.whole Partial.peek Partial.relabel
  rw [List.getElem?_map]
  cases p.tokens[p.offset]? <;> rfl

theorem readWhole_relabel (limit : Limit) (tokens : List Token) :
    readWhole limit (tokens.map (Token.relabel f)) =
      moved f (Expr.mapPositions f) (readWhole limit tokens) := by
  unfold readWhole
  rw [run_relabel]
  rcases ho : (run limit tokens).outcome with x | p
  · simp only [Run.relabel, ho, moved_error]
    rfl
  · simp only [Run.relabel, ho, moved_ok]
    exact whole_relabel p

/-! ## Tokens that stand elsewhere -/

theorem Failure.mapPosition_id (x : Failure) : x.mapPosition id = x := by
  cases x with
  | refused e => cases e <;> simp [Failure.mapPosition, ParseError.mapPosition]
  | tree => rfl
  | digit => rfl

theorem run_of_relabelled {ts us : List Token} (h : List.Forall₂ (Token.Relabelled f) ts us)
    (limit : Limit) : (run limit us).outcome =
      moved f (fun p => ⟨p.node.mapPositions f, us, p.offset⟩) (run limit ts).outcome := by
  have hrun : moved id (Partial.relabel id) (run limit us).outcome =
      moved f (Partial.relabel f) (run limit ts).outcome := by
    have := run_relabel (f := id) limit us
    rw [Token.map_relabel_of_relabelled h, run_relabel] at this
    exact (congrArg Run.outcome this).symm
  rcases hu : (run limit us).outcome with x | p <;> rcases ht : (run limit ts).outcome with y | q <;>
    rw [hu, ht] at hrun
  · rw [moved_error, moved_error, Failure.mapPosition_id] at hrun
    rw [moved_error, Except.error.inj hrun]
  · cases hrun
  · cases hrun
  · have hpq : p.relabel id = q.relabel f := Except.ok.inj hrun
    obtain ⟨hnode, -, hoffset⟩ := Partial.mk.inj hpq
    have htokens : p.tokens = us := (takes_of_run hu).1
    rw [moved_ok]
    refine congrArg Except.ok ?_
    rw [← hnode, ← hoffset, ← htokens, Expr.mapPositions_id]

theorem moved_id (outcome : Except Failure Expr) : moved id (Expr.mapPositions id) outcome = outcome := by
  rcases outcome with x | e
  · rw [moved_error, Failure.mapPosition_id]
  · rw [moved_ok, Expr.mapPositions_id]

theorem readWhole_of_relabelled {ts us : List Token} (h : List.Forall₂ (Token.Relabelled f) ts us)
    (limit : Limit) : readWhole limit us = moved f (Expr.mapPositions f) (readWhole limit ts) := by
  rw [← moved_id (readWhole limit us), ← readWhole_relabel, Token.map_relabel_of_relabelled h,
    readWhole_relabel]

/-! ## Texts that differ in blanks -/

theorem relabel_scan {s t : String}
    (h : s.toList.filter (!Token.isBlank ·) = t.toList.filter (!Token.isBlank ·)) :
    (Token.scan s).map (Token.relabel fun _ => 0) = (Token.scan t).map (Token.relabel fun _ => 0) := by
  have hshape : ∀ ts : List Token, ts.map (Token.relabel fun _ => 0) =
      (ts.map Token.shape).map fun shape => Token.relabel (fun _ => 0) ⟨shape.1, shape.2, 0⟩ := by
    intro ts
    rw [List.map_map]
    rfl
  rw [hshape, hshape, Token.shapes_scan, Token.shapes_scan, h]

theorem ofText_blanks {s t : String}
    (h : s.toList.filter (!Token.isBlank ·) = t.toList.filter (!Token.isBlank ·)) (limit : Limit) :
    moved (fun _ => 0) (Expr.mapPositions fun _ => 0) (Expr.ofText limit s) =
      moved (fun _ => 0) (Expr.mapPositions fun _ => 0) (Expr.ofText limit t) := by
  rw [ofText_eq_readWhole, ofText_eq_readWhole, ← readWhole_relabel, ← readWhole_relabel, relabel_scan h]

theorem ofText_blanks_cases {s t : String}
    (h : s.toList.filter (!Token.isBlank ·) = t.toList.filter (!Token.isBlank ·)) (limit : Limit) :
    (∃ e e', Expr.ofText limit s = .ok e ∧ Expr.ofText limit t = .ok e' ∧ e.Alike e') ∨
      ∃ x y, Expr.ofText limit s = .error (.refused x) ∧ Expr.ofText limit t = .error (.refused y) := by
  have hmoved := ofText_blanks h limit
  rcases ofText_ok_or_refused limit s with ⟨e, hs⟩ | ⟨x, hs⟩ <;>
    rcases ofText_ok_or_refused limit t with ⟨e', ht⟩ | ⟨y, ht⟩ <;> rw [hs, ht] at hmoved
  · exact .inl ⟨e, e', hs, ht, Except.ok.inj hmoved⟩
  · cases hmoved
  · cases hmoved
  · exact .inr ⟨x, y, hs, ht⟩

theorem layout_irrelevant (limit : Limit) :
    (∀ debug f ts us, List.Forall₂ (Token.Relabelled f) ts us →
      (parse limit debug us).outcome =
        moved f (fun p => ⟨p.node.mapPositions f, us, p.offset⟩) (parse limit debug ts).outcome) ∧
    ∀ s t : String, s.toList.filter (!Token.isBlank ·) = t.toList.filter (!Token.isBlank ·) →
      (∃ e e' v, Expr.ofText limit s = .ok e ∧ Expr.ofText limit t = .ok e' ∧ e.Alike e' ∧
        e.value = .ok v ∧ e'.value = .ok v) ∨
      ∃ x y, Expr.ofText limit s = .error (.refused x) ∧ Expr.ofText limit t = .error (.refused y) ∧
        x.name = y.name := by
  constructor
  · intro debug f ts us h
    rw [parse_outcome, parse_outcome]
    exact run_of_relabelled h limit
  intro s t h
  have hmoved := ofText_blanks h limit
  rcases ofText_ok_or_refused limit s with ⟨e, hs⟩ | ⟨x, hs⟩ <;>
    rcases ofText_ok_or_refused limit t with ⟨e', ht⟩ | ⟨y, ht⟩ <;> rw [hs, ht] at hmoved
  · have halike : e.Alike e' := Except.ok.inj hmoved
    obtain ⟨hd, hf⟩ := derives_of_ofText hs
    have hv := Expr.value_eq_ok hd.noStray hf
    exact Or.inl ⟨e, e', _, hs, ht, halike, hv, halike.value_eq ▸ hv⟩
  · cases hmoved
  · cases hmoved
  · have hxy : x.mapPosition (fun _ => 0) = y.mapPosition fun _ => 0 :=
      Failure.refused.inj (Except.error.inj hmoved)
    have hname : x.name = y.name := by
      rw [← x.name_mapPosition fun _ => 0, hxy, y.name_mapPosition]
    exact Or.inr ⟨x, y, hs, ht, hname⟩

/-- `7-2` spread over the line, with a name for its operator; and a number that a blank divides. -/
theorem layout_of_spread_difference :
    (List.Forall₂ (Token.Relabelled (10 * · + 1)) (Token.scan "7-2")
        [⟨.digit, "7", 1⟩, ⟨.minus, "minus", 11⟩, ⟨.digit, "2", 21⟩] ∧
      (parse none true [⟨.digit, "7", 1⟩, ⟨.minus, "minus", 11⟩, ⟨.digit, "2", 21⟩]).outcome =
        .ok ⟨.binary .subtract 11 (.constant 1 7) (.constant 21 2),
          [⟨.digit, "7", 1⟩, ⟨.minus, "minus", 11⟩, ⟨.digit, "2", 21⟩], 3⟩) ∧
    "1 2+\n3".toList.filter (!Token.isBlank ·) = "12 +3".toList.filter (!Token.isBlank ·) ∧
    ∃ e e' v, Expr.ofText none "1 2+\n3" = .ok e ∧ Expr.ofText none "12 +3" = .ok e' ∧ e.Alike e' ∧
      e.value = .ok v ∧ e'.value = .ok v := by
  obtain ⟨hplaces, hblanks⟩ := layout_irrelevant none
  have hr : List.Forall₂ (Token.Relabelled (10 * · + 1)) (Token.scan "7-2")
      [⟨.digit, "7", 1⟩, ⟨.minus, "minus", 11⟩, ⟨.digit, "2", 21⟩] :=
    .cons ⟨rfl, rfl, fun _ => rfl⟩ (.cons ⟨rfl, rfl, by decide⟩ (.cons ⟨rfl, rfl, fun _ => rfl⟩ .nil))
  refine ⟨⟨hr, hplaces true _ _ _ hr⟩, rfl, ?_⟩
  rcases hblanks "1 2+\n3" "12 +3" rfl with h | ⟨x, -, hx, -⟩
  · exact h
  · have hok : Expr.ofText none "1 2+\n3" =
        .ok (.binary .add 3 (.constant 0 12) (.constant 5 3)) := rfl
    rw [hok] at hx
    cases hx

end Parse

end Abacus
