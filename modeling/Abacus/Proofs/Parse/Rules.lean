/-
  Abacus.Proofs.Parse.Rules — what the productions do, without budgets.

  `Takes` and `Fails` are the parser as two sets of rules, one rule for each way in which a
  production can end. They read off the tokens alone, whatever the digits in them are worth.
  `Abacus.Proofs.Parse.Budget` ties them to the runs.

  Every token of a text is `Decimal` (`decimal_of_mem_scan`): its digits are worth 0 to 9. Of
  decimal digits the parser makes the number that they spell in base ten, or refuses it because
  it is too large (`numberNode_eq`); digits made by hand may do neither.
-/

import Abacus.Parse.Partial
import Abacus.Token.Scanner

namespace Abacus.Parse

/-! # Rules -/

open Grammar (Nonterminal additive? multiplicative?)

/-! ## Outcomes of composed runs -/

namespace Run

variable {α β : Type}

@[simp] theorem outcome_pure (a : α) : (pure a : Run α).outcome = .ok a := rfl
@[simp] theorem outcome_refuse (e : ParseError) : (refuse e : Run α).outcome = .error (.refused e) := rfl
@[simp] theorem outcome_note (event : Event) : (note event).outcome = .ok () := rfl
@[simp] theorem outcome_call (r : Run α) : r.call.outcome = r.outcome := rfl
@[simp] theorem outcome_ofOutcome (o : Except Failure α) : (ofOutcome o).outcome = o := rfl

@[simp] theorem outcome_bind (r : Run α) (next : α → Run β) :
    (r >>= next).outcome = r.outcome.bind fun a => (next a).outcome := by
  show (r.andThen next).outcome = _
  unfold andThen
  cases r.outcome <;> rfl

end Run

/-! ## Numbers -/

def numberNode (d : Token) (ds : List Token) : Except Failure Expr := do
  let value ← readDigits d.position 0 (d :: ds)
  (Expr.constant? d.position value).mapError .tree

/-- The number that the tokens begin with, if they begin with a digit, and the tokens behind
    it. -/
def number? (tokens : List Token) : Option (Except Failure (Expr × List Token)) :=
  match tokens.takeWhile Token.isDigit with
  | [] => none
  | d :: ds => some ((numberNode d ds).map (·, tokens.dropWhile Token.isDigit))

theorem readDigits_error {start value : Int} {ds : List Token} {f : Failure}
    (h : readDigits start value ds = .error f) :
    f = .refused (.placed .literalOverflow (some start)) ∨ ∃ x, f = .digit x := by
  induction ds generalizing value with
  | nil => cases h
  | cons d ds ih =>
    rcases hw : d.worth with x | worth
    · simp only [readDigits, hw, Except.error.injEq] at h
      exact Or.inr ⟨x, h.symm⟩
    · simp only [readDigits, hw] at h
      split at h
      · exact Or.inl (Except.error.inj h).symm
      · exact ih h

section NumberNode

variable {d : Token} {ds : List Token} {value : Int}

theorem numberNode_of_unread {f : Failure} (h : readDigits d.position 0 (d :: ds) = .error f) :
    numberNode d ds = .error f := by
  unfold numberNode
  rw [h]
  rfl

theorem numberNode_of_fault {x : Expr.Fault} (h : readDigits d.position 0 (d :: ds) = .ok value)
    (hc : Expr.constant? d.position value = .error x) : numberNode d ds = .error (.tree x) := by
  unfold numberNode
  rw [h]
  show (Expr.constant? d.position value).mapError Failure.tree = _
  rw [hc]
  rfl

theorem numberNode_of_node {e : Expr} (h : readDigits d.position 0 (d :: ds) = .ok value)
    (hc : Expr.constant? d.position value = .ok e) : numberNode d ds = .ok e := by
  unfold numberNode
  rw [h]
  show (Expr.constant? d.position value).mapError Failure.tree = _
  rw [hc]
  rfl

end NumberNode

/-- A number is refused only while its digits are read; what else can be wrong with it is that
    it is no node. -/
theorem numberNode_error {d : Token} {ds : List Token} {f : Failure} (h : numberNode d ds = .error f) :
    readDigits d.position 0 (d :: ds) = .error f ∨ ∃ x, f = .tree x := by
  rcases hr : readDigits d.position 0 (d :: ds) with g | value
  · rw [numberNode_of_unread hr] at h
    exact Or.inl (congrArg Except.error (Except.error.inj h))
  · rcases hc : Expr.constant? d.position value with x | node
    · rw [numberNode_of_fault hr hc] at h
      exact Or.inr ⟨x, (Except.error.inj h).symm⟩
    · rw [numberNode_of_node hr hc] at h
      cases h

theorem numberNode_eq_ok {d : Token} {ds : List Token} {e : Expr} (h : numberNode d ds = .ok e) :
    ∃ n : Nat, n ≤ Expr.largest ∧ e = .constant d.position n := by
  rcases hr : readDigits d.position 0 (d :: ds) with f | value
  · rw [numberNode_of_unread hr] at h
    cases h
  · rcases hc : Expr.constant? d.position value with x | node
    · rw [numberNode_of_fault hr hc] at h
      cases h
    · rw [numberNode_of_node hr hc] at h
      obtain ⟨n, hn, -, rfl⟩ := Expr.constant?_eq_ok_iff.mp hc
      exact ⟨n, hn, (Except.ok.inj h).symm⟩

theorem number?_cons_of_digit {d : Token} (hd : d.isDigit = true) (ts : List Token) :
    number? (d :: ts) =
      some ((numberNode d (ts.takeWhile Token.isDigit)).map (·, ts.dropWhile Token.isDigit)) := by
  simp [number?, hd]

theorem number?_eq_none_iff {ts : List Token} :
    number? ts = none ↔ ∀ t ∈ ts.head?, t.isDigit = false := by
  cases ts with
  | nil => simp [number?]
  | cons t us => cases ht : t.isDigit <;> simp [number?, ht]

theorem number?_eq_none_of_kind {t : Token} {k : Token.Kind} (h : t.kind = k) (hk : k ≠ .digit)
    (ts : List Token) : number? (t :: ts) = none := by
  refine number?_eq_none_iff.mpr fun u hu => ?_
  cases hu
  simpa [Token.isDigit, h] using hk

theorem number?_eq_some {ts : List Token} {r : Except Failure (Expr × List Token)}
    (h : number? ts = some r) :
    ∃ d us, ts = d :: us ∧ d.isDigit = true ∧
      r = (numberNode d (us.takeWhile Token.isDigit)).map (·, us.dropWhile Token.isDigit) := by
  rcases ts with _ | ⟨d, us⟩
  · simp [number?] at h
  · by_cases hd : d.isDigit = true
    · rw [number?_cons_of_digit hd] at h
      exact ⟨d, us, rfl, hd, (Option.some.inj h).symm⟩
    · rw [number?_eq_none_iff.mpr (by simpa using hd)] at h
      cases h

theorem number?_eq_ok {ts rest : List Token} {e : Expr} (h : number? ts = some (.ok (e, rest))) :
    ∃ d us, ts = d :: us ∧ numberNode d (us.takeWhile Token.isDigit) = .ok e ∧
      rest = us.dropWhile Token.isDigit := by
  obtain ⟨d, us, rfl, -, hr⟩ := number?_eq_some h
  rcases hn : numberNode d (us.takeWhile Token.isDigit) with f | n
  · rw [hn] at hr
    cases hr
  · rw [hn] at hr
    obtain ⟨rfl, rfl⟩ := Prod.mk.inj (Except.ok.inj hr)
    exact ⟨d, us, rfl, hn, rfl⟩

theorem number?_ok_constant {ts rest : List Token} {e : Expr}
    (h : number? ts = some (.ok (e, rest))) : ∃ position value, e = .constant position value := by
  obtain ⟨d, us, -, hn, -⟩ := number?_eq_ok h
  obtain ⟨n, -, he⟩ := numberNode_eq_ok hn
  exact ⟨d.position, n, he⟩

theorem number?_ok_suffix {ts rest : List Token} {e : Expr} (h : number? ts = some (.ok (e, rest))) :
    rest <:+ ts ∧ rest.length < ts.length := by
  obtain ⟨d, us, rfl, -, rfl⟩ := number?_eq_ok h
  have hs := List.dropWhile_suffix (l := us) Token.isDigit
  exact ⟨hs.trans (List.suffix_cons d us), Nat.lt_succ_of_le hs.length_le⟩

/-- A number read as the parser reads it: the same node, and the same tokens behind it. -/
theorem literal_outcome (index : Nat) (ts : List Token) :
    (literal index ts).outcome = match number? ts with
      | none => .ok none
      | some r => r.map fun x => some ⟨x.1, index + (ts.length - x.2.length), x.2⟩ := by
  have hlen := congrArg List.length (List.takeWhile_append_dropWhile (p := Token.isDigit) (l := ts))
  unfold literal number?
  rcases hw : ts.takeWhile Token.isDigit with _ | ⟨d, ds⟩
  · rfl
  · have hd : ts.length - (ts.dropWhile Token.isDigit).length = ds.length + 1 := by
      rw [hw, List.length_append, List.length_cons] at hlen; omega
    simp only [Run.outcome_bind, Run.outcome_ofOutcome, Run.outcome_note, Run.outcome_pure]
    rcases hr : readDigits d.position 0 (d :: ds) with f | value
    · rw [numberNode_of_unread hr]
      rfl
    · simp only [Except.bind]
      rcases hc : Expr.constant? d.position value with x | node
      · rw [numberNode_of_fault hr hc]
        rfl
      · rw [numberNode_of_node hr hc]
        simp only [Except.map, hd]
        rfl

/-! ## The rules -/

def operand? : Nonterminal → Option Nonterminal
  | .expression => some .term
  | .term => some .factor
  | .factor | .integer => none

def operator? : Nonterminal → Token.Kind → Option BinaryOp
  | .expression => additive?
  | .term => multiplicative?
  | .factor | .integer => fun _ => none

/-- `Takes n ts e rest`: a production takes the tree `e` from the front of `ts` and leaves
    `rest`. -/
inductive Takes : Nonterminal → List Token → Expr → List Token → Prop
  | number {ts rest : List Token} {e : Expr} :
      number? ts = some (.ok (e, rest)) → Takes .integer ts e rest
  | integer {ts rest : List Token} {e : Expr} : Takes .integer ts e rest → Takes .factor ts e rest
  | negation {t : Token} {ts rest : List Token} {e : Expr} : t.kind = .minus →
      Takes .factor ts e rest → Takes .factor (t :: ts) (.unary .negate t.position e) rest
  | group {first last : Token} {ts rest : List Token} {e : Expr} : first.kind = .leftParen →
      Takes .expression ts e (last :: rest) → last.kind = .rightParen →
      Takes .factor (first :: ts) e rest
  | single {n m : Nonterminal} {ts rest : List Token} {e : Expr} : operand? n = some m →
      Takes m ts e rest →
      (∀ t ∈ rest.head?, operator? n t.kind = none ∧ t.kind ≠ .unrecognized) → Takes n ts e rest
  | chain {n m : Nonterminal} {t : Token} {op : BinaryOp} {ts us rest : List Token} {l r : Expr} :
      operand? n = some m → Takes m ts l (t :: us) → operator? n t.kind = some op →
      Takes n us r rest → Takes n ts (.binary op t.position l r) rest

/-- `Fails n ts f`: a production fails on `ts`. -/
inductive Fails : Nonterminal → List Token → Failure → Prop
  | number {ts : List Token} {f : Failure} : number? ts = some (.error f) → Fails .integer ts f
  | integer {ts : List Token} {f : Failure} : Fails .integer ts f → Fails .factor ts f
  | ended : Fails .factor [] (.refused .unexpectedEof)
  | expected {t : Token} {ts : List Token} : t.isDigit = false → t.kind ≠ .minus →
      t.kind ≠ .leftParen →
      Fails .factor (t :: ts) (.refused (.placed .factorExpected (some t.position)))
  | negation {t : Token} {ts : List Token} {f : Failure} : t.kind = .minus → Fails .factor ts f →
      Fails .factor (t :: ts) f
  | group {t : Token} {ts : List Token} {f : Failure} : t.kind = .leftParen →
      Fails .expression ts f → Fails .factor (t :: ts) f
  | unclosed {t : Token} {ts : List Token} {e : Expr} : t.kind = .leftParen →
      Takes .expression ts e [] → Fails .factor (t :: ts) (.refused .unexpectedEof)
  | misclosed {t u : Token} {ts us : List Token} {e : Expr} : t.kind = .leftParen →
      Takes .expression ts e (u :: us) → u.kind ≠ .rightParen →
      Fails .factor (t :: ts) (.refused (.placed .invalidGroup (some u.position)))
  | operand {n m : Nonterminal} {ts : List Token} {f : Failure} : operand? n = some m →
      Fails m ts f → Fails n ts f
  | stranger {n m : Nonterminal} {t : Token} {ts us : List Token} {e : Expr} :
      operand? n = some m → Takes m ts e (t :: us) → t.kind = .unrecognized →
      Fails n ts (.refused (.placed .invalidToken (some t.position)))
  | tail {n m : Nonterminal} {t : Token} {op : BinaryOp} {ts us : List Token} {l : Expr}
      {f : Failure} : operand? n = some m → Takes m ts l (t :: us) →
      operator? n t.kind = some op → Fails n us f → Fails n ts f

/-- What is left behind a tree is the end of the tokens, and shorter than they are. -/
theorem Takes.suffix {n : Nonterminal} {ts rest : List Token} {e : Expr} (h : Takes n ts e rest) :
    rest <:+ ts ∧ rest.length < ts.length := by
  induction h with
  | number h => exact number?_ok_suffix h
  | integer _ ih => exact ih
  | negation _ _ ih =>
    exact ⟨ih.1.trans (List.suffix_cons _ _), Nat.lt_succ_of_lt ih.2⟩
  | group _ _ _ ih =>
    refine ⟨(List.suffix_cons _ _).trans (ih.1.trans (List.suffix_cons _ _)), ?_⟩
    have := ih.2
    simp only [List.length_cons] at this ⊢; omega
  | single _ _ _ ih => exact ih
  | chain _ _ _ _ ihl ihr =>
    refine ⟨(ihr.1.trans (List.suffix_cons _ _)).trans ihl.1, ?_⟩
    have := ihl.2
    have := ihr.2
    simp only [List.length_cons] at *; omega

theorem Takes.noStray {n : Nonterminal} {ts rest : List Token} {e : Expr} (h : Takes n ts e rest) :
    e.NoStray := by
  induction h with
  | number h =>
    obtain ⟨position, value, rfl⟩ := number?_ok_constant h
    exact trivial
  | integer _ ih | negation _ _ ih | group _ _ _ ih | single _ _ _ ih => exact ih
  | chain _ _ _ _ ihl ihr => exact ⟨ihl, ihr⟩

/-- No rule makes a run too deep. -/
theorem Fails.ne_deep {n : Nonterminal} {ts : List Token} {f : Failure} (h : Fails n ts f) :
    f ≠ .refused .nestingTooDeep := by
  induction h with
  | number h =>
    obtain ⟨d, us, -, -, hr⟩ := number?_eq_some h
    rcases hn : numberNode d (us.takeWhile Token.isDigit) with g | e
    · rw [hn] at hr
      cases hr
      rcases numberNode_error hn with hr | ⟨x, rfl⟩
      · rcases readDigits_error hr with rfl | ⟨x, rfl⟩ <;> simp
      · simp
    · rw [hn] at hr; cases hr
  | integer _ ih | negation _ _ ih | group _ _ ih | operand _ _ ih | tail _ _ _ _ ih => exact ih
  | ended | expected | unclosed | misclosed | stranger => simp

end Abacus.Parse

/-! # Decimal digits -/

namespace Abacus

open Grammar (face numeral)

def Token.Decimal (t : Token) : Prop :=
  t.isDigit = true → ∃ n : Nat, n ≤ 9 ∧ t.worth = .ok (n : Int)

theorem Token.Decimal.worth_eq {t : Token} (h : t.Decimal) (hd : t.isDigit = true) :
    t.worth = .ok (face t : Int) := by
  obtain ⟨n, -, hn⟩ := h hd
  simp [face, hn]

theorem Token.Kind.ofChar_eq_digit_iff {c : Char} : Kind.ofChar c = .digit ↔ c.isDigit = true := by
  refine ⟨fun h => ?_, fun h => by simp [ofChar, h]⟩
  by_cases hc : c.isDigit = true
  · exact hc
  · simp only [ofChar, hc] at h
    repeat' split at h
    all_goals contradiction

theorem Token.decimal_ofChar (c : Char) (p : Int) : Token.Decimal ⟨.ofChar c, c.toString, p⟩ := by
  intro hd
  have hc : c.isDigit = true := Kind.ofChar_eq_digit_iff.mp (by simpa [isDigit] using hd)
  have hb : 48 ≤ c.toNat ∧ c.toNat ≤ 57 := by
    simpa [Char.isDigit, UInt32.le_iff_toNat_le] using hc
  refine ⟨c.toNat - 48, by omega, ?_⟩
  simp only [worth, Char.toString, String.toList_singleton, Except.ok.injEq]
  have : ('0'.toNat : Int) = 48 := rfl
  omega

theorem Token.decimal_of_mem_scanFrom {t : Token} {p : Nat} {cs : List Char} (h : t ∈ scanFrom p cs) :
    t.Decimal := by
  induction cs generalizing p with
  | nil => cases h
  | cons c cs ih =>
    unfold scanFrom at h
    split at h
    · exact ih h
    · rcases List.mem_cons.mp h with rfl | h
      · exact decimal_ofChar c p
      · exact ih h

theorem Token.decimal_of_mem_scan {t : Token} {text : String} (h : t ∈ scan text) : t.Decimal :=
  decimal_of_mem_scanFrom h

namespace Parse

def numeralFrom (n : Nat) (ds : List Token) : Nat := ds.foldl (fun n t => 10 * n + face t) n

theorem numeralFrom_cons (n : Nat) (d : Token) (ds : List Token) :
    numeralFrom n (d :: ds) = numeralFrom (10 * n + face d) ds := rfl

theorem le_numeralFrom (n : Nat) (ds : List Token) : n ≤ numeralFrom n ds := by
  induction ds generalizing n with
  | nil => exact Nat.le_refl n
  | cons d ds ih =>
    rw [numeralFrom_cons]
    exact Nat.le_trans (by omega) (ih _)

/-- Reading stops early only at a number that is too large at its end as well. -/
theorem readDigits_eq {ds : List Token} (hd : ∀ t ∈ ds, t.isDigit = true) (hw : ∀ t ∈ ds, t.Decimal)
    (start : Int) {n : Nat} (hn : n ≤ Expr.largest) :
    readDigits start n ds = if numeralFrom n ds ≤ Expr.largest then .ok (numeralFrom n ds : Int)
      else .error (.refused (.placed .literalOverflow (some start))) := by
  induction ds generalizing n with
  | nil => rw [if_pos (show numeralFrom n [] ≤ _ from hn)]; rfl
  | cons d ds ih =>
    have hface := (hw d List.mem_cons_self).worth_eq (hd d List.mem_cons_self)
    have ih := fun {n : Nat} => ih (fun t ht => hd t (List.mem_cons_of_mem d ht))
      (fun t ht => hw t (List.mem_cons_of_mem d ht)) (n := n)
    have hstep : (n : Int) * 10 + (face d : Int) = ((10 * n + face d : Nat) : Int) := by omega
    rw [numeralFrom_cons]
    simp only [readDigits, hface, hstep]
    by_cases hle : 10 * n + face d ≤ Expr.largest
    · rw [if_neg (by omega), ih hle]
    · have := le_numeralFrom (10 * n + face d) ds
      rw [if_pos (by omega), if_neg (by omega)]

/-- Decimal digits make their number in base ten, or none if it is too large. -/
theorem numberNode_eq {d : Token} {ds : List Token} (hd : ∀ t ∈ d :: ds, t.isDigit = true)
    (hw : ∀ t ∈ d :: ds, t.Decimal) :
    numberNode d ds = if numeral (d :: ds) ≤ Expr.largest
      then .ok (.constant d.position (numeral (d :: ds)))
      else .error (.refused (.placed .literalOverflow (some d.position))) := by
  have h : readDigits d.position 0 (d :: ds) = if numeral (d :: ds) ≤ Expr.largest
      then .ok (numeral (d :: ds) : Int)
      else .error (.refused (.placed .literalOverflow (some d.position))) :=
    readDigits_eq hd hw d.position (n := 0) (Nat.zero_le _)
  by_cases hle : numeral (d :: ds) ≤ Expr.largest
  · rw [if_pos hle] at h ⊢
    exact numberNode_of_node h (Expr.constant?_eq_ok_iff.mpr ⟨_, hle, rfl, rfl⟩)
  · rw [if_neg hle] at h ⊢
    exact numberNode_of_unread h

end Parse

end Abacus
