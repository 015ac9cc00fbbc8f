/-
  Abacus.Proofs.Parse.Minimal — trees written as texts, and texts put together.

  - `derives_of_spells`: whatever the place of a tree, tokens that spell its symbols there
    derive the tree in that place, up to positions.
  - `ofText_minimalText`: so the text of a tree, with no parentheses but those needed and with
    blanks anywhere, gives the tree again.
  - `derives_group`: a text of an expression between parentheses derives the same tree as an
    operand, wherever it is put.
  - `derives_behind_group`: behind it an operator goes on with whatever may be its right operand:
    a group for each operator, and a bare expression for those of sums.
  - `ofText_composed`: so the trees of such texts are those of their parts, moved to where the
    parts stand.
-/

import Abacus.Expr.Orders
import Abacus.Proofs.Expr.Line
import Abacus.Proofs.Parse.Derivation
import Abacus.Proofs.Parse.Number
import Abacus.Proofs.Token.Scanner

namespace Abacus.Parse

/-! # Minimal texts -/

open Grammar
open Abacus.Expr (symbolsIn isAdditive fitsIn)

/-! ## Tokens that spell symbols -/

/-- The tokens are those of the symbols, wherever they stand. -/
def Spells (ts : List Token) (symbols : List String) : Prop :=
  ts.map Token.shape = (symbols.flatMap String.toList).map Token.shapeOf

theorem Spells.append {ts : List Token} {as bs : List String} (h : Spells ts (as ++ bs)) :
    ∃ us vs, ts = us ++ vs ∧ Spells us as ∧ Spells vs bs := by
  unfold Spells at h
  rw [List.flatMap_append, List.map_append] at h
  exact List.map_eq_append_iff.mp h

/-- A symbol of one character is one token. -/
theorem Spells.cons {ts : List Token} {s : String} {c : Char} {bs : List String} (hs : s.toList = [c])
    (h : Spells ts (s :: bs)) : ∃ t us, ts = t :: us ∧ t.kind = .ofChar c ∧ Spells us bs := by
  unfold Spells at h
  rw [List.flatMap_cons, hs, List.singleton_append, List.map_cons] at h
  obtain ⟨t, us, rfl, ht, hus⟩ := List.map_eq_cons_iff.mp h
  exact ⟨t, us, rfl, (Token.shape_eq_shapeOf_iff.mp ht).1, hus⟩

/-- The digits of a number derive the number. -/
theorem derives_number {ts : List Token} {value : Nat} (h : Spells ts [toString value]) :
    ∃ p, Derives .integer ts (.constant p value) := by
  have hts : ts.map Token.shape = (Nat.toDigits 10 value).map Token.shapeOf := by
    simpa [Spells] using h
  rcases ts with _ | ⟨d, ds⟩
  · rw [List.map_nil, eq_comm, List.map_eq_nil_iff] at hts
    exact absurd hts Nat.toDigits_ne_nil
  · have hdigits : ∀ t ∈ d :: ds, t.isDigit = true := by
      intro t ht
      obtain ⟨c, hc, hct⟩ := List.mem_map.mp (hts ▸ List.mem_map_of_mem (f := Token.shape) ht)
      have hk : t.kind = .ofChar c := (Token.shape_eq_shapeOf_iff.mp hct.symm).1
      rw [Token.Kind.ofChar_eq_digit_iff.mpr (Nat.isDigit_of_mem_toDigits (by decide) (by decide) hc)] at hk
      simp [Token.isDigit, hk]
    have hn : numeral (d :: ds) = value := by
      rw [numeral_of_shapes hts, Nat.ofDigitChars_ten_toDigits]
    exact ⟨d.position, hn ▸ .number hdigits⟩

/-! ## Places -/

def home (op : BinaryOp) : Nonterminal := if isAdditive op then .expression else .term

def leftHome (op : BinaryOp) : Nonterminal := if isAdditive op then .term else .factor

theorem operand?_home (op : BinaryOp) : operand? (home op) = some (leftHome op) := by
  cases op <;> rfl

theorem symbolsIn_binary (n : Nonterminal) (op : BinaryOp) (p : Int) (l r : Expr) :
    symbolsIn n (.binary op p l r) =
      if fitsIn op n then symbolsIn (leftHome op) l ++ op.symbol :: symbolsIn (home op) r
      else "(" :: (symbolsIn (leftHome op) l ++ op.symbol :: symbolsIn (home op) r) ++ [")"] := by
  cases op <;> rfl

theorem operator?_symbol (op : BinaryOp) :
    ∃ c, op.symbol.toList = [c] ∧ operator? (home op) (.ofChar c) = some op := by
  cases op
  · exact ⟨'+', rfl, rfl⟩
  · exact ⟨'-', rfl, rfl⟩
  · exact ⟨'*', rfl, rfl⟩
  · exact ⟨'/', rfl, rfl⟩

theorem derives_of_factor {n : Nonterminal} {ts : List Token} {e : Expr} (hn : n ≠ .integer)
    (h : Derives .factor ts e) : Derives n ts e := by
  cases n with
  | expression => exact .term (.factor h)
  | term => exact .factor h
  | factor => exact h
  | integer => exact absurd rfl hn

/-- An operator can be derived wherever it needs no parentheses. -/
theorem derives_of_home {n : Nonterminal} {op : BinaryOp} {ts : List Token} {e : Expr}
    (hf : fitsIn op n = true) (h : Derives (home op) ts e) : Derives n ts e := by
  cases n with
  | expression =>
    cases op with
    | add | subtract => exact h
    | multiply | divide => exact .term h
  | term =>
    cases op with
    | add | subtract => cases hf
    | multiply | divide => exact h
  | factor | integer => cases hf

theorem derives_of_spells {e : Expr} (hs : e.NoStray) {n : Nonterminal} (hn : n ≠ .integer)
    {ts : List Token} (h : Spells ts (symbolsIn n e)) : ∃ e', Derives n ts e' ∧ e'.Alike e := by
  induction e generalizing n ts with
  | binary op p l r ihl ihr =>
    have hhome : leftHome op ≠ .integer ∧ home op ≠ .integer := by cases op <;> decide
    -- without parentheses the operator derives at its home, whatever its place is
    have hbody : ∀ {us}, Spells us (symbolsIn (leftHome op) l ++ op.symbol :: symbolsIn (home op) r) →
        ∃ e', Derives (home op) us e' ∧ e'.Alike (.binary op p l r) := by
      intro us hus
      obtain ⟨c, hc, hop⟩ := operator?_symbol op
      obtain ⟨ls, vs, rfl, hls, hvs⟩ := hus.append
      obtain ⟨t, rs, rfl, hk, hrs⟩ := hvs.cons hc
      obtain ⟨l', hl, hal⟩ := ihl hs.1 hhome.1 hls
      obtain ⟨r', hr, har⟩ := ihr hs.2 hhome.2 hrs
      exact ⟨_, derives_chain (operand?_home op) hl (hk ▸ hop) hr, hal.binary har op _ _⟩
    rw [symbolsIn_binary] at h
    split at h
    · rename_i hfit
      obtain ⟨e', he', ha⟩ := hbody h
      exact ⟨e', derives_of_home hfit he', ha⟩
    · obtain ⟨first, us, rfl, hfirst, hus⟩ := Spells.cons (c := '(') rfl h
      obtain ⟨ms, vs, rfl, hms, hvs⟩ := hus.append
      obtain ⟨last, ws, rfl, hlast, hws⟩ := Spells.cons (c := ')') rfl hvs
      obtain rfl : ws = [] := List.map_eq_nil_iff.mp hws
      obtain ⟨e', he', ha⟩ := hbody hms
      exact ⟨e', derives_of_factor hn (.group hfirst (derives_of_home rfl he') hlast), ha⟩
  | unary op p a ih =>
    obtain ⟨t, us, rfl, hk, hus⟩ := Spells.cons (c := '-') (by cases op; rfl) h
    obtain ⟨a', hd, ha⟩ := ih hs (by simp) hus
    cases op
    exact ⟨_, derives_of_factor hn (.negation hk hd), ha.unary .negate _ _⟩
  | constant p value =>
    obtain ⟨q, hd⟩ := derives_number h
    exact ⟨_, derives_of_factor hn (.integer hd), Expr.alike_constant q p value⟩
  | stray text => exact absurd hs id

/-! ## Texts -/

/-- No character of a symbol is blank. -/
theorem not_blank_of_mem_symbolsIn {e : Expr} (hs : e.NoStray) {n : Nonterminal} {s : String}
    (h : s ∈ symbolsIn n e) : ∀ c ∈ s.toList, Token.isBlank c = false := by
  have hchar : ∀ {s : String} {c : Char}, s.toList = [c] → Token.isBlank c = false →
      ∀ d ∈ s.toList, Token.isBlank d = false := by
    intro s c hs hc d hd
    rw [hs, List.mem_singleton] at hd
    rw [hd, hc]
  induction e generalizing n with
  | binary op p l r ihl ihr =>
    have hbody : s ∈ symbolsIn (leftHome op) l ++ op.symbol :: symbolsIn (home op) r →
        ∀ c ∈ s.toList, Token.isBlank c = false := by
      intro hmem
      rcases List.mem_append.mp hmem with hl | hr
      · exact ihl hs.1 hl
      · rcases List.mem_cons.mp hr with rfl | hr
        · cases op <;> exact hchar rfl rfl
        · exact ihr hs.2 hr
    rw [symbolsIn_binary] at h
    split at h
    · exact hbody h
    · rw [List.cons_append, List.mem_cons, List.mem_append, List.mem_singleton] at h
      rcases h with rfl | h | rfl
      · exact hchar rfl rfl
      · exact hbody h
      · exact hchar rfl rfl
  | unary op p a ih =>
    rcases List.mem_cons.mp h with rfl | h
    · cases op; exact hchar rfl rfl
    · exact ih hs h
  | constant p value =>
    rw [List.mem_singleton.mp h]
    intro c hc
    have hc : c ∈ Nat.toDigits 10 value := by simpa using hc
    exact Token.isBlank_of_isDigit (Nat.isDigit_of_mem_toDigits (by decide) (by decide) hc)
  | stray text => exact absurd hs id

/-- The tokens of a text that is the text of a tree but for blanks. -/
theorem spells_scan {e : Expr} (hs : e.NoStray) {text : String}
    (h : text.toList.filter (!Token.isBlank ·) = e.minimalText.toList.filter (!Token.isBlank ·)) :
    Spells (Token.scan text) e.symbols := by
  have hsymbols : ∀ c ∈ e.minimalText.toList, (!Token.isBlank c) = true := by
    intro c hc
    rw [Expr.minimalText, String.toList_join, List.mem_flatMap] at hc
    obtain ⟨s, hmem, hc⟩ := hc
    simp [not_blank_of_mem_symbolsIn hs hmem c hc]
  unfold Spells
  rw [Token.shapes_scan, h, List.filter_eq_self.mpr hsymbols, Expr.minimalText, String.toList_join]

/-- What a whole list of tokens derives is its tree. -/
theorem readWhole_of_derives {ts : List Token} {e : Expr} (hw : ∀ t ∈ ts, t.Decimal)
    (h : Derives .expression ts e) (hf : e.Fits) : readWhole none ts = .ok e := by
  have ht := taken_of_derives h hw hf [] (uncut_nil ts) (by simp)
  rw [List.append_nil] at ht
  exact ht.readWhole

theorem ofText_minimalText {e : Expr} (hs : e.NoStray) (hf : e.Fits) {text : String}
    (h : text.toList.filter (!Token.isBlank ·) = e.minimalText.toList.filter (!Token.isBlank ·)) :
    ∃ e', Expr.ofText none text = .ok e' ∧ e'.Alike e := by
  obtain ⟨e', hd, ha⟩ := derives_of_spells hs (by simp) (spells_scan hs h)
  exact ⟨e', readWhole_of_derives (fun _ => Token.decimal_of_mem_scan) hd (ha.fits_iff.mpr hf), ha⟩

/-- A sum below a product, and a difference below a negation, with blanks around them. -/
theorem ofText_spaced_product : ∃ e', Expr.ofText none " ( 1+20)*\t- (3-4\n)" = .ok e' ∧
    e'.Alike (.binary .multiply 0 (.binary .add 0 (.constant 0 1) (.constant 0 20))
      (.unary .negate 0 (.binary .subtract 0 (.constant 0 3) (.constant 0 4)))) :=
  ofText_minimalText (by decide) (by decide) rfl

end Abacus.Parse

/-! # Composed texts -/

namespace Abacus

namespace Parse

open Grammar
open Token (scanFrom scanFrom_append scanFrom_cons)

variable {s t : String} {cs ds : List Char} {e f : Expr}

/-! ## Texts in groups -/

theorem scanFrom_group (p : Nat) (cs : List Char) : scanFrom p ('(' :: cs ++ [')']) =
    ⟨.leftParen, "(", p⟩ :: scanFrom (p + 1) cs ++ [⟨.rightParen, ")", (p + 1 + cs.length : Nat)⟩] := by
  rw [List.cons_append, scanFrom_cons (by decide), scanFrom_append]
  rfl

theorem derives_group (h : Derives .expression (scanFrom 0 cs) e) (p : Nat) :
    Derives .factor (scanFrom p ('(' :: cs ++ [')'])) (e.mapPositions (· + (p + 1))) := by
  have hcs := derives_at h (p + 1)
  rw [Int.natCast_add, Int.natCast_one] at hcs
  rw [scanFrom_group]
  exact .group rfl hcs rfl

/-! ## Operators behind groups -/

theorem isBlank_of_operator {n : Nonterminal} {c : Char} {op : BinaryOp}
    (h : operator? n (.ofChar c) = some op) : Token.isBlank c = false := by
  by_cases hb : Token.isBlank c = true
  · have hk : Token.Kind.ofChar c = .unrecognized := by
      simp only [Token.isBlank, Bool.or_eq_true, beq_iff_eq] at hb
      rcases hb with (rfl | rfl) | rfl <;> rfl
    rw [hk] at h
    cases n <;> cases h
  · simpa using hb

/-- A group, an operator and its right operand are an expression. -/
theorem derives_behind_group {op : BinaryOp} (hl : Derives .expression (scanFrom 0 cs) e)
    (hr : Derives (home op) (scanFrom 0 ds) f) :
    Derives .expression (scanFrom 0 ('(' :: cs ++ [')'] ++ (op.symbol.toList ++ ds)))
      (.binary op (cs.length + 2) (e.mapPositions (· + 1)) (f.mapPositions (· + (cs.length + 3)))) := by
  obtain ⟨c, hc, hop⟩ := operator?_symbol op
  have hleft : Derives (leftHome op) (scanFrom 0 ('(' :: cs ++ [')'])) (e.mapPositions (· + 1)) := by
    refine derives_of_factor ?_ (derives_group hl 0)
    cases op <;> decide
  have hlength : 0 + ('(' :: cs ++ [')']).length = cs.length + 2 := by simp
  have hright := derives_at hr (cs.length + 2 + 1)
  have hplace : ((cs.length + 2 + 1 : Nat) : Int) = cs.length + 3 := by omega
  rw [hplace] at hright
  rw [hc, List.singleton_append, scanFrom_append, hlength, scanFrom_cons (isBlank_of_operator hop)]
  have hfits : Expr.fitsIn op .expression = true := rfl
  exact derives_of_home hfits (derives_chain (operand?_home op) hleft hop hright)

/-! ## Composed texts -/

theorem ofText_of_derives (hcs : s.toList = cs) (h : Derives .expression (scanFrom 0 cs) e)
    (hf : e.Fits) : Expr.ofText none s = .ok e := by
  apply readWhole_of_derives (fun _ => Token.decimal_of_mem_scan) ?_ hf
  unfold Token.scan
  rwa [hcs]

theorem ofText_group (hs : Expr.ofText none s = .ok e) :
    Expr.ofText none ("(" ++ s ++ ")") = .ok (e.mapPositions (· + 1)) := by
  obtain ⟨hd, hf⟩ := derives_of_ofText hs
  have htext : ("(" ++ s ++ ")").toList = '(' :: s.toList ++ [')'] := by simp
  exact ofText_of_derives htext (.term (.factor (derives_group hd 0))) ((Expr.fits_mapPositions _ e).mpr hf)

theorem ofText_negated_group (hs : Expr.ofText none s = .ok e) :
    Expr.ofText none ("-(" ++ s ++ ")") = .ok (.unary .negate 0 (e.mapPositions (· + 2))) := by
  obtain ⟨hd, hf⟩ := derives_of_ofText hs
  have htext : ("-(" ++ s ++ ")").toList = '-' :: ('(' :: s.toList ++ [')']) := by simp
  refine ofText_of_derives htext ?_ ((Expr.fits_mapPositions _ e).mpr hf)
  rw [scanFrom_cons (by decide)]
  exact .term (.factor (.negation rfl (derives_group hd 1)))

theorem ofText_behind_group {op : BinaryOp} (hs : Expr.ofText none s = .ok e)
    (ht : Derives (home op) (scanFrom 0 t.toList) f) (hf : f.Fits) :
    Expr.ofText none ("(" ++ s ++ ")" ++ op.symbol ++ t) =
      .ok (.binary op (s.length + 2) (e.mapPositions (· + 1)) (f.mapPositions (· + (s.length + 3)))) := by
  obtain ⟨hd, he⟩ := derives_of_ofText hs
  have htext : ("(" ++ s ++ ")" ++ op.symbol ++ t).toList =
      '(' :: s.toList ++ [')'] ++ (op.symbol.toList ++ t.toList) := by simp
  apply ofText_of_derives htext (derives_behind_group hd ht)
  exact ⟨(Expr.fits_mapPositions _ e).mpr he, (Expr.fits_mapPositions _ f).mpr hf⟩

theorem ofText_composed (hs : Expr.ofText none s = .ok e) (ht : Expr.ofText none t = .ok f) :
    Expr.ofText none ("(" ++ s ++ ")") = .ok (e.mapPositions (· + 1)) ∧
    Expr.ofText none ("-(" ++ s ++ ")") = .ok (.unary .negate 0 (e.mapPositions (· + 2))) ∧
    (∀ op : BinaryOp, Expr.ofText none ("(" ++ s ++ ")" ++ op.symbol ++ "(" ++ t ++ ")") =
      .ok (.binary op (s.length + 2) (e.mapPositions (· + 1))
        (f.mapPositions (· + (s.length + 4))))) ∧
    ∀ op : BinaryOp, op = .add ∨ op = .subtract →
      Expr.ofText none ("(" ++ s ++ ")" ++ op.symbol ++ t) =
        .ok (.binary op (s.length + 2) (e.mapPositions (· + 1))
          (f.mapPositions (· + (s.length + 3)))) := by
  obtain ⟨hd, hf⟩ := derives_of_ofText ht
  refine ⟨ofText_group hs, ofText_negated_group hs, ?_, ?_⟩
  · intro op
    have hright : Derives (home op) (scanFrom 0 ("(" ++ t ++ ")").toList) (f.mapPositions (· + 1)) := by
      have htext : ("(" ++ t ++ ")").toList = '(' :: t.toList ++ [')'] := by simp
      rw [htext]
      apply derives_of_factor ?_ (derives_group hd 0)
      cases op <;> decide
    have hmoved : (f.mapPositions (· + 1)).mapPositions (· + (s.length + 3)) =
        f.mapPositions (· + (s.length + 4)) := by
      rw [Expr.mapPositions_mapPositions]
      congr 1
      funext p
      omega
    have h := ofText_behind_group hs hright ((Expr.fits_mapPositions _ f).mpr hf)
    rwa [hmoved, ← String.append_assoc, ← String.append_assoc] at h
  · intro op hop
    have hright : Derives (home op) (scanFrom 0 t.toList) f := by
      rcases hop with rfl | rfl <;> exact hd
    exact ofText_behind_group hs hright hf

/-- The difference `8-3` in a group, and behind the group a minus sign and a difference, which
    keeps its own. -/
theorem composed_differences :
    (Expr.ofText none "8-3" = .ok (.binary .subtract 1 (.constant 0 8) (.constant 2 3)) ∧
      Expr.ofText none " 2-1" = .ok (.binary .subtract 2 (.constant 1 2) (.constant 3 1))) ∧
    Expr.ofText none "(8-3)- 2-1" =
      .ok (.binary .subtract 5 (.binary .subtract 2 (.constant 1 8) (.constant 3 3))
        (.binary .subtract 8 (.constant 7 2) (.constant 9 1))) := by
  have hs : Expr.ofText none "8-3" = .ok (.binary .subtract 1 (.constant 0 8) (.constant 2 3)) := rfl
  have ht : Expr.ofText none " 2-1" = .ok (.binary .subtract 2 (.constant 1 2) (.constant 3 1)) := rfl
  exact ⟨⟨hs, ht⟩, (ofText_composed hs ht).2.2.2 .subtract (.inr rfl)⟩

end Parse

end Abacus
