/-
  Abacus.Proofs.CommandLine.Marked — what a command prints, line by line.

  The scanner, the parser and the evaluation print lines, each with a mark of its own in front
  (`marked_scanLine`, `marked_of_mem_runLines`, `marked_line`). The other lines of a report are told
  by the marks that they do not have (`Plain`): those of a text that is an expression, because no
  character of it stands in a mark (`plain_of_recognized`), those of a drawing and of a graph,
  because they are indented (`plain_of_indented`), and a result, because it begins with a digit, a
  sign or the name of a value (`plain_display`).
-/

import Abacus.CommandLine
import Abacus.Proofs.Binary64.Reading
import Abacus.Proofs.Expr.Graph
import Abacus.Proofs.Expr.Drawing
import Abacus.Proofs.Expr.Spelling
import Abacus.Proofs.Parse.Derivation
import Abacus.Proofs.Text.Lines
import Abacus.Proofs.Parse.Listing

namespace Abacus

open Text

/-! ## Lines -/

namespace Token

variable {text : String} {t : Token}

theorem isLine_lexeme (h : t ∈ scan text) : IsLine t.lexeme := by
  obtain ⟨c, hc, hs⟩ := scanned_of_mem_scan h
  rw [(shape_eq_shapeOf_iff.mp hs).2]
  intro hm
  have hfeed : '\n' = c := by simpa [Char.toString] using hm
  rw [← hfeed] at hc
  cases hc

theorem marked_scanLine (h : t ∈ scan text) : Marked "[DEBUG]" (scanLine t) := by
  have hposition : Marked "[DEBUG]" ("[DEBUG] pos=" ++ toString t.position) :=
    Marked.append (by decide) (isLine_toString_int _)
  have hname : IsLine t.kind.name := by cases t.kind <;> decide
  exact (((hposition.append (by decide)).append (isLine_lexeme h)).append (by decide)).append hname

theorem isLine_piecesAfter {t : Token} {ts : List Token} (h : ∀ u ∈ ts, IsLine u.lexeme) :
    ∀ piece ∈ piecesAfter t ts, IsLine piece := by
  induction ts generalizing t with
  | nil => exact nofun
  | cons u us ih =>
    obtain ⟨hu, hus⟩ := List.forall_mem_cons.mp h
    unfold piecesAfter
    split
    · exact List.forall_mem_cons.mpr ⟨hu, ih hus⟩
    · exact List.forall_mem_cons.mpr ⟨by decide, List.forall_mem_cons.mpr ⟨hu, ih hus⟩⟩

theorem isLine_listing {ts : List Token} (h : ∀ t ∈ ts, IsLine t.lexeme) : IsLine (listing ts) := by
  rcases ts with _ | ⟨t, ts⟩
  · decide
  · obtain ⟨ht, hts⟩ := List.forall_mem_cons.mp h
    unfold listing IsLine
    rw [String.toList_join]
    intro hm
    obtain ⟨piece, hpiece, hc⟩ := List.mem_flatMap.mp hm
    rcases List.mem_cons.mp hpiece with rfl | hpiece
    · exact ht hc
    · exact isLine_piecesAfter hts piece hpiece hc

end Token

theorem Expr.isLine_prefixText {e : Expr} {line : String} (h : e.prefixText none = .ok line) :
    IsLine line := by
  induction e generalizing line with
  | binary op position lhs rhs ihl ihr =>
    obtain ⟨l, r, hl, hr, hline⟩ := prefixText_binary h
    have hsymbol : '\n' ∉ op.symbol.toList := by cases op <;> decide
    have hleft : '\n' ∉ l.toList := ihl hl
    have hright : '\n' ∉ r.toList := ihr hr
    unfold IsLine
    rw [← List.append_nil line.toList, hline []]
    simp [hsymbol, hleft, hright]
  | unary op position operand ih =>
    obtain ⟨x, hx, hline⟩ := prefixText_unary h
    have hoperand : '\n' ∉ x.toList := ih hx
    unfold IsLine
    rw [← List.append_nil line.toList, hline []]
    simp [hoperand]
  | constant position value =>
    cases h
    exact isLine_toString_nat value
  | stray text => cases h

namespace Parse

theorem Event.isLine_describe (event : Event) : IsLine event.describe := by
  cases event with
  | expression index | term index => exact isLine_append (by decide) (isLine_toString_nat _)
  | integer value position =>
    exact isLine_append (isLine_append (isLine_append (by decide) (isLine_toString_int _)) (by decide))
      (isLine_toString_int _)
  | negation position | group position => exact isLine_append (by decide) (isLine_toString_int _)

/-- What a run prints are lines of the parser's own. -/
theorem marked_of_mem_runLines (limit : Limit) (text : String) (r : Run Partial) :
    ∀ line ∈ runLines limit (Token.scan text) r, Marked "[PARSE]" line := by
  have hlogged : ∀ message, IsLine message → Marked "[PARSE]" (logLine message) :=
    fun message => Marked.append (by decide)
  intro line hl
  rw [runLines, List.mem_cons, List.mem_append, List.mem_map] at hl
  rcases hl with rfl | ⟨event, -, rfl⟩ | hl
  · exact hlogged _ (isLine_append (by decide) (Token.isLine_listing fun t => Token.isLine_lexeme))
  · exact hlogged _ event.isLine_describe
  · obtain ⟨p, spelled, hp, rfl⟩ := mem_closingLines hl
    exact hlogged _ (isLine_append (isLine_append (isLine_append (isLine_append (by decide)
      (Expr.isLine_prefixText hp)) (by decide)) (isLine_toString_nat _)) (by decide))

end Parse

theorem Evaluation.Event.marked_line (event : Evaluation.Event Binary64) :
    Marked "[EVAL]" (event.line Binary64.text) := by
  cases event with
  | constant value position =>
    have hvalue : Marked "[EVAL]" ("[EVAL] constant " ++ toString value) :=
      Marked.append (by decide) (isLine_toString_nat value)
    exact (hvalue.append (by decide)).append (isLine_toString_int position)
  | unary op position result =>
    have hsymbol : Marked "[EVAL]" ("[EVAL] " ++ op.symbol) :=
      Marked.append (by decide) (by cases op; decide)
    have hplaced := (hsymbol.append (show IsLine " @ " by decide)).append (isLine_toString_int position)
    exact (hplaced.append (by decide)).append result.isLine_text
  | binary lhs op rhs position result =>
    have hlhs : Marked "[EVAL]" ("[EVAL] " ++ lhs.text) := Marked.append (by decide) lhs.isLine_text
    have hsymbol := (hlhs.append (show IsLine " " by decide)).append (show IsLine op.symbol by cases op <;> decide)
    have hrhs := (hsymbol.append (show IsLine " " by decide)).append rhs.isLine_text
    have hplaced := (hrhs.append (show IsLine " @ " by decide)).append (isLine_toString_int position)
    exact (hplaced.append (by decide)).append result.isLine_text

/-! ## Lines without a mark -/

/-- The grammar derives no token of a character outside it. -/
theorem Grammar.Derives.kind_ne_unrecognized {n : Nonterminal} {ts : List Token} {e : Expr}
    (h : Derives n ts e) : ∀ t ∈ ts, t.kind ≠ .unrecognized := by
  have hoperator : ∀ {k : Token.Kind} {op : BinaryOp},
      additive? k = some op ∨ multiplicative? k = some op → k ≠ .unrecognized := by
    rintro k op ho rfl
    rcases ho with ho | ho <;> cases ho
  induction h with
  | number hd =>
    intro t ht
    have hkind : t.kind = .digit := by simpa [Token.isDigit] using hd t ht
    simp [hkind]
  | integer _ ih | factor _ ih | term _ ih => exact ih
  | negation hk _ ih => exact List.forall_mem_cons.mpr ⟨by simp [hk], ih⟩
  | group hf _ hl ih =>
    exact List.forall_mem_append.mpr
      ⟨List.forall_mem_cons.mpr ⟨by simp [hf], ih⟩, List.forall_mem_singleton.mpr (by simp [hl])⟩
  | product _ ho _ ihl ihr =>
    exact List.forall_mem_append.mpr ⟨ihl, List.forall_mem_cons.mpr ⟨hoperator (.inr ho), ihr⟩⟩
  | sum _ ho _ ihl ihr =>
    exact List.forall_mem_append.mpr ⟨ihl, List.forall_mem_cons.mpr ⟨hoperator (.inl ho), ihr⟩⟩

namespace CommandLine

variable {line text : String}

def marks : List String := ["[DEBUG]", "[EVAL]", "  Found ", "== Parsing ==", "strict graph \x7b"]

/-- A line that begins with none of them. -/
def Plain (line : String) : Prop := ∀ mark ∈ marks, begins mark line = false

instance (line : String) : Decidable (Plain line) :=
  inferInstanceAs (Decidable (∀ mark ∈ marks, begins mark line = false))

/-- What else the line begins with rules the marks out. -/
theorem plain_of_begins {other : String} (h : begins other line = true)
    (hne : ∀ mark ∈ marks, begins other mark = false ∧ begins mark other = false) : Plain line :=
  fun mark hm => begins_eq_false h (hne mark hm)

def Recognized (c : Char) : Prop := Token.isBlank c = false → Token.Kind.ofChar c ≠ .unrecognized

theorem recognized_of_derives {n : Grammar.Nonterminal} {e : Expr}
    (h : Grammar.Derives n (Token.scan text) e) : ∀ c ∈ text.toList, Recognized c := by
  intro c hc hblank
  have hshape : Token.shapeOf c ∈ (Token.scan text).map Token.shape := by
    rw [Token.shapes_scan]
    exact List.mem_map_of_mem (List.mem_filter.mpr ⟨hc, by simp [hblank]⟩)
  obtain ⟨t, ht, hs⟩ := List.mem_map.mp hshape
  rw [← (Token.shape_eq_shapeOf_iff.mp hs).1]
  exact h.kind_ne_unrecognized t ht

theorem plain_of_recognized (h : ∀ c ∈ line.toList, Recognized c) : Plain line := by
  have hstranger : ∀ mark ∈ marks, ∃ c ∈ mark.toList, ¬ Recognized c := by
    have hnot : ∀ c, Token.isBlank c = false → Token.Kind.ofChar c = .unrecognized → ¬ Recognized c :=
      fun c hblank hkind hc => hc hblank hkind
    simp only [marks, List.forall_mem_cons]
    exact ⟨⟨'[', by decide, hnot _ rfl rfl⟩, ⟨'[', by decide, hnot _ rfl rfl⟩,
      ⟨'F', by decide, hnot _ rfl rfl⟩, ⟨'=', by decide, hnot _ rfl rfl⟩,
      ⟨'s', by decide, hnot _ rfl rfl⟩, nofun⟩
  intro mark hm
  obtain ⟨c, hc, hn⟩ := hstranger mark hm
  exact begins_eq_false_of_not_mem hc fun hl => hn (h c hl)

/-- Of the marks only one is indented, and has a letter that the line does not have. -/
theorem plain_of_indented (h : begins "  " line = true) (hF : 'F' ∉ line.toList) : Plain line := by
  intro mark hm
  by_cases hfound : mark = "  Found "
  · rw [hfound]
    exact begins_eq_false_of_not_mem (by decide) hF
  · have hne : ∀ mark ∈ marks, mark ≠ "  Found " → begins "  " mark = false ∧ begins mark "  " = false := by
      decide
    exact begins_eq_false h (hne mark hm hfound)

end CommandLine

/-- Nothing is read that begins neither with a digit nor with a sign. -/
theorem Binary64.ofText?_eq_none {text : String} {c : Char} {cs : List Char} (h : text.toList = c :: cs)
    (hsign : c ≠ '-') (hdigit : c.isDigit = false) : ofText? text = none := by
  unfold ofText?
  rw [h]
  split
  · rename_i heq
    exact absurd (List.cons.inj heq).1 hsign
  · simp [Decimal.ofChars?, hdigit]

theorem CommandLine.plain_display (x : Binary64) : Plain x.display := by
  cases x with
  | nan => decide
  | infinity negative => cases negative <;> decide
  | finite negative units hr =>
    have hfirst : ∀ mark ∈ marks, ∃ c cs, mark.toList = c :: cs ∧ c ≠ '-' ∧ c.isDigit = false := by
      simp only [marks, List.forall_mem_cons]
      exact ⟨⟨'[', _, rfl, by decide⟩, ⟨'[', _, rfl, by decide⟩, ⟨' ', _, rfl, by decide⟩,
        ⟨'=', _, rfl, by decide⟩, ⟨'s', _, rfl, by decide⟩, nofun⟩
    intro mark hm
    obtain ⟨c, cs, hmark, hsign, hdigit⟩ := hfirst mark hm
    rw [Bool.eq_false_iff]
    intro hbegins
    obtain ⟨rest, hdisplay⟩ := begins_iff.mp hbegins
    rw [hmark, List.cons_append] at hdisplay
    have hread := Binary64.ofText?_display_eq (.finite negative units hr)
    rw [Binary64.ofText?_eq_none hdisplay.symm hsign hdigit] at hread
    cases hread

/-! ## Drawings and graphs -/

namespace Expr

section Letters

variable {c : Char} (hc : c ∉ " @-+*/│├└─".toList)
include hc

theorem not_mem_lead (path : List Bool) : c ∉ (lead path).toList := by
  have hmark : ∀ followed, (mark followed).toList ⊆ " @-+*/│├└─".toList := by decide
  have hcolumn : ∀ followed, (column followed).toList ⊆ " @-+*/│├└─".toList := by decide
  fun_induction lead path with
  | case1 => exact List.not_mem_nil
  | case2 followed => exact fun hm => hc (hmark followed hm)
  | case3 followed path hne ih =>
    rw [String.toList_append, List.mem_append, not_or]
    exact ⟨fun hm => hc (hcolumn followed hm), ih⟩

/-- A drawing has no letters. -/
theorem not_mem_of_mem_outline (hdigit : c.isDigit = false) {e : Expr} (h : e.NoStray) {path : List Bool} :
    ∀ line ∈ e.outline path, c ∉ line.toList := by
  have hline {m : Expr} (hm : m.NoStray) (path : List Bool) :
      c ∉ (outlineLine path m.caption m.place).toList := by
    have hsymbols : ['+', '-', '*', '/'] ⊆ " @-+*/│├└─".toList := by decide
    have hat : " @".toList ⊆ " @-+*/│├└─".toList := by decide
    have hminus : c ≠ '-' := fun heq => hc (heq ▸ by decide)
    unfold outlineLine
    simp only [String.toList_append, List.mem_append, not_or]
    exact ⟨⟨⟨not_mem_lead hc path, not_mem_caption hm hdigit fun ho => hc (hsymbols ho)⟩,
      fun ho => hc (hat ho)⟩, not_mem_toString_int hdigit hminus m.place⟩
  induction e generalizing path with
  | binary op position lhs rhs ihl ihr =>
    exact List.forall_mem_cons.mpr ⟨hline h path, List.forall_mem_append.mpr ⟨ihl h.1, ihr h.2⟩⟩
  | unary op position operand ih => exact List.forall_mem_cons.mpr ⟨hline h path, ih h⟩
  | constant position value => exact List.forall_mem_singleton.mpr (hline h path)
  | stray text => exact absurd h id

end Letters

end Expr

namespace Dot

/-- A statement is indented by two spaces, and an integer follows. -/
theorem words_of_ofLine? {cs : List Char} {st : Statement} (h : Statement.ofLine? cs = some st) :
    ∃ id rest, words cs = [] :: [] :: id :: rest ∧ (int? id).isSome := by
  unfold Statement.ofLine? at h
  split at h
  · rename_i id label hwords
    rcases hid : int? id with _ | n
    · rw [hid] at h
      cases h
    · exact ⟨id, _, hwords, by rw [hid]; rfl⟩
  · rename_i id others hwords
    rcases hid : int? id with _ | n
    · rw [hid] at h
      split at h <;> cases h
    · exact ⟨id, _, hwords, by rw [hid]; rfl⟩
  · cases h

theorem head?_words {c : Char} (hc : c ≠ ' ') (cs : List Char) : (words (c :: cs)).head? ≠ some [] := by
  rw [words, if_neg hc]
  split <;> simp

/-- So no other line of a report is read as a statement. -/
theorem begins_eq_false_of_ofLine? {mark line : String} {st : Statement}
    (h : Statement.ofLine? line.toList = some st)
    (hm : mark.toList.head? ≠ some ' ' ∧ mark ≠ "" ∨ mark = "  Found ") : begins mark line = false := by
  rw [Bool.eq_false_iff]
  intro hbegins
  obtain ⟨rest, hline⟩ := begins_iff.mp hbegins
  obtain ⟨id, others, hwords, hid⟩ := words_of_ofLine? h
  rw [← hline] at hwords
  rcases hm with ⟨hspace, hne⟩ | rfl
  · rcases hlist : mark.toList with _ | ⟨c, cs⟩
    · exact hne (String.toList_eq_nil_iff.mp hlist)
    · rw [hlist, List.cons_append] at hwords
      rw [hlist] at hspace
      exact head?_words (fun heq => hspace (congrArg some heq)) (cs ++ rest) (by rw [hwords]; rfl)
  · have hfound : words ("  Found ".toList ++ rest) = [] :: [] :: "Found".toList :: words rest := by
      simp [words]
    rw [hfound] at hwords
    simp only [List.cons.injEq, true_and] at hwords
    rw [← hwords.1] at hid
    exact absurd hid (by decide)

end Dot

theorem CommandLine.plain_of_statement {line : String} {st : Dot.Statement}
    (h : Dot.Statement.ofLine? line.toList = some st) : Plain line := by
  have hmarks : ∀ mark ∈ marks, mark.toList.head? ≠ some ' ' ∧ mark ≠ "" ∨ mark = "  Found " := by decide
  exact fun mark hm => Dot.begins_eq_false_of_ofLine? h (hmarks mark hm)

end Abacus
