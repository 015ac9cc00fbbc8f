/-
  Abacus.Proofs.Text.Lines — texts that are one line when they are printed, and lines told
  apart by what they begin with.

  `IsLine` holds of a text without line feeds: of the numbers, of the messages and of the
  results that are put together here from smaller texts. Printing one writes it as a line of
  its own (`linesOf_of_isLine`), and what is printed in turn is written in turn
  (`printedLines_append`).

  A mark is what the lines of one kind begin with. A line that begins with one mark begins with no
  other, unless one of the two goes on the other (`begins_eq_false`), and a line without one of the
  characters of a mark does not begin with it (`begins_eq_false_of_not_mem`).

  - `Sorted`: which of the lines begin with each of some marks; lines put together are sorted
    together (`Sorted.append`).
  - `part_append`: the part that two marks cut out of lines is what stands between them.
-/

import Abacus.ParseError
import Abacus.Proofs.Binary64.Display
import Abacus.Text.Lines

namespace Abacus

/-! ## Numbers -/

theorem not_mem_of_digits {c : Char} (hc : c.isDigit = false) {cs : List Char}
    (h : ∀ d ∈ cs, d.isDigit = true) : c ∉ cs := by
  intro hm
  rw [h c hm] at hc
  cases hc

theorem not_mem_toString_nat {c : Char} (hc : c.isDigit = false) (n : Nat) : c ∉ (toString n).toList := by
  rw [Nat.toString_eq_ofList_toDigits, String.toList_ofList]
  exact not_mem_of_digits hc fun d => Binary64.isDigit_of_mem_toDigits

theorem toList_toString_int (i : Int) :
    (toString i).toList = (if i < 0 then ['-'] else []) ++ Nat.toDigits 10 i.natAbs := by
  cases i with
  | ofNat n => simp [toString, Int.repr]
  | negSucc n => simp [toString, Int.repr]

theorem not_mem_toString_int {c : Char} (hc : c.isDigit = false) (hminus : c ≠ '-') (i : Int) :
    c ∉ (toString i).toList := by
  rw [toList_toString_int, List.mem_append, not_or]
  refine ⟨?_, not_mem_of_digits hc fun d => Binary64.isDigit_of_mem_toDigits⟩
  split <;> simp [hminus]

namespace Text

def IsLine (text : String) : Prop := '\n' ∉ text.toList

instance (text : String) : Decidable (IsLine text) := inferInstanceAs (Decidable ('\n' ∉ text.toList))

theorem linesOf_of_isLine {text : String} (h : IsLine text) : linesOf text = [text] := by
  have hj : linesOf (joined [text]) = [text] := linesOf_joined (by simp) (by simpa [IsLine] using h)
  rwa [joined, String.intercalate_singleton] at hj

@[simp] theorem printedLines_append (as bs : List String) :
    printedLines (as ++ bs) = printedLines as ++ printedLines bs :=
  List.flatMap_append

theorem printedLines_suffix {as bs : List String} (h : as <:+ bs) : printedLines as <:+ printedLines bs := by
  obtain ⟨cs, rfl⟩ := h
  rw [printedLines_append]
  exact List.suffix_append ..

theorem printedLines_of_isLine {texts : List String} (h : ∀ text ∈ texts, IsLine text) :
    printedLines texts = texts := by
  induction texts with
  | nil => rfl
  | cons text texts ih =>
    obtain ⟨ht, hts⟩ := List.forall_mem_cons.mp h
    rw [printedLines, List.flatMap_cons, linesOf_of_isLine ht]
    exact congrArg (text :: ·) (ih hts)

/-- Joined lines with a line feed behind them are lines with a line feed behind each. -/
theorem joined_append_feed {lines : List String} (hne : lines ≠ []) :
    joined lines ++ "\n" = String.join (lines.map (· ++ "\n")) := by
  induction lines with
  | nil => exact absurd rfl hne
  | cons line lines ih =>
    cases lines with
    | nil => simp [joined]
    | cons next lines =>
      rw [List.map_cons, String.join_cons, ← ih (by simp), joined, String.intercalate_cons_cons]
      simp only [joined, String.append_assoc]

theorem isLine_append {a b : String} (ha : IsLine a) (hb : IsLine b) : IsLine (a ++ b) := by
  unfold IsLine at *
  rw [String.toList_append, List.mem_append, not_or]
  exact ⟨ha, hb⟩

theorem isLine_toString_nat (n : Nat) : IsLine (toString n) := not_mem_toString_nat rfl n

theorem isLine_toString_int (i : Int) : IsLine (toString i) := not_mem_toString_int rfl (by decide) i

end Text

open Text

/-! ## Messages -/

theorem ParseError.isLine_message (e : ParseError) : IsLine e.message := by
  have hd : IsLine e.description := by
    rcases e with _ | _ | ⟨cause, p⟩
    · decide
    · decide
    · have hc : ∀ cause : Cause, IsLine cause.description := by
        intro cause
        cases cause <;> decide
      exact hc cause
  unfold message
  split
  · exact hd
  · exact isLine_append (isLine_append hd (by decide)) (isLine_toString_int _)

/-! ## Results -/

namespace Binary64

theorem not_feed_positional {digits : List Char} (h : '\n' ∉ digits) (exponent : Int) :
    '\n' ∉ positional digits exponent := by
  have hz : ∀ n, '\n' ∉ zeros n := fun n => not_mem_of_digits rfl fun c => mem_zeros
  have ht : ∀ n, '\n' ∉ digits.take n := fun n hm => h (List.mem_of_mem_take hm)
  have hd : ∀ n, '\n' ∉ digits.drop n := fun n hm => h (List.mem_of_mem_drop hm)
  unfold positional
  dsimp only
  split
  · simp [h, hz]
  · split <;> simp [h, hz, ht, hd]

theorem not_feed_exponentText (width : Nat) (exponent : Int) : '\n' ∉ exponentText width exponent := by
  have hz : ∀ n, '\n' ∉ zeros n := fun n => not_mem_of_digits rfl fun c => mem_zeros
  have hd : ∀ n, '\n' ∉ Nat.toDigits 10 n := fun n => not_mem_of_digits rfl fun c => isDigit_of_mem_toDigits
  unfold exponentText
  dsimp only
  split <;> simp [hz, hd]

theorem not_feed_scientific {digits : List Char} (h : '\n' ∉ digits) (width : Nat) (exponent : Int) :
    '\n' ∉ scientific width digits exponent := by
  have he := not_feed_exponentText width exponent
  unfold scientific
  split <;> simp_all

theorem isLine_write (layout : Layout) (d : Decimal) : IsLine (layout.write d) := by
  have hs : '\n' ∉ significant d.digits := not_mem_of_digits rfl fun c => mem_significant
  unfold IsLine Layout.write
  dsimp only
  rw [String.toList_ofList]
  split
  · exact not_feed_positional hs _
  · exact not_feed_scientific hs _ _

theorem isLine_signText (negative : Bool) : IsLine (signText negative) := by
  cases negative <;> decide

theorem isLine_text (x : Binary64) : IsLine x.text := by
  cases x with
  | nan => decide
  | infinity negative => exact isLine_append (isLine_signText negative) (by decide)
  | finite negative units h =>
    refine isLine_append (isLine_signText negative) ?_
    split
    · decide
    · exact isLine_write _ _

theorem isLine_display (x : Binary64) : IsLine x.display := by
  cases x with
  | nan => decide
  | infinity negative => exact isLine_append (isLine_signText negative) (by decide)
  | finite negative units h =>
    rw [display]
    split
    · exact isLine_append (isLine_signText negative) (isLine_toString_nat _)
    · exact isLine_text _

end Binary64

end Abacus

namespace Abacus.Text

def begins (mark line : String) : Bool := mark.toList.isPrefixOf line.toList

/-- The lines between the first that begins with one mark and the next that begins with another. -/
def part (opening closing : String) (lines : List String) : List String :=
  ((lines.dropWhile (!begins opening ·)).drop 1).takeWhile (!begins closing ·)

/-! ## Marks -/

variable {mark mark' line text : String}

theorem begins_iff : begins mark line = true ↔ mark.toList <+: line.toList :=
  List.isPrefixOf_iff_prefix

theorem begins_append (h : begins mark line = true) (text : String) : begins mark (line ++ text) = true := by
  rw [begins_iff, String.toList_append]
  exact (begins_iff.mp h).trans (List.prefix_append _ _)

def Marked (mark line : String) : Prop := IsLine line ∧ begins mark line = true

instance (mark line : String) : Decidable (Marked mark line) :=
  inferInstanceAs (Decidable (IsLine line ∧ begins mark line = true))

theorem Marked.append (h : Marked mark line) (ht : IsLine text) : Marked mark (line ++ text) :=
  ⟨isLine_append h.1 ht, begins_append h.2 text⟩

theorem begins_eq_false (h : begins mark line = true)
    (hne : begins mark mark' = false ∧ begins mark' mark = false) : begins mark' line = false := by
  rw [Bool.eq_false_iff]
  intro h'
  rcases List.prefix_or_prefix_of_prefix (begins_iff.mp h) (begins_iff.mp h') with hp | hp
  · exact Bool.false_ne_true (hne.1.symm.trans (begins_iff.mpr hp))
  · exact Bool.false_ne_true (hne.2.symm.trans (begins_iff.mpr hp))

theorem begins_eq_false_of_not_mem {c : Char} (hc : c ∈ mark.toList) (h : c ∉ line.toList) :
    begins mark line = false := by
  rw [Bool.eq_false_iff]
  intro hm
  exact h ((begins_iff.mp hm).subset hc)

/-! ## Lines by their marks -/

section Sorted

variable {marks as bs lines : List String} {f g : String → List String}

/-- Which of the lines begin with each of the marks. -/
def Sorted (marks lines : List String) (f : String → List String) : Prop :=
  ∀ mark ∈ marks, lines.filter (begins mark) = f mark

theorem Sorted.append (ha : Sorted marks as f) (hb : Sorted marks bs g) :
    Sorted marks (as ++ bs) (fun mark => f mark ++ g mark) := by
  intro mark hm
  rw [List.filter_append, ha mark hm, hb mark hm]

/-- One mark has lines, and the others have none. -/
def only (mark : String) (lines : List String) : String → List String :=
  fun mark' => if mark' = mark then lines else []

theorem only_self (mark : String) (lines : List String) : only mark lines mark = lines := if_pos rfl

theorem only_of_ne (h : mark' ≠ mark) (lines : List String) : only mark lines mark' = [] := if_neg h

/-- None of the lines begins with a mark. -/
theorem sorted_plain (h : ∀ line ∈ lines, ∀ mark ∈ marks, begins mark line = false) :
    Sorted marks lines fun _ => [] := by
  intro mark hm
  rw [List.filter_eq_nil_iff]
  intro line hl
  rw [h line hl mark hm]
  exact Bool.false_ne_true

/-- All the lines begin with one of the marks, and none of them with another. -/
theorem sorted_marked (h : ∀ line ∈ lines, begins mark line = true)
    (hne : ∀ mark' ∈ marks, mark' ≠ mark → begins mark mark' = false ∧ begins mark' mark = false) :
    Sorted marks lines (only mark lines) := by
  intro mark' hm
  by_cases hmark : mark' = mark
  · rw [hmark, only_self, List.filter_eq_self]
    exact h
  · rw [only_of_ne hmark, List.filter_eq_nil_iff]
    intro line hl
    rw [begins_eq_false (h line hl) (hne mark' hm hmark)]
    exact Bool.false_ne_true

theorem Sorted.countP (h : Sorted marks lines f) (hm : mark ∈ marks) :
    lines.countP (begins mark) = (f mark).length := by
  rw [List.countP_eq_length_filter, h mark hm]

theorem Sorted.not_begins (h : Sorted marks lines f) (hm : mark ∈ marks) (hf : f mark = []) :
    ∀ line ∈ lines, begins mark line = false := by
  intro line hl
  have hnil := h mark hm
  rw [hf, List.filter_eq_nil_iff] at hnil
  simpa using hnil line hl

end Sorted

/-! ## Parts -/

theorem part_append {opening closing first last : String} {before inside after : List String}
    (hbefore : ∀ line ∈ before, begins opening line = false) (hfirst : begins opening first = true)
    (hinside : ∀ line ∈ inside, begins closing line = false) (hlast : begins closing last = true) :
    part opening closing (before ++ first :: (inside ++ last :: after)) = inside := by
  have hdrop : (before ++ first :: (inside ++ last :: after)).dropWhile (!begins opening ·) =
      first :: (inside ++ last :: after) := by
    rw [List.dropWhile_append_of_pos (by simpa using hbefore), List.dropWhile_cons_of_neg (by simp [hfirst])]
  unfold part
  rw [hdrop, List.drop_one, List.tail_cons, List.takeWhile_append_of_pos (by simpa using hinside),
    List.takeWhile_cons_of_neg (by simp [hlast]), List.append_nil]

/-! ## Lines of a text -/

/-- The lines of a text have no other characters than the text. -/
theorem mem_of_mem_pieces {cs piece : List Char} (h : piece ∈ pieces cs) : ∀ c ∈ piece, c ∈ cs := by
  induction cs generalizing piece with
  | nil =>
    rw [pieces, List.mem_singleton] at h
    rw [h]
    exact fun c hc => hc
  | cons b cs ih =>
    intro c hc
    unfold pieces at h
    split at h
    · rcases List.mem_cons.mp h with rfl | h
      · cases hc
      · exact List.mem_cons_of_mem b (ih h c hc)
    · rcases hp : pieces cs with _ | ⟨first, rest⟩
      · exact absurd hp (pieces_ne_nil cs)
      · rw [hp] at h
        rcases List.mem_cons.mp h with rfl | h
        · rcases List.mem_cons.mp hc with rfl | hc
          · exact List.mem_cons_self
          · exact List.mem_cons_of_mem b (ih (by rw [hp]; exact List.mem_cons_self) c hc)
        · exact List.mem_cons_of_mem b (ih (by rw [hp]; exact List.mem_cons_of_mem first h) c hc)

/-- A text printed behind one line goes on that line, and may have more lines. -/
theorem mem_linesOf_append (hm : IsLine mark) (h : line ∈ linesOf (mark ++ text)) :
    begins mark line = true ∨ ∀ c ∈ line.toList, c ∈ text.toList := by
  unfold linesOf at h
  rw [String.toList_append, pieces_append hm] at h
  obtain ⟨piece, hpiece, rfl⟩ := List.mem_map.mp h
  rw [begins_iff, String.toList_ofList]
  rcases List.mem_cons.mp hpiece with rfl | hpiece
  · exact .inl (List.prefix_append _ _)
  · exact .inr (mem_of_mem_pieces (List.mem_of_mem_tail hpiece))

end Abacus.Text
