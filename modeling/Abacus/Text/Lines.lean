/-
  Abacus.Text.Lines — texts and the lines they are printed as.

  A line ends at a line feed and nowhere else, so a line may hold a carriage return or
  any other odd character. Printing a text writes one line feed after it.

  `linesOf_joined` recovers a list of lines from the text they make: joining with line
  feeds loses nothing when no line holds one.

  A `Transcript` is what a piece of work printed on the way, whether it ended well or not.
-/

namespace Abacus.Text

/-- The pieces of a text between line feeds; a text with n of them has n + 1 pieces. -/
def pieces : List Char → List (List Char)
  | [] => [[]]
  | c :: cs =>
    if c = '\n' then [] :: pieces cs
    else
      match pieces cs with
      | [] => [[c]]
      | line :: rest => (c :: line) :: rest

def linesOf (text : String) : List String := (pieces text.toList).map String.ofList

def printedLines (texts : List String) : List String := texts.flatMap linesOf

/-- Lines joined by line feeds, with none after the last. -/
def joined (lines : List String) : String := "\n".intercalate lines

theorem pieces_ne_nil (cs : List Char) : pieces cs ≠ [] := by
  cases cs with
  | nil => simp [pieces]
  | cons c cs =>
    simp only [pieces]
    split
    · simp
    · split <;> simp

/-- A stretch without line feeds stays in the piece it begins. -/
theorem pieces_append {line : List Char} (h : '\n' ∉ line) (rest : List Char) :
    pieces (line ++ rest) =
      (line ++ (pieces rest).headD []) :: (pieces rest).tail := by
  induction line with
  | nil =>
    cases hp : pieces rest with
    | nil => exact absurd hp (pieces_ne_nil rest)
    | cons p ps => simp [hp]
  | cons c cs ih =>
    simp only [List.mem_cons, not_or] at h
    simp [pieces, Ne.symm h.1, ih h.2]

/-- Lines without line feeds come back from the text they make. -/
theorem linesOf_joined {lines : List String} (hne : lines ≠ []) (h : ∀ l ∈ lines, '\n' ∉ l.toList) :
    linesOf (joined lines) = lines := by
  have key : ∀ ls : List (List Char), ls ≠ [] → (∀ l ∈ ls, '\n' ∉ l) →
      pieces (['\n'].intercalate ls) = ls := by
    intro ls
    induction ls with
    | nil => intro h; exact absurd rfl h
    | cons a as ih =>
      intro _ hl
      have ha : '\n' ∉ a := hl a (List.mem_cons_self ..)
      cases as with
      | nil =>
        have := pieces_append ha []
        simpa [List.intercalate, pieces] using this
      | cons b bs =>
        have hb := ih (by simp) fun l hm => hl l (List.mem_cons_of_mem _ hm)
        have := pieces_append ha ('\n' :: ['\n'].intercalate (b :: bs))
        simp only [pieces, if_true, List.headD_cons, List.append_nil, List.tail_cons, hb] at this
        simpa [List.intercalate] using this
  unfold linesOf joined
  rw [String.toList_intercalate]
  have : "\n".toList = ['\n'] := rfl
  rw [this, key _ (by simpa using hne) (by simpa using h), List.map_map]
  simp [Function.comp_def]

end Abacus.Text

namespace Abacus

@[ext]
structure Transcript (ε α : Type) where
  printed : List String
  outcome : Except ε α

end Abacus
