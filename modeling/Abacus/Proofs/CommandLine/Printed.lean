/-
  Abacus.Proofs.CommandLine.Printed — what a command prints on a script.

  A script keeps what is printed on it in order, so each piece of a command is told by the
  texts that it adds and by how often it reads the clock (`Script.after`).

  - `on_run_of_tree` / `on_run_of_refusal`: a run over a text with a tree prints the steps of
    the parser, the report, the answer and the total time, and gives 0; over a text that is
    refused it prints the steps and the reason, and gives 1.
  - `shown_of_ofText`: whatever a command shows of a tree, the tree of a text has it.
  - `scripted_of_tree` / `scripted_of_refusal`: a command with a text is the run of its
    invocation behind the invocation as understood, and leaves the switch as it was.
-/

import Abacus.CommandLine
import Abacus.Proofs.Evaluation.Structural
import Abacus.Proofs.Expr.Drawing
import Abacus.Proofs.Expr.Graph
import Abacus.Proofs.Parse.Derivation

namespace Abacus

def Script.after (s : Script) (readings : Nat) (texts : List String) : Script :=
  { s with readings := s.readings + readings, texts := s.texts ++ texts }

theorem Script.after_after (s : Script) (m n : Nat) (as bs : List String) :
    (s.after m as).after n bs = s.after (m + n) (as ++ bs) := by
  simp only [after, Nat.add_assoc, List.append_assoc]

theorem Script.lines_after (clock : Nat → Rat) (tracing : Bool) (n : Nat) (texts : List String) :
    ((start clock tracing).after n texts).lines = Text.printedLines texts := rfl

@[simp] theorem Script.tracing_after (s : Script) (n : Nat) (texts : List String) :
    (s.after n texts).tracing = s.tracing := rfl

namespace CommandLine

variable {α β : Type}

/-- Work of a command on a script: its result, and the script after it. -/
def on (work : ExceptT Failure (StateM Script) α) (s : Script) : Except Failure α × Script :=
  StateT.run work.run s

theorem on_pure (a : α) (s : Script) : on (pure a) s = (.ok a, s) := rfl

theorem on_bind_of_ok {work : ExceptT Failure (StateM Script) α} {s s' : Script} {a : α}
    (h : on work s = (.ok a, s')) (next : α → ExceptT Failure (StateM Script) β) :
    on (work >>= next) s = on (next a) s' := by
  have hbind : on (work >>= next) s = match on work s with
      | (.ok a, s') => on (next a) s'
      | (.error f, s') => (.error f, s') := by
    show StateT.run (work.run >>= ExceptT.bindCont next) s = _
    unfold on
    rw [StateT.run_bind]
    rcases StateT.run work.run s with ⟨_ | _, _⟩ <;> rfl
  rw [hbind, h]

theorem on_printAll (texts : List String) (s : Script) :
    on (Console.printAll texts) s = (.ok (), s.after 0 texts) := rfl

theorem on_now (s : Script) : on Console.now s = (.ok (s.clock s.readings), s.after 1 []) := by
  show (_, _) = (_, Script.mk _ _ _ (s.texts ++ []))
  rw [List.append_nil]

theorem on_tracing (s : Script) : on Console.tracing s = (.ok s.tracing, s) := rfl

theorem on_ofExcept {ε : Type} {outcome : Except ε α} {a : α} (h : outcome = .ok a)
    (g : ε → Failure) (s : Script) :
    on (MonadExcept.ofExcept (outcome.mapError g)) s = (.ok a, s) := by
  rw [h]
  rfl

/-! ## Pieces of a command -/

def scanningTexts (text : String) (time : Int) : List String :=
  ["== Scanning ==", s!"  Tokens: {Token.listing (Token.scan text)}", s!"  Time: {time}ms",
    s!"  Found {(Token.scan text).length} tokens", ""]

theorem on_reportScanning (text : String) (s : Script) : on (reportScanning text) s =
    (.ok (), s.after 2 (scanningTexts text
      (Console.elapsed (s.clock s.readings) (s.clock (s.readings + 1))))) := by
  unfold reportScanning Console.print
  rw [on_bind_of_ok (on_printAll _ s), on_bind_of_ok (on_now _), on_bind_of_ok (on_now _), on_printAll]
  simp only [Script.after_after]
  rfl

/-- Everything about a tree that a command may show. -/
structure Shown (root : Expr) where
  drawing : List String
  nodes : Nat
  graph : String
  value : Binary64
  drawingLines_eq : root.drawingLines = .ok drawing
  count_eq : root.count = .ok nodes
  graph_eq : root.graph = .ok graph
  value_eq : root.value = .ok value

variable {root : Expr} (x : Shown root)

theorem shown_of_ofText {limit : Limit} {text : String} (h : Expr.ofText limit text = .ok root) :
    Nonempty (Shown root) := by
  obtain ⟨hd, hf⟩ := Parse.derives_of_ofText h
  have hs := hd.noStray
  exact ⟨_, _, _, _, Expr.drawingLines_eq_outline hs, Expr.count_of_noStray hs,
    Expr.graph_of_noStray hs, Expr.value_eq_ok hs hf⟩

def parsingTexts (time : Int) : List String :=
  "== Parsing ==" :: x.drawing.map ("  " ++ ·) ++
    [s!"  Time: {time}ms", s!"  Found {x.nodes} nodes", ""]

theorem on_reportParsing (time : Int) (s : Script) :
    on (reportParsing root time) s = (.ok (), s.after 0 (parsingTexts x time)) := by
  unfold reportParsing Console.print
  rw [on_bind_of_ok (on_printAll _ s), on_bind_of_ok (on_ofExcept x.drawingLines_eq _ _),
    on_bind_of_ok (on_printAll _ _), on_bind_of_ok (on_printAll _ _),
    on_bind_of_ok (on_ofExcept x.count_eq _ _), on_printAll]
  simp only [Script.after_after]
  simp [parsingTexts]

theorem on_showGraph (s : Script) : on (showGraph root) s = (.ok (), s.after 0 [x.graph]) := by
  unfold showGraph Console.print
  rw [on_bind_of_ok (on_ofExcept x.graph_eq _ _), on_printAll]

def valueTexts (debug tracing : Bool) (time : Int) : List String :=
  (if debug then ["== Evaluation =="] else []) ++ (root.evaluate tracing).printed ++
    (if debug then [s!"  Time: {time}ms", ""] else []) ++ [x.value.display]

theorem on_showValue (debug : Bool) (parsed : Rat) (s : Script) :
    on (showValue debug parsed root) s = (.ok (), s.after (if debug then 1 else 0)
      (valueTexts x debug s.tracing (Console.elapsed parsed (s.clock s.readings)))) := by
  have hvalue : ∀ tracing, (root.evaluate tracing).outcome = .ok x.value := fun _ => x.value_eq
  unfold showValue Console.print
  cases debug with
  | false =>
    simp only [Bool.false_eq_true, if_false]
    rw [on_bind_of_ok (on_tracing s), on_bind_of_ok (on_printAll _ s),
      on_bind_of_ok (on_ofExcept (hvalue _) _ _), on_printAll]
    simp [Script.after_after, valueTexts]
  | true =>
    simp only [if_true]
    rw [on_bind_of_ok (on_printAll _ s), on_bind_of_ok (on_tracing _), on_bind_of_ok (on_printAll _ _),
      on_bind_of_ok (on_ofExcept (hvalue _) _ _), on_bind_of_ok (on_now _),
      on_bind_of_ok (on_printAll _ _), on_printAll]
    simp only [Script.after_after]
    simp [valueTexts, Script.after]

/-! ## Runs -/

variable (limit : Limit) (i : Invocation) (next : Unit → ExceptT Failure (StateM Script) β)

def stepTexts : List String := (Parse.parseText limit i.debug i.text).printed

def reportTexts (scanTime parseTime : Int) : List String :=
  if i.debug then "" :: scanningTexts i.text scanTime ++ parsingTexts x parseTime else []

theorem on_report (time : Int) (s : Script) :
    on (if i.debug = true then do
        Console.print ""
        reportScanning i.text
        let r ← reportParsing root time
        next r
      else next ()) s =
    on (next ()) (s.after (if i.debug then 2 else 0)
      (reportTexts x i (Console.elapsed (s.clock s.readings) (s.clock (s.readings + 1))) time)) := by
  unfold reportTexts Console.print
  split
  · rw [on_bind_of_ok (on_printAll _ s), on_bind_of_ok (on_reportScanning _ _),
      on_bind_of_ok (on_reportParsing x _ _)]
    simp only [Script.after_after]
    rfl
  · simp [Script.after]

def answerTexts (tracing : Bool) (time : Int) : List String :=
  if i.dot then [x.graph] else valueTexts x i.debug tracing time

theorem on_answer (parsed : Rat) (s : Script) :
    on (if i.dot = true then showGraph root >>= next else showValue i.debug parsed root >>= next) s =
    on (next ()) (s.after (if i.dot then 0 else if i.debug then 1 else 0)
      (answerTexts x i s.tracing (Console.elapsed parsed (s.clock s.readings)))) := by
  unfold answerTexts
  split
  · exact on_bind_of_ok (on_showGraph x s) next
  · exact on_bind_of_ok (on_showValue x i.debug parsed s) next

def totalTexts (time : Int) : List String :=
  if i.debug then [s!"Total time: {time}ms"] else []

theorem on_total (start : Rat) (s : Script) :
    on (if i.debug = true then do
        let finished ← Console.now
        let r ← Console.print s!"Total time: {Console.elapsed start finished}ms"
        next r
      else next ()) s =
    on (next ()) (s.after (if i.debug then 1 else 0)
      (totalTexts i (Console.elapsed start (s.clock s.readings)))) := by
  unfold totalTexts Console.print
  split
  · rw [on_bind_of_ok (on_now s), on_bind_of_ok (on_printAll _ _)]
    simp only [Script.after_after]
    rfl
  · simp [Script.after]

theorem on_run_of_tree (h : Expr.ofText limit i.text = .ok root) (s : Script) :
    ∃ readings scanTime parseTime valueTime time, on (run limit i) s =
      (.ok 0, s.after readings (stepTexts limit i ++ reportTexts x i scanTime parseTime ++
        answerTexts x i s.tracing valueTime ++ totalTexts i time)) := by
  have hout : (Parse.parseText limit i.debug i.text).outcome = .ok root :=
    (Parse.parseText_outcome limit i.debug i.text).trans h
  unfold run
  rw [on_bind_of_ok (on_now s), on_bind_of_ok (on_printAll _ _)]
  simp only [hout]
  rw [on_bind_of_ok (on_now _), on_report x i, on_answer x i, on_total i, on_pure]
  simp only [Script.after_after, Script.tracing_after, List.nil_append, List.append_nil]
  exact ⟨_, _, _, _, _, rfl⟩

theorem on_run_of_refusal {e : ParseError}
    (h : Expr.ofText limit i.text = .error (.refused e)) (s : Script) :
    on (run limit i) s = (.ok 1, s.after 1 (stepTexts limit i ++ [s!"Error: {e.message}"])) := by
  have hout : (Parse.parseText limit i.debug i.text).outcome = .error (.refused e) :=
    (Parse.parseText_outcome limit i.debug i.text).trans h
  unfold run Console.print
  rw [on_bind_of_ok (on_now s), on_bind_of_ok (on_printAll _ _)]
  simp only [hout]
  rw [on_bind_of_ok (on_printAll _ _), on_pure]
  simp only [Script.after_after]
  rfl

def invocationTexts : List String :=
  let output := if i.dot then "graph" else "value"
  if i.debug then ["=== calc ===", s!"Input: {i.text}", s!"Output: {output}", ""] else []

/-! ## Without debugging -/

section

variable {i} (h : i.debug = false)
include h

theorem invocationTexts_of_not_debug : invocationTexts i = [] := by
  simp [invocationTexts, h]

theorem stepTexts_of_not_debug : stepTexts limit i = [] := by
  rw [stepTexts, h]
  rfl

theorem answerTexts_of_not_debug (time : Int) :
    answerTexts x i false time = if i.dot then [x.graph] else [x.value.display] := by
  simp [answerTexts, valueTexts, h, Expr.evaluate, Evaluation.transcript]

/-- Only the answer is printed. -/
theorem texts_of_not_debug (tracing : Bool) (scanTime parseTime valueTime time : Int) :
    invocationTexts i ++ (stepTexts limit i ++ reportTexts x i scanTime parseTime ++
      answerTexts x i tracing valueTime ++ totalTexts i time) = answerTexts x i tracing valueTime := by
  rw [invocationTexts_of_not_debug h, stepTexts_of_not_debug limit h]
  simp [reportTexts, totalTexts, h]

end

/-! ## Whole commands -/

variable {arguments : List String} (clock : Nat → Rat) (tracing : Bool)

theorem scripted_of_no_words (h : (Invocation.ofArguments arguments).words = []) :
    scripted limit clock tracing arguments = (.ok 2, (Script.start clock tracing).after 0 [usage]) := by
  have hempty : (Invocation.ofArguments arguments).words.isEmpty = true := by rw [h]; rfl
  unfold scripted command
  simp only [hempty, if_true]
  rfl

def ready : Script := (Script.start clock (i.debug || tracing)).after 0 (invocationTexts i)

variable {i} (hi : Invocation.ofArguments arguments = i) (hwords : i.words ≠ [])
include hi hwords

theorem scripted_of_run {code readings : Nat} {texts : List String}
    (hrun : on (run limit i) (ready i clock tracing) = (.ok code, (ready i clock tracing).after readings texts)) :
    scripted limit clock tracing arguments =
      (.ok code, (Script.start clock tracing).after readings (invocationTexts i ++ texts)) := by
  have hempty : i.words.isEmpty = false := by simpa using hwords
  have hready : scripted limit clock tracing arguments = ((on (run limit i) (ready i clock tracing)).1,
      { (on (run limit i) (ready i clock tracing)).2 with tracing }) := by
    unfold scripted command
    simp only [hi, hempty]
    cases hdebug : i.debug <;> simp [hdebug, ready, invocationTexts] <;> rfl
  rw [hready, hrun]
  simp [ready, Script.after, Script.start]

theorem scripted_of_tree (h : Expr.ofText limit i.text = .ok root) :
    ∃ readings scanTime parseTime valueTime time, scripted limit clock tracing arguments =
      (.ok 0, (Script.start clock tracing).after readings
        (invocationTexts i ++ (stepTexts limit i ++ reportTexts x i scanTime parseTime ++
          answerTexts x i (i.debug || tracing) valueTime ++ totalTexts i time))) := by
  obtain ⟨readings, scanTime, parseTime, valueTime, time, hrun⟩ :=
    on_run_of_tree x limit i h (ready i clock tracing)
  exact ⟨readings, scanTime, parseTime, valueTime, time, scripted_of_run limit clock tracing hi hwords hrun⟩

theorem scripted_of_refusal {e : ParseError}
    (h : Expr.ofText limit i.text = .error (.refused e)) :
    scripted limit clock tracing arguments = (.ok 1, (Script.start clock tracing).after 1
      (invocationTexts i ++ (stepTexts limit i ++ [s!"Error: {e.message}"]))) :=
  scripted_of_run limit clock tracing hi hwords (on_run_of_refusal limit i h _)

end CommandLine

end Abacus
