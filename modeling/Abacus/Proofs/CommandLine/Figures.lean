/-
  Abacus.Proofs.CommandLine.Figures — the figures of a debug report agree with each other.

  What a debugged command prints for a tree are blocks, each printed by a piece of the command and
  sorted by the marks of a report: the lines of the scanner and one line with a figure before the
  drawing (`sorted_opening`), one line with a figure behind it (`sorted_parsing`), and the lines of
  the evaluation or the graph (`sorted_value`, `sorted_graph`).

  `report_figures`: so the lines of each kind are as many as the figures say, and these can be read
  off the text: its characters that are not blank, and its operators and numbers.
-/

import Abacus.Proofs.CommandLine.Marked
import Abacus.Proofs.CommandLine.Outcome
import Abacus.Proofs.Parse.Graph

namespace Abacus

open Text

/-- A drawing has a line for each node. -/
theorem Expr.length_outline {e : Expr} (h : e.NoStray) (path : List Bool) :
    (e.outline path).length = e.size := by
  induction e generalizing path with
  | binary op position lhs rhs ihl ihr => simp [outline, size, ihl h.1, ihr h.2]
  | unary op position operand ih => simp [outline, size, ih h]
  | constant position value => rfl
  | stray text => exact absurd h id

namespace CommandLine

/-! ## Before the drawing -/

variable (limit : Limit) {i : Invocation}

theorem sorted_invocation (hdebug : i.debug = true) (h : ∀ c ∈ i.text.toList, Recognized c) :
    Sorted marks (printedLines (invocationTexts i)) fun _ => [] := by
  have hoption : Plain ("Output: " ++ if i.dot then "graph" else "value") ∧
      IsLine ("Output: " ++ if i.dot then "graph" else "value") := by
    cases i.dot <;> decide
  have hline {text line : String} (hl : line ∈ linesOf text) (ht : Plain text ∧ IsLine text) : Plain line := by
    rw [linesOf_of_isLine ht.2, List.mem_singleton] at hl
    rw [hl]
    exact ht.1
  refine sorted_plain ?_
  intro line hl
  obtain ⟨text, htext, hl⟩ := List.mem_flatMap.mp hl
  simp only [invocationTexts, if_pos hdebug, List.mem_cons, List.not_mem_nil, or_false] at htext
  rcases htext with rfl | rfl | rfl | rfl
  · exact hline hl (by decide)
  · rcases mem_linesOf_append (show IsLine "Input: " by decide) hl with hbegins | hchars
    · exact plain_of_begins hbegins (by decide)
    · exact plain_of_recognized fun c hc => h c (hchars c hc)
  · exact hline hl hoption
  · exact hline hl (by decide)

theorem sorted_steps (hdebug : i.debug = true) :
    Sorted marks (printedLines (stepTexts limit i)) (only "[DEBUG]" (Token.scanLines i.text)) := by
  have htexts : stepTexts limit i = Token.scanLines i.text ++
      Parse.runLines limit (Token.scan i.text) (Parse.run limit (Token.scan i.text)) := by
    rw [stepTexts, hdebug]
    rfl
  have hscan : ∀ line ∈ Token.scanLines i.text, Marked "[DEBUG]" line := by
    intro line hl
    obtain ⟨t, ht, rfl⟩ := List.mem_map.mp hl
    exact Token.marked_scanLine ht
  have hrun := Parse.marked_of_mem_runLines limit i.text (Parse.run limit (Token.scan i.text))
  rw [htexts, printedLines_append, printedLines_of_isLine fun line hl => (hscan line hl).1,
    printedLines_of_isLine fun line hl => (hrun line hl).1]
  have hmarked : Sorted marks (Token.scanLines i.text) (only "[DEBUG]" (Token.scanLines i.text)) :=
    sorted_marked (fun line hl => (hscan line hl).2) (by decide)
  have hplain := sorted_plain fun line hl => plain_of_begins (hrun line hl).2 (by decide)
  simpa only [List.append_nil] using hmarked.append hplain

def foundLine (count : Nat) (what : String) : String := "  Found " ++ toString count ++ what

theorem marked_foundLine (count : Nat) {what : String} (h : IsLine what) :
    Marked "  Found " (foundLine count what) :=
  (Marked.append (by decide) (isLine_toString_nat count)).append h

theorem sorted_foundLine (count : Nat) {what : String} (h : IsLine what) :
    Sorted marks [foundLine count what] (only "  Found " [foundLine count what]) :=
  sorted_marked (List.forall_mem_singleton.mpr (marked_foundLine count h).2) (by decide)

def timeLine (time : Int) : String := s!"  Time: {time}ms"

theorem marked_timeLine (time : Int) : Marked "  Time: " (timeLine time) :=
  (Marked.append (by decide) (isLine_toString_int time)).append (show IsLine "ms" by decide)

theorem plain_timeLine (time : Int) : Plain (timeLine time) :=
  plain_of_begins (marked_timeLine time).2 (by decide)

theorem sorted_scanning (text : String) (time : Int) :
    Sorted marks (printedLines ("" :: scanningTexts text time))
      (only "  Found " [foundLine (Token.scan text).length " tokens"]) := by
  have htokens : Marked "  Tokens: " s!"  Tokens: {Token.listing (Token.scan text)}" :=
    Marked.append (by decide) (Token.isLine_listing fun t => Token.isLine_lexeme)
  have htexts : "" :: scanningTexts text time =
      ["", "== Scanning ==", s!"  Tokens: {Token.listing (Token.scan text)}", timeLine time] ++
        ([foundLine (Token.scan text).length " tokens"] ++ [""]) := rfl
  have hwhat : IsLine " tokens" := by decide
  have hlines : ∀ line ∈ "" :: scanningTexts text time, IsLine line := by
    rw [htexts]
    simp only [List.cons_append, List.nil_append, List.forall_mem_cons]
    exact ⟨by decide, by decide, htokens.1, (marked_timeLine time).1, (marked_foundLine _ hwhat).1,
      by decide, nofun⟩
  rw [printedLines_of_isLine hlines, htexts]
  have hbefore : Sorted marks ["", "== Scanning ==", s!"  Tokens: {Token.listing (Token.scan text)}",
      timeLine time] fun _ => [] := by
    refine sorted_plain ?_
    simp only [List.forall_mem_cons]
    exact ⟨by decide, by decide, plain_of_begins htokens.2 (by decide), plain_timeLine time, nofun⟩
  have hbehind : Sorted marks [""] fun _ => [] := sorted_plain (by decide)
  simpa only [List.nil_append, List.append_nil] using
    hbefore.append ((sorted_foundLine (Token.scan text).length hwhat).append hbehind)

def openingLines (i : Invocation) (scanTime : Int) : List String :=
  printedLines (invocationTexts i) ++
    (printedLines (stepTexts limit i) ++ printedLines ("" :: scanningTexts i.text scanTime))

theorem sorted_opening (hdebug : i.debug = true) (h : ∀ c ∈ i.text.toList, Recognized c) (scanTime : Int) :
    Sorted marks (openingLines limit i scanTime) fun mark =>
      only "[DEBUG]" (Token.scanLines i.text) mark ++
        only "  Found " [foundLine (Token.scan i.text).length " tokens"] mark := by
  unfold openingLines
  simpa only [List.nil_append] using (sorted_invocation hdebug h).append
    ((sorted_steps limit hdebug).append (sorted_scanning i.text scanTime))

/-! ## The drawing and what is behind it -/

variable {root : Expr} (x : Shown root) (hs : root.NoStray)

def drawnLines : List String := x.drawing.map ("  " ++ ·)

include hs in
theorem drawing_eq_outline : x.drawing = root.outline [] :=
  Except.ok.inj (x.drawingLines_eq.symm.trans (Expr.drawingLines_eq_outline hs))

include hs in
theorem drawnLines_cases : ∀ line ∈ drawnLines x,
    IsLine line ∧ Plain line ∧ begins "  Time: " line = false := by
  intro line hl
  obtain ⟨below, hbelow, rfl⟩ := List.mem_map.mp hl
  rw [drawing_eq_outline x hs] at hbelow
  have hletter : ∀ c : Char, c.isDigit = false → c ∉ " @-+*/│├└─".toList → c ∉ ("  " ++ below).toList := by
    intro c hdigit hc
    have hspace : ' ' ∈ " @-+*/│├└─".toList := by decide
    have hne : c ≠ ' ' := fun heq => hc (heq ▸ hspace)
    rw [String.toList_append, List.mem_append, not_or]
    exact ⟨by simpa using hne, Expr.not_mem_of_mem_outline hc hdigit hs below hbelow⟩
  exact ⟨hletter '\n' rfl (by decide),
    plain_of_indented (begins_append (by decide) below) (hletter 'F' rfl (by decide)),
    begins_eq_false_of_not_mem (show 'T' ∈ "  Time: ".toList by decide) (hletter 'T' rfl (by decide))⟩

include hs in
theorem printedLines_parsing (time : Int) : printedLines (parsingTexts x time) =
    "== Parsing ==" :: (drawnLines x ++ [timeLine time, foundLine x.nodes " nodes", ""]) := by
  have htexts : parsingTexts x time =
      "== Parsing ==" :: (drawnLines x ++ [timeLine time, foundLine x.nodes " nodes", ""]) := rfl
  rw [htexts]
  refine printedLines_of_isLine (List.forall_mem_cons.mpr ⟨by decide, List.forall_mem_append.mpr ⟨?_, ?_⟩⟩)
  · exact fun line hl => (drawnLines_cases x hs line hl).1
  · simp only [List.forall_mem_cons]
    exact ⟨(marked_timeLine time).1, (marked_foundLine x.nodes (by decide)).1, by decide, nofun⟩

include hs in
theorem sorted_parsing (time : Int) : Sorted marks (printedLines (parsingTexts x time)) fun mark =>
    only "== Parsing ==" ["== Parsing =="] mark ++ only "  Found " [foundLine x.nodes " nodes"] mark := by
  have hheading : Sorted marks ["== Parsing =="] (only "== Parsing ==" ["== Parsing =="]) :=
    sorted_marked (by decide) (by decide)
  have hdrawn : Sorted marks (drawnLines x) fun _ => [] :=
    sorted_plain fun line hl => (drawnLines_cases x hs line hl).2.1
  have htime : Sorted marks [timeLine time] fun _ => [] :=
    sorted_plain (List.forall_mem_singleton.mpr (plain_timeLine time))
  have hfound : Sorted marks [foundLine x.nodes " nodes"] (only "  Found " [foundLine x.nodes " nodes"]) :=
    sorted_foundLine x.nodes (by decide)
  have hempty : Sorted marks [""] fun _ => [] := sorted_plain (by decide)
  rw [printedLines_parsing x hs]
  simpa only [List.cons_append, List.nil_append, List.append_nil] using
    hheading.append (hdrawn.append (htime.append (hfound.append hempty)))

/-! ## The answer -/

def evaluationLines (root : Expr) : List String := (root.evaluate true).printed

theorem marked_evaluationLines : ∀ line ∈ evaluationLines root, Marked "[EVAL]" line := by
  intro line hl
  obtain ⟨event, -, rfl⟩ := List.mem_map.mp (show line ∈ List.map _ _ from hl)
  exact event.marked_line

theorem length_evaluationLines (hs : root.NoStray) (hf : root.Fits) :
    (evaluationLines root).length = root.size := by
  show (List.map _ (Evaluation.ofExpr Binary64.arithmetic root).trace).length = _
  rw [List.length_map, ← Operations.arithmetic_ieee, Evaluation.ofExpr_eq_recursive,
    Operations.recursive_of_operations _ hs hf, List.length_map, Expr.length_postOrder]

theorem sorted_value (time : Int) :
    Sorted marks (printedLines (valueTexts x true true time)) (only "[EVAL]" (evaluationLines root)) := by
  have htexts : valueTexts x true true time =
      ["== Evaluation =="] ++ evaluationLines root ++ [timeLine time, ""] ++ [x.value.display] := rfl
  have hlines : ∀ line ∈ valueTexts x true true time, IsLine line := by
    rw [htexts]
    simp only [List.forall_mem_append, List.forall_mem_cons]
    exact ⟨⟨⟨⟨by decide, nofun⟩, fun line hl => (marked_evaluationLines line hl).1⟩,
      (marked_timeLine time).1, by decide, nofun⟩, x.value.isLine_display, nofun⟩
  have hheading : Sorted marks ["== Evaluation =="] fun _ => [] := sorted_plain (by decide)
  have hevaluation : Sorted marks (evaluationLines root) (only "[EVAL]" (evaluationLines root)) :=
    sorted_marked (fun line hl => (marked_evaluationLines line hl).2) (by decide)
  have htime : Sorted marks [timeLine time, ""] fun _ => [] :=
    sorted_plain (List.forall_mem_cons.mpr ⟨plain_timeLine time, List.forall_mem_singleton.mpr (by decide)⟩)
  have hdisplay : Sorted marks [x.value.display] fun _ => [] :=
    sorted_plain (List.forall_mem_singleton.mpr (plain_display x.value))
  rw [printedLines_of_isLine hlines, htexts]
  simpa only [List.nil_append, List.append_nil] using ((hheading.append hevaluation).append htime).append hdisplay

/-- The lines of a graph between its first and its last. -/
def statementsOf (root : Expr) : List String := root.subtrees.flatMap Expr.statementLines

include hs in
theorem printedLines_graph :
    printedLines [x.graph] = "strict graph \x7b" :: (statementsOf root ++ ["\x7d"]) := by
  have hgraph : x.graph = joined root.graphLines :=
    Except.ok.inj (x.graph_eq.symm.trans (Expr.graph_of_noStray hs))
  have hne : root.graphLines ≠ [] := List.cons_ne_nil _ _
  rw [hgraph, printedLines, List.flatMap_singleton]
  exact linesOf_joined hne (Expr.isLine_of_mem_graphLines hs)

include hs in
theorem mapM_ofLine?_statementsOf :
    ((statementsOf root).map String.toList).mapM Dot.Statement.ofLine? = some (Dot.graphOf root).statements :=
  Dot.mapM_ofLine?_flatMap fun _ hm => Expr.noStray_of_mem_subtrees hs hm

include hs in
theorem ofLine?_of_mem_statementsOf :
    ∀ line ∈ statementsOf root, ∃ st, Dot.Statement.ofLine? line.toList = some st := by
  intro line hl
  obtain ⟨m, hm, hl⟩ := List.mem_flatMap.mp hl
  have hnode := Dot.ofLine?_nodeLine (Expr.noStray_of_mem_subtrees hs hm)
  unfold Expr.statementLines at hl
  split at hl
  · rw [List.mem_singleton.mp hl]
    exact ⟨_, hnode⟩
  · rename_i ho
    rcases List.mem_cons.mp hl with rfl | hl
    · exact ⟨_, hnode⟩
    · rw [List.mem_singleton.mp hl]
      exact ⟨_, Dot.ofLine?_edgeLine ho⟩

include hs in
theorem sorted_graph :
    Sorted marks (printedLines [x.graph]) (only "strict graph \x7b" ["strict graph \x7b"]) := by
  have hopening : Sorted marks ["strict graph \x7b"] (only "strict graph \x7b" ["strict graph \x7b"]) :=
    sorted_marked (by decide) (by decide)
  have hstatements : Sorted marks (statementsOf root) fun _ => [] := by
    refine sorted_plain fun line hl => ?_
    obtain ⟨st, hst⟩ := ofLine?_of_mem_statementsOf hs line hl
    exact plain_of_statement hst
  have hclosing : Sorted marks ["\x7d"] fun _ => [] := sorted_plain (by decide)
  rw [printedLines_graph x hs]
  simpa only [List.cons_append, List.nil_append, List.append_nil] using hopening.append (hstatements.append hclosing)

/-! ## The figures -/

/-- The figures of a report: how many tokens and how many nodes were found. As many lines as tokens
    note deliveries, and as many as nodes draw the tree; the evaluation has a line for each node too,
    or the graph a statement. -/
structure Figures (dot : Prop) (tokens nodes : Nat) (lines : List String) : Prop where
  found : lines.filter (begins "  Found ") = [s!"  Found {tokens} tokens", s!"  Found {nodes} nodes"]
  delivered : lines.countP (begins "[DEBUG]") = tokens
  drawn : (part "== Parsing ==" "  Time: " lines).length = nodes
  evaluated : ¬dot → lines.countP (begins "[EVAL]") = nodes
  not_evaluated : dot → lines.countP (begins "[EVAL]") = 0
  depicted : dot → ∃ g : Dot.Graph, g.nodes.length = nodes ∧
    ((part "strict graph \x7b" "\x7d" lines).map String.toList).mapM Dot.Statement.ofLine? = some g.statements

def reportLines (i : Invocation) (scanTime parseTime time : Int) (answer : List String) : List String :=
  openingLines limit i scanTime ++ (printedLines (parsingTexts x parseTime) ++ (answer ++ [s!"Total time: {time}ms"]))

theorem marked_total (time : Int) : Marked "Total time: " s!"Total time: {time}ms" :=
  (Marked.append (by decide) (isLine_toString_int time)).append (show IsLine "ms" by decide)

theorem printedLines_debug (hdebug : i.debug = true) (scanTime parseTime valueTime time : Int) :
    printedLines (invocationTexts i ++ (stepTexts limit i ++ reportTexts x i scanTime parseTime ++
      answerTexts x i true valueTime ++ totalTexts i time)) =
    reportLines limit x i scanTime parseTime time (printedLines (answerTexts x i true valueTime)) := by
  have htotal : printedLines (totalTexts i time) = [s!"Total time: {time}ms"] := by
    rw [totalTexts, if_pos hdebug]
    exact printedLines_of_isLine (List.forall_mem_singleton.mpr (marked_total time).1)
  rw [reportTexts, if_pos hdebug]
  simp only [reportLines, openingLines, printedLines_append, htotal, List.append_assoc]

section Report

variable (hdebug : i.debug = true) (hrecognized : ∀ c ∈ i.text.toList, Recognized c)
  (scanTime parseTime time : Int) {mark : String} {answer kept : List String}
include hs hdebug hrecognized

theorem sorted_report (ha : Sorted marks answer (only mark kept)) :
    Sorted marks (reportLines limit x i scanTime parseTime time answer) fun mark' =>
      only "[DEBUG]" (Token.scanLines i.text) mark' ++
        only "  Found " [foundLine (Token.scan i.text).length " tokens"] mark' ++
        (only "== Parsing ==" ["== Parsing =="] mark' ++ only "  Found " [foundLine x.nodes " nodes"] mark' ++
          only mark kept mark') := by
  have htotal : Sorted marks [s!"Total time: {time}ms"] fun _ => [] :=
    sorted_plain (List.forall_mem_singleton.mpr (plain_of_begins (marked_total time).2 (by decide)))
  unfold reportLines
  simpa only [List.append_nil] using
    (sorted_opening limit hdebug hrecognized scanTime).append ((sorted_parsing x hs parseTime).append (ha.append htotal))

theorem part_report :
    part "== Parsing ==" "  Time: " (reportLines limit x i scanTime parseTime time answer) = drawnLines x := by
  unfold reportLines
  rw [printedLines_parsing x hs]
  simp only [List.cons_append, List.nil_append, List.append_assoc]
  refine part_append ?_ (by decide) (fun line hl => (drawnLines_cases x hs line hl).2.2)
    (marked_timeLine parseTime).2
  exact (sorted_opening limit hdebug hrecognized scanTime).not_begins (by decide) rfl

theorem found_report (ha : Sorted marks answer (only mark kept)) (hm : "  Found " ≠ mark) :
    (reportLines limit x i scanTime parseTime time answer).filter (begins "  Found ") =
      [foundLine (Token.scan i.text).length " tokens", foundLine x.nodes " nodes"] := by
  have hsorted := sorted_report limit x hs hdebug hrecognized scanTime parseTime time ha
  rw [hsorted "  Found " (by decide)]
  dsimp only
  rw [only_self, only_self, only_of_ne hm, only_of_ne (by decide), only_of_ne (by decide)]
  rfl

theorem delivered_report (ha : Sorted marks answer (only mark kept)) (hm : "[DEBUG]" ≠ mark) :
    (reportLines limit x i scanTime parseTime time answer).countP (begins "[DEBUG]") = (Token.scan i.text).length := by
  have hsorted := sorted_report limit x hs hdebug hrecognized scanTime parseTime time ha
  rw [hsorted.countP (by decide), only_self, only_of_ne hm, only_of_ne (by decide), only_of_ne (by decide),
    only_of_ne (by decide)]
  simp [Token.scanLines]

theorem evaluated_report (ha : Sorted marks answer (only mark kept)) :
    (reportLines limit x i scanTime parseTime time answer).countP (begins "[EVAL]") =
      (only mark kept "[EVAL]").length := by
  have hsorted := sorted_report limit x hs hdebug hrecognized scanTime parseTime time ha
  rw [hsorted.countP (by decide), only_of_ne (by decide), only_of_ne (by decide), only_of_ne (by decide),
    only_of_ne (by decide)]
  rfl

theorem drawn_report :
    (part "== Parsing ==" "  Time: " (reportLines limit x i scanTime parseTime time answer)).length = root.size := by
  rw [part_report limit x hs hdebug hrecognized, drawnLines, List.length_map, drawing_eq_outline x hs,
    Expr.length_outline hs]

theorem depicted_report : part "strict graph \x7b" "\x7d"
    (reportLines limit x i scanTime parseTime time (printedLines [x.graph])) = statementsOf root := by
  have hopening := (sorted_opening limit hdebug hrecognized scanTime).not_begins
    (show "strict graph \x7b" ∈ marks by decide) rfl
  have hparsing := (sorted_parsing x hs parseTime).not_begins
    (show "strict graph \x7b" ∈ marks by decide) rfl
  unfold reportLines
  rw [printedLines_graph x hs, ← List.append_assoc]
  simp only [List.cons_append, List.nil_append, List.append_assoc (statementsOf root)]
  refine part_append (List.forall_mem_append.mpr ⟨hopening, hparsing⟩) (by decide) ?_ (by decide)
  intro line hl
  obtain ⟨st, hst⟩ := ofLine?_of_mem_statementsOf hs line hl
  exact Dot.begins_eq_false_of_ofLine? hst (by decide)

theorem figures_of_answer (hf : root.Fits) (valueTime : Int) :
    Figures (i.dot = true) (Token.scan i.text).length root.size
      (reportLines limit x i scanTime parseTime time (printedLines (answerTexts x i true valueTime))) := by
  have hnodes : x.nodes = root.size := Except.ok.inj (x.count_eq.symm.trans (Expr.count_of_noStray hs))
  unfold answerTexts
  split
  · rename_i hdot
    have ha := sorted_graph x hs
    refine ⟨?_, ?_, ?_, fun h => absurd hdot h, fun _ => ?_, fun _ => ⟨Dot.graphOf root, ?_, ?_⟩⟩
    · rw [found_report limit x hs hdebug hrecognized scanTime parseTime time ha (by decide), hnodes]
      rfl
    · exact delivered_report limit x hs hdebug hrecognized scanTime parseTime time ha (by decide)
    · exact drawn_report limit x hs hdebug hrecognized scanTime parseTime time
    · rw [evaluated_report limit x hs hdebug hrecognized scanTime parseTime time ha, only_of_ne (by decide)]
      rfl
    · rw [Dot.nodes_graphOf, List.length_map, Expr.length_subtrees]
    · rw [depicted_report limit x hs hdebug hrecognized]
      exact mapM_ofLine?_statementsOf hs
  · rename_i hdot
    rw [hdebug]
    have ha := sorted_value x valueTime
    refine ⟨?_, ?_, ?_, fun _ => ?_, fun h => absurd h hdot, fun h => absurd h hdot⟩
    · rw [found_report limit x hs hdebug hrecognized scanTime parseTime time ha (by decide), hnodes]
      rfl
    · exact delivered_report limit x hs hdebug hrecognized scanTime parseTime time ha (by decide)
    · exact drawn_report limit x hs hdebug hrecognized scanTime parseTime time
    · rw [evaluated_report limit x hs hdebug hrecognized scanTime parseTime time ha, only_self,
        length_evaluationLines hs hf]

end Report

/-! ## Commands -/

theorem length_scan (text : String) :
    (Token.scan text).length = text.toList.countP (!Token.isBlank ·) := by
  have hlength := congrArg List.length (Token.shapes_scan text)
  rw [List.length_map, List.length_map] at hlength
  rw [hlength, List.countP_eq_length_filter]

/-- A tree has a node for each operator and each number of its text. -/
theorem size_of_ofText {limit : Limit} {text : String} (h : Expr.ofText limit text = .ok root) :
    root.size = (Token.scan text).countP Token.isOperator + Token.literals (Token.scan text) := by
  obtain ⟨hd, -⟩ := Parse.derives_of_ofText h
  have hentries := hd.entries (Grammar.uncut_nil _)
  rw [List.append_nil, Token.entries_nil, List.append_nil] at hentries
  rw [← Expr.length_inOrder hd.noStray, ← hentries, Token.length_entries]

/-- A debugged command that ends with 0 reports figures that agree, with each other and with its
    text, all of whose characters are blanks or characters of expressions. -/
theorem report_figures (limit : Limit) (clock : Nat → Rat) (tracing : Bool) {arguments : List String} {s : Script}
    (hdebug : "debug" ∈ arguments) (h : scripted limit clock tracing arguments = (.ok 0, s)) :
    let text := " ".intercalate (arguments.filter fun a => a ≠ "dot" ∧ a ≠ "debug")
    (∀ c ∈ text.toList, Recognized c) ∧
    Figures ("dot" ∈ arguments) (text.toList.countP (!Token.isBlank ·))
      ((Token.scan text).countP Token.isOperator + Token.literals (Token.scan text)) s.lines := by
  have hd : (Invocation.ofArguments arguments).debug = true := by simpa [Invocation.ofArguments] using hdebug
  have hdot : ("dot" ∈ arguments) = ((Invocation.ofArguments arguments).dot = true) := by
    simp [Invocation.ofArguments]
  intro text
  have htext : (Invocation.ofArguments arguments).text = text := text_ofArguments
  by_cases hw : (Invocation.ofArguments arguments).words = []
  · rw [scripted_of_no_words limit clock tracing hw] at h
    cases h
  · rcases Parse.ofText_ok_or_refused limit (Invocation.ofArguments arguments).text with
      ⟨root, hroot⟩ | ⟨e, he⟩
    · obtain ⟨hderives, hfits⟩ := Parse.derives_of_ofText hroot
      have hrecognized := recognized_of_derives hderives
      obtain ⟨x⟩ := shown_of_ofText hroot
      obtain ⟨readings, scanTime, parseTime, valueTime, time, hs⟩ :=
        scripted_of_tree x limit clock tracing rfl hw hroot
      rw [hs] at h
      obtain rfl := (Prod.mk.inj h).2
      rw [Script.lines_after, hd, Bool.true_or, printedLines_debug limit x hd, ← length_scan, hdot, ← htext,
        ← size_of_ofText hroot]
      exact ⟨hrecognized, figures_of_answer limit x hderives.noStray hd hrecognized scanTime parseTime time hfits valueTime⟩
    · rw [scripted_of_refusal limit clock tracing rfl hw he] at h
      cases h

/-- Five tokens and four nodes: the minus sign in front is one of them. -/
theorem figures_of_negated_sum : "debug" ∈ ["debug", "-12+3"] ∧
    ∃ s, scripted (some 990) (fun _ => 0) false ["debug", "-12+3"] = (.ok 0, s) ∧ Figures False 5 4 s.lines := by
  have hroot : Expr.ofText (some 990) "-12+3" =
    .ok (.binary .add 3 (.unary .negate 0 (.constant 1 12)) (.constant 4 3)) := rfl
  obtain ⟨x⟩ := shown_of_ofText hroot
  obtain ⟨readings, scanTime, parseTime, valueTime, time, hs⟩ :=
    scripted_of_tree x (some 990) (fun _ => 0) false
      (show Invocation.ofArguments ["debug", "-12+3"] = ⟨false, true, ["-12+3"]⟩ by decide) (by decide) hroot
  have hfigures := (report_figures (some 990) (fun _ => 0) false (by decide) hs).2
  have htext : " ".intercalate (["debug", "-12+3"].filter fun a => a ≠ "dot" ∧ a ≠ "debug") = "-12+3" := by
    decide
  have htokens : "-12+3".toList.countP (!Token.isBlank ·) = 5 := by decide
  have hnodes : (Token.scan "-12+3").countP Token.isOperator + Token.literals (Token.scan "-12+3") = 4 := by
    decide
  have hdot : ("dot" ∈ ["debug", "-12+3"]) = False := eq_false (by decide)
  rw [htext, htokens, hnodes, hdot] at hfigures
  exact ⟨by decide, _, hs, hfigures⟩

end CommandLine

end Abacus
