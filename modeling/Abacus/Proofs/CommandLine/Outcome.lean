/-
  Abacus.Proofs.CommandLine.Outcome — how a command ends, from its arguments alone.

  - `words_eq_nil_iff`: no text is given exactly when every argument is an option.
  - `scripted_agrees`: every command ends with an exit code and leaves the switch for the lines
    of the evaluation as it was. Without a text it prints the usage and gives 2. With a text the
    exit code tells whether the text is refused, the reason is the last line, and a command that
    neither debugs nor traces prints nothing but the reason, the graph or the value.
  - `debug_only_observes`: the scanner, the parser and the evaluation give what they give with
    debugging on or off, and print nothing with it off. A command with the word `debug` in it
    ends as it would without it; what it would print stands together at the end of its output,
    before the total time if there is one.
  - `arguments_rearranged`: a command reads its arguments only as an invocation, so options count
    wherever they stand and however often. Without options, how the text is cut into arguments
    changes neither the exit code nor what is printed for a text that has a tree.

  All of it holds under every limit on the nesting.
-/

import Abacus.Proofs.CommandLine.Printed
import Abacus.Proofs.Parse.Relabelling
import Abacus.Proofs.Parse.Viable
import Abacus.Proofs.Token.Scanner

namespace Abacus.CommandLine

/-! # Exit codes and lines -/

variable {limit : Limit} {arguments : List String} {text : String} {dot quiet : Prop}

theorem words_eq_nil_iff :
    (Invocation.ofArguments arguments).words = [] ↔ ∀ a ∈ arguments, a = "dot" ∨ a = "debug" := by
  simp [Invocation.ofArguments, isOption, List.filter_eq_nil_iff, or_iff_not_imp_left]

theorem text_ofArguments : (Invocation.ofArguments arguments).text =
    " ".intercalate (arguments.filter fun a => a ≠ "dot" ∧ a ≠ "debug") := by
  have hfilter : (arguments.filter fun a => a ≠ "dot" ∧ a ≠ "debug") =
      arguments.filter (!isOption ·) :=
    List.filter_congr fun a _ => by simp [isOption, beq_eq_decide]
  rw [hfilter]
  rfl

theorem debug_eq_false (h : "debug" ∉ arguments) : (Invocation.ofArguments arguments).debug = false := by
  simpa [Invocation.ofArguments] using h

/-! ## The lines of a command -/

theorem printedLines_reason (e : ParseError) :
    Text.printedLines [s!"Error: {e.message}"] = ["Error: " ++ e.message] := by
  have heq : s!"Error: {e.message}" = "Error: " ++ e.message := rfl
  have hline : Text.IsLine ("Error: " ++ e.message) := Text.isLine_append (by decide) e.isLine_message
  rw [heq]
  exact Text.printedLines_of_isLine (by simpa using hline)

/-- A command that neither debugs nor traces prints its answer only. -/
theorem printedLines_of_quiet {root : Expr} (x : Shown root) {i : Invocation} (h : i.debug = false)
    (scanTime parseTime valueTime time : Int) :
    Text.printedLines (invocationTexts i ++ (stepTexts limit i ++ reportTexts x i scanTime parseTime ++
      answerTexts x i (i.debug || false) valueTime ++ totalTexts i time)) =
    if i.dot then Text.linesOf x.graph else [x.value.display] := by
  rw [texts_of_not_debug x limit h, h, Bool.or_self, answerTexts_of_not_debug x h]
  split
  · exact List.flatMap_singleton ..
  · exact Text.printedLines_of_isLine (by simpa using x.value.isLine_display)

/-! ## Exit codes -/

/-- How a command over a text ends, told by the outcome of parsing the text. It is `quiet` when
    it neither debugs nor traces. -/
structure Agrees (limit : Limit) (text : String) (dot quiet : Prop) (code : Nat) (lines : List String) : Prop where
  refused_iff : code = 1 ↔ ∃ e, Expr.ofText limit text = .error (.refused e)
  otherwise : code ≠ 1 → code = 0 ∧ ∃ root, Expr.ofText limit text = .ok root
  reason_last : ∀ e, Expr.ofText limit text = .error (.refused e) →
    lines.getLast? = some ("Error: " ++ e.message)
  reason_only : quiet → ∀ e, Expr.ofText limit text = .error (.refused e) →
    lines = ["Error: " ++ e.message]
  graph_only : quiet → dot → ∀ root, Expr.ofText limit text = .ok root →
    ∃ graph, root.graph = .ok graph ∧ lines = Text.linesOf graph
  value_only : quiet → ¬dot → ∀ root, Expr.ofText limit text = .ok root →
    ∃ value, root.value = .ok value ∧ lines = [value.display]

theorem agrees_of_refusal {e : ParseError} (he : Expr.ofText limit text = .error (.refused e))
    {lines : List String} (hquiet : quiet → lines = []) :
    Agrees limit text dot quiet 1 (lines ++ ["Error: " ++ e.message]) where
  refused_iff := iff_of_true rfl ⟨e, he⟩
  otherwise h := absurd rfl h
  reason_last e' h := by
    obtain rfl : e = e' := by simpa [he] using h
    exact List.getLast?_concat
  reason_only hq e' h := by
    obtain rfl : e = e' := by simpa [he] using h
    rw [hquiet hq, List.nil_append]
  graph_only _ _ root h := by simp [he] at h
  value_only _ _ root h := by simp [he] at h

theorem agrees_of_tree {root : Expr} (x : Shown root) (h : Expr.ofText limit text = .ok root)
    {lines : List String} (hdot : quiet → dot → lines = Text.linesOf x.graph)
    (hvalue : quiet → ¬dot → lines = [x.value.display]) : Agrees limit text dot quiet 0 lines where
  refused_iff := by simp [h]
  otherwise _ := ⟨rfl, root, h⟩
  reason_last e he := by simp [h] at he
  reason_only _ e he := by simp [h] at he
  graph_only hq hd root' h' := by
    obtain rfl : root = root' := by simpa [h] using h'
    exact ⟨x.graph, x.graph_eq, hdot hq hd⟩
  value_only hq hd root' h' := by
    obtain rfl : root = root' := by simpa [h] using h'
    exact ⟨x.value, x.value_eq, hvalue hq hd⟩

theorem scripted_agrees (limit : Limit) (clock : Nat → Rat) (tracing : Bool) (arguments : List String) :
    ∃ code s, scripted limit clock tracing arguments = (.ok code, s) ∧ s.tracing = tracing ∧
      ((code = 2 ∧ s.lines = [usage]) ↔ ∀ a ∈ arguments, a = "dot" ∨ a = "debug") ∧
      ((∃ a ∈ arguments, a ≠ "dot" ∧ a ≠ "debug") →
        Agrees limit (" ".intercalate (arguments.filter fun a => a ≠ "dot" ∧ a ≠ "debug"))
          ("dot" ∈ arguments) ("debug" ∉ arguments ∧ tracing = false) code s.lines) := by
  by_cases hw : (Invocation.ofArguments arguments).words = []
  · have hoptions := words_eq_nil_iff.mp hw
    have hlines : Text.printedLines [usage] = [usage] := Text.printedLines_of_isLine (by decide)
    refine ⟨2, _, scripted_of_no_words limit clock tracing hw, rfl, iff_of_true ⟨rfl, hlines⟩ hoptions, ?_⟩
    rintro ⟨a, ha, hdot, hdebug⟩
    exact absurd (hoptions a ha) (not_or.mpr ⟨hdot, hdebug⟩)
  · have hoptions := mt words_eq_nil_iff.mpr hw
    rw [← text_ofArguments]
    rcases Parse.ofText_ok_or_refused limit (Invocation.ofArguments arguments).text with
      ⟨root, hroot⟩ | ⟨e, he⟩
    · obtain ⟨x⟩ := shown_of_ofText hroot
      obtain ⟨readings, scanTime, parseTime, valueTime, time, hs⟩ :=
        scripted_of_tree x limit clock tracing rfl hw hroot
      refine ⟨0, _, hs, rfl, iff_of_false (by simp) hoptions, fun _ => agrees_of_tree x hroot ?_ ?_⟩
      · rintro ⟨hdebug, rfl⟩ hdot
        rw [Script.lines_after, printedLines_of_quiet x (debug_eq_false hdebug)]
        simp [Invocation.ofArguments, hdot]
      · rintro ⟨hdebug, rfl⟩ hdot
        rw [Script.lines_after, printedLines_of_quiet x (debug_eq_false hdebug)]
        simp [Invocation.ofArguments, hdot]
    · refine ⟨1, _, scripted_of_refusal limit clock tracing rfl hw he, rfl,
        iff_of_false (by simp) hoptions, fun _ => ?_⟩
      rw [Script.lines_after, ← List.append_assoc, Text.printedLines_append, printedLines_reason]
      refine agrees_of_refusal he fun hquiet => ?_
      have hd := debug_eq_false hquiet.1
      rw [invocationTexts_of_not_debug hd, stepTexts_of_not_debug limit hd]
      rfl

/-- The arguments `1` and `+1` are the text `1 +1`, whose value is all that is printed. -/
theorem scripted_sum : ∃ s, scripted (some 990) (fun _ => 0) false ["1", "+1"] = (.ok 0, s) ∧ s.lines = ["2"] := by
  obtain ⟨code, s, hs, -, -, hagrees⟩ := scripted_agrees (some 990) (fun _ => 0) false ["1", "+1"]
  have htext : " ".intercalate (["1", "+1"].filter fun a => a ≠ "dot" ∧ a ≠ "debug") = "1 +1" := by decide
  have hroot : Expr.ofText (some 990) "1 +1" =
    .ok (.binary .add 2 (.constant 0 1) (.constant 3 1)) := rfl
  have h := hagrees ⟨"1", by decide⟩
  rw [htext] at h
  have hcode : code ≠ 1 := by simp [h.refused_iff, hroot]
  obtain ⟨rfl, -⟩ := h.otherwise hcode
  obtain ⟨value, hvalue, hlines⟩ := h.value_only (by decide) (by decide) _ hroot
  have htwo := hvalue.symm.trans (Expr.value_eq_ok (by decide) (by decide))
  refine ⟨s, hs, hlines.trans ?_⟩
  rw [Except.ok.inj htwo]
  exact congrArg ([·]) (by decide +kernel)

end Abacus.CommandLine

/-! # Debugging -/

namespace Abacus.CommandLine

theorem ofArguments_debug (before after : List String) : Invocation.ofArguments (before ++ "debug" :: after) =
    { Invocation.ofArguments (before ++ after) with debug := true } := by
  simp [Invocation.ofArguments, isOption]

variable {limit : Limit} {before after : List String} {root : Expr} (x : Shown root) {i : Invocation}

theorem answerTexts_suffix (h : i.debug = false) (tracing : Bool) (time time' : Int) :
    answerTexts x i false time <:+ answerTexts x { i with debug := true } tracing time' := by
  rw [answerTexts_of_not_debug x h]
  unfold answerTexts valueTexts
  split
  · exact List.suffix_refl _
  · exact List.suffix_append ..

theorem printedLines_total (time : Int) :
    Text.printedLines [s!"Total time: {time}ms"] = [s!"Total time: {time}ms"] := by
  have hline : Text.IsLine s!"Total time: {time}ms" :=
    Text.isLine_append (Text.isLine_append (by decide) (Text.isLine_toString_int _)) (by decide)
  exact Text.printedLines_of_isLine (by simpa using hline)

/-- Where the lines of a plain command stand in the output of the same command with debugging. -/
def Kept (code : Nat) (plain debugged : List String) : Prop :=
  code = 1 ∧ plain <:+ debugged ∨
    code = 0 ∧ ∃ time : Int, plain ++ [s!"Total time: {time}ms"] <:+ debugged

theorem kept_of_refusal (h : i.debug = false) (e : ParseError) :
    Kept 1
      (Text.printedLines (invocationTexts i ++ (stepTexts limit i ++ [s!"Error: {e.message}"])))
      (Text.printedLines (invocationTexts { i with debug := true } ++
        (stepTexts limit { i with debug := true } ++ [s!"Error: {e.message}"]))) := by
  refine Or.inl ⟨rfl, Text.printedLines_suffix ?_⟩
  rw [invocationTexts_of_not_debug h, stepTexts_of_not_debug limit h, List.nil_append, List.nil_append]
  exact ⟨_, List.append_assoc ..⟩

theorem kept_of_tree (h : i.debug = false) (scan parse value total scan' parse' value' total' : Int) :
    Kept 0
      (Text.printedLines (invocationTexts i ++ (stepTexts limit i ++ reportTexts x i scan parse ++
        answerTexts x i (i.debug || false) value ++ totalTexts i total)))
      (Text.printedLines (invocationTexts { i with debug := true } ++
        (stepTexts limit { i with debug := true } ++ reportTexts x { i with debug := true } scan' parse' ++
          answerTexts x { i with debug := true } true value' ++
          totalTexts { i with debug := true } total'))) := by
  obtain ⟨front, hfront⟩ := Text.printedLines_suffix (answerTexts_suffix x h true value value')
  refine Or.inr ⟨rfl, total', ?_⟩
  rw [texts_of_not_debug x limit h, h, Bool.or_self]
  simp only [Text.printedLines_append, ← hfront, totalTexts, if_true, printedLines_total]
  simp only [← List.append_assoc]
  exact ⟨_, (List.append_assoc ..).symm⟩

/-- Adding the word `debug` leaves the exit code and the lines of a command as they are. -/
theorem scripted_debug (clock clock' : Nat → Rat) (hdebug : "debug" ∉ before ++ after)
    (hwords : ∃ a ∈ before ++ after, a ≠ "dot" ∧ a ≠ "debug") :
    ∃ code s s', scripted limit clock false (before ++ after) = (.ok code, s) ∧
      scripted limit clock' false (before ++ "debug" :: after) = (.ok code, s') ∧
      Kept code s.lines s'.lines := by
  have hd := debug_eq_false hdebug
  have hw : (Invocation.ofArguments (before ++ after)).words ≠ [] := by
    obtain ⟨a, ha, hne⟩ := hwords
    exact fun h => absurd (words_eq_nil_iff.mp h a ha) (not_or.mpr hne)
  rcases Parse.ofText_ok_or_refused limit (Invocation.ofArguments (before ++ after)).text with
    ⟨root, hroot⟩ | ⟨e, he⟩
  · obtain ⟨x⟩ := shown_of_ofText hroot
    obtain ⟨_, _, _, _, _, hplain⟩ := scripted_of_tree x limit clock false rfl hw hroot
    obtain ⟨_, _, _, _, _, hdebugged⟩ := scripted_of_tree x limit clock' false (ofArguments_debug before after) hw hroot
    exact ⟨0, _, _, hplain, hdebugged, kept_of_tree x hd ..⟩
  · exact ⟨1, _, _, scripted_of_refusal limit clock false rfl hw he,
      scripted_of_refusal limit clock' false (ofArguments_debug before after) hw he, kept_of_refusal hd e⟩

/-- With debugging a scanner replies, a text is parsed and a tree is evaluated as without, where
    nothing is printed on the way; a command ends as it does without the word `debug`, and what
    it prints then is kept. -/
theorem debug_only_observes :
    (∀ text requests,
      ((Scanner.Session.start text true).answers requests).map Prod.fst =
        ((Scanner.Session.start text false).answers requests).map Prod.fst ∧
      ∀ r ∈ (Scanner.Session.start text false).answers requests, r.2 = []) ∧
    (∀ limit text,
      (Parse.parseFront limit true text).outcome = (Parse.parseFront limit false text).outcome ∧
      (Parse.parseText limit true text).outcome = (Parse.parseText limit false text).outcome ∧
      (Parse.parseFront limit false text).printed = [] ∧
      (Parse.parseText limit false text).printed = []) ∧
    (∀ e : Expr, (e.evaluate true).outcome = (e.evaluate false).outcome ∧
      (e.evaluate false).printed = []) ∧
    ∀ (limit : Limit) (clock clock' : Nat → Rat) (before after : List String), "debug" ∉ before ++ after →
      (∃ a ∈ before ++ after, a ≠ "dot" ∧ a ≠ "debug") →
      ∃ code s s', scripted limit clock false (before ++ after) = (.ok code, s) ∧
        scripted limit clock' false (before ++ "debug" :: after) = (.ok code, s') ∧
        Kept code s.lines s'.lines := by
  refine ⟨fun text requests => ?_, fun limit text => ⟨?_, ?_, rfl, rfl⟩, fun e => ⟨rfl, rfl⟩, ?_⟩
  · exact ⟨Scanner.Session.replies_debug (.start text false) requests,
      Scanner.Session.answers_silent rfl requests⟩
  · show (Parse.parse limit true _).outcome = (Parse.parse limit false _).outcome
    rw [Parse.parse_outcome, Parse.parse_outcome]
  · rw [Parse.parseText_outcome, Parse.parseText_outcome]
  · exact fun limit clock clock' before after => scripted_debug clock clock'

theorem debug_of_sum : "debug" ∉ ["1"] ++ ["+", "2"] ∧
    (∃ a ∈ ["1"] ++ ["+", "2"], a ≠ "dot" ∧ a ≠ "debug") ∧
    ∃ code s s', scripted (some 990) (fun _ => 0) false (["1"] ++ ["+", "2"]) = (.ok code, s) ∧
      scripted (some 990) (fun _ => 0) false (["1"] ++ "debug" :: ["+", "2"]) = (.ok code, s') ∧
      Kept code s.lines s'.lines :=
  have hdebug : "debug" ∉ ["1"] ++ ["+", "2"] := by decide
  have hwords : ∃ a ∈ ["1"] ++ ["+", "2"], a ≠ "dot" ∧ a ≠ "debug" := ⟨"1", by decide⟩
  ⟨hdebug, hwords, debug_only_observes.2.2.2 _ _ _ _ _ hdebug hwords⟩

end Abacus.CommandLine

/-! # Arguments -/

namespace Abacus.CommandLine

variable {limit : Limit} {as bs : List String}

/-! ## Options -/

theorem ofArguments_of_same (hdot : "dot" ∈ as ↔ "dot" ∈ bs) (hdebug : "debug" ∈ as ↔ "debug" ∈ bs)
    (hwords : (as.filter fun a => a ≠ "dot" ∧ a ≠ "debug") = bs.filter fun a => a ≠ "dot" ∧ a ≠ "debug") :
    Invocation.ofArguments as = Invocation.ofArguments bs := by
  have hoption : (fun a : String => decide (a ≠ "dot" ∧ a ≠ "debug")) = fun a => !isOption a := by
    funext a
    simp [isOption, beq_eq_decide]
  rw [hoption] at hwords
  have hcontains (word : String) (h : word ∈ as ↔ word ∈ bs) : as.contains word = bs.contains word := by
    rw [Bool.eq_iff_iff, List.contains_iff_mem, List.contains_iff_mem]
    exact h
  unfold Invocation.ofArguments
  rw [hwords, hcontains "dot" hdot, hcontains "debug" hdebug]

theorem scripted_of_invocation (h : Invocation.ofArguments as = Invocation.ofArguments bs)
    (limit : Limit) (clock : Nat → Rat) (tracing : Bool) : scripted limit clock tracing as = scripted limit clock tracing bs := by
  unfold scripted command
  rw [h]

theorem exists_scripted (limit : Limit) (clock : Nat → Rat) (tracing : Bool) (arguments : List String) :
    ∃ code s, scripted limit clock tracing arguments = (.ok code, s) ∧ s.tracing = tracing := by
  by_cases hw : (Invocation.ofArguments arguments).words = []
  · exact ⟨2, _, scripted_of_no_words limit clock tracing hw, rfl⟩
  · rcases Parse.ofText_ok_or_refused limit (Invocation.ofArguments arguments).text with
      ⟨root, hroot⟩ | ⟨e, he⟩
    · obtain ⟨x⟩ := shown_of_ofText hroot
      obtain ⟨_, _, _, _, _, hs⟩ := scripted_of_tree x limit clock tracing rfl hw hroot
      exact ⟨0, _, hs, rfl⟩
    · exact ⟨1, _, scripted_of_refusal limit clock tracing rfl hw he, rfl⟩

/-! ## Words -/

/-- Joined by spaces, texts are what they are put together, but for blanks. -/
theorem filter_intercalate (texts : List String) :
    (" ".intercalate texts).toList.filter (!Token.isBlank ·) =
      (String.join texts).toList.filter (!Token.isBlank ·) := by
  induction texts with
  | nil => rfl
  | cons text texts ih =>
    by_cases hne : texts = []
    · rw [hne, String.intercalate_singleton, String.join_cons]
      simp
    · have hblank : " ".toList.filter (!Token.isBlank ·) = [] := rfl
      rw [String.intercalate_cons_of_ne_nil hne, String.join_cons]
      simp only [String.toList_append, List.filter_append, hblank, List.append_nil, ih]

section NoOption

variable (h : "dot" ∉ as ∧ "debug" ∉ as)
include h

/-- Without options all arguments are words. -/
theorem ofArguments_of_no_option : Invocation.ofArguments as = ⟨false, false, as⟩ := by
  have hwords : as.filter (!isOption ·) = as := by
    rw [List.filter_eq_self]
    intro a ha
    have hdot : a ≠ "dot" := fun he => h.1 (he ▸ ha)
    have hdebug : a ≠ "debug" := fun he => h.2 (he ▸ ha)
    simp [isOption, hdot, hdebug]
  unfold Invocation.ofArguments
  rw [hwords]
  simp [h.1, h.2]

/-- A text with a tree gives exit code 0, and the value alone is printed unless the evaluation
    prints its lines. -/
theorem scripted_value (hne : as ≠ []) {root : Expr}
    (hroot : Expr.ofText limit (" ".intercalate as) = .ok root) (x : Shown root)
    (clock : Nat → Rat) (tracing : Bool) :
    ∃ s, scripted limit clock tracing as = (.ok 0, s) ∧ (tracing = false → s.lines = [x.value.display]) := by
  obtain ⟨_, _, _, _, _, hs⟩ :=
    scripted_of_tree x limit clock tracing (ofArguments_of_no_option h) hne hroot
  refine ⟨_, hs, ?_⟩
  rintro rfl
  rw [Script.lines_after, printedLines_of_quiet x rfl]
  rfl

theorem scripted_reason (hne : as ≠ []) {err : ParseError}
    (herr : Expr.ofText limit (" ".intercalate as) = .error (.refused err))
    (clock : Nat → Rat) (tracing : Bool) : ∃ s, scripted limit clock tracing as = (.ok 1, s) :=
  ⟨_, scripted_of_refusal limit clock tracing (ofArguments_of_no_option h) hne herr⟩

end NoOption

theorem scripted_of_blanks (ha : "dot" ∉ as ∧ "debug" ∉ as) (hb : "dot" ∉ bs ∧ "debug" ∉ bs)
    (hane : as ≠ []) (hbne : bs ≠ [])
    (htext : (String.join as).toList.filter (!Token.isBlank ·) =
      (String.join bs).toList.filter (!Token.isBlank ·))
    (clock clock' : Nat → Rat) (tracing tracing' : Bool) :
    ∃ code s s', scripted limit clock tracing as = (.ok code, s) ∧
      scripted limit clock' tracing' bs = (.ok code, s') ∧
      (code = 0 → tracing = false → tracing' = false → s.lines = s'.lines) := by
  have hblanks : (" ".intercalate as).toList.filter (!Token.isBlank ·) =
      (" ".intercalate bs).toList.filter (!Token.isBlank ·) := by
    rw [filter_intercalate, filter_intercalate, htext]
  rcases Parse.ofText_blanks_cases hblanks limit with
    ⟨e, e', he, he', halike⟩ | ⟨x, y, hx, hy⟩
  · obtain ⟨x⟩ := shown_of_ofText he
    obtain ⟨y⟩ := shown_of_ofText he'
    have hvalue : x.value = y.value := by
      have hsame := halike.value_eq
      rw [x.value_eq, y.value_eq] at hsame
      exact Except.ok.inj hsame
    obtain ⟨s, hs, hlines⟩ := scripted_value ha hane he x clock tracing
    obtain ⟨s', hs', hlines'⟩ := scripted_value hb hbne he' y clock' tracing'
    refine ⟨0, s, s', hs, hs', ?_⟩
    intro _ ht ht'
    rw [hlines ht, hlines' ht', hvalue]
  · obtain ⟨s, hs⟩ := scripted_reason ha hane hx clock tracing
    obtain ⟨s', hs'⟩ := scripted_reason hb hbne hy clock' tracing'
    refine ⟨1, s, s', hs, hs', ?_⟩
    intro h10
    cases h10

theorem arguments_rearranged :
    (∀ (limit : Limit) (clock : Nat → Rat) (tracing : Bool) (as bs : List String),
      ("dot" ∈ as ↔ "dot" ∈ bs) → ("debug" ∈ as ↔ "debug" ∈ bs) →
      ((as.filter fun a => a ≠ "dot" ∧ a ≠ "debug") = bs.filter fun a => a ≠ "dot" ∧ a ≠ "debug") →
      ∃ code s s', scripted limit clock tracing as = (.ok code, s) ∧
        scripted limit clock tracing bs = (.ok code, s') ∧
        s.lines = s'.lines ∧ s.tracing = tracing ∧ s'.tracing = tracing) ∧
    ∀ (limit : Limit) (clock clock' : Nat → Rat) (tracing tracing' : Bool) (as bs : List String),
      "dot" ∉ as ∧ "debug" ∉ as → "dot" ∉ bs ∧ "debug" ∉ bs → as ≠ [] → bs ≠ [] →
      (String.join as).toList.filter (!Token.isBlank ·) =
        (String.join bs).toList.filter (!Token.isBlank ·) →
      ∃ code s s', scripted limit clock tracing as = (.ok code, s) ∧
        scripted limit clock' tracing' bs = (.ok code, s') ∧
        (code = 0 → tracing = false → tracing' = false → s.lines = s'.lines) := by
  constructor
  · intro limit clock tracing as bs hdot hdebug hwords
    obtain ⟨code, s, hs, ht⟩ := exists_scripted limit clock tracing as
    have hsame := scripted_of_invocation (ofArguments_of_same hdot hdebug hwords) limit clock tracing
    exact ⟨code, s, s, hs, hsame ▸ hs, rfl, ht, ht⟩
  · intro limit clock clock' tracing tracing' as bs ha hb hane hbne htext
    exact scripted_of_blanks ha hb hane hbne htext clock clock' tracing tracing'

/-- Options between the words of `1 +2` and behind them; and `12+3` cut inside its number. -/
theorem arguments_rearranged_of_sums :
    (("dot" ∈ ["debug", "1", "dot", "+2"] ↔ "dot" ∈ ["1", "dot", "+2", "dot", "debug"]) ∧
      ("debug" ∈ ["debug", "1", "dot", "+2"] ↔ "debug" ∈ ["1", "dot", "+2", "dot", "debug"]) ∧
      ∃ code s s', scripted (some 990) (fun _ => 0) true ["debug", "1", "dot", "+2"] = (.ok code, s) ∧
        scripted (some 990) (fun _ => 0) true ["1", "dot", "+2", "dot", "debug"] = (.ok code, s') ∧
        s.lines = s'.lines ∧ s.tracing = true ∧ s'.tracing = true) ∧
    (String.join ["1", "2+3"]).toList.filter (!Token.isBlank ·) =
      (String.join ["12 ", "+", "3"]).toList.filter (!Token.isBlank ·) ∧
    ∃ s s', scripted (some 990) (fun _ => 0) false ["1", "2+3"] = (.ok 0, s) ∧
      scripted (some 990) (fun _ => 5) false ["12 ", "+", "3"] = (.ok 0, s') ∧ s.lines = s'.lines := by
  obtain ⟨hoptions, hcuts⟩ := arguments_rearranged
  have hdot : "dot" ∈ ["debug", "1", "dot", "+2"] ↔ "dot" ∈ ["1", "dot", "+2", "dot", "debug"] := by
    decide
  have hdebug : "debug" ∈ ["debug", "1", "dot", "+2"] ↔
      "debug" ∈ ["1", "dot", "+2", "dot", "debug"] := by decide
  have htext : (String.join ["1", "2+3"]).toList.filter (!Token.isBlank ·) =
      (String.join ["12 ", "+", "3"]).toList.filter (!Token.isBlank ·) := by decide
  refine ⟨⟨hdot, hdebug, hoptions _ _ true _ _ hdot hdebug (by decide)⟩, htext, ?_⟩
  obtain ⟨code, s, s', hs, hs', hlines⟩ := hcuts (some 990) (fun _ => 0) (fun _ => 5) false false _ _
    (by decide) (by decide) (by decide) (by decide) htext
  have hroot : Expr.ofText (some 990) "1 2+3" =
      .ok (.binary .add 3 (.constant 0 12) (.constant 4 3)) := rfl
  obtain ⟨x⟩ := shown_of_ofText hroot
  have hwords : "dot" ∉ ["1", "2+3"] ∧ "debug" ∉ ["1", "2+3"] := by decide
  obtain ⟨t, ht, -⟩ := scripted_value hwords (by decide) hroot x (fun _ => 0) false
  obtain rfl : code = 0 := by
    rw [hs] at ht
    exact Except.ok.inj (Prod.mk.inj ht).1
  exact ⟨s, s', hs, hs', hlines rfl rfl rfl⟩

end Abacus.CommandLine
