/-
  Abacus.Proofs.Token.Scanner — the tokens of a text, and how a session hands them out.

  - `shapes_scan`: the tokens of a scan without their places are the characters that are not
    blank, so blanks move tokens and do nothing else.
  - `scanFrom_add`: a stretch that begins further on has the same tokens, further on by as much.
    So have two texts one behind the other (`scan_append`).
  - `Derives.shift` / `derives_at`: tokens further on derive the tree further on, so what a text
    derives, it derives wherever it is put.
  - `replies_debug` / `answers_silent`: what a session over a text replies does not depend on
    whether it notes its deliveries, and one that does not note them prints nothing.

  `indexed` says what the tokens of a text are without scanning: its characters with their
  indices, blanks left out. `handedOut` collects what a session has handed out since it last
  started over.

  - `Given`: what has been handed out and what the scanner still holds are together the whole
    text; `Given.answer`: every request keeps that, and is answered from what is left.
  - `delivers_in_order`: so whatever has been asked before, the tokens handed out are a front of
    the text's, and the next request is answered from behind them, with a line for each token
    when debugging and no line otherwise. When none is left, none is until the next restart.
-/

import Abacus.Grammar
import Abacus.Token.Scanner

namespace Abacus

/-! # Tokens without their places -/

namespace Token

theorem isBlank_of_isDigit {c : Char} (h : c.isDigit = true) : isBlank c = false := by
  rw [Bool.eq_false_iff]
  intro hb
  simp only [isBlank, Bool.or_eq_true, beq_iff_eq] at hb
  rcases hb with (rfl | rfl) | rfl <;> exact absurd h (by decide)

def shape (t : Token) : Kind × String := (t.kind, t.lexeme)

def shapeOf (c : Char) : Kind × String := (.ofChar c, c.toString)

theorem shape_eq_shapeOf_iff {t : Token} {c : Char} :
    t.shape = shapeOf c ↔ t.kind = .ofChar c ∧ t.lexeme = c.toString :=
  Prod.mk.injEq .. ▸ Iff.rfl

theorem shapes_scanFrom (p : Nat) (cs : List Char) :
    (scanFrom p cs).map shape = (cs.filter (!isBlank ·)).map shapeOf := by
  induction cs generalizing p with
  | nil => rfl
  | cons c cs ih =>
    by_cases hc : isBlank c = true
    · simp [scanFrom, hc, ih]
    · simp [scanFrom, hc, ih, shape, shapeOf]

theorem shapes_scan (text : String) :
    (scan text).map shape = (text.toList.filter (!isBlank ·)).map shapeOf :=
  shapes_scanFrom 0 text.toList

end Token

namespace Grammar

theorem face_of_shape {t : Token} {c : Char} (h : t.shape = Token.shapeOf c) :
    face t = c.toNat - '0'.toNat := by
  have hl : t.lexeme.toList = [c] := by
    rw [(Token.shape_eq_shapeOf_iff.mp h).2, Char.toString, String.toList_singleton]
  have hw : t.worth = .ok (c.toNat - '0'.toNat : Int) := by simp only [Token.worth, hl]
  simp only [face, hw]
  omega

/-- Digits make the number that their characters spell. -/
theorem numeral_of_shapes {ts : List Token} {cs : List Char}
    (h : ts.map Token.shape = cs.map Token.shapeOf) : numeral ts = Nat.ofDigitChars 10 cs 0 := by
  have hfold : ∀ n, ts.foldl (fun n t => 10 * n + face t) n = Nat.ofDigitChars 10 cs n := by
    induction ts generalizing cs with
    | nil =>
      rw [List.map_nil, eq_comm, List.map_eq_nil_iff] at h
      simp [h]
    | cons t ts ih =>
      intro n
      obtain ⟨c, ds, rfl, hc, hds⟩ := List.map_eq_cons_iff.mp h.symm
      rw [List.foldl_cons, Nat.ofDigitChars_cons, face_of_shape hc.symm]
      exact ih hds.symm _
  exact hfold 0

end Grammar

/-! # Tokens further on -/

namespace Token

def shift (k : Int) (t : Token) : Token := { t with position := t.position + k }

theorem scanFrom_add (p k : Nat) (cs : List Char) :
    scanFrom (p + k) cs = (scanFrom p cs).map (shift k) := by
  induction cs generalizing p with
  | nil => rfl
  | cons c cs ih =>
    have hnext : p + k + 1 = p + 1 + k := by omega
    by_cases hb : isBlank c = true
    · simp only [scanFrom, hb, if_true, hnext, ih]
    · simp only [scanFrom, hb, Bool.false_eq_true, if_false, hnext, ih, List.map_cons]
      rfl

/-- A text behind another has its own tokens, further on by the length of the other. -/
theorem scan_append (s t : String) :
    scan (s ++ t) = scan s ++ (scan t).map (shift s.length) := by
  have hshift := scanFrom_add 0 s.toList.length t.toList
  unfold scan
  rw [String.toList_append, scanFrom_append, hshift, String.length_toList]

end Token

namespace Grammar

/-- What digits are worth does not depend on where they stand. -/
theorem numeral_shift (k : Int) (ds : List Token) : numeral (ds.map (Token.shift k)) = numeral ds := by
  unfold numeral
  rw [List.foldl_map]
  rfl

theorem Derives.shift {n : Nonterminal} {ts : List Token} {e : Expr} (h : Derives n ts e) (k : Int) :
    Derives n (ts.map (Token.shift k)) (e.mapPositions (· + k)) := by
  induction h with
  | @number d ds hd =>
    have hdigits : ∀ t ∈ d.shift k :: ds.map (Token.shift k), t.isDigit = true := by
      intro t ht
      rw [← List.map_cons] at ht
      obtain ⟨u, hu, rfl⟩ := List.mem_map.mp ht
      exact hd u hu
    have hn : numeral (d.shift k :: ds.map (Token.shift k)) = numeral (d :: ds) := numeral_shift k (d :: ds)
    rw [Expr.mapPositions, ← hn]
    exact .number hdigits
  | integer _ ih => exact .integer ih
  | negation hk _ ih => exact .negation hk ih
  | group hf _ hl ih =>
    rw [List.map_append, List.map_cons]
    exact .group hf ih hl
  | factor _ ih => exact .factor ih
  | product _ ho _ ihl ihr =>
    rw [List.map_append, List.map_cons]
    exact .product ihl ho ihr
  | term _ ih => exact .term ih
  | sum _ ho _ ihl ihr =>
    rw [List.map_append, List.map_cons]
    exact .sum ihl ho ihr

theorem derives_at {n : Nonterminal} {cs : List Char} {e : Expr} (h : Derives n (Token.scanFrom 0 cs) e)
    (p : Nat) : Derives n (Token.scanFrom p cs) (e.mapPositions (· + p)) := by
  have hs := Token.scanFrom_add 0 p cs
  rw [Nat.zero_add] at hs
  rw [hs]
  exact h.shift p

end Grammar

end Abacus

/-! # Sessions with and without notes -/

namespace Abacus.Scanner.Session

theorem answer_debug (s : Session) (request : Request) :
    (({ s with debug := true } : Session).answer request).1 = (s.answer request).1 ∧
      (({ s with debug := true } : Session).answer request).2.2 =
        { (s.answer request).2.2 with debug := true } := by
  cases request with
  | next =>
    simp only [answer]
    cases s.scanner.next? <;> exact ⟨rfl, rfl⟩
  | rest | restart => exact ⟨rfl, rfl⟩

theorem replies_debug (s : Session) (requests : List Request) :
    (({ s with debug := true } : Session).answers requests).map Prod.fst =
      (s.answers requests).map Prod.fst := by
  induction requests generalizing s with
  | nil => rfl
  | cons request requests ih =>
    obtain ⟨hreply, hnext⟩ := s.answer_debug request
    simp only [answers, List.map_cons, hreply, hnext, ih]

theorem answer_silent {s : Session} (h : s.debug = false) (request : Request) :
    (s.answer request).2.1 = [] ∧ (s.answer request).2.2.debug = false := by
  cases request with
  | next =>
    simp only [answer]
    cases s.scanner.next? <;> simp [h]
  | rest | restart => simp [answer, h]

theorem answers_silent {s : Session} (h : s.debug = false) (requests : List Request) :
    ∀ r ∈ s.answers requests, r.2 = [] := by
  induction requests generalizing s with
  | nil => simp [answers]
  | cons request requests ih =>
    obtain ⟨hlines, hnext⟩ := answer_silent h request
    exact List.forall_mem_cons.mpr ⟨hlines, ih hnext⟩

end Abacus.Scanner.Session

/-! # Deliveries -/

namespace Abacus

namespace Token

def Kind.Holds : Kind → Char → Prop
  | .digit, c => '0' ≤ c ∧ c ≤ '9'
  | .plus, c => c = '+'
  | .minus, c => c = '-'
  | .star, c => c = '*'
  | .solidus, c => c = '/'
  | .leftParen, c => c = '('
  | .rightParen, c => c = ')'
  | .unrecognized, c => ¬ ('0' ≤ c ∧ c ≤ '9') ∧ c ∉ ['+', '-', '*', '/', '(', ')']
  | .plain, _ => False

theorem Kind.holds_ofChar (c : Char) : (Kind.ofChar c).Holds c := by
  have hdigit : c.isDigit = true ↔ '0' ≤ c ∧ c ≤ '9' := by
    simp [Char.isDigit, Char.le_def]
  unfold ofChar
  by_cases hd : c.isDigit = true
  · rw [if_pos hd]
    exact hdigit.mp hd
  · rw [if_neg hd]
    repeat' split
    case isFalse =>
      refine ⟨fun h => hd (hdigit.mpr h), ?_⟩
      simp_all
    all_goals assumption

def ofIndexed (x : Char × Nat) : Token := ⟨.ofChar x.1, x.1.toString, x.2⟩

/-- The characters of a text that are not blank, each with its index, as tokens. -/
def indexed (text : String) : List Token :=
  (text.toList.zipIdx.filter fun x => !isBlank x.1).map ofIndexed

theorem scanFrom_eq_indexed (p : Nat) (cs : List Char) :
    scanFrom p cs = ((cs.zipIdx p).filter fun x => !isBlank x.1).map ofIndexed := by
  induction cs generalizing p with
  | nil => rfl
  | cons c cs ih =>
    rw [scanFrom, List.zipIdx_cons, ih]
    by_cases hb : isBlank c = true
    · simp [hb]
    · simp [hb, ofIndexed]

theorem scan_eq_indexed (text : String) : scan text = indexed text :=
  scanFrom_eq_indexed 0 text.toList

end Token

namespace Scanner

/-! ## What has been handed out -/

def Reply.after (given : List Token) : Reply → List Token
  | .restarted => []
  | .token t => given ++ [t]
  | .tokens ts => given ++ ts
  | .exhausted => given

/-- The reply to a request when so many of the tokens have been handed out. -/
def Request.reply (tokens : List Token) (count : Nat) : Request → Reply
  | .next =>
    match tokens[count]? with
    | some t => .token t
    | none => .exhausted
  | .rest => .tokens (tokens.drop count)
  | .restart => .restarted

def Reply.lines (debug : Bool) (reply : Reply) : List String :=
  if debug then reply.delivered.map Token.scanLine else []

def Session.after (s : Session) (requests : List Request) : Session :=
  requests.foldl (fun s request => (s.answer request).2.2) s

theorem Session.answers_append (s : Session) (earlier later : List Request) :
    s.answers (earlier ++ later) = s.answers earlier ++ (s.after earlier).answers later := by
  induction earlier generalizing s with
  | nil => rfl
  | cons request earlier ih =>
    simp only [List.cons_append, Session.answers, ih]
    rfl

theorem Session.length_answers (s : Session) (requests : List Request) :
    (s.answers requests).length = requests.length := by
  induction requests generalizing s with
  | nil => rfl
  | cons request requests ih => simp only [Session.answers, List.length_cons, ih]

/-- A session over a text that has handed out `given` since the last restart, and holds the
    rest. -/
structure Given (text : String) (debug : Bool) (given : List Token) (s : Session) : Prop where
  text_eq : s.text = text
  debug_eq : s.debug = debug
  whole : given ++ s.scanner.rest = Token.scan text

variable {text : String} {debug : Bool} {given : List Token} {s : Session}

theorem given_start (text : String) (debug : Bool) : Given text debug [] (Session.start text debug) :=
  ⟨rfl, rfl, rest_ofText text⟩

theorem Given.isPrefix (h : Given text debug given s) : given <+: Token.scan text :=
  ⟨s.scanner.rest, h.whole⟩

theorem Given.drop (h : Given text debug given s) :
    (Token.scan text).drop given.length = s.scanner.rest := by
  rw [← h.whole, List.drop_left]

/-! ## One request -/

theorem Given.answer_next (h : Given text debug given s) :
    (s.answer .next).1 = Request.next.reply (Token.scan text) given.length ∧
      (s.answer .next).2.1 = (s.answer .next).1.lines debug ∧
      Given text debug ((s.answer .next).1.after given) (s.answer .next).2.2 := by
  have hnext : (Token.scan text)[given.length]? = s.scanner.rest.head? := by
    rw [← h.drop, List.head?_drop]
  simp only [Session.answer, Request.reply, hnext]
  rcases hs : s.scanner.next? with _ | ⟨t, scanner⟩
  · rw [rest_of_none hs]
    exact ⟨rfl, by simp [Reply.lines, Reply.delivered], h⟩
  · have hrest := rest_of_some hs
    have hwhole := h.whole
    rw [hrest] at hwhole ⊢
    refine ⟨rfl, by rw [h.debug_eq]; rfl, h.text_eq, h.debug_eq, ?_⟩
    show given ++ [t] ++ scanner.rest = _
    rw [List.append_assoc]
    exact hwhole

theorem Given.answer (h : Given text debug given s) (request : Request) :
    (s.answer request).1 = request.reply (Token.scan text) given.length ∧
      (s.answer request).2.1 = (s.answer request).1.lines debug ∧
      Given text debug ((s.answer request).1.after given) (s.answer request).2.2 := by
  cases request with
  | next => exact h.answer_next
  | rest =>
    refine ⟨?_, ?_, h.text_eq, h.debug_eq, ?_⟩
    · exact congrArg Reply.tokens h.drop.symm
    · simp only [Session.answer, Reply.lines, Reply.delivered, h.debug_eq]
    · have hend (position : Nat) : (⟨[], position⟩ : Scanner).rest = [] := rest_of_none rfl
      show given ++ s.scanner.rest ++ (⟨[], _⟩ : Scanner).rest = _
      rw [hend, List.append_nil, h.whole]
  | restart =>
    refine ⟨rfl, by simp [Session.answer, Reply.lines, Reply.delivered], h.text_eq, h.debug_eq, ?_⟩
    show [] ++ (ofText s.text).rest = _
    rw [h.text_eq, rest_ofText, List.nil_append]

/-! ## Any requests -/

/-- What has been handed out since the last restart, behind requests, when `given` has been
    before them. -/
def handedOut (given : List Token) (s : Session) (requests : List Request) : List Token :=
  ((s.answers requests).map Prod.fst).foldl Reply.after given

theorem handedOut_cons (given : List Token) (s : Session) (request : Request) (requests : List Request) :
    handedOut given s (request :: requests) =
      handedOut ((s.answer request).1.after given) (s.answer request).2.2 requests := rfl

theorem handedOut_append (given : List Token) (s : Session) (earlier later : List Request) :
    handedOut given s (earlier ++ later) = handedOut (handedOut given s earlier) (s.after earlier) later := by
  unfold handedOut
  rw [Session.answers_append, List.map_append, List.foldl_append]

theorem Given.after (h : Given text debug given s) (requests : List Request) :
    Given text debug (handedOut given s requests) (s.after requests) := by
  induction requests generalizing given s with
  | nil => exact h
  | cons request requests ih =>
    rw [handedOut_cons]
    exact ih (h.answer request).2.2

/-- When all has been handed out, that is all until the next restart. -/
theorem Given.exhausted (h : Given text debug (Token.scan text) s) {requests : List Request}
    (hr : .restart ∉ requests) : handedOut (Token.scan text) s requests = Token.scan text := by
  induction requests generalizing s with
  | nil => rfl
  | cons request requests ih =>
    obtain ⟨hreply, -, hnext⟩ := h.answer request
    obtain ⟨hne, hrs⟩ := not_or.mp fun h => hr (List.mem_cons.mpr h)
    have hsame : (s.answer request).1.after (Token.scan text) = Token.scan text := by
      rw [hreply]
      cases request with
      | next => simp [Request.reply, Reply.after]
      | rest => simp [Request.reply, Reply.after]
      | restart => exact absurd rfl hne
    rw [hsame] at hnext
    rw [handedOut_cons, hsame]
    exact ih hnext hrs

theorem delivers_in_order (text : String) (debug : Bool) :
    (∀ c, (Token.Kind.ofChar c).Holds c) ∧
    (∀ (earlier later : List Request) (request : Request),
      let given := handedOut [] (Session.start text debug) earlier
      let reply := request.reply (Token.indexed text) given.length
      given <+: Token.indexed text ∧
        ((Session.start text debug).answers (earlier ++ request :: later))[earlier.length]? =
          some (reply, reply.lines debug)) ∧
    (∀ earlier later : List Request, .restart ∉ later →
      handedOut [] (Session.start text debug) earlier = Token.indexed text →
      handedOut [] (Session.start text debug) (earlier ++ later) = Token.indexed text) ∧
    ∀ more : String,
      Token.scan (text ++ more) = Token.scan text ++ (Token.scan more).map (Token.shift text.length) := by
  refine ⟨Token.Kind.holds_ofChar, ?_, ?_, Token.scan_append text⟩
  · intro earlier later request
    have hgiven := (given_start text debug).after earlier
    obtain ⟨hreply, hlines, -⟩ := hgiven.answer request
    rw [← Token.scan_eq_indexed]
    refine ⟨hgiven.isPrefix, ?_⟩
    have hplace := Session.length_answers (Session.start text debug) earlier
    rw [Session.answers_append, List.getElem?_append_right (Nat.le_of_eq hplace), hplace, Nat.sub_self]
    show some ((((Session.start text debug).after earlier).answer request).1,
      (((Session.start text debug).after earlier).answer request).2.1) = _
    rw [hlines, hreply]
  · intro earlier later hr hall
    have hgiven := (given_start text debug).after earlier
    rw [← Token.scan_eq_indexed] at hall ⊢
    rw [hall] at hgiven
    rw [handedOut_append, hall]
    exact hgiven.exhausted hr

/-- A session over ` 7 -` and a question mark on the next line, which starts over once. Behind a
    request for all that is left nothing is left. -/
theorem delivers_spaced_difference :
    ((Session.start " 7 -\n?" true).answers [.next, .restart, .next, .rest, .next])[3]? =
        some (.tokens [⟨.minus, "-", 3⟩, ⟨.unrecognized, "?", 5⟩],
          ["[DEBUG] pos=3: char='-' -> Minus", "[DEBUG] pos=5: char='?' -> Unrecognized"]) ∧
    (Request.restart ∉ [Request.next, .rest] ∧
      handedOut [] (Session.start " 7 -\n?" true) [.rest] = Token.indexed " 7 -\n?") ∧
    handedOut [] (Session.start " 7 -\n?" true) ([.rest] ++ [.next, .rest]) =
      Token.indexed " 7 -\n?" := by
  obtain ⟨-, hreplies, hstays, -⟩ := delivers_in_order " 7 -\n?" true
  have hall : handedOut [] (Session.start " 7 -\n?" true) [.rest] = Token.indexed " 7 -\n?" :=
    (rest_ofText _).trans (Token.scan_eq_indexed _)
  exact ⟨(hreplies [.next, .restart, .next] [.next] .rest).2, ⟨by decide, hall⟩,
    hstays [.rest] [.next, .rest] (by decide) hall⟩

end Scanner

end Abacus
