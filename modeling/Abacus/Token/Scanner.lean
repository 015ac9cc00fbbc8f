/-
  Abacus.Token.Scanner — from a text to its tokens, all at once or one by one.

  `Token.scan` gives the tokens of a text: every character that is not blank, in order,
  with its index among all the characters of the text, blank ones counted. Scanning never
  fails; a character outside the grammar is a token of its own class.

  A `Scanner` is the same work done on demand: `Scanner.next?` delivers one token and
  `Scanner.rest` all that are left. `Scanner.Session` answers requests for either, can
  start over, and notes one line for each token it delivers when it is asked to.

  `Scanner.rest_eq` ties the two: what a scanner still delivers is the scan of what it has
  not read.
-/

import Abacus.Token

namespace Abacus

namespace Token

def scanFrom : Nat → List Char → List Token
  | _, [] => []
  | position, c :: cs =>
    if isBlank c then scanFrom (position + 1) cs
    else ⟨.ofChar c, c.toString, position⟩ :: scanFrom (position + 1) cs

def scan (text : String) : List Token := scanFrom 0 text.toList

def scanLine (t : Token) : String :=
  s!"[DEBUG] pos={t.position}: char='{t.lexeme}' -> {t.kind.name}"

theorem scanFrom_append (p : Nat) (cs ds : List Char) :
    scanFrom p (cs ++ ds) = scanFrom p cs ++ scanFrom (p + cs.length) ds := by
  induction cs generalizing p with
  | nil => simp [scanFrom]
  | cons c cs ih =>
    simp only [List.cons_append, scanFrom, List.length_cons]
    rw [ih, Nat.add_assoc, Nat.add_comm 1 cs.length]
    split <;> simp

end Token

/-- A text being scanned: the characters not read yet and the index of the first. -/
structure Scanner where
  pending : List Char
  position : Nat
  deriving DecidableEq, Repr

namespace Scanner

def ofText (text : String) : Scanner := ⟨text.toList, 0⟩

def nextFrom? : List Char → Nat → Option (Token × Scanner)
  | [], _ => none
  | c :: cs, position =>
    if Token.isBlank c then nextFrom? cs (position + 1)
    else some (⟨.ofChar c, c.toString, position⟩, ⟨cs, position + 1⟩)

/-- The next token and the scanner behind it; nothing when only blanks are left. -/
def next? (s : Scanner) : Option (Token × Scanner) := nextFrom? s.pending s.position

theorem pending_lt_of_next? {s s' : Scanner} {t : Token} (h : s.next? = some (t, s')) :
    s'.pending.length < s.pending.length := by
  obtain ⟨cs, p⟩ := s
  simp only [next?] at h
  induction cs generalizing p with
  | nil => simp [nextFrom?] at h
  | cons c cs ih =>
    simp only [nextFrom?] at h
    split at h
    · have := ih (p + 1) h
      simp only [List.length_cons] at this ⊢
      omega
    · simp only [Option.some.injEq, Prod.mk.injEq] at h
      simp [← h.2]

def rest (s : Scanner) : List Token :=
  match _h : s.next? with
  | none => []
  | some (t, s') => t :: s'.rest
termination_by s.pending.length
decreasing_by exact pending_lt_of_next? _h

theorem rest_of_none {s : Scanner} (h : s.next? = none) : s.rest = [] := by
  unfold rest
  split
  · rfl
  · simp_all

theorem rest_of_some {s s' : Scanner} {t : Token} (h : s.next? = some (t, s')) :
    s.rest = t :: s'.rest := by
  rw [rest]
  split
  · simp_all
  · rename_i h'
    rw [h] at h'
    simp only [Option.some.injEq, Prod.mk.injEq] at h'
    rw [h'.1, h'.2]

theorem rest_eq (s : Scanner) : s.rest = Token.scanFrom s.position s.pending := by
  obtain ⟨cs, p⟩ := s
  induction cs generalizing p with
  | nil => exact rest_of_none rfl
  | cons c cs ih =>
    by_cases hc : Token.isBlank c = true
    · have hn : (⟨c :: cs, p⟩ : Scanner).next? = (⟨cs, p + 1⟩ : Scanner).next? := by
        simp [next?, nextFrom?, hc]
      simp only [Token.scanFrom, hc, if_true, ← ih]
      cases h : (⟨cs, p + 1⟩ : Scanner).next? with
      | none => rw [rest_of_none (hn.trans h), rest_of_none h]
      | some r => rw [rest_of_some (hn.trans h), rest_of_some h]
    · have hn : (⟨c :: cs, p⟩ : Scanner).next? =
          some (⟨.ofChar c, c.toString, p⟩, ⟨cs, p + 1⟩) := by
        simp [next?, nextFrom?, hc]
      rw [rest_of_some hn, ih]
      simp [Token.scanFrom, hc]

theorem rest_ofText (text : String) : (ofText text).rest = Token.scan text := rest_eq _

/-! ## Requests -/

inductive Request where
  | next
  | rest
  | restart
  deriving DecidableEq, Repr

inductive Reply where
  | token (t : Token)
  /-- A token was asked for and none is left. -/
  | exhausted
  | tokens (ts : List Token)
  | restarted
  deriving DecidableEq, Repr

def Reply.delivered : Reply → List Token
  | .token t => [t]
  | .tokens ts => ts
  | .exhausted | .restarted => []

structure Session where
  text : String
  debug : Bool
  scanner : Scanner

def Session.start (text : String) (debug : Bool) : Session := ⟨text, debug, ofText text⟩

def Session.answer (s : Session) (request : Request) : Reply × List String × Session :=
  let note (ts : List Token) := if s.debug then ts.map Token.scanLine else []
  match request with
  | .next =>
    match s.scanner.next? with
    | some (t, scanner) => (.token t, note [t], { s with scanner })
    | none => (.exhausted, [], s)
  | .rest =>
    let ts := s.scanner.rest
    (.tokens ts, note ts, { s with scanner := ⟨[], s.scanner.position + s.scanner.pending.length⟩ })
  | .restart => (.restarted, [], { s with scanner := ofText s.text })

def Session.answers (s : Session) : List Request → List (Reply × List String)
  | [] => []
  | request :: requests =>
    let (reply, lines, s') := s.answer request
    (reply, lines) :: s'.answers requests

end Scanner

end Abacus
