/-
  Abacus.Token — the smallest piece of an expression's text: a character that is not
  blank, the class it belongs to, and where it stands.

  A scanner makes one token for each character, so a number of several digits is several
  tokens; joining them is the parser's work (`Parse.literal`). Tokens made by hand may hold
  any lexeme at any position, and may have the class `plain`, to which no character belongs.

  A token never changes: an attempt to change one is `Fault.immutable`.

  `Token.listing` writes tokens as text again, with a single space between two neighbours,
  except that two digits stay together when the second stood right behind the first.
-/

import Abacus.Text.Quoted

namespace Abacus

namespace Token

inductive Kind where
  | plain
  | digit
  | plus
  | minus
  | star
  | solidus
  | leftParen
  | rightParen
  | unrecognized
  deriving DecidableEq, Repr

def Kind.name : Kind → String
  | .plain => "Token"
  | .digit => "Digit"
  | .plus => "Plus"
  | .minus => "Minus"
  | .star => "Star"
  | .solidus => "Solidus"
  | .leftParen => "LeftParen"
  | .rightParen => "RightParen"
  | .unrecognized => "Unrecognized"

/-- Spaces, tabs and line feeds lie between tokens; a carriage return does not. -/
def isBlank (c : Char) : Bool := c == ' ' || c == '\t' || c == '\n'

def Kind.ofChar (c : Char) : Kind :=
  if c.isDigit then .digit
  else if c = '+' then .plus
  else if c = '-' then .minus
  else if c = '*' then .star
  else if c = '/' then .solidus
  else if c = '(' then .leftParen
  else if c = ')' then .rightParen
  else .unrecognized

inductive Fault where
  | immutable (kind : Kind)
  /-- A digit's worth is asked of a lexeme of this many characters. -/
  | notOneCharacter (length : Nat)
  deriving DecidableEq, Repr

def Fault.message : Fault → String
  | .immutable kind => s!"{kind.name} is immutable"
  | .notOneCharacter length =>
    s!"ord() expected a character, but string of length {length} found"

end Token

structure Token where
  kind : Token.Kind
  lexeme : String
  position : Int
  deriving DecidableEq, Repr

namespace Token

def isDigit (t : Token) : Bool := t.kind == .digit

def describe (t : Token) : String := s!"{t.kind.name}({Text.quoted t.lexeme}@{t.position})"

/-- What a digit adds to a number: how far its character lies beyond the character 0. For
    the ten digits that is 0 to 9; a digit made by hand may be worth anything. -/
def worth (t : Token) : Except Fault Int :=
  match t.lexeme.toList with
  | [c] => .ok (c.toNat - '0'.toNat)
  | cs => .error (.notOneCharacter cs.length)

def worth? (t : Token) : Option (Except Fault Int) :=
  if t.isDigit then some t.worth else none

def assign (t : Token) (_field : String) : Except Fault Token := .error (.immutable t.kind)

def delete (t : Token) (_field : String) : Except Fault Token := .error (.immutable t.kind)

end Token

end Abacus

/-! # Listings -/

namespace Abacus.Token

/-- Two neighbours that are written without a space between them. -/
def joins (first second : Token) : Bool :=
  first.isDigit && second.isDigit && second.position == first.position + 1

def piecesAfter : Token → List Token → List String
  | _, [] => []
  | previous, t :: ts =>
    if previous.joins t then t.lexeme :: piecesAfter t ts
    else " " :: t.lexeme :: piecesAfter t ts

def listing : List Token → String
  | [] => ""
  | t :: ts => String.join (t.lexeme :: piecesAfter t ts)

end Abacus.Token
