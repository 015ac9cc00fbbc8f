/-
  Abacus.Proofs.Parse.Listing — a text and the listing of its tokens say the same.

  `placed` says where tokens stand in their listing: one character apart if they are written
  together, two if a space lies between them.

  - `scan_listing`: scanned tokens that are listed and scanned again are the same tokens, placed.
  - `shapes_placed` / `joins_placed` / `adjacent_placed`: placing keeps the class and the lexeme
    of each token, and which neighbours are written together; digits stand next to each other
    when they did.
  - `listing_placed`: so the listing of placed tokens is the listing they were placed by.

  The parser copies positions and does not read them. So tokens are compared by way of those of
  the same shapes that are numbered from 0 (`byIndex`).

  - `readWhole_eq_byIndex`: the outcome on any tokens is that on the numbered ones, with each
    number replaced by the position of the token that has it (`placeOf`).
  - `ofText_of_shapes`: texts whose tokens have the same shapes have like trees, or are refused
    for one cause at tokens of one index.
  - `listing_normal_form`: so it is with a text and its listing, which has the shapes of the text,
    the same digits next to each other, and itself as its listing.
-/

import Abacus.Proofs.Parse.Number
import Abacus.Proofs.Parse.Relabelling
import Abacus.Proofs.Parse.Viable
import Abacus.Token

namespace Abacus.Token

/-! # Listings scanned again -/

/-- What a scanner makes of a character, wherever it stands. -/
def Scanned (t : Token) : Prop := ∃ c, isBlank c = false ∧ t.shape = shapeOf c

theorem scanned_of_mem_scan {text : String} {t : Token} (h : t ∈ scan text) : t.Scanned := by
  have hshape : t.shape ∈ (scan text).map shape := List.mem_map_of_mem h
  rw [shapes_scan] at hshape
  obtain ⟨c, hc, hs⟩ := List.mem_map.mp hshape
  have hblank : isBlank c = false := by simpa using (List.mem_filter.mp hc).2
  exact ⟨c, hblank, hs.symm⟩

/-! ## Places in a listing -/

def moveTo (p : Nat) (t : Token) : Token := { t with position := p }

@[simp] theorem shape_moveTo (p : Nat) (t : Token) : (t.moveTo p).shape = t.shape := rfl

@[simp] theorem lexeme_moveTo (p : Nat) (t : Token) : (t.moveTo p).lexeme = t.lexeme := rfl

/-- How far behind a token its neighbour is written. -/
def gap (first second : Token) : Nat := if first.joins second then 1 else 2

/-- The places of the tokens that follow a given one, which is written at `p`. -/
def placedAfter : Token → Nat → List Token → List Token
  | _, _, [] => []
  | previous, p, t :: ts =>
    let q := p + previous.gap t
    t.moveTo q :: placedAfter t q ts

def placed : List Token → List Token
  | [] => []
  | t :: ts => t.moveTo 0 :: placedAfter t 0 ts

/-- Written a gap apart, two tokens are neighbours as they were. -/
theorem joins_moveTo (first second : Token) (p : Nat) :
    (first.moveTo p).joins (second.moveTo (p + first.gap second)) = first.joins second := by
  by_cases hj : first.joins second = true
  · have hgap : first.gap second = 1 := if_pos hj
    rw [hj, hgap]
    simp only [joins, Bool.and_eq_true] at hj ⊢
    exact ⟨hj.1, by simp [moveTo]⟩
  · have hgap : first.gap second = 2 := if_neg hj
    rw [Bool.not_eq_true] at hj
    rw [hj, hgap]
    simp [joins, moveTo]

/-! ## Scanning a listing -/

theorem Scanned.scanFrom_lexeme {t : Token} (h : t.Scanned) (p : Nat) (cs : List Char) :
    scanFrom p (t.lexeme.toList ++ cs) = t.moveTo p :: scanFrom (p + 1) cs := by
  obtain ⟨c, hblank, hs⟩ := h
  obtain ⟨hkind, hlexeme⟩ := shape_eq_shapeOf_iff.mp hs
  rw [moveTo, hkind, hlexeme, Char.toString, String.toList_singleton, List.singleton_append,
    scanFrom_cons hblank]
  rfl

theorem scanFrom_piecesAfter {t : Token} {ts : List Token} (h : ∀ u ∈ ts, u.Scanned) (p : Nat) :
    scanFrom (p + 1) (String.join (piecesAfter t ts)).toList = placedAfter t p ts := by
  induction ts generalizing t p with
  | nil => rfl
  | cons u us ih =>
    obtain ⟨hu, hus⟩ := List.forall_mem_cons.mp h
    rw [piecesAfter, placedAfter, gap]
    by_cases hj : t.joins u = true
    · rw [if_pos hj, if_pos hj, String.join_cons, String.toList_append, hu.scanFrom_lexeme, ih hus]
    · have hspace (cs : List Char) : scanFrom (p + 1) (" ".toList ++ cs) = scanFrom (p + 2) cs := rfl
      rw [if_neg hj, if_neg hj, String.join_cons, String.toList_append, hspace, String.join_cons,
        String.toList_append, hu.scanFrom_lexeme, ih hus]

theorem scan_listing {ts : List Token} (h : ∀ t ∈ ts, t.Scanned) : scan (listing ts) = placed ts := by
  cases ts with
  | nil => rfl
  | cons t ts =>
    obtain ⟨ht, hts⟩ := List.forall_mem_cons.mp h
    rw [scan, listing, String.join_cons, String.toList_append, ht.scanFrom_lexeme,
      scanFrom_piecesAfter hts, placed]

theorem scan_listing_scan (text : String) : scan (listing (scan text)) = placed (scan text) :=
  scan_listing fun _ => scanned_of_mem_scan

/-! ## What placing keeps -/

theorem shapes_placedAfter (t : Token) (p : Nat) (ts : List Token) :
    (placedAfter t p ts).map shape = ts.map shape := by
  induction ts generalizing t p with
  | nil => rfl
  | cons u us ih => rw [placedAfter, List.map_cons, List.map_cons, shape_moveTo, ih]

theorem shapes_placed (ts : List Token) : (placed ts).map shape = ts.map shape := by
  cases ts with
  | nil => rfl
  | cons t ts => rw [placed, List.map_cons, List.map_cons, shape_moveTo, shapes_placedAfter]

theorem piecesAfter_placedAfter (t : Token) (p : Nat) (ts : List Token) :
    piecesAfter (t.moveTo p) (placedAfter t p ts) = piecesAfter t ts := by
  induction ts generalizing t p with
  | nil => rfl
  | cons u us ih => rw [placedAfter, piecesAfter, piecesAfter, joins_moveTo, ih, lexeme_moveTo]

theorem listing_placed (ts : List Token) : listing (placed ts) = listing ts := by
  cases ts with
  | nil => rfl
  | cons t ts => rw [placed, listing, listing, piecesAfter_placedAfter, lexeme_moveTo]

theorem joins_placedAfter {t : Token} {ts : List Token} {p i : Nat} {a b a' b' : Token}
    (ha : (t :: ts)[i]? = some a) (hb : (t :: ts)[i + 1]? = some b)
    (ha' : (t.moveTo p :: placedAfter t p ts)[i]? = some a')
    (hb' : (t.moveTo p :: placedAfter t p ts)[i + 1]? = some b') : a'.joins b' = a.joins b := by
  induction i generalizing t ts p with
  | zero =>
    cases ts with
    | nil => cases hb
    | cons u us =>
      obtain rfl := Option.some.inj ha
      obtain rfl := Option.some.inj hb
      obtain rfl := Option.some.inj ha'
      obtain rfl := Option.some.inj hb'
      exact joins_moveTo t u p
  | succ i ih =>
    cases ts with
    | nil => cases hb
    | cons u us => exact ih ha hb ha' hb'

/-- Neighbours are written together in the listing when they were before. -/
theorem joins_placed {ts : List Token} {i : Nat} {a b a' b' : Token}
    (ha : ts[i]? = some a) (hb : ts[i + 1]? = some b)
    (ha' : (placed ts)[i]? = some a') (hb' : (placed ts)[i + 1]? = some b') :
    a'.joins b' = a.joins b := by
  cases ts with
  | nil => cases hb
  | cons t ts => exact joins_placedAfter ha hb ha' hb'

/-- Two digits are joined when the second stands right behind the first. -/
theorem joins_of_digits {a b : Token} (ha : a.isDigit = true) (hb : b.isDigit = true) :
    a.joins b = true ↔ b.position = a.position + 1 := by
  simp [joins, ha, hb]

theorem isDigit_placed {ts : List Token} {i : Nat} {a a' : Token} (ha : ts[i]? = some a)
    (ha' : (placed ts)[i]? = some a') : a'.isDigit = a.isDigit := by
  have hshape : ((placed ts).map shape)[i]? = (ts.map shape)[i]? := by rw [shapes_placed]
  rw [List.getElem?_map, List.getElem?_map, ha, ha'] at hshape
  have hkind : a'.kind = a.kind := congrArg Prod.fst (Option.some.inj hshape)
  simp only [isDigit, hkind]

/-- Neighbouring digits stand next to each other in the listing when they did before. -/
theorem adjacent_placed {ts : List Token} {i : Nat} {a b a' b' : Token}
    (ha : ts[i]? = some a) (hb : ts[i + 1]? = some b)
    (ha' : (placed ts)[i]? = some a') (hb' : (placed ts)[i + 1]? = some b')
    (hda : a.isDigit = true) (hdb : b.isDigit = true) :
    b'.position = a'.position + 1 ↔ b.position = a.position + 1 := by
  have hda' : a'.isDigit = true := (isDigit_placed ha ha').trans hda
  have hdb' : b'.isDigit = true := (isDigit_placed hb hb').trans hdb
  rw [← joins_of_digits hda' hdb', ← joins_of_digits hda hdb, joins_placed ha hb ha' hb']

end Abacus.Token

/-! # Listings parsed -/

namespace Abacus

/-- Refusals for one cause, and if they have a place, at tokens of one index. -/
structure ParseError.Corresponds (ts us : List Token) (x y : ParseError) : Prop where
  name : x.name = y.name
  place : (x.position = none ∧ y.position = none) ∨
    ∃ (i : Nat) (a b : Token), ts[i]? = some a ∧ us[i]? = some b ∧
      x.position = some a.position ∧ y.position = some b.position

namespace Token

/-! ## Tokens numbered from 0 -/

/-- Tokens of given shapes, each with its index as its position. -/
def byIndex (shapes : List (Kind × String)) : List Token :=
  shapes.mapIdx fun i s => ⟨s.1, s.2, i⟩

def placeOf (ts : List Token) (i : Int) : Int := ((ts[i.toNat]?).map position).getD 0

theorem placeOf_of_getElem? {ts : List Token} {i : Nat} {t : Token} (h : ts[i]? = some t) :
    placeOf ts i = t.position := by
  rw [placeOf, Int.toNat_natCast, h]
  rfl

theorem getElem?_byIndex (ts : List Token) (i : Nat) :
    (byIndex (ts.map shape))[i]? = (ts[i]?).map fun t => { t with position := i } := by
  rw [byIndex, List.getElem?_mapIdx, List.getElem?_map, Option.map_map]
  rfl

theorem relabelled_byIndex (ts : List Token) :
    List.Forall₂ (Relabelled (placeOf ts)) (byIndex (ts.map shape)) ts := by
  have hlength : (byIndex (ts.map shape)).length = ts.length := by simp [byIndex]
  rw [List.forall₂_iff_get]
  refine ⟨hlength, ?_⟩
  intro i hb ht
  have hget := getElem?_byIndex ts i
  rw [List.getElem?_eq_getElem hb, List.getElem?_eq_getElem ht, Option.map_some] at hget
  rw [List.get_eq_getElem, List.get_eq_getElem, Option.some.inj hget]
  exact ⟨rfl, (placeOf_of_getElem? (List.getElem?_eq_getElem ht)).symm, fun _ => rfl⟩

end Token

namespace Parse

variable {ts us : List Token}

/-! ## Texts with tokens of the same shapes -/

theorem readWhole_eq_byIndex (limit : Limit) (ts : List Token) :
    readWhole limit ts = moved (Token.placeOf ts) (Expr.mapPositions (Token.placeOf ts))
      (readWhole limit (Token.byIndex (ts.map Token.shape))) :=
  readWhole_of_relabelled (Token.relabelled_byIndex ts) limit

/-- A refusal of numbered tokens stands, in tokens of their shapes, where its number says. -/
theorem corresponds_of_byIndex {err : ParseError} (h : ts.map Token.shape = us.map Token.shape)
    (herr : err.StandsIn (Token.byIndex (ts.map Token.shape))) :
    (err.mapPosition (Token.placeOf ts)).Corresponds ts us (err.mapPosition (Token.placeOf us)) := by
  refine ⟨by rw [ParseError.name_mapPosition, ParseError.name_mapPosition], ?_⟩
  cases err with
  | unexpectedEof | nestingTooDeep => exact .inl ⟨rfl, rfl⟩
  | placed cause position =>
    obtain ⟨-, t, ht, rfl⟩ := herr
    obtain ⟨i, hi⟩ := List.mem_iff_getElem?.mp ht
    have hsame := hi
    rw [h] at hsame
    rw [Token.getElem?_byIndex] at hi hsame
    obtain ⟨a, ha, rfl⟩ := Option.map_eq_some_iff.mp hi
    obtain ⟨b, hb, -⟩ := Option.map_eq_some_iff.mp hsame
    refine .inr ⟨i, a, b, ha, hb, ?_, ?_⟩
    · exact congrArg some (Token.placeOf_of_getElem? ha)
    · exact congrArg some (Token.placeOf_of_getElem? hb)

theorem ofText_of_shapes {s t : String}
    (h : (Token.scan s).map Token.shape = (Token.scan t).map Token.shape) (limit : Limit) :
    (∃ e e', Expr.ofText limit s = .ok e ∧ Expr.ofText limit t = .ok e' ∧ e.Alike e') ∨
      ∃ x y, Expr.ofText limit s = .error (.refused x) ∧ Expr.ofText limit t = .error (.refused y) ∧
        x.Corresponds (Token.scan s) (Token.scan t) y := by
  have hs := readWhole_eq_byIndex limit (Token.scan s)
  have ht := readWhole_eq_byIndex limit (Token.scan t)
  rw [← ofText_eq_readWhole] at hs ht
  rw [← h] at ht
  rcases ho : readWhole limit (Token.byIndex ((Token.scan s).map Token.shape)) with x | e <;>
    rw [ho] at hs ht
  · rcases x with err | _ | _
    · exact .inr ⟨_, _, hs, ht, corresponds_of_byIndex h (readWhole_standsIn ho)⟩
    all_goals
      rcases ofText_ok_or_refused limit s with ⟨e, hok⟩ | ⟨err, herr⟩
      · rw [hok] at hs
        cases hs
      · rw [herr] at hs
        cases hs
  · exact .inl ⟨_, _, hs, ht, Expr.alike_mapPositions _ _ e⟩

/-! ## The listing of a text -/

theorem listing_normal_form (limit : Limit) (text : String) :
    let shown := Token.listing (Token.scan text)
    (Token.scan shown).map Token.shape = (Token.scan text).map Token.shape ∧
    (∀ (i : Nat) (a b a' b' : Token),
      (Token.scan text)[i]? = some a → (Token.scan text)[i + 1]? = some b →
      (Token.scan shown)[i]? = some a' → (Token.scan shown)[i + 1]? = some b' →
      a.isDigit = true → b.isDigit = true →
        (b'.position = a'.position + 1 ↔ b.position = a.position + 1)) ∧
    Token.listing (Token.scan shown) = shown ∧
    ((∃ e e', Expr.ofText limit text = .ok e ∧ Expr.ofText limit shown = .ok e' ∧ e.Alike e') ∨
      ∃ x y, Expr.ofText limit text = .error (.refused x) ∧
        Expr.ofText limit shown = .error (.refused y) ∧
        x.Corresponds (Token.scan text) (Token.scan shown) y) := by
  intro shown
  have hplaced : Token.scan shown = Token.placed (Token.scan text) := Token.scan_listing_scan text
  have hshapes : (Token.scan shown).map Token.shape = (Token.scan text).map Token.shape := by
    rw [hplaced, Token.shapes_placed]
  refine ⟨hshapes, ?_, ?_, ofText_of_shapes hshapes.symm limit⟩
  · intro i a b a' b' ha hb ha' hb' hda hdb
    rw [hplaced] at ha' hb'
    exact Token.adjacent_placed ha hb ha' hb' hda hdb
  · rw [hplaced, Token.listing_placed]

/-- Digits apart and digits together, and a parenthesis that closes nothing: its token is the
    sixth in the text and in the listing. -/
theorem listing_of_spread_sum :
    Token.listing (Token.scan "1 2+\t34)") = "1 2 + 34 )" ∧
    ((Token.scan "1 2+\t34)")[3]? = some ⟨.digit, "3", 5⟩ ∧
      (Token.scan "1 2+\t34)")[4]? = some ⟨.digit, "4", 6⟩ ∧
      (Token.scan "1 2 + 34 )")[3]? = some ⟨.digit, "3", 6⟩ ∧
      (Token.scan "1 2 + 34 )")[4]? = some ⟨.digit, "4", 7⟩) ∧
    ((7 : Int) = 6 + 1 ↔ (6 : Int) = 5 + 1) ∧
    Token.listing (Token.scan "1 2 + 34 )") = "1 2 + 34 )" ∧
    ∃ x y, Expr.ofText none "1 2+\t34)" = .error (.refused x) ∧
      Expr.ofText none "1 2 + 34 )" = .error (.refused y) ∧
      x.Corresponds (Token.scan "1 2+\t34)") (Token.scan "1 2 + 34 )") y := by
  have hshown : Token.listing (Token.scan "1 2+\t34)") = "1 2 + 34 )" := rfl
  obtain ⟨-, hdigits, hlisting, hparse⟩ := listing_normal_form none "1 2+\t34)"
  rw [hshown] at hdigits hlisting hparse
  refine ⟨hshown, ⟨rfl, rfl, rfl, rfl⟩, hdigits 3 _ _ _ _ rfl rfl rfl rfl rfl rfl, hlisting, ?_⟩
  rcases hparse with ⟨e, -, hok, -⟩ | hrefused
  · have herror : Expr.ofText none "1 2+\t34)" =
        .error (.refused (.placed .unexpectedToken (some 7))) := rfl
    rw [herror] at hok
    cases hok
  · exact hrefused

end Parse

end Abacus
