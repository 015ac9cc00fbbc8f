/-
  Abacus.Proofs.Parse.Handmade — what becomes of tokens made by hand.

  The digits of such tokens may be worth anything or nothing, so a number may fall below 0 while it
  is read and rise again. While it is read only a number that is too large is refused; one that
  ends below 0 is no node.

  - `readDigits_le`: a number that has been read is not too large, whatever its digits are worth.
  - `Takes.wellFormed`: so the numbers of a tree fit, and its nodes stand where tokens stand that
    were taken.
  - `Fails.refused_or_number`: what fails without a refusal is a number.

  `parse_well_formed`: hence the tree of any tokens is well formed, and any other end of a parse is a
  refusal at one of them, a number below 0, or a digit that is not one character.
-/

import Abacus.Proofs.Expr.Walk
import Abacus.Proofs.Parse.Viable

namespace Abacus.Parse

open Grammar (Nonterminal)

/-! ## Numbers -/

/-- The check after each digit is enough: what is left to be refused lies below 0. -/
theorem readDigits_le {start value result : Int} {ds : List Token} (hv : value ≤ Expr.largest)
    (h : readDigits start value ds = .ok result) : result ≤ Expr.largest := by
  induction ds generalizing value with
  | nil =>
    rw [← Except.ok.inj h]
    exact hv
  | cons d ds ih =>
    rcases hw : d.worth with x | worth
    · simp only [readDigits, hw] at h
      cases h
    · simp only [readDigits, hw] at h
      split at h
      · cases h
      · rename_i hle
        exact ih (by omega) h

/-- A digit has no worth only if it is not one character. -/
theorem readDigits_unworthy {start value : Int} {ds : List Token} {x : Token.Fault}
    (h : readDigits start value ds = .error (.digit x)) :
    ∃ t ∈ ds, t.lexeme.length ≠ 1 ∧ x = .notOneCharacter t.lexeme.length := by
  induction ds generalizing value with
  | nil => cases h
  | cons d ds ih =>
    by_cases hone : ∃ c, d.lexeme.toList = [c]
    · obtain ⟨c, hc⟩ := hone
      simp only [readDigits, Token.worth, hc] at h
      split at h
      · cases h
      · obtain ⟨t, ht, hx⟩ := ih h
        exact ⟨t, List.mem_cons_of_mem d ht, hx⟩
    · have hlength : d.lexeme.length ≠ 1 := by
        intro h1
        rw [← String.length_toList] at h1
        exact hone (List.length_eq_one_iff.mp h1)
      have hworth : d.worth = .error (.notOneCharacter d.lexeme.length) := by
        unfold Token.worth
        split
        · rename_i c hc
          exact absurd ⟨c, hc⟩ hone
        · rw [String.length_toList]
      simp only [readDigits, hworth, Except.error.injEq, Failure.digit.injEq] at h
      exact ⟨d, List.mem_cons_self, hlength, h.symm⟩

section NumberNode

variable {d : Token} {ds : List Token}

/-- A number that is refused by its node lies below 0: above the largest it is refused before. -/
theorem numberNode_outOfRange {x : Expr.Fault} (h : numberNode d ds = .error (.tree x)) :
    ∃ value < 0, x = .outOfRange value := by
  rcases hr : readDigits d.position 0 (d :: ds) with f | value
  · rw [numberNode_of_unread hr] at h
    rcases readDigits_error hr with rfl | ⟨y, rfl⟩
    · cases h
    · cases h
  · have hle : value ≤ Expr.largest := readDigits_le (by decide) hr
    by_cases hv : 0 ≤ value
    · have hc : Expr.constant? d.position value = .ok (.constant d.position value.toNat) :=
        if_pos ⟨hv, hle⟩
      rw [numberNode_of_node hr hc] at h
      cases h
    · have hc : Expr.constant? d.position value = .error (.outOfRange value) :=
        if_neg fun hin => hv hin.1
      rw [numberNode_of_fault hr hc] at h
      cases h
      exact ⟨value, by omega, rfl⟩

theorem numberNode_unworthy {x : Token.Fault} (h : numberNode d ds = .error (.digit x)) :
    ∃ t ∈ d :: ds, t.lexeme.length ≠ 1 ∧ x = .notOneCharacter t.lexeme.length := by
  rcases numberNode_error h with hr | ⟨y, hy⟩
  · exact readDigits_unworthy hr
  · cases hy

end NumberNode

/-! ## Trees -/

/-- The numbers of the tree fit, and each of its nodes stands where one of the tokens stands. -/
structure WellFormed (ts : List Token) (e : Expr) : Prop where
  numbers : ∀ position value, .constant position value ∈ e.subtrees → value ≤ Expr.largest
  places : ∀ m ∈ e.subtrees, ∃ t ∈ ts, m.place = t.position

theorem WellFormed.mono {ts us : List Token} {e : Expr} (h : WellFormed ts e) (hs : ts ⊆ us) :
    WellFormed us e where
  numbers := h.numbers
  places m hm := by
    obtain ⟨t, ht, hp⟩ := h.places m hm
    exact ⟨t, hs ht, hp⟩

theorem wellFormed_number {d : Token} {ds : List Token} {e : Expr} (h : numberNode d ds = .ok e) :
    WellFormed (d :: ds) e := by
  obtain ⟨n, hn, rfl⟩ := numberNode_eq_ok h
  refine ⟨?_, ?_⟩
  · intro position value hm
    cases List.mem_singleton.mp hm
    exact hn
  · intro m hm
    rw [List.mem_singleton.mp hm]
    exact ⟨d, List.mem_cons_self, rfl⟩

theorem wellFormed_unary {t : Token} {ts : List Token} {e : Expr} (h : WellFormed ts e) :
    WellFormed (t :: ts) (.unary .negate t.position e) where
  numbers position value hm := by
    rcases List.mem_cons.mp hm with hroot | hm
    · cases hroot
    · exact h.numbers position value hm
  places m hm := by
    rcases List.mem_cons.mp hm with rfl | hm
    · exact ⟨t, List.mem_cons_self, rfl⟩
    · exact (h.mono (List.subset_cons_self t ts)).places m hm

theorem wellFormed_binary {t : Token} {ls rs : List Token} {op : BinaryOp} {l r : Expr}
    (hl : WellFormed ls l) (hr : WellFormed rs r) :
    WellFormed (ls ++ t :: rs) (.binary op t.position l r) where
  numbers position value hm := by
    rcases List.mem_cons.mp hm with hroot | hm
    · cases hroot
    · exact (List.mem_append.mp hm).elim (hl.numbers position value) (hr.numbers position value)
  places m hm := by
    rcases List.mem_cons.mp hm with rfl | hm
    · exact ⟨t, by simp, rfl⟩
    · rcases List.mem_append.mp hm with hm | hm
      · exact (hl.mono (List.subset_append_left ls _)).places m hm
      · exact (hr.mono (by simp)).places m hm

theorem Takes.wellFormed {n : Nonterminal} {ts rest : List Token} {e : Expr} (h : Takes n ts e rest) :
    ∃ taken, ts = taken ++ rest ∧ WellFormed taken e := by
  induction h with
  | number h =>
    obtain ⟨d, us, rfl, hn, rfl⟩ := number?_eq_ok h
    refine ⟨d :: us.takeWhile Token.isDigit, ?_, wellFormed_number hn⟩
    rw [List.cons_append, List.takeWhile_append_dropWhile]
  | integer _ ih => exact ih
  | @negation t _ _ _ _ _ ih =>
    obtain ⟨taken, rfl, hw⟩ := ih
    exact ⟨t :: taken, rfl, wellFormed_unary hw⟩
  | @group first last _ _ _ _ _ _ ih =>
    obtain ⟨taken, rfl, hw⟩ := ih
    refine ⟨first :: (taken ++ [last]), by simp, hw.mono ?_⟩
    exact List.Subset.trans (List.subset_append_left taken _) (List.subset_cons_self first _)
  | single _ _ _ ih => exact ih
  | @chain _ _ t op _ _ _ l r _ _ _ _ ihl ihr =>
    obtain ⟨left, rfl, hl⟩ := ihl
    obtain ⟨right, rfl, hr⟩ := ihr
    exact ⟨left ++ t :: right, by simp, wellFormed_binary hl hr⟩

/-! ## Failures -/

/-- A failure that is no refusal is that of a number. -/
theorem Fails.refused_or_number {n : Nonterminal} {ts : List Token} {f : Failure} (h : Fails n ts f) :
    (∃ err, f = .refused err) ∨ ∃ d ds, (∀ t ∈ d :: ds, t ∈ ts ∧ t.isDigit = true) ∧
      numberNode d ds = .error f := by
  induction h with
  | @number ts f h =>
    obtain ⟨d, us, rfl, hd, hr⟩ := number?_eq_some h
    refine .inr ⟨d, us.takeWhile Token.isDigit, ?_, ?_⟩
    · intro t ht
      rcases List.mem_cons.mp ht with rfl | ht
      · exact ⟨List.mem_cons_self, hd⟩
      · have hus := (List.takeWhile_prefix Token.isDigit).subset ht
        exact ⟨List.mem_cons_of_mem d hus, Grammar.all_takeWhile_digits us t ht⟩
    · rcases hn : numberNode d (us.takeWhile Token.isDigit) with g | node
      · rw [hn] at hr
        rw [Except.error.inj hr]
      · rw [hn] at hr
        cases hr
  | integer _ ih | operand _ _ ih => exact ih
  | ended | expected | unclosed | misclosed | stranger => exact .inl ⟨_, rfl⟩
  | @negation u _ _ _ _ ih | @group u _ _ _ _ ih =>
    rcases ih with herr | ⟨d, ds, hmem, hn⟩
    · exact .inl herr
    · refine .inr ⟨d, ds, ?_, hn⟩
      intro t ht
      exact ⟨List.mem_cons_of_mem u (hmem t ht).1, (hmem t ht).2⟩
  | @tail _ _ u _ _ us _ _ _ hl _ _ ih =>
    rcases ih with herr | ⟨d, ds, hmem, hn⟩
    · exact .inl herr
    · refine .inr ⟨d, ds, ?_, hn⟩
      intro t ht
      have hbehind : t ∈ u :: us := List.mem_cons_of_mem u (hmem t ht).1
      exact ⟨hl.suffix.1.subset hbehind, (hmem t ht).2⟩

/-- What can be wrong with tokens: a refusal at one of them, a number below 0, or a digit that is not
    one character. -/
def Explained (ts : List Token) : Failure → Prop
  | .refused err => err.StandsIn ts
  | .tree x => ∃ value < 0, x = .outOfRange value
  | .digit x => ∃ t ∈ ts, t.isDigit = true ∧ t.lexeme.length ≠ 1 ∧ x = .notOneCharacter t.lexeme.length

theorem Fails.explained {n : Nonterminal} {ts : List Token} {f : Failure} (h : Fails n ts f) :
    Explained ts f := by
  rcases h.refused_or_number with ⟨err, rfl⟩ | ⟨d, ds, hmem, hn⟩
  · exact h.standsIn err rfl
  · cases f with
    | refused err => exact h.standsIn err rfl
    | tree x => exact numberNode_outOfRange hn
    | digit x =>
      obtain ⟨t, ht, hx⟩ := numberNode_unworthy hn
      exact ⟨t, (hmem t ht).1, (hmem t ht).2, hx⟩

/-! ## Parses -/

theorem run_explained {limit : Limit} {tokens : List Token} {f : Failure}
    (h : (run limit tokens).outcome = .error f) : Explained tokens f := by
  rcases run_outcome_or_deep limit tokens with hdeep | hnone
  · rw [hdeep] at h
    obtain rfl := Except.error.inj h
    trivial
  · rw [hnone] at h
    exact (run_none_eq_error_iff.mp h).explained

theorem run_wellFormed {limit : Limit} {tokens : List Token} {p : Partial}
    (h : (run limit tokens).outcome = .ok p) :
    p.tokens = tokens ∧ p.offset ≤ tokens.length ∧ WellFormed (tokens.take p.offset) p.node := by
  obtain ⟨rfl, hle, ht⟩ := takes_of_run h
  obtain ⟨taken, htaken, hw⟩ := ht.wellFormed
  have htake : p.tokens.take p.offset = taken :=
    List.append_cancel_right ((List.take_append_drop p.offset p.tokens).trans htaken)
  exact ⟨rfl, hle, htake ▸ hw⟩

theorem parse_well_formed (limit : Limit) (debug : Bool) (tokens : List Token) :
    (∃ p visited, (parse limit debug tokens).outcome = .ok p ∧ p.tokens = tokens ∧
      p.offset ≤ tokens.length ∧ p.node.nodes = .ok visited ∧
      (∀ position value, .constant position value ∈ visited → value ≤ Expr.largest) ∧
      ∀ m ∈ visited, ∃ t ∈ tokens.take p.offset, m.position = .ok t.position) ∨
    (∃ err, (parse limit debug tokens).outcome = .error (.refused err) ∧
      (err.position = none ∨ ∃ t ∈ tokens, err.position = some t.position)) ∨
    (∃ value < 0, (parse limit debug tokens).outcome = .error (.tree (.outOfRange value))) ∨
    ∃ t ∈ tokens, t.isDigit = true ∧ t.lexeme.length ≠ 1 ∧
      (parse limit debug tokens).outcome = .error (.digit (.notOneCharacter t.lexeme.length)) := by
  rw [parse_outcome]
  rcases ho : (run limit tokens).outcome with f | p
  · have hf := run_explained ho
    cases f with
    | refused err =>
      refine .inr (.inl ⟨err, rfl, ?_⟩)
      cases err with
      | unexpectedEof | nestingTooDeep => exact .inl rfl
      | placed cause position =>
        obtain ⟨-, t, ht, hp⟩ := hf
        exact .inr ⟨t, ht, hp⟩
    | tree x =>
      obtain ⟨value, hv, rfl⟩ := hf
      exact .inr (.inr (.inl ⟨value, hv, rfl⟩))
    | digit x =>
      obtain ⟨t, ht, hd, hlength, rfl⟩ := hf
      exact .inr (.inr (.inr ⟨t, ht, hd, hlength, rfl⟩))
  · obtain ⟨htokens, hle, hw⟩ := run_wellFormed ho
    have hs := noStray_of_run ho
    refine .inl ⟨p, p.node.subtrees, rfl, htokens, hle, Expr.nodes_eq_subtrees hs,
      hw.numbers, ?_⟩
    intro m hm
    obtain ⟨t, ht, hp⟩ := hw.places m hm
    refine ⟨t, ht, ?_⟩
    rw [Expr.position_eq_place (Expr.noStray_of_mem_subtrees hs hm), hp]

/-- A digit worth -1 makes a number below 0, and one worth 10 behind it brings it back to 0. -/
example : (parse none false [⟨.digit, "/", 4⟩]).outcome = .error (.tree (.outOfRange (-1))) ∧
    (parse none false [⟨.digit, "/", 4⟩, ⟨.digit, ":", 9⟩]).outcome =
      .ok ⟨.constant 4 0, [⟨.digit, "/", 4⟩, ⟨.digit, ":", 9⟩], 2⟩ := ⟨rfl, rfl⟩

end Abacus.Parse
