/-
  Abacus.Proofs.Expr.Line — writing a tree in one line under a limit on the calls.

  `NeedsCalls levels f` says how deep `f` goes: a limit that allows so many calls changes
  nothing, and under any other `f` is too deep. It is put together as `f` is
  (`NeedsCalls.deeper`, `NeedsCalls.map`, `NeedsCalls.bind`).

  Without a limit a line is written for every tree that holds no text (`prefixText_of_noStray`),
  and any other is refused for the text that is met first from the left (`Meets.prefixText`).
  The calls needed are as many as the levels met up to there (`needsCalls_prefixText`). Where no
  text is met, these are all the levels (`reach_of_noStray`).

  Trees are `Alike` that are equal up to positions.
-/

import Abacus.Expr
import Abacus.Expr.Orders

namespace Abacus.Expr

/-! # Positions -/

/-- The trees differ in their positions at most. -/
def Alike (e f : Expr) : Prop := e.mapPositions (fun _ => 0) = f.mapPositions (fun _ => 0)

theorem Alike.binary {l l' r r' : Expr} (hl : l.Alike l') (hr : r.Alike r') (op : BinaryOp) (p q : Int) :
    Alike (.binary op p l r) (.binary op q l' r') := by
  unfold Alike at *
  simp only [mapPositions, hl, hr]

theorem Alike.unary {e f : Expr} (h : e.Alike f) (op : UnaryOp) (p q : Int) :
    Alike (.unary op p e) (.unary op q f) := by
  unfold Alike at *
  simp only [mapPositions, h]

theorem mapPositions_id (e : Expr) : e.mapPositions id = e := by
  induction e with
  | binary op p l r ihl ihr => rw [mapPositions, ihl, ihr, id]
  | unary op p e ih => rw [mapPositions, ih, id]
  | constant p value => rfl
  | stray text => rfl

theorem mapPositions_mapPositions (f g : Int → Int) (e : Expr) :
    (e.mapPositions f).mapPositions g = e.mapPositions fun p => g (f p) := by
  induction e with
  | binary op p l r ihl ihr => simp only [mapPositions, ihl, ihr]
  | unary op p e ih => simp only [mapPositions, ih]
  | constant p value => rfl
  | stray text => rfl

/-- A tree is like itself wherever it is put. -/
theorem alike_mapPositions (f g : Int → Int) (e : Expr) :
    (e.mapPositions f).Alike (e.mapPositions g) := by
  unfold Alike
  rw [mapPositions_mapPositions, mapPositions_mapPositions]

theorem alike_constant (p q : Int) (value : Nat) : Alike (.constant p value) (.constant q value) := rfl

theorem fits_mapPositions (f : Int → Int) (e : Expr) : (e.mapPositions f).Fits ↔ e.Fits := by
  induction e with
  | binary op p l r ihl ihr => exact and_congr ihl ihr
  | unary op p e ih => exact ih
  | constant p value => exact Iff.rfl
  | stray text => exact Iff.rfl

theorem Alike.fits_iff {e f : Expr} (h : e.Alike f) : e.Fits ↔ f.Fits := by
  rw [← fits_mapPositions (fun _ => 0) e, h, fits_mapPositions]

/-! # Limits -/

/-- Under a limit that allows `levels` calls `f` is what it is without one, and under any other
    it is too deep. -/
structure NeedsCalls {α : Type} (levels : Nat) (f : Limit → Except Fault α) : Prop where
  allowed {limit : Limit} : limit.Allows levels → f limit = f none
  refused {limit : Limit} : ¬ limit.Allows levels → f limit = .error .tooDeep

namespace NeedsCalls

variable {α β : Type} {m n : Nat} {f : Limit → Except Fault α}

theorem of_const (r : Except Fault α) : NeedsCalls 0 fun _ => r where
  allowed _ := rfl
  refused h := absurd (fun most _ => Nat.zero_le most) h

theorem deeper (h : NeedsCalls n f) : NeedsCalls (n + 1) fun limit => limit.deeper.bind f where
  allowed {limit} hl := by
    rcases limit with _ | _ | calls
    · rfl
    · exact absurd (Limit.allows_some.mp hl) (Nat.not_succ_le_zero n)
    · exact h.allowed (Limit.allows_some.mpr (Nat.le_of_succ_le_succ (Limit.allows_some.mp hl)))
  refused {limit} hl := by
    obtain ⟨_ | calls, rfl, hlt⟩ := Limit.exists_of_not_allows hl
    · rfl
    · refine h.refused fun hallows => ?_
      exact absurd (Limit.allows_some.mp hallows) (Nat.not_le_of_lt (Nat.lt_of_succ_lt_succ hlt))

theorem map (h : NeedsCalls n f) (k : α → β) : NeedsCalls n fun limit => (f limit).map k where
  allowed hl := by rw [h.allowed hl]
  refused hl := by
    rw [h.refused hl]
    rfl

/-- Of two in sequence the deeper one says how many calls they need. -/
theorem bind {g : α → Limit → Except Fault β} {x : α} (hf : NeedsCalls m f) (hx : f none = .ok x)
    (hg : NeedsCalls n (g x)) : NeedsCalls (max m n) fun limit => (f limit).bind (g · limit) where
  allowed {limit} hl := by
    rw [hf.allowed (hl.mono (Nat.le_max_left m n)), hx]
    exact hg.allowed (hl.mono (Nat.le_max_right m n))
  refused {limit} hl := by
    by_cases hm : limit.Allows m
    · rw [hf.allowed hm, hx]
      exact hg.refused fun hn => hl fun most hmost => Nat.max_le.mpr ⟨hm most hmost, hn most hmost⟩
    · rw [hf.refused hm]
      rfl

/-- Behind a refusal nothing is called. -/
theorem bind_of_error {g : α → Limit → Except Fault β} {fault : Fault} (hf : NeedsCalls m f)
    (hx : f none = .error fault) : NeedsCalls m fun limit => (f limit).bind (g · limit) where
  allowed hl := by
    rw [hf.allowed hl, hx]
    rfl
  refused hl := by
    rw [hf.refused hl]
    rfl

end NeedsCalls

/-! # Lines -/

/-- Going over the tree from left to right, `text` is the first text met. -/
inductive Meets (text : String) : Expr → Prop
  | here : Meets text (.stray text)
  | operand {op : UnaryOp} {position : Int} {e : Expr} : Meets text e →
      Meets text (.unary op position e)
  | left {op : BinaryOp} {position : Int} {lhs rhs : Expr} : Meets text lhs →
      Meets text (.binary op position lhs rhs)
  | right {op : BinaryOp} {position : Int} {lhs rhs : Expr} : lhs.NoStray → Meets text rhs →
      Meets text (.binary op position lhs rhs)

variable {text : String} {e : Expr}

theorem meets_of_leftmostStray? (h : e.leftmostStray? = some text) : Meets text e := by
  induction e with
  | binary op position lhs rhs ihl ihr =>
    rw [leftmostStray?] at h
    cases hl : lhs.leftmostStray? with
    | none =>
      rw [hl] at h
      exact .right (leftmostStray?_eq_none_iff.mp hl) (ihr h)
    | some first =>
      rw [hl] at h
      cases h
      exact .left (ihl hl)
  | unary op position operand ih => exact .operand (ih h)
  | constant position value => cases h
  | stray first =>
    cases h
    exact .here

theorem prefixText_binary_calls (limit : Limit) (op : BinaryOp) (position : Int) (lhs rhs : Expr) :
    (binary op position lhs rhs).prefixText limit = limit.deeper.bind fun rest =>
      (lhs.prefixText rest).bind fun l => (rhs.prefixText rest).map fun r =>
        "(" ++ op.symbol ++ " " ++ l ++ " " ++ r ++ ")" := by
  rw [prefixText]
  cases limit.deeper with
  | error => rfl
  | ok rest =>
    show (lhs.prefixText rest >>= fun l => rhs.prefixText rest >>= fun r => pure _) =
      (lhs.prefixText rest).bind _
    cases lhs.prefixText rest <;> cases rhs.prefixText rest <;> rfl

theorem prefixText_unary_calls (limit : Limit) (op : UnaryOp) (position : Int) (operand : Expr) :
    (unary op position operand).prefixText limit = limit.deeper.bind fun rest =>
      (operand.prefixText rest).map fun x => "(neg " ++ x ++ ")" := by
  rw [prefixText]
  cases limit.deeper with
  | error => rfl
  | ok rest =>
    show (operand.prefixText rest >>= fun x => pure _) = (operand.prefixText rest).map _
    cases operand.prefixText rest <;> rfl

theorem prefixText_binary_none (op : BinaryOp) (position : Int) (lhs rhs : Expr) :
    (binary op position lhs rhs).prefixText none = (lhs.prefixText none).bind fun l =>
      (rhs.prefixText none).map fun r => "(" ++ op.symbol ++ " " ++ l ++ " " ++ r ++ ")" :=
  prefixText_binary_calls none op position lhs rhs

theorem prefixText_unary_none (op : UnaryOp) (position : Int) (operand : Expr) :
    (unary op position operand).prefixText none =
      (operand.prefixText none).map fun x => "(neg " ++ x ++ ")" :=
  prefixText_unary_calls none op position operand

theorem prefixText_of_noStray (h : e.NoStray) : ∃ line, e.prefixText none = .ok line := by
  induction e with
  | binary op position lhs rhs ihl ihr =>
    obtain ⟨l, hl⟩ := ihl h.1
    obtain ⟨r, hr⟩ := ihr h.2
    rw [prefixText_binary_none, hl, hr]
    exact ⟨_, rfl⟩
  | unary op position operand ih =>
    obtain ⟨x, hx⟩ := ih h
    rw [prefixText_unary_none, hx]
    exact ⟨_, rfl⟩
  | constant position value => exact ⟨_, rfl⟩
  | stray text => exact absurd h id

theorem Meets.prefixText (h : Meets text e) : e.prefixText none = .error (.notAnExpression text) := by
  induction h with
  | here => rfl
  | operand _ ih =>
    rw [prefixText_unary_none, ih]
    rfl
  | left _ ih =>
    rw [prefixText_binary_none, ih]
    rfl
  | right hl _ ih =>
    obtain ⟨l, hl⟩ := prefixText_of_noStray hl
    rw [prefixText_binary_none, hl, ih]
    rfl

theorem meets_of_not_noStray (h : ¬ e.NoStray) : ∃ text, Meets text e := by
  rw [← leftmostStray?_eq_none_iff] at h
  obtain ⟨text, ht⟩ := Option.ne_none_iff_exists'.mp h
  exact ⟨text, meets_of_leftmostStray? ht⟩

/-- The calls needed are as many as the levels met. -/
theorem needsCalls_prefixText (e : Expr) : NeedsCalls e.reach (e.prefixText ·) := by
  induction e with
  | binary op position lhs rhs ihl ihr =>
    have hcalls := funext fun limit => prefixText_binary_calls limit op position lhs rhs
    rw [hcalls, reach]
    refine NeedsCalls.deeper ?_
    by_cases hs : lhs.NoStray
    · obtain ⟨l, hl⟩ := prefixText_of_noStray hs
      rw [if_pos hs]
      exact ihl.bind hl (ihr.map _)
    · -- the walk ends inside the left operand, whatever the right one is
      obtain ⟨text, ht⟩ := meets_of_not_noStray hs
      rw [if_neg hs]
      exact ihl.bind_of_error ht.prefixText
  | unary op position operand ih =>
    have hcalls := funext fun limit => prefixText_unary_calls limit op position operand
    rw [hcalls]
    exact (ih.map _).deeper
  | constant position value => exact (NeedsCalls.of_const (.ok (toString value))).deeper
  | stray text => exact (NeedsCalls.of_const (.error (.notAnExpression text))).deeper

/-- What is written under a limit is what is written without one. -/
theorem prefixText_none_of_ok {limit : Limit} {line : String} (h : e.prefixText limit = .ok line) :
    e.prefixText none = .ok line := by
  by_cases hallows : limit.Allows e.reach
  · rw [← (needsCalls_prefixText e).allowed hallows, h]
  · rw [(needsCalls_prefixText e).refused hallows] at h
    cases h

theorem reach_of_noStray (h : e.NoStray) : e.reach = e.height := by
  induction e with
  | binary op position lhs rhs ihl ihr => rw [reach, height, if_pos h.1, ihl h.1, ihr h.2]
  | unary op position operand ih => rw [reach, height, ih h]
  | constant position value => rfl
  | stray text => exact absurd h id

end Abacus.Expr
