/-
  Abacus.Proofs.Expr.Spelling — a tree in one line determines the tree.

  Both lines are put together from pieces of any length, and each piece can be told from what
  follows it: a number ends where neither a digit nor a sign follows, an operator is one
  character, and an operand ends where its own pieces do.

  - `describe_append_inj`: whatever follows the line with kinds and positions, the line ends
    where the tree does.
  - `prefixText_append_inj`: so does the line in prefix order, if no number goes on behind it,
    and it tells the tree up to positions.
  - `needsCalls_describe`: a tree has its line under every limit that allows as many calls as it
    has levels, and under no other.

  `spelling_eq_iff`: so where two trees have lines, those of the first kind are one line exactly
  when the trees are equal, and those of the second kind exactly when they differ in their
  positions at most.
-/

import Abacus.Proofs.Expr.Line
import Abacus.Proofs.Expr.Stray
import Abacus.Proofs.Expr.Unambiguous

namespace Abacus

/-! ## Pieces -/

/-- A stretch of characters of one class is told from what follows it. -/
theorem stretch_append_inj {p : Char → Bool} {xs ys as bs : List Char} (hx : ∀ c ∈ xs, p c = true)
    (hy : ∀ c ∈ ys, p c = true) (ha : ∀ c ∈ as.head?, p c = false) (hb : ∀ c ∈ bs.head?, p c = false)
    (h : xs ++ as = ys ++ bs) : xs = ys ∧ as = bs := by
  induction xs generalizing ys with
  | nil =>
    cases ys with
    | nil => exact ⟨rfl, h⟩
    | cons y ys =>
      have hfalse := ha y (by rw [List.nil_append] at h; rw [h]; rfl)
      exact absurd (hy y List.mem_cons_self) (by rw [hfalse]; decide)
  | cons x xs ih =>
    cases ys with
    | nil =>
      have hfalse := hb x (by rw [List.nil_append] at h; rw [← h]; rfl)
      exact absurd (hx x List.mem_cons_self) (by rw [hfalse]; decide)
    | cons y ys =>
      obtain ⟨rfl, hrest⟩ := List.cons.inj h
      obtain ⟨rfl, hab⟩ := ih (fun c hc => hx c (List.mem_cons_of_mem _ hc))
        (fun c hc => hy c (List.mem_cons_of_mem _ hc)) hrest
      exact ⟨rfl, hab⟩

def isNumeric (c : Char) : Bool := c.isDigit || c == '-'

theorem isNumeric_of_mem_toString {i : Int} {c : Char} (h : c ∈ (toString i).toList) :
    isNumeric c = true := by
  rw [toList_toString_int, List.mem_append] at h
  rcases h with hsign | hdigits
  · split at hsign
    · rw [List.mem_singleton.mp hsign]
      rfl
    · cases hsign
  · simp [isNumeric, Binary64.isDigit_of_mem_toDigits hdigits]

theorem toString_append_inj {i j : Int} {as bs : List Char} (ha : ∀ c ∈ as.head?, isNumeric c = false)
    (hb : ∀ c ∈ bs.head?, isNumeric c = false)
    (h : (toString i).toList ++ as = (toString j).toList ++ bs) : i = j ∧ as = bs := by
  obtain ⟨htext, hrest⟩ := stretch_append_inj (fun c => isNumeric_of_mem_toString)
    (fun c => isNumeric_of_mem_toString) ha hb h
  exact ⟨toString_int_inj (String.toList_inj.mp htext), hrest⟩

theorem toString_nat_append_inj {m n : Nat} {as bs : List Char}
    (ha : ∀ c ∈ as.head?, isNumeric c = false) (hb : ∀ c ∈ bs.head?, isNumeric c = false)
    (h : (toString m).toList ++ as = (toString n).toList ++ bs) : m = n ∧ as = bs := by
  obtain ⟨hmn, hrest⟩ := toString_append_inj (i := m) (j := n) ha hb h
  exact ⟨Int.ofNat.inj hmn, hrest⟩

theorem BinaryOp.symbol_append_inj {op op' : BinaryOp} {as bs : List Char}
    (h : op.symbol.toList ++ as = op'.symbol.toList ++ bs) : op = op' ∧ as = bs := by
  have hone : ∀ op : BinaryOp, op.symbol.toList.length = 1 := fun op => by cases op <;> rfl
  obtain ⟨hsymbol, hrest⟩ := List.append_inj h ((hone op).trans (hone op').symm)
  exact ⟨symbol_inj (String.toList_inj.mp hsymbol), hrest⟩

namespace Expr

inductive SameKind : Expr → Expr → Prop
  | binary (op op' : BinaryOp) (position position' : Int) (lhs rhs lhs' rhs' : Expr) :
      SameKind (.binary op position lhs rhs) (.binary op' position' lhs' rhs')
  | unary (op op' : UnaryOp) (position position' : Int) (operand operand' : Expr) :
      SameKind (.unary op position operand) (.unary op' position' operand')
  | constant (position position' : Int) (value value' : Nat) :
      SameKind (.constant position value) (.constant position' value')

/-! ## With kinds and positions -/

theorem describe_binary_calls (limit : Limit) (op : BinaryOp) (position : Int) (lhs rhs : Expr) :
    (binary op position lhs rhs).describe limit = limit.deeper.bind fun rest =>
      (lhs.describe rest).bind fun l => (rhs.describe rest).map fun r =>
        "BinaryOp(" ++ op.symbol ++ "@" ++ toString position ++ ", " ++ l ++ ", " ++ r ++ ")" := by
  rw [describe]
  cases limit.deeper with
  | error => rfl
  | ok rest =>
    show (lhs.describe rest >>= fun l => rhs.describe rest >>= fun r => pure _) =
      (lhs.describe rest).bind _
    cases lhs.describe rest <;> cases rhs.describe rest <;> rfl

theorem describe_unary_calls (limit : Limit) (op : UnaryOp) (position : Int) (operand : Expr) :
    (unary op position operand).describe limit = limit.deeper.bind fun rest =>
      (operand.describe rest).map fun x =>
        "UnaryOp(" ++ op.symbol ++ "@" ++ toString position ++ ", " ++ x ++ ")" := by
  rw [describe]
  cases limit.deeper with
  | error => rfl
  | ok rest =>
    show (operand.describe rest >>= fun x => pure _) = (operand.describe rest).map _
    cases operand.describe rest <;> rfl

theorem describe_binary_none (op : BinaryOp) (position : Int) (lhs rhs : Expr) :
    (binary op position lhs rhs).describe none = (lhs.describe none).bind fun l =>
      (rhs.describe none).map fun r =>
        "BinaryOp(" ++ op.symbol ++ "@" ++ toString position ++ ", " ++ l ++ ", " ++ r ++ ")" :=
  describe_binary_calls none op position lhs rhs

theorem describe_unary_none (op : UnaryOp) (position : Int) (operand : Expr) :
    (unary op position operand).describe none = (operand.describe none).map fun x =>
      "UnaryOp(" ++ op.symbol ++ "@" ++ toString position ++ ", " ++ x ++ ")" :=
  describe_unary_calls none op position operand

theorem describe_of_noStray {e : Expr} (h : e.NoStray) : ∃ line, e.describe none = .ok line := by
  induction e with
  | binary op position lhs rhs ihl ihr =>
    obtain ⟨l, hl⟩ := ihl h.1
    obtain ⟨r, hr⟩ := ihr h.2
    rw [describe_binary_none, hl, hr]
    exact ⟨_, rfl⟩
  | unary op position operand ih =>
    obtain ⟨x, hx⟩ := ih h
    rw [describe_unary_none, hx]
    exact ⟨_, rfl⟩
  | constant position value => exact ⟨_, rfl⟩
  | stray text => exact absurd h id

theorem needsCalls_describe {e : Expr} (h : e.NoStray) : NeedsCalls e.height (e.describe ·) := by
  induction e with
  | binary op position lhs rhs ihl ihr =>
    have hcalls := funext fun limit => describe_binary_calls limit op position lhs rhs
    obtain ⟨l, hl⟩ := describe_of_noStray h.1
    rw [hcalls]
    exact ((ihl h.1).bind hl ((ihr h.2).map _)).deeper
  | unary op position operand ih =>
    have hcalls := funext fun limit => describe_unary_calls limit op position operand
    rw [hcalls]
    exact ((ih h).map _).deeper
  | constant position value =>
    have hline := NeedsCalls.of_const
      (.ok ("Constant(" ++ toString value ++ "@" ++ toString position ++ ")"))
    exact hline.deeper
  | stray text => exact absurd h id

section Describe

variable {position : Int} {line : String}

/-- The line of a binary operator, in front of whatever comes behind. -/
theorem describe_binary {op : BinaryOp} {lhs rhs : Expr}
    (h : (binary op position lhs rhs).describe none = .ok line) :
    ∃ l r, lhs.describe none = .ok l ∧ rhs.describe none = .ok r ∧ ∀ as, line.toList ++ as =
      'B' :: ("inaryOp(".toList ++ (op.symbol.toList ++ ('@' :: ((toString position).toList ++
        (',' :: ' ' :: (l.toList ++ (',' :: ' ' :: (r.toList ++ (')' :: as))))))))) := by
  rw [describe_binary_none] at h
  cases hl : lhs.describe none with
  | error f => rw [hl] at h; cases h
  | ok l =>
    cases hr : rhs.describe none with
    | error f => rw [hl, hr] at h; cases h
    | ok r =>
      rw [hl, hr] at h
      cases h
      refine ⟨l, r, rfl, rfl, fun as => ?_⟩
      simp only [String.toList_append, List.append_assoc]
      rfl

theorem describe_unary {op : UnaryOp} {operand : Expr}
    (h : (unary op position operand).describe none = .ok line) :
    ∃ x, operand.describe none = .ok x ∧ ∀ as, line.toList ++ as =
      'U' :: ("naryOp(-@".toList ++ ((toString position).toList ++
        (',' :: ' ' :: (x.toList ++ (')' :: as))))) := by
  rw [describe_unary_none] at h
  cases hx : operand.describe none with
  | error f => rw [hx] at h; cases h
  | ok x =>
    rw [hx] at h
    cases h
    cases op
    refine ⟨x, rfl, fun as => ?_⟩
    simp only [String.toList_append, List.append_assoc]
    rfl

theorem describe_constant {value : Nat} (h : (constant position value).describe none = .ok line)
    (as : List Char) : line.toList ++ as = 'C' :: ("onstant(".toList ++ ((toString value).toList ++
      ('@' :: ((toString position).toList ++ (')' :: as))))) := by
  cases h
  simp only [String.toList_append, List.append_assoc]
  rfl

end Describe

def initial : Expr → Char
  | .binary .. => 'B'
  | .unary .. => 'U'
  | .constant .. => 'C'
  | .stray _ => '\''

theorem head?_describe {e : Expr} (hs : e.NoStray) {line : String} (h : e.describe none = .ok line)
    (as : List Char) : (line.toList ++ as).head? = some e.initial := by
  cases e with
  | binary =>
    obtain ⟨l, r, -, -, hline⟩ := describe_binary h
    rw [hline]
    rfl
  | unary =>
    obtain ⟨x, -, hline⟩ := describe_unary h
    rw [hline]
    rfl
  | constant =>
    rw [describe_constant h]
    rfl
  | stray => exact absurd hs id

theorem sameKind_of_initial {a b : Expr} (ha : a.NoStray) (hb : b.NoStray) (h : a.initial = b.initial) :
    SameKind a b := by
  cases a with
  | binary =>
    cases b with
    | binary => exact .binary ..
    | unary | constant | stray => exact absurd h (by simp [initial])
  | unary =>
    cases b with
    | unary => exact .unary ..
    | binary | constant | stray => exact absurd h (by simp [initial])
  | constant =>
    cases b with
    | constant => exact .constant ..
    | binary | unary | stray => exact absurd h (by simp [initial])
  | stray => exact absurd ha id

theorem sameKind_of_describe {a b : Expr} (ha : a.NoStray) (hb : b.NoStray) {line line' : String}
    (hla : a.describe none = .ok line) (hlb : b.describe none = .ok line') {as bs : List Char}
    (h : line.toList ++ as = line'.toList ++ bs) : SameKind a b := by
  have hhead := congrArg List.head? h
  rw [head?_describe ha hla, head?_describe hb hlb] at hhead
  exact sameKind_of_initial ha hb (Option.some.inj hhead)

theorem describe_append_inj {a b : Expr} (ha : a.NoStray) (hb : b.NoStray) {line line' : String}
    (hla : a.describe none = .ok line) (hlb : b.describe none = .ok line') {as bs : List Char}
    (h : line.toList ++ as = line'.toList ++ bs) : a = b ∧ as = bs := by
  induction a generalizing b line line' as bs with
  | binary op position lhs rhs ihl ihr =>
    cases sameKind_of_describe ha hb hla hlb h with
    | binary _ op' _ position' _ _ lhs' rhs' =>
      obtain ⟨l, r, hl, hr, hline⟩ := describe_binary hla
      obtain ⟨l', r', hl', hr', hline'⟩ := describe_binary hlb
      rw [hline, hline'] at h
      have hop := List.append_cancel_left (List.cons.inj h).2
      obtain ⟨rfl, hposition⟩ := BinaryOp.symbol_append_inj hop
      obtain ⟨rfl, hoperands⟩ :=
        toString_append_inj (by simp [isNumeric]) (by simp [isNumeric]) (List.cons.inj hposition).2
      simp only [List.cons.injEq, true_and] at hoperands
      obtain ⟨rfl, hright⟩ := ihl ha.1 hb.1 hl hl' hoperands
      simp only [List.cons.injEq, true_and] at hright
      obtain ⟨rfl, hrest⟩ := ihr ha.2 hb.2 hr hr' hright
      exact ⟨rfl, (List.cons.inj hrest).2⟩
  | unary op position operand ih =>
    cases sameKind_of_describe ha hb hla hlb h with
    | unary _ op' _ position' _ operand' =>
      obtain ⟨x, hx, hline⟩ := describe_unary hla
      obtain ⟨x', hx', hline'⟩ := describe_unary hlb
      rw [hline, hline'] at h
      have hposition := List.append_cancel_left (List.cons.inj h).2
      obtain ⟨rfl, hoperand⟩ :=
        toString_append_inj (by simp [isNumeric]) (by simp [isNumeric]) hposition
      simp only [List.cons.injEq, true_and] at hoperand
      obtain ⟨rfl, hrest⟩ := ih (b := operand') ha hb hx hx' hoperand
      exact ⟨rfl, (List.cons.inj hrest).2⟩
  | constant position value =>
    cases sameKind_of_describe ha hb hla hlb h with
    | constant _ position' _ value' =>
      rw [describe_constant hla, describe_constant hlb] at h
      have hvalue := List.append_cancel_left (List.cons.inj h).2
      obtain ⟨rfl, hposition⟩ :=
        toString_nat_append_inj (by simp [isNumeric]) (by simp [isNumeric]) hvalue
      obtain ⟨rfl, hrest⟩ :=
        toString_append_inj (by simp [isNumeric]) (by simp [isNumeric]) (List.cons.inj hposition).2
      exact ⟨rfl, (List.cons.inj hrest).2⟩
  | stray text => exact absurd ha id

/-! ## In prefix order -/

theorem prefixText_mapPositions (f : Int → Int) (e : Expr) :
    (e.mapPositions f).prefixText none = e.prefixText none := by
  induction e with
  | binary op position lhs rhs ihl ihr =>
    rw [mapPositions, prefixText_binary_none, prefixText_binary_none, ihl, ihr]
  | unary op position operand ih =>
    rw [mapPositions, prefixText_unary_none, prefixText_unary_none, ih]
  | constant position value => rfl
  | stray text => rfl

theorem Alike.prefixText_eq {a b : Expr} (h : a.Alike b) : a.prefixText none = b.prefixText none := by
  rw [← prefixText_mapPositions (fun _ => 0) a, ← prefixText_mapPositions (fun _ => 0) b, h]

/-- The line of a binary operator, in front of whatever comes behind. -/
theorem prefixText_binary {op : BinaryOp} {position : Int} {lhs rhs : Expr} {line : String}
    (h : (binary op position lhs rhs).prefixText none = .ok line) :
    ∃ l r, lhs.prefixText none = .ok l ∧ rhs.prefixText none = .ok r ∧ ∀ as, line.toList ++ as =
      '(' :: (op.symbol.toList ++ (' ' :: (l.toList ++ (' ' :: (r.toList ++ (')' :: as)))))) := by
  rw [prefixText_binary_none] at h
  cases hl : lhs.prefixText none with
  | error f => rw [hl] at h; cases h
  | ok l =>
    cases hr : rhs.prefixText none with
    | error f => rw [hl, hr] at h; cases h
    | ok r =>
      rw [hl, hr] at h
      cases h
      exact ⟨l, r, rfl, rfl, fun as => by simp⟩

theorem prefixText_unary {op : UnaryOp} {position : Int} {operand : Expr} {line : String}
    (h : (unary op position operand).prefixText none = .ok line) :
    ∃ x, operand.prefixText none = .ok x ∧ ∀ as, line.toList ++ as =
      '(' :: ("neg ".toList ++ (x.toList ++ (')' :: as))) := by
  rw [prefixText_unary_none] at h
  cases hx : operand.prefixText none with
  | error f => rw [hx] at h; cases h
  | ok x =>
    rw [hx] at h
    cases h
    exact ⟨x, rfl, fun as => by simp⟩

/-- A bare number begins with a digit, not with a parenthesis. -/
theorem toString_nat_ne_open (value : Nat) (as bs : List Char) :
    (toString value).toList ++ as ≠ '(' :: bs := by
  intro h
  obtain ⟨d, ds, hd⟩ := List.exists_cons_of_ne_nil (Nat.toDigits_ne_nil (n := value) (b := 10))
  rw [Nat.toString_eq_ofList_toDigits, String.toList_ofList, hd, List.cons_append] at h
  have hdigit : d.isDigit = true := Binary64.isDigit_of_mem_toDigits (hd ▸ List.mem_cons_self)
  rw [(List.cons.inj h).1] at hdigit
  cases hdigit

/-- The word of a negation is no operator. -/
theorem symbol_ne_neg (op : BinaryOp) (as bs : List Char) :
    '(' :: (op.symbol.toList ++ as) ≠ '(' :: ("neg ".toList ++ bs) := by
  cases op <;> simp [BinaryOp.symbol]

/-- The first two characters tell the kind of the root. -/
theorem sameKind_of_prefixText {a b : Expr} {line line' : String} (ha : a.prefixText none = .ok line)
    (hb : b.prefixText none = .ok line') {as bs : List Char}
    (h : line.toList ++ as = line'.toList ++ bs) : SameKind a b := by
  cases a with
  | stray => cases ha
  | binary op position lhs rhs =>
    obtain ⟨l, r, -, -, hline⟩ := prefixText_binary ha
    cases b with
    | stray => cases hb
    | binary => exact .binary ..
    | unary =>
      obtain ⟨x, -, hline'⟩ := prefixText_unary hb
      rw [hline, hline'] at h
      exact absurd h (symbol_ne_neg op _ _)
    | constant position' value' =>
      cases hb
      rw [hline] at h
      exact absurd h.symm (toString_nat_ne_open value' _ _)
  | unary op position operand =>
    obtain ⟨x, -, hline⟩ := prefixText_unary ha
    cases b with
    | stray => cases hb
    | binary op' =>
      obtain ⟨l, r, -, -, hline'⟩ := prefixText_binary hb
      rw [hline, hline'] at h
      exact absurd h.symm (symbol_ne_neg op' _ _)
    | unary => exact .unary ..
    | constant position' value' =>
      cases hb
      rw [hline] at h
      exact absurd h.symm (toString_nat_ne_open value' _ _)
  | constant position value =>
    cases ha
    cases b with
    | stray => cases hb
    | binary =>
      obtain ⟨l, r, -, -, hline'⟩ := prefixText_binary hb
      rw [hline'] at h
      exact absurd h (toString_nat_ne_open value _ _)
    | unary =>
      obtain ⟨x, -, hline'⟩ := prefixText_unary hb
      rw [hline'] at h
      exact absurd h (toString_nat_ne_open value _ _)
    | constant => exact .constant ..

theorem prefixText_append_inj {a b : Expr} {line line' : String} (ha : a.prefixText none = .ok line)
    (hb : b.prefixText none = .ok line') {as bs : List Char} (has : ∀ c ∈ as.head?, isNumeric c = false)
    (hbs : ∀ c ∈ bs.head?, isNumeric c = false) (h : line.toList ++ as = line'.toList ++ bs) :
    a.Alike b ∧ as = bs := by
  induction a generalizing b line line' as bs with
  | binary op position lhs rhs ihl ihr =>
    cases sameKind_of_prefixText ha hb h with
    | binary _ op' _ position' _ _ lhs' rhs' =>
      obtain ⟨l, r, hl, hr, hline⟩ := prefixText_binary ha
      obtain ⟨l', r', hl', hr', hline'⟩ := prefixText_binary hb
      rw [hline, hline'] at h
      obtain ⟨rfl, hoperands⟩ := BinaryOp.symbol_append_inj (List.cons.inj h).2
      obtain ⟨hlhs, hright⟩ :=
        ihl hl hl' (by simp [isNumeric]) (by simp [isNumeric]) (List.cons.inj hoperands).2
      obtain ⟨hrhs, hrest⟩ :=
        ihr hr hr' (by simp [isNumeric]) (by simp [isNumeric]) (List.cons.inj hright).2
      exact ⟨hlhs.binary hrhs op position position', (List.cons.inj hrest).2⟩
  | unary op position operand ih =>
    cases sameKind_of_prefixText ha hb h with
    | unary _ op' _ position' _ operand' =>
      obtain ⟨x, hx, hline⟩ := prefixText_unary ha
      obtain ⟨x', hx', hline'⟩ := prefixText_unary hb
      rw [hline, hline'] at h
      have hoperand := List.append_cancel_left (List.cons.inj h).2
      obtain ⟨halike, hrest⟩ := ih hx hx' (by simp [isNumeric]) (by simp [isNumeric]) hoperand
      exact ⟨halike.unary op position position', (List.cons.inj hrest).2⟩
  | constant position value =>
    cases sameKind_of_prefixText ha hb h with
    | constant _ position' _ value' =>
      cases ha
      cases hb
      obtain ⟨rfl, hrest⟩ := toString_nat_append_inj has hbs h
      exact ⟨alike_constant position position' value, hrest⟩
  | stray text => cases ha

/-! ## Both lines -/

/-- Under every limit that allows as many calls as the trees have levels they have both lines, and
    these tell them apart; under any other limit the tree that is too deep has neither. -/
theorem spelling_eq_iff {a b : Expr} (ha : a.NoStray) (hb : b.NoStray) (limit : Limit) :
    (limit.Allows a.height → limit.Allows b.height →
      (∃ line line', a.describe limit = .ok line ∧ b.describe limit = .ok line' ∧
        (line = line' ↔ a = b)) ∧
      ∃ line line', a.prefixText limit = .ok line ∧ b.prefixText limit = .ok line' ∧
        (line = line' ↔ a.Alike b)) ∧
    (¬ limit.Allows a.height →
      a.describe limit = .error .tooDeep ∧ a.prefixText limit = .error .tooDeep) := by
  constructor
  · intro hla hlb
    constructor
    · obtain ⟨line, hline⟩ := describe_of_noStray ha
      obtain ⟨line', hline'⟩ := describe_of_noStray hb
      rw [(needsCalls_describe ha).allowed hla, (needsCalls_describe hb).allowed hlb]
      refine ⟨line, line', hline, hline', ?_, ?_⟩
      · rintro rfl
        have hnil : line.toList ++ [] = line.toList ++ [] := rfl
        exact (describe_append_inj ha hb hline hline' hnil).1
      · rintro rfl
        exact Except.ok.inj (hline.symm.trans hline')
    · obtain ⟨line, hline⟩ := prefixText_of_noStray ha
      obtain ⟨line', hline'⟩ := prefixText_of_noStray hb
      rw [← reach_of_noStray ha] at hla
      rw [← reach_of_noStray hb] at hlb
      rw [(needsCalls_prefixText a).allowed hla, (needsCalls_prefixText b).allowed hlb]
      refine ⟨line, line', hline, hline', ?_, ?_⟩
      · rintro rfl
        have hnil : line.toList ++ [] = line.toList ++ [] := rfl
        exact (prefixText_append_inj hline hline' (by simp) (by simp) hnil).1
      · intro halike
        exact Except.ok.inj (hline.symm.trans (halike.prefixText_eq.trans hline'))
  · intro hdeep
    refine ⟨(needsCalls_describe ha).refused hdeep, ?_⟩
    rw [← reach_of_noStray ha] at hdeep
    exact (needsCalls_prefixText a).refused hdeep

/-- The number 1 under 5000 negations has neither line where 1000 calls are allowed, so it has not
    the same line as itself. -/
theorem no_spelling_of_deep_negation : ∃ deep : Expr,
    deep = Workbench.negated 1 5000 (.constant 0 1) ∧ deep.NoStray ∧ deep.Fits ∧
      (¬ ∃ line line', deep.describe (some 1000) = .ok line ∧ deep.describe (some 1000) = .ok line' ∧
        (line = line' ↔ deep = deep)) ∧
      ¬ ∃ line line', deep.prefixText (some 1000) = .ok line ∧
        deep.prefixText (some 1000) = .ok line' ∧ (line = line' ↔ deep.Alike deep) := by
  generalize hn : 5000 = n
  have hf := (fits_negated 1 n (.constant 0 1)).mpr (by decide)
  have hs := (noStray_negated 1 n (.constant 0 1)).mpr trivial
  have hlevels : ¬ Limit.Allows (some 1000) (Workbench.negated 1 n (.constant 0 1)).height := by
    rw [Limit.allows_some, height_negated, ← hn]
    decide
  refine ⟨_, rfl, hs, hf, ?_⟩
  rw [(needsCalls_describe hs).refused hlevels,
    (needsCalls_prefixText _).refused (reach_of_noStray hs ▸ hlevels)]
  exact ⟨nofun, nofun⟩

/-- `1 - 12` at -3 and at 30: one line in prefix order, two lines with positions. The digits of
    a number and of a position next to it do not run together. -/
theorem spelling_of_moved_difference :
    let difference := binary .subtract (-3) (.constant (-4) 1) (.constant 21 12)
    let moved := binary .subtract 30 (.constant 2 1) (.constant 1 12)
    (difference.NoStray ∧ moved.NoStray) ∧
      (∃ line line', difference.describe (some 2) = .ok line ∧ moved.describe (some 2) = .ok line' ∧
        line ≠ line') ∧
      ∃ line, difference.prefixText (some 2) = .ok line ∧ moved.prefixText (some 2) = .ok line := by
  intro difference moved
  have hd : difference.NoStray := by decide
  have hm : moved.NoStray := by decide
  have htwo : ∀ e : Expr, e.height = 2 → Limit.Allows (some 2) e.height := by
    rintro e he calls ⟨⟩
    exact Nat.le_of_eq he
  obtain ⟨hdescribe, line, line', hline, hline', hprefix⟩ :=
    (spelling_eq_iff hd hm (some 2)).1 (htwo difference rfl) (htwo moved rfl)
  obtain ⟨text, text', htext, htext', heq⟩ := hdescribe
  have halike : difference.Alike moved := rfl
  obtain rfl : line = line' := hprefix.mpr halike
  exact ⟨⟨hd, hm⟩, ⟨text, text', htext, htext', fun h => absurd (heq.mp h) (by decide)⟩,
    line, hline, hline'⟩

end Expr

end Abacus
