/-
  Abacus.Proofs.Binary64.Display — what the text of a number looks like.

  - `write_shape`: a decimal is written with digits, a point or an exponent behind them, and
    more. Where the exponent is written only from 16 digits on, there are no more than 16
    digits before that mark.
  - `display_whole` / `display_fraction`: a result is the digits of a whole number or such a
    decimal, behind a minus sign or not, or it is a word.
-/

import Abacus.Binary64.Text

namespace Abacus.Binary64

/-! ## Digits -/

theorem mem_zeros {n : Nat} {c : Char} (h : c ∈ zeros n) : c.isDigit = true := by
  rw [List.eq_of_mem_replicate h]
  rfl

theorem isDigit_of_mem_toDigits {n : Nat} {c : Char} (h : c ∈ Nat.toDigits 10 n) : c.isDigit = true :=
  Nat.isDigit_of_mem_toDigits (by decide) (by decide) h

theorem significant_ne_nil (n : Nat) : significant n ≠ [] := by
  unfold significant
  split
  · simp
  · assumption

theorem mem_significant {n : Nat} {c : Char} (h : c ∈ significant n) : c.isDigit = true := by
  unfold significant at h
  split at h
  · rw [List.mem_singleton.mp h]
    rfl
  · have hs := (List.dropWhile_suffix (l := (Nat.toDigits 10 n).reverse) (· == '0')).subset
    exact isDigit_of_mem_toDigits (List.mem_reverse.mp (hs (List.mem_reverse.mp h)))

/-! ## Shape -/

/-- Some digits, a point or the beginning of an exponent, and more. -/
def Marked (width : Nat) (cs : List Char) : Prop :=
  ∃ whole mark rest, cs = whole ++ mark :: rest ∧ whole ≠ [] ∧ whole.length ≤ width ∧
    (∀ c ∈ whole, c.isDigit = true) ∧ (mark = '.' ∨ mark = 'e')

theorem Marked.mono {m n : Nat} {cs : List Char} (h : Marked m cs) (hmn : m ≤ n) : Marked n cs := by
  obtain ⟨whole, mark, rest, hcs, hne, hlen, hd, hm⟩ := h
  exact ⟨whole, mark, rest, hcs, hne, Nat.le_trans hlen hmn, hd, hm⟩

theorem marked_positional {digits : List Char} (hd : ∀ c ∈ digits, c.isDigit = true) (exponent : Int) :
    Marked (exponent.toNat + 1) (positional digits exponent) := by
  unfold positional
  split
  · exact ⟨['0'], '.', _, rfl, by simp, by simp, List.forall_mem_singleton.mpr rfl, .inl rfl⟩
  · dsimp only
    split
    · rename_i hle
      refine ⟨digits ++ zeros (exponent.toNat + 1 - digits.length), '.', ['0'], rfl, ?_, ?_, ?_, .inl rfl⟩
      · refine List.ne_nil_of_length_pos ?_
        simp only [List.length_append, zeros, List.length_replicate]
        omega
      · simp only [List.length_append, zeros, List.length_replicate]
        omega
      · exact List.forall_mem_append.mpr ⟨hd, fun c => mem_zeros⟩
    · rename_i hlt
      refine ⟨digits.take (exponent.toNat + 1), '.', _, rfl, ?_, ?_, ?_, .inl rfl⟩
      · refine List.ne_nil_of_length_pos ?_
        rw [List.length_take]
        omega
      · rw [List.length_take]
        omega
      · exact fun c hc => hd c (List.mem_of_mem_take hc)

theorem marked_scientific {digits : List Char} (hne : digits ≠ []) (hd : ∀ c ∈ digits, c.isDigit = true)
    (width : Nat) (exponent : Int) : Marked 1 (scientific width digits exponent) := by
  obtain ⟨first, rest, rfl⟩ := List.exists_cons_of_ne_nil hne
  have hfirst : ∀ c ∈ [first], c.isDigit = true := by
    simpa using hd first List.mem_cons_self
  cases rest with
  | nil => exact ⟨[first], 'e', _, rfl, by simp, Nat.le_refl 1, hfirst, .inr rfl⟩
  | cons second rest => exact ⟨[first], '.', _, rfl, by simp, Nat.le_refl 1, hfirst, .inl rfl⟩

/-- Without an exponent there are no more digits before the point than the layout allows. -/
theorem Layout.write_shape {layout : Layout} {width : Nat} (hw : layout.positionalBelow ≤ width)
    (h1 : 1 ≤ width) (d : Decimal) : Marked width (layout.write d).toList := by
  have hd : ∀ c ∈ significant d.digits, c.isDigit = true := fun c => mem_significant
  unfold Layout.write
  dsimp only
  rw [String.toList_ofList]
  split
  · rename_i h
    exact (marked_positional hd _).mono (by omega)
  · exact (marked_scientific (significant_ne_nil _) hd _ _).mono h1

/-! ## Results -/

theorem one_pos : 0 < one := by
  unfold one
  generalize 1074 = k
  exact Nat.two_pow_pos k

theorem toList_signText (negative : Bool) :
    (signText negative).toList = if negative then ['-'] else [] := by
  cases negative <;> rfl

theorem whole_of_mod_eq_zero (negative : Bool) {units : Nat} (hr : Representable units)
    (h : units % one = 0) : ∃ n hr', finite negative units hr = finite negative (n * one) hr' := by
  have hn : units / one * one = units := Nat.div_mul_cancel (Nat.dvd_of_mod_eq_zero h)
  exact ⟨units / one, hn.symm ▸ hr, by simp only [hn]⟩

/-- A whole number is written with all its digits. -/
theorem display_whole {negative : Bool} {n : Nat} (h : Representable (n * one)) :
    (finite negative (n * one) h).display = signText negative ++ toString n := by
  simp only [display, Nat.mul_mod_left, if_true, Nat.mul_div_cancel n one_pos]

/-- A number with a fraction is written as the shortest decimal. -/
theorem display_fraction {negative : Bool} {units : Nat} (h : Representable units)
    (hf : units % one ≠ 0) : (finite negative units h).display =
      signText negative ++ Layout.standard.write (shortest units) := by
  have h0 : units ≠ 0 := by
    rintro rfl
    exact hf (Nat.zero_mod one)
  simp only [display, hf, if_false, text, h0]

end Abacus.Binary64
