import XamlAssist.Text.Decimal

/-!
# Decimal numbers and their digits

The digits of a number stand for the number again, and only zero starts with a zero.
-/

namespace XamlAssist.Text

private theorem isDigit_digit : ∀ d < 10, (Char.ofNat (48 + d)).isDigit = true := by decide

private theorem toNat_digit : ∀ d < 10, (Char.ofNat (48 + d)).toNat - 48 = d := by decide

private theorem digit_ne_zero : ∀ d < 10, 0 < d → Char.ofNat (48 + d) ≠ '0' := by decide

private theorem ofDecimal_concat (digits : List Char) (c : Char) :
    ofDecimal (digits ++ [c]) = 10 * ofDecimal digits + (c.toNat - 48) := by
  simp [ofDecimal]

@[simp]
theorem ofDecimal_decimal (n : Nat) : ofDecimal (decimal n) = n := by
  fun_induction decimal n with
  | case1 n h => simpa [ofDecimal] using toNat_digit n h
  | case2 n h ih =>
      rw [ofDecimal_concat, ih, toNat_digit (n % 10) (Nat.mod_lt n (by decide))]
      omega

theorem all_isDigit_decimal (n : Nat) : (decimal n).all Char.isDigit = true := by
  fun_induction decimal n with
  | case1 n h => simpa using isDigit_digit n h
  | case2 n h ih =>
      have hlast := isDigit_digit (n % 10) (Nat.mod_lt n (by decide))
      simp [ih, hlast]

theorem decimal_ne_nil (n : Nat) : decimal n ≠ [] := by
  rw [decimal]
  split <;> simp

theorem head?_decimal_ne_zero {n : Nat} (h : 0 < n) : (decimal n).head? ≠ some '0' := by
  fun_induction decimal n with
  | case1 n hn => simpa using digit_ne_zero n hn h
  | case2 n hn ih =>
      obtain ⟨c, cs, hcs⟩ := List.exists_cons_of_ne_nil (decimal_ne_nil (n / 10))
      have hc : (decimal (n / 10)).head? ≠ some '0' := ih (by omega)
      rw [hcs] at hc ⊢
      exact hc

private theorem digitChar_eq_ofNat : ∀ d < 10, Nat.digitChar d = Char.ofNat (48 + d) := by decide

private theorem decimal_eq_toDigits (n : Nat) : decimal n = Nat.toDigits 10 n := by
  fun_induction decimal n with
  | case1 n h => rw [Nat.toDigits_of_lt_base h, digitChar_eq_ofNat n h]
  | case2 n h ih =>
      have hlt : n % 10 < 10 := Nat.mod_lt n (by decide)
      have happend := Nat.toDigits_append_toDigits (by decide) (by omega : 0 < n / 10) hlt
      rw [Nat.toDigits_of_lt_base hlt, digitChar_eq_ofNat _ hlt, ← ih, Nat.div_add_mod] at happend
      exact happend

theorem toString_eq_decimalText (n : Nat) : toString n = decimalText n := by
  rw [Nat.toString_eq_repr, Nat.repr, decimalText, decimal_eq_toDigits]

end XamlAssist.Text
