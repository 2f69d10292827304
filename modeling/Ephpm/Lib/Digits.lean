import Mathlib.Data.List.Basic
import Mathlib.Tactic.IntervalCases

/-!
# Numbers in decimal digits

`Nat.toDigits` writes a number and `Nat.ofDigitChars` reads one.  Reading what was written is
in the library.  The other direction needs that the digits are the ones that would be
written: **digits only, and no leading zero**.
-/

namespace Lib

/-- A number above nine is not written with a leading zero. -/
theorem head?_toDigits {n : ℕ} (h : 10 ≤ n) : (Nat.toDigits 10 n).head? ≠ some '0' := by
  induction n using Nat.strong_induction_on with
  | _ n ih =>
    rw [Nat.toDigits_of_base_le (by decide) h]
    have hne : Nat.toDigits 10 (n / 10) ≠ [] := Nat.toDigits_ne_nil
    rw [List.head?_append_of_ne_nil _ hne]
    by_cases hten : 10 ≤ n / 10
    · exact ih (n / 10) (by omega) hten
    · -- the first digit is between one and nine
      have hlt : n / 10 < 10 := by omega
      have hpos : 1 ≤ n / 10 := by omega
      rw [Nat.toDigits_of_lt_base hlt]
      generalize n / 10 = d at hlt hpos
      interval_cases d <;> decide

theorem digitChar_toNat {c : Char} (h : c.isDigit = true) :
    c.toNat - '0'.toNat < 10 ∧ Nat.digitChar (c.toNat - '0'.toNat) = c := by
  have hrange : 48 ≤ c.toNat ∧ c.toNat ≤ 57 := by
    simpa [Char.isDigit, UInt32.le_iff_toNat_le] using h
  have hzero : '0'.toNat = 48 := rfl
  have hlt : c.toNat - '0'.toNat < 10 := by omega
  refine ⟨hlt, Char.toNat_inj.mp ?_⟩
  rw [Nat.toNat_digitChar_of_lt_ten hlt]
  omega

/-- Digits that follow a positive number are read as the digits of the number they make. -/
theorem toDigits_ofDigitChars_of_pos {digits : List Char} {init : ℕ}
    (hdigits : ∀ c ∈ digits, c.isDigit = true) (hpos : 0 < init) :
    Nat.toDigits 10 (Nat.ofDigitChars 10 digits init) = Nat.toDigits 10 init ++ digits := by
  induction digits generalizing init with
  | nil => rw [Nat.ofDigitChars_nil, List.append_nil]
  | cons c rest ih =>
    obtain ⟨hlt, hchar⟩ := digitChar_toNat (hdigits c List.mem_cons_self)
    have hfirst := Nat.toDigits_append_toDigits (b := 10) (n := init) (by decide) hpos hlt
    rw [Nat.toDigits_of_lt_base hlt, hchar] at hfirst
    rw [Nat.ofDigitChars_cons, ih (fun c' hc' => hdigits c' (List.mem_cons_of_mem c hc'))
      (by omega), ← hfirst, List.append_assoc, List.singleton_append]

/-- **Digits are read as the number they are the digits of**, if there is no leading
zero. -/
theorem toDigits_ofDigitChars {digits : List Char} (hsome : digits ≠ [])
    (hdigits : ∀ c ∈ digits, c.isDigit = true)
    (hlead : 1 < digits.length → digits.head? ≠ some '0') :
    Nat.toDigits 10 (Nat.ofDigitChars 10 digits 0) = digits := by
  obtain ⟨c, rest, rfl⟩ := List.exists_cons_of_ne_nil hsome
  obtain ⟨hlt, hchar⟩ := digitChar_toNat (hdigits c List.mem_cons_self)
  rw [Nat.ofDigitChars_cons, Nat.mul_zero, Nat.zero_add]
  by_cases hzero : c.toNat - '0'.toNat = 0
  · -- a leading zero stands alone
    have hc : c = '0' := by
      rw [← hchar, hzero]
      rfl
    have hrest : rest = [] := by
      by_contra hne
      refine hlead ?_ (congrArg some hc)
      rw [List.length_cons]
      have := List.length_pos_iff.mpr hne
      omega
    subst hrest hc
    rfl
  · rw [toDigits_ofDigitChars_of_pos (fun c' hc' => hdigits c' (List.mem_cons_of_mem c hc'))
      (Nat.pos_of_ne_zero hzero), Nat.toDigits_of_lt_base hlt, hchar, List.singleton_append]

end Lib
