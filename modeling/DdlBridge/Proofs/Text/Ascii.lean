import DdlBridge.Text.Numeral

/-!
# ASCII characters

ASCII has its letters and digits at known code points, and in it the Unicode classes have no others.
-/

namespace DdlBridge.Text

variable {c : Char}

/-- What holds of the ASCII code points holds of an ASCII character. -/
theorem of_ascii (p : Char → Prop) (h : ∀ n < 128, p (Char.ofNat n)) (hc : c.toNat < 128) : p c := by
  have hp := h c.toNat hc
  rwa [Char.ofNat_toNat] at hp

theorem isAlpha_iff : c.isAlpha = true ↔
    (65 ≤ c.toNat ∧ c.toNat ≤ 90) ∨ (97 ≤ c.toNat ∧ c.toNat ≤ 122) := by
  have hupper : c.isUpper = true ↔ 'A'.val ≤ c.val ∧ c.val ≤ 'Z'.val := decide_eq_true_iff
  have hlower : c.isLower = true ↔ 'a'.val ≤ c.val ∧ c.val ≤ 'z'.val :=
    Bool.and_eq_true_iff.trans (and_congr decide_eq_true_iff decide_eq_true_iff)
  exact Bool.or_eq_true_iff.trans (or_congr hupper hlower)

theorem isDigit_iff : c.isDigit = true ↔ 48 ≤ c.toNat ∧ c.toNat ≤ 57 :=
  Char.isDigit_iff_toNat

theorem isAlpha_of_isUpper (h : c.isUpper = true) : c.isAlpha = true :=
  Bool.or_eq_true_iff.2 (.inl h)

theorem isAlpha_eq_false (h : 128 ≤ c.toNat) : c.isAlpha = false := by
  rw [Bool.eq_false_iff, Ne, isAlpha_iff]
  omega

theorem isDigit_eq_false (h : 128 ≤ c.toNat) : c.isDigit = false := by
  rw [Bool.eq_false_iff, Ne, isDigit_iff]
  omega

theorem isAlpha_eq_false_of_isDigit (h : c.isDigit = true) : c.isAlpha = false := by
  rw [isDigit_iff] at h
  rw [Bool.eq_false_iff, Ne, isAlpha_iff]
  omega

theorem isLetter_of_lt (h : c.toNat < 128) : isLetter c = c.isAlpha := by
  have hnot : ¬ 127 < c.toNat := by omega
  simp [isLetter, hnot]

theorem isNumeral_of_lt (h : c.toNat < 128) : isNumeral c = c.isDigit := by
  have hnot : ¬ 127 < c.toNat := by omega
  simp [isNumeral, hnot]

end DdlBridge.Text
