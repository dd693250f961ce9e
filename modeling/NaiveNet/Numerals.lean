import Mathlib.Data.Int.Notation
import Mathlib.Tactic.NormNum

/-!
# Numbers in a text

The conversions of `printf` that print an integer: `%d`, `%X`, and `%d` with a
minimal width filled with zeros or blanks. A field filled with zeros has exactly its
width as long as the number fits, and the number can be read back from it.
-/
namespace NaiveNet

/-- `%d` -/
def decimal (v : ℤ) : List Char :=
  (if v < 0 then ['-'] else []) ++ Nat.toDigits 10 v.natAbs

/-- `%X` -/
def hexadecimal (v : ℕ) : List Char := (Nat.toDigits 16 v).map Char.toUpper

/-- `%0wd` -/
def zeroFilled (w : ℕ) (v : ℤ) : List Char :=
  if v < 0 then '-' :: (Nat.toDigits 10 v.natAbs).leftpad (w - 1) '0'
  else (Nat.toDigits 10 v.natAbs).leftpad w '0'

/-- `%wd` -/
def blankFilled (w : ℕ) (v : ℤ) : List Char := (decimal v).leftpad w ' '

theorem length_decimal_le {v : ℤ} {k : ℕ} (hk : 0 < k) (h : v.natAbs < 10 ^ k) :
    (decimal v).length ≤ k + 1 := by
  have hdigits := (Nat.length_toDigits_le_iff (b := 10) (by omega) hk).mpr h
  unfold decimal
  split_ifs <;> simp only [List.length_append, List.length_singleton, List.length_nil] <;> omega

theorem length_hexadecimal_le {v k : ℕ} (hk : 0 < k) (h : v < 16 ^ k) :
    (hexadecimal v).length ≤ k := by
  rw [hexadecimal, List.length_map, Nat.length_toDigits_le_iff (by omega) hk]
  exact h

theorem length_toDigits_natAbs_le {w : ℕ} {v : ℤ} (hw : 0 < w) (h0 : 0 ≤ v) (h : v < 10 ^ w) :
    (Nat.toDigits 10 v.natAbs).length ≤ w := by
  obtain ⟨n, rfl⟩ := Int.eq_ofNat_of_zero_le h0
  rw [Nat.length_toDigits_le_iff (by omega) hw, Int.natAbs_natCast]
  exact_mod_cast h

theorem length_zeroFilled {w : ℕ} {v : ℤ} (hw : 0 < w) (h0 : 0 ≤ v) (h : v < 10 ^ w) :
    (zeroFilled w v).length = w := by
  have hdigits := length_toDigits_natAbs_le hw h0 h
  rw [zeroFilled, if_neg (by omega), List.length_leftpad]
  omega

theorem length_zeroFilled_le {w : ℕ} {v : ℤ} (hw : 0 < w) (h : v.natAbs < 10 ^ w) :
    (zeroFilled w v).length ≤ w + 1 := by
  have hdigits := (Nat.length_toDigits_le_iff (b := 10) (by omega) hw).mpr h
  unfold zeroFilled
  split_ifs <;> simp only [List.length_cons, List.length_leftpad] <;> omega

theorem length_blankFilled {w : ℕ} {v : ℤ} (hw : 0 < w) (h0 : 0 ≤ v) (h : v < 10 ^ w) :
    (blankFilled w v).length = w := by
  have hdigits := length_toDigits_natAbs_le hw h0 h
  rw [blankFilled, decimal, if_neg (by omega), List.nil_append, List.length_leftpad]
  omega

/-- The number is read back from its digits, with zeros in front. -/
theorem zeroFilled_inj {w : ℕ} {u v : ℤ} (hu : 0 ≤ u) (hv : 0 ≤ v)
    (h : zeroFilled w u = zeroFilled w v) : u = v := by
  rw [zeroFilled, zeroFilled, if_neg (by omega), if_neg (by omega)] at h
  have hvalue := congrArg (fun text => Nat.ofDigitChars 10 text 0) h
  simp only [List.leftpad, Nat.ofDigitChars_append, Nat.ofDigitChars_replicate_zero,
    Nat.mul_zero, Nat.ofDigitChars_ten_toDigits] at hvalue
  omega

theorem length_twoDigits {v : ℤ} (h : 0 ≤ v ∧ v ≤ 99) : (zeroFilled 2 v).length = 2 :=
  length_zeroFilled (by omega) h.1 (by omega)

/-- A field of two digits and what follows it. -/
theorem twoDigits_append_inj {u v : ℤ} {xs ys : List Char} (hu : 0 ≤ u ∧ u ≤ 99)
    (hv : 0 ≤ v ∧ v ≤ 99) (h : zeroFilled 2 u ++ xs = zeroFilled 2 v ++ ys) : u = v ∧ xs = ys := by
  obtain ⟨hfield, hrest⟩ := List.append_inj h (by rw [length_twoDigits hu, length_twoDigits hv])
  exact ⟨zeroFilled_inj hu.1 hv.1 hfield, hrest⟩

end NaiveNet
