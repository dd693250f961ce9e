import NaiveNet.Numerals
import Mathlib.Data.Char
import Mathlib.Data.List.Lex
import Mathlib.Tactic.IntervalCases

/-!
# Numbers in the order of their texts

Fields of a fixed width, filled with zeros, compare as texts as their numbers do.
A text made of several fields then compares field by field (`zeroFilled_append_lt`).
-/
namespace NaiveNet

/-- The last `w` decimal digits of `n`. -/
def lastDigits : ℕ → ℕ → List Char
  | 0, _ => []
  | w + 1, n => lastDigits w (n / 10) ++ [(n % 10).digitChar]

theorem leftpad_append_singleton (w : ℕ) (xs : List Char) (c : Char) :
    (xs ++ [c]).leftpad (w + 1) '0' = xs.leftpad w '0' ++ [c] := by
  simp [List.leftpad]

theorem leftpad_toDigits (w : ℕ) {n : ℕ} (h : n < 10 ^ (w + 1)) :
    (Nat.toDigits 10 n).leftpad (w + 1) '0' = lastDigits (w + 1) n := by
  induction w generalizing n with
  | zero =>
    rw [Nat.toDigits_of_lt_base (by omega), lastDigits, Nat.mod_eq_of_lt (by omega)]
    rfl
  | succ w ih =>
    have hdiv : n / 10 < 10 ^ (w + 1) := by
      rw [Nat.pow_succ] at h
      omega
    rw [lastDigits, ← ih hdiv]
    by_cases hn : n < 10
    · have hzero : (Nat.toDigits 10 0).leftpad (w + 1) '0' = List.replicate (w + 1) '0' := by
        rw [Nat.toDigits_zero, List.leftpad, List.length_singleton, Nat.add_sub_cancel,
          List.replicate_succ']
      rw [Nat.toDigits_of_lt_base hn, Nat.div_eq_of_lt hn, Nat.mod_eq_of_lt hn, hzero]
      simp [List.leftpad]
    · rw [Nat.toDigits_of_base_le (by omega) (Nat.le_of_not_lt hn), leftpad_append_singleton]

theorem natAbs_lt_pow_iff {w : ℕ} {v : ℤ} (h0 : 0 ≤ v) : v.natAbs < 10 ^ w ↔ v < 10 ^ w := by
  obtain ⟨n, rfl⟩ := Int.eq_ofNat_of_zero_le h0
  rw [Int.natAbs_natCast]
  exact_mod_cast Iff.rfl

theorem zeroFilled_eq {w : ℕ} {v : ℤ} (h0 : 0 ≤ v) (h : v < 10 ^ (w + 1)) :
    zeroFilled (w + 1) v = lastDigits (w + 1) v.natAbs := by
  rw [zeroFilled, if_neg (not_lt.mpr h0), leftpad_toDigits w ((natAbs_lt_pow_iff h0).mpr h)]

theorem digitChar_lt {c d : ℕ} (hcd : c < d) (hd : d < 10) : c.digitChar < d.digitChar := by
  interval_cases d <;> interval_cases c <;> decide

/-- The first digit that differs decides. -/
theorem lastDigits_append_lt {w m n : ℕ} (hmn : m < n) (hn : n < 10 ^ w) (xs ys : List Char) :
    lastDigits w m ++ xs < lastDigits w n ++ ys := by
  induction w generalizing m n xs ys with
  | zero => omega
  | succ w ih =>
    have hdiv : n / 10 < 10 ^ w := by
      rw [Nat.pow_succ] at hn
      omega
    rw [lastDigits, lastDigits, List.append_assoc, List.append_assoc]
    by_cases hlt : m / 10 < n / 10
    · exact ih hlt hdiv _ _
    · have heq : m / 10 = n / 10 := by omega
      have hdigit : m % 10 < n % 10 := by omega
      rw [heq]
      apply List.append_left_lt
      exact List.cons_lt_cons_iff.mpr (Or.inl (digitChar_lt hdigit (Nat.mod_lt n (by omega))))

theorem zeroFilled_append_lt {w : ℕ} {u v : ℤ} {xs ys : List Char} (hu : 0 ≤ u)
    (hv : v < 10 ^ (w + 1)) (h : u < v ∨ u = v ∧ xs < ys) :
    zeroFilled (w + 1) u ++ xs < zeroFilled (w + 1) v ++ ys := by
  obtain hlt | ⟨rfl, hlt⟩ := h
  · rw [zeroFilled_eq hu (hlt.trans hv), zeroFilled_eq (hu.trans hlt.le) hv]
    exact lastDigits_append_lt (by omega) ((natAbs_lt_pow_iff (hu.trans hlt.le)).mpr hv) xs ys
  · exact List.append_left_lt hlt

/-- A number that fills its field leaves no room for blanks or zeros. -/
theorem blankFilled_eq_zeroFilled {w : ℕ} {v : ℤ} (h : 10 ^ (w + 1) ≤ v) :
    blankFilled (w + 2) v = zeroFilled (w + 2) v := by
  have hpos : (0 : ℤ) < 10 ^ (w + 1) := by positivity
  have hlen : w + 2 ≤ (Nat.toDigits 10 v.natAbs).length := by
    by_contra hshort
    have hlt := (Nat.length_toDigits_le_iff (b := 10) (by omega) (Nat.succ_pos w)).mp
      (show (Nat.toDigits 10 v.natAbs).length ≤ w + 1 by omega)
    exact absurd ((natAbs_lt_pow_iff (hpos.le.trans h)).mp hlt) (not_lt.mpr h)
  rw [blankFilled, zeroFilled, decimal, if_neg (by omega), if_neg (by omega), List.nil_append,
    List.leftpad, List.leftpad, Nat.sub_eq_zero_of_le hlen]
  rfl

/-! ### Fields filled with blanks -/

/-- `n` in a field of `w` characters filled with blanks. -/
def blankDigits (w n : ℕ) : List Char := (Nat.toDigits 10 n).leftpad w ' '

theorem blankDigits_of_lt {n : ℕ} (w : ℕ) (h : n < 10) :
    blankDigits (w + 1) n = List.replicate w ' ' ++ [n.digitChar] := by
  rw [blankDigits, Nat.toDigits_of_lt_base h, List.leftpad]
  rfl

theorem blankDigits_of_le {n : ℕ} (w : ℕ) (h : 10 ≤ n) :
    blankDigits (w + 1) n = blankDigits w (n / 10) ++ [(n % 10).digitChar] := by
  rw [blankDigits, Nat.toDigits_of_base_le (by omega) h]
  simp [blankDigits, List.leftpad]

theorem blank_lt_digitChar {d : ℕ} (h : d < 10) : ' ' < d.digitChar := by
  interval_cases d <;> decide

/-- A number stands where blanks might. -/
theorem replicate_append_lt {w n : ℕ} (hw : 0 < w) (h : n < 10 ^ w) (xs ys : List Char) :
    List.replicate w ' ' ++ xs < blankDigits w n ++ ys := by
  induction w generalizing n xs ys with
  | zero => omega
  | succ w ih =>
    by_cases hn : n < 10
    · rw [blankDigits_of_lt w hn, List.replicate_succ', List.append_assoc, List.append_assoc]
      apply List.append_left_lt
      exact List.cons_lt_cons_iff.mpr (Or.inl (blank_lt_digitChar hn))
    · rw [Nat.pow_succ] at h
      have hw : 0 < w := by
        by_contra hzero
        obtain rfl : w = 0 := by omega
        omega
      rw [blankDigits_of_le w (Nat.le_of_not_lt hn), List.replicate_succ', List.append_assoc,
        List.append_assoc]
      exact ih hw (by omega) _ _

theorem blankDigits_append_lt {w m n : ℕ} (hmn : m < n) (hn : n < 10 ^ w) (xs ys : List Char) :
    blankDigits w m ++ xs < blankDigits w n ++ ys := by
  induction w generalizing m n xs ys with
  | zero => omega
  | succ w ih =>
    rw [Nat.pow_succ] at hn
    by_cases hten : n < 10
    · rw [blankDigits_of_lt w hten, blankDigits_of_lt w (hmn.trans hten), List.append_assoc,
        List.append_assoc]
      apply List.append_left_lt
      exact List.cons_lt_cons_iff.mpr (Or.inl (digitChar_lt hmn hten))
    · rw [blankDigits_of_le w (Nat.le_of_not_lt hten), List.append_assoc]
      by_cases hone : m < 10
      · have hw : 0 < w := by
          by_contra hzero
          obtain rfl : w = 0 := by omega
          omega
        rw [blankDigits_of_lt w hone, List.append_assoc]
        exact replicate_append_lt hw (by omega) _ _
      · rw [blankDigits_of_le w (Nat.le_of_not_lt hone), List.append_assoc]
        by_cases hlt : m / 10 < n / 10
        · exact ih hlt (by omega) _ _
        · have heq : m / 10 = n / 10 := by omega
          have hdigit : m % 10 < n % 10 := by omega
          rw [heq]
          apply List.append_left_lt
          exact List.cons_lt_cons_iff.mpr (Or.inl (digitChar_lt hdigit (Nat.mod_lt n (by omega))))

theorem blankFilled_append_lt {w : ℕ} {u v : ℤ} {xs ys : List Char} (hu : 0 ≤ u)
    (hv : v < 10 ^ w) (h : u < v ∨ u = v ∧ xs < ys) :
    blankFilled w u ++ xs < blankFilled w v ++ ys := by
  have hfield {x : ℤ} (hx : 0 ≤ x) : blankFilled w x = blankDigits w x.natAbs := by
    rw [blankFilled, decimal, if_neg (not_lt.mpr hx), List.nil_append, blankDigits]
  obtain hlt | ⟨rfl, hlt⟩ := h
  · rw [hfield hu, hfield (hu.trans hlt.le)]
    exact blankDigits_append_lt (by omega) ((natAbs_lt_pow_iff (hu.trans hlt.le)).mpr hv) xs ys
  · exact List.append_left_lt hlt

end NaiveNet
