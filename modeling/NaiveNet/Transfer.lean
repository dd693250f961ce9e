import Mathlib.Tactic.Common

/-!
# Transfers that may fall short

A `read` or `write` that is asked for some bytes moves at most that many, and which
number it is nobody controls. A `Transfer` says what each call moves, by the number
of the call and by what it was asked for.

`progress` is the plain retry, where each call is asked for what is left of `len`
bytes: a loop that stops early is compared with it.
-/
namespace NaiveNet

structure Transfer where
  amount : ℕ → ℕ → ℕ
  amount_le : ∀ k len, amount k len ≤ len

namespace Transfer

/-- The bytes moved of `len` after `j` more calls, the call `k` on with `n` of them moved. -/
def progress (t : Transfer) (len : ℕ) : ℕ → ℕ → ℕ → ℕ
  | _, n, 0 => n
  | k, n, j + 1 => t.progress len (k + 1) (n + t.amount k (len - n)) j

variable (t : Transfer) {len k n : ℕ}

theorem add_amount_le (h : n ≤ len) : n + t.amount k (len - n) ≤ len := by
  have hamount := t.amount_le k (len - n)
  omega

theorem progress_le (j : ℕ) (h : n ≤ len) : t.progress len k n j ≤ len := by
  induction j generalizing k n with
  | zero => exact h
  | succ j ih => exact ih (t.add_amount_le h)

theorem le_progress (j : ℕ) : n ≤ t.progress len k n j := by
  induction j generalizing k n with
  | zero => exact Nat.le_refl n
  | succ j ih => exact Nat.le_trans (Nat.le_add_right ..) ih

/-- Nothing is moved once all is moved. -/
theorem progress_self (j : ℕ) : t.progress len k len j = len :=
  Nat.le_antisymm (t.progress_le j (Nat.le_refl len)) (t.le_progress j)

/-- What every number of calls has is had before the next call and after it. -/
theorem forall_progress_iff {P : ℕ → Prop} :
    (∀ j, P (t.progress len k n j)) ↔
      P n ∧ ∀ j, P (t.progress len (k + 1) (n + t.amount k (len - n)) j) := by
  constructor
  · exact fun h => ⟨h 0, fun j => h (j + 1)⟩
  · rintro ⟨hzero, hsucc⟩ j
    cases j with
    | zero => exact hzero
    | succ j => exact hsucc j

end Transfer

end NaiveNet
