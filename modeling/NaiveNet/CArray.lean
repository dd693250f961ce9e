import Mathlib.Data.List.Basic
import Mathlib.Logic.Basic

/-!
# Arrays of a fixed size

The memory of a C array of `size` cells, addressed by position. A store outside
the array is undefined behaviour, `none` here, so a computation that yields an
array has stayed inside it. `write` is the effect of a run of stores; the
primitives below are proved equal to it where the cells are there.
-/
namespace NaiveNet

/-- Positions from `size` on are not the array's, and no store reaches them. -/
@[ext] structure CArray (α : Type) (size : ℕ) where
  get : ℕ → α

namespace CArray

variable {α : Type} {size : ℕ} {m : CArray α size}

/-- `a[i] = x` -/
def store (m : CArray α size) (i : ℕ) (x : α) : Option (CArray α size) :=
  if i < size then some ⟨Function.update m.get i x⟩ else none

/-- `memcpy(a + i, xs, n)` -/
def copy (m : CArray α size) (i : ℕ) : List α → Option (CArray α size)
  | [] => some m
  | x :: xs => (m.store i x).bind fun m => m.copy (i + 1) xs

/-- `std::reverse(a + first, a + last)` -/
def reverse (m : CArray α size) (first last : ℕ) : Option (CArray α size) :=
  if last ≤ size then
    some ⟨fun j => if first ≤ j ∧ j < last then m.get (first + (last - 1 - j)) else m.get j⟩
  else none

/-- The `n` cells from position `i` on. -/
def slice (m : CArray α size) (i n : ℕ) : List α := (List.range n).map fun k => m.get (i + k)

/-- The array with `xs` from position `i` on. -/
def write (m : CArray α size) (i : ℕ) (xs : List α) : CArray α size :=
  ⟨fun j => if j < i then m.get j else xs[j - i]?.getD (m.get j)⟩

theorem write_get (m : CArray α size) (i : ℕ) (xs : List α) (j : ℕ) :
    (m.write i xs).get j = if j < i then m.get j else xs[j - i]?.getD (m.get j) := rfl

theorem write_get_of_lt {i j : ℕ} (xs : List α) (h : j < i) : (m.write i xs).get j = m.get j :=
  if_pos h

theorem write_get_of_le {i j : ℕ} {xs : List α} (h : i + xs.length ≤ j) :
    (m.write i xs).get j = m.get j := by
  rw [write_get, if_neg (by omega), List.getElem?_eq_none (by omega), Option.getD_none]

theorem write_get_add {i k : ℕ} {xs : List α} (h : k < xs.length) :
    (m.write i xs).get (i + k) = xs[k] := by
  rw [write_get, if_neg (by omega), Nat.add_sub_cancel_left, List.getElem?_eq_getElem h,
    Option.getD_some]

@[simp] theorem write_nil (m : CArray α size) (i : ℕ) : m.write i [] = m := by
  ext j
  rw [write_get]
  split_ifs <;> rfl

/-- Consecutive writes are one write. -/
theorem write_write (m : CArray α size) (i : ℕ) (xs ys : List α) :
    (m.write i xs).write (i + xs.length) ys = m.write i (xs ++ ys) := by
  ext j
  by_cases hxs : j < i + xs.length
  · rw [write_get_of_lt ys hxs]
    by_cases hi : j < i
    · rw [write_get_of_lt xs hi, write_get_of_lt _ hi]
    · obtain ⟨k, rfl⟩ := Nat.exists_eq_add_of_le (Nat.le_of_not_lt hi)
      have hk : k < xs.length := by omega
      rw [write_get_add hk, write_get_add (by rw [List.length_append]; omega),
        List.getElem_append_left hk]
  · have hsub : j - i - xs.length = j - (i + xs.length) := by omega
    have hin : (m.write i xs).get j = m.get j := write_get_of_le (by omega)
    rw [write_get, if_neg hxs, hin, write_get, if_neg (by omega),
      List.getElem?_append_right (by omega), hsub]

theorem store_eq {i : ℕ} (h : i < size) (x : α) : m.store i x = some (m.write i [x]) := by
  rw [store, if_pos h]
  congr 1
  ext j
  show Function.update m.get i x j = (m.write i [x]).get j
  by_cases hj : j = i
  · subst j
    have hself : (m.write i [x]).get (i + 0) = [x][0] := write_get_add Nat.one_pos
    rw [Function.update_self]
    exact hself.symm
  · rw [Function.update_of_ne hj]
    by_cases hlt : j < i
    · exact (write_get_of_lt [x] hlt).symm
    · exact (write_get_of_le (by rw [List.length_singleton]; omega)).symm

theorem copy_eq {i : ℕ} {xs : List α} (h : i + xs.length ≤ size) :
    m.copy i xs = some (m.write i xs) := by
  induction xs generalizing m i with
  | nil => rw [copy, write_nil]
  | cons x xs ih =>
    rw [List.length_cons] at h
    rw [copy, store_eq (by omega), Option.bind_some, ih (by omega)]
    exact congrArg some (write_write m i [x] xs)

theorem reverse_write {i : ℕ} {xs ys : List α} (h : i + xs.length ≤ size) :
    (m.write i (xs ++ ys)).reverse i (i + xs.length) = some (m.write i (xs.reverse ++ ys)) := by
  rw [reverse, if_pos h]
  congr 1
  ext j
  have hlen : (xs.reverse ++ ys).length = (xs ++ ys).length := by simp
  by_cases hj : i ≤ j ∧ j < i + xs.length
  · obtain ⟨k, rfl⟩ := Nat.exists_eq_add_of_le hj.1
    have hk : k < xs.length := by omega
    have hsub : i + xs.length - 1 - (i + k) = xs.length - 1 - k := by omega
    simp only [if_pos hj]
    rw [hsub, write_get_add (by rw [List.length_append]; omega),
      write_get_add (by rw [hlen, List.length_append]; omega),
      List.getElem_append_left (by omega), List.getElem_append_left (by simpa using hk),
      List.getElem_reverse]
  · simp only [if_neg hj]
    by_cases hi : j < i
    · rw [write_get_of_lt _ hi, write_get_of_lt _ hi]
    · rw [write_get, if_neg hi, write_get, if_neg hi, List.getElem?_append_right (by omega),
        List.getElem?_append_right (by rw [List.length_reverse]; omega), List.length_reverse]

@[simp] theorem length_slice (m : CArray α size) (i n : ℕ) : (m.slice i n).length = n := by
  simp [slice]

theorem slice_add (m : CArray α size) (i n k : ℕ) :
    m.slice i (n + k) = m.slice i n ++ m.slice (i + n) k := by
  simp only [slice, List.range_add, List.map_append, List.map_map]
  congr 1
  apply List.map_congr_left
  intro j _
  simp [Nat.add_assoc]

theorem slice_congr {m' : CArray α size} {i n : ℕ}
    (h : ∀ j, i ≤ j → j < i + n → m'.get j = m.get j) : m'.slice i n = m.slice i n := by
  apply List.map_congr_left
  intro k hk
  rw [List.mem_range] at hk
  exact h (i + k) (by omega) (by omega)

theorem slice_write (m : CArray α size) (i : ℕ) (xs ys : List α) :
    (m.write i (xs ++ ys)).slice i xs.length = xs := by
  apply List.ext_getElem (length_slice _ _ _)
  intro k hk hk'
  simp only [slice, List.getElem_map, List.getElem_range]
  rw [write_get_add (by rw [List.length_append]; omega), List.getElem_append_left hk']

end CArray

end NaiveNet
