import Mathlib.Algebra.BigOperators.Group.Finset.Basic
import Mathlib.Algebra.BigOperators.Group.Finset.Piecewise
import Mathlib.Algebra.Order.BigOperators.Group.Finset
import Mathlib.Data.Fintype.BigOperators

/-!
# Sums over the states of finitely many threads

`tally f pc` adds up a quantity that every thread contributes by its own state.
A step of one thread is a `Function.update`, and `tally_update` is the only
fact about it that an invariant needs. Counting threads is the case of an
indicator; a tally of multisets says what all the threads together hold.
-/
namespace NaiveNet.Tally
open scoped BigOperators

variable {ι σ M : Type*} [Fintype ι]

section Sum
variable [AddCommMonoid M]

def tally (f : σ → M) (pc : ι → σ) : M := ∑ i, f (pc i)

/-- One thread moves: its old contribution is exchanged for the new one. -/
theorem tally_update [DecidableEq ι] (f : σ → M) (pc : ι → σ) (i : ι) (x : σ) :
    tally f (Function.update pc i x) + f (pc i) = tally f pc + f x := by
  have hnew : tally f (Function.update pc i x) =
      f x + ∑ j ∈ Finset.univ \ {i}, f (pc j) := by
    have hcomp : ∀ j, f (Function.update pc i x j) = Function.update (f ∘ pc) i (f x) j :=
      fun j => Function.apply_update (fun _ => f) pc i x j
    simp only [tally, hcomp]
    exact Finset.sum_update_of_mem (Finset.mem_univ i) (f ∘ pc) (f x)
  have hold : tally f pc = f (pc i) + ∑ j ∈ Finset.univ \ {i}, f (pc j) :=
    Finset.sum_eq_add_sum_sdiff_singleton_of_mem (Finset.mem_univ i) _
  rw [hnew, hold, add_comm (f x), add_right_comm, add_comm (f (pc i))]

theorem tally_congr {f : σ → M} {pc pc' : ι → σ} (h : ∀ i, f (pc' i) = f (pc i)) :
    tally f pc' = tally f pc := Finset.sum_congr rfl fun i _ => h i

theorem tally_update_of_eq [DecidableEq ι] {f : σ → M} {pc : ι → σ} {i : ι} {x : σ}
    (h : f x = f (pc i)) : tally f (Function.update pc i x) = tally f pc := by
  apply tally_congr
  intro j
  by_cases hj : j = i
  · subst hj; simpa using h
  · rw [Function.update_of_ne hj]

end Sum

/-- A bound on every thread's contribution is one on the sum. -/
theorem tally_le {f : σ → ℕ} {b : ℕ} (h : ∀ x, f x ≤ b) (pc : ι → σ) :
    tally f pc ≤ Fintype.card ι * b := by
  calc tally f pc ≤ ∑ _i : ι, b := Finset.sum_le_sum fun i _ => h (pc i)
    _ = Fintype.card ι * b := Finset.sum_const_nat fun _ _ => rfl

section Count

/-- The number of threads whose state satisfies `p`. -/
def count (p : σ → Bool) (pc : ι → σ) : ℕ := (Finset.univ.filter fun i => p (pc i) = true).card

theorem count_eq_tally (p : σ → Bool) (pc : ι → σ) :
    count p pc = tally (fun x => (p x).toNat) pc := by
  rw [count, tally, Finset.card_filter]
  apply Finset.sum_congr rfl
  intro i _
  cases p (pc i) <;> rfl

theorem count_update [DecidableEq ι] (p : σ → Bool) (pc : ι → σ) (i : ι) (x : σ) :
    count p (Function.update pc i x) + (p (pc i)).toNat = count p pc + (p x).toNat := by
  simp only [count_eq_tally]
  exact tally_update _ pc i x

theorem count_update_of_eq [DecidableEq ι] {p : σ → Bool} {pc : ι → σ} {i : ι} {x : σ}
    (h : p x = p (pc i)) : count p (Function.update pc i x) = count p pc := by
  have hu := count_update p pc i x
  rw [h] at hu
  omega

end Count

end NaiveNet.Tally
