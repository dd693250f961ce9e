import Mathlib.Data.Nat.Init

/-!
# A shared object and its references

What a `shared_ptr` points to, with the number of references that keep it. A `weak_ptr`
keeps nothing: locking it yields a reference while there is one, and nothing afterwards.
Dropping a reference that is not there or writing where nothing is kept has no result.
-/
namespace NaiveNet

structure SharedCell (α : Type*) where
  value : α
  strong : ℕ

namespace SharedCell

variable {α : Type*} {c c' : SharedCell α}

/-- `shared_ptr<T>(new T(value))` -/
def new (value : α) : SharedCell α := ⟨value, 1⟩

def freed (c : SharedCell α) : Bool := c.strong = 0

/-- `weak_ptr::lock`; no reference is a null pointer. -/
def lock (c : SharedCell α) : Option (SharedCell α) :=
  if c.freed then none else some { c with strong := c.strong + 1 }

/-- A reference is dropped; with the last one the object goes. -/
def release (c : SharedCell α) : Option (SharedCell α) :=
  if c.freed then none else some { c with strong := c.strong - 1 }

def store (c : SharedCell α) (value : α) : Option (SharedCell α) :=
  if c.freed then none else some { c with value := value }

theorem lock_of_pos (h : 0 < c.strong) : c.lock = some ⟨c.value, c.strong + 1⟩ := by
  rw [lock, freed, if_neg (by rw [decide_eq_true_eq]; omega)]

theorem lock_of_eq_zero (h : c.strong = 0) : c.lock = none := by
  rw [lock, freed, if_pos (decide_eq_true h)]

theorem release_of_pos (h : 0 < c.strong) : c.release = some ⟨c.value, c.strong - 1⟩ := by
  rw [release, freed, if_neg (by rw [decide_eq_true_eq]; omega)]

theorem store_of_pos (h : 0 < c.strong) (value : α) :
    c.store value = some ⟨value, c.strong⟩ := by
  rw [store, freed, if_neg (by rw [decide_eq_true_eq]; omega)]

end SharedCell

end NaiveNet
