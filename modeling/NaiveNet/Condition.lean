import NaiveNet.Tally

/-!
# Condition variables over critical sections

The threads run their critical sections one at a time, so a condition is a view
on their states: who is blocked in `wait`, who was woken and has not re-entered
its critical section, and what waking does to a state. `notify` wakes one
blocked thread, chosen by the caller of the model, and is lost when nobody is
blocked; a spurious wake-up is `wake` without a `notify`.

`Covered k` is the invariant behind "no wake-up is lost": while somebody is
blocked, at least `k` threads are on their way back to look at the `k` items.
-/
namespace NaiveNet

open Tally

structure Condition (σ : Type*) where
  /-- Blocked inside `wait`, no wake-up pending. -/
  blocked : σ → Bool
  /-- Woken, but not yet back in the critical section. -/
  woken : σ → Bool
  wake : σ → σ
  blocked_wake : ∀ x, blocked (wake x) = false
  woken_wake : ∀ x, blocked x = true → woken (wake x) = true
  not_woken : ∀ x, blocked x = true → woken x = false

namespace Condition

variable {ι σ M : Type*} [Fintype ι] [DecidableEq ι] (c : Condition σ)

/-- `pthread_cond_signal`: the choice names the thread that is woken, and there
is none only when nobody is blocked. -/
def notify (pc : ι → σ) : Option ι → Option (ι → σ)
  | some i => if c.blocked (pc i) then some (Function.update pc i (c.wake (pc i))) else none
  | none => if ∀ i, c.blocked (pc i) = false then some pc else none

/-- `pthread_cond_broadcast`. -/
def notifyAll (pc : ι → σ) : ι → σ :=
  fun i => if c.blocked (pc i) then c.wake (pc i) else pc i

/-- While some thread is blocked, `k` woken threads are on their way back. -/
def Covered (k : ℕ) (pc : ι → σ) : Prop :=
  (∃ i, c.blocked (pc i) = true) → k ≤ count c.woken pc

variable {c} {pc pc' : ι → σ}

/-- All that `notify` can do. -/
theorem notify_cases {choice : Option ι} (h : c.notify pc choice = some pc') :
    ((∀ i, c.blocked (pc i) = false) ∧ pc' = pc) ∨
    ∃ i, c.blocked (pc i) = true ∧ pc' = Function.update pc i (c.wake (pc i)) := by
  cases choice with
  | none =>
    simp only [notify, Option.ite_none_right_eq_some, Option.some.injEq] at h
    exact Or.inl ⟨h.1, h.2.symm⟩
  | some i =>
    simp only [notify, Option.ite_none_right_eq_some, Option.some.injEq] at h
    exact Or.inr ⟨i, h.1, h.2.symm⟩

/-- A signal is never refused: some choice is possible. -/
theorem exists_notify (c : Condition σ) (pc : ι → σ) :
    ∃ choice pc', c.notify pc choice = some pc' := by
  by_cases h : ∃ i, c.blocked (pc i) = true
  · obtain ⟨i, hi⟩ := h
    exact ⟨some i, _, if_pos hi⟩
  · refine ⟨none, pc, if_pos fun i => ?_⟩
    simpa using not_exists.mp h i

/-- Each thread is left alone by `notify`, or it was blocked and is woken. -/
theorem notify_apply {choice : Option ι} (h : c.notify pc choice = some pc') (i : ι) :
    pc' i = pc i ∨ c.blocked (pc i) = true ∧ pc' i = c.wake (pc i) := by
  obtain ⟨_, rfl⟩ | ⟨j, hj, rfl⟩ := notify_cases h
  · exact Or.inl rfl
  · by_cases hij : i = j
    · subst i
      exact Or.inr ⟨hj, Function.update_self ..⟩
    · exact Or.inl (Function.update_of_ne hij ..)

/-- `notify` keeps a property of every thread that waking keeps. -/
theorem notify_forall {P : σ → Prop} (hP : ∀ x, P x → P (c.wake x)) {choice : Option ι}
    (h : c.notify pc choice = some pc') (hpc : ∀ i, P (pc i)) (i : ι) : P (pc' i) := by
  obtain he | ⟨_, he⟩ := notify_apply h i
  · rw [he]; exact hpc i
  · rw [he]; exact hP _ (hpc i)

/-- `notify` changes no sum to which a thread contributes the same asleep and awake. -/
theorem notify_tally [AddCommMonoid M] {f : σ → M} (hf : ∀ x, f (c.wake x) = f x)
    {choice : Option ι} (h : c.notify pc choice = some pc') : tally f pc' = tally f pc := by
  apply tally_congr
  intro i
  obtain he | ⟨_, he⟩ := notify_apply h i
  · rw [he]
  · rw [he, hf]

omit [Fintype ι] [DecidableEq ι] in
theorem notifyAll_apply (c : Condition σ) (pc : ι → σ) (i : ι) :
    c.notifyAll pc i = pc i ∨ c.blocked (pc i) = true ∧ c.notifyAll pc i = c.wake (pc i) := by
  unfold notifyAll
  split_ifs with h
  · exact Or.inr ⟨h, rfl⟩
  · exact Or.inl rfl

omit [Fintype ι] [DecidableEq ι] in
theorem notifyAll_forall {P : σ → Prop} (hP : ∀ x, P x → P (c.wake x))
    (hpc : ∀ i, P (pc i)) (i : ι) : P (c.notifyAll pc i) := by
  obtain he | ⟨_, he⟩ := notifyAll_apply c pc i
  · rw [he]; exact hpc i
  · rw [he]; exact hP _ (hpc i)

omit [DecidableEq ι] in
theorem notifyAll_tally [AddCommMonoid M] {f : σ → M} (hf : ∀ x, f (c.wake x) = f x)
    (pc : ι → σ) : tally f (c.notifyAll pc) = tally f pc := by
  apply tally_congr
  intro i
  obtain he | ⟨_, he⟩ := notifyAll_apply c pc i
  · rw [he]
  · rw [he, hf]

omit [Fintype ι] [DecidableEq ι] in
/-- A broadcast leaves nobody blocked. -/
theorem blocked_notifyAll (c : Condition σ) (pc : ι → σ) (i : ι) :
    c.blocked (c.notifyAll pc i) = false := by
  unfold notifyAll
  split_ifs with h
  · exact c.blocked_wake _
  · simpa using h

section Covered

omit [DecidableEq ι] in
theorem covered_zero (c : Condition σ) (pc : ι → σ) : c.Covered 0 pc := fun _ => Nat.zero_le _

omit [DecidableEq ι] in
theorem covered_of_not_blocked {k : ℕ} (h : ∀ i, c.blocked (pc i) = false) : c.Covered k pc := by
  rintro ⟨i, hi⟩
  rw [h i] at hi
  contradiction

/-- A thread moves without touching the condition. -/
theorem Covered.update {k : ℕ} (h : c.Covered k pc) {i : ι} {x : σ}
    (hb : c.blocked x = c.blocked (pc i)) (hw : c.woken x = c.woken (pc i)) :
    c.Covered k (Function.update pc i x) := by
  rintro ⟨j, hj⟩
  rw [count_update_of_eq hw]
  apply h
  by_cases hji : j = i
  · subst hji
    exact ⟨j, by rw [← hb]; simpa using hj⟩
  · exact ⟨j, by rwa [Function.update_of_ne hji] at hj⟩

/-- One more item and one more signal. -/
theorem Covered.notify {k : ℕ} (h : c.Covered k pc) {choice : Option ι}
    (hn : c.notify pc choice = some pc') : c.Covered (k + 1) pc' := by
  obtain ⟨hnone, rfl⟩ | ⟨i, hi, rfl⟩ := notify_cases hn
  · exact covered_of_not_blocked hnone
  · intro _
    have hk := h ⟨i, hi⟩
    have hu := count_update c.woken pc i (c.wake (pc i))
    rw [c.woken_wake _ hi, c.not_woken _ hi] at hu
    simp only [Bool.toNat_true, Bool.toNat_false] at hu
    omega

/-- A thread, woken or newly arrived, consumes one of the items and moves on. -/
theorem Covered.consume {k : ℕ} (h : c.Covered (k + 1) pc) {i : ι} {x : σ}
    (hi : c.blocked (pc i) = false) (hx : c.blocked x = false) :
    c.Covered k (Function.update pc i x) := by
  rintro ⟨j, hj⟩
  have hk : k + 1 ≤ count c.woken pc := by
    apply h
    by_cases hji : j = i
    · subst hji; simp [hx] at hj
    · exact ⟨j, by rwa [Function.update_of_ne hji] at hj⟩
  have hu := count_update c.woken pc i x
  have hle := Bool.toNat_le (c.woken (pc i))
  omega

/-- A spurious wake-up only adds to the threads on their way back. -/
theorem Covered.spurious {k : ℕ} (h : c.Covered k pc) {i : ι} (hi : c.blocked (pc i) = true) :
    c.Covered k (Function.update pc i (c.wake (pc i))) := by
  intro _
  have hk := h ⟨i, hi⟩
  have hu := count_update c.woken pc i (c.wake (pc i))
  rw [c.woken_wake _ hi, c.not_woken _ hi] at hu
  simp only [Bool.toNat_true, Bool.toNat_false] at hu
  omega

omit [DecidableEq ι] in
theorem Covered.mono {k l : ℕ} (h : c.Covered k pc) (hl : l ≤ k) : c.Covered l pc :=
  fun hb => hl.trans (h hb)

end Covered

end Condition

end NaiveNet
