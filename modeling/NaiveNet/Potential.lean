import NaiveNet.Runs
import Mathlib.Algebra.BigOperators.Group.List.Basic
import Mathlib.Data.Nat.Cast.Basic
import Mathlib.Algebra.Order.Group.Nat
import Mathlib.Algebra.Order.Monoid.Unbundled.Basic
import Mathlib.Algebra.Order.Monoid.Defs

/-!
# Work along runs

An action does some work and may bring in new work, its cost; a potential of the states
pays for the difference. Summed over a run, the work done is at most the potential at
the start and all that was brought in. A measure that one kind of actions lowers and no
other raises is such a potential: it bounds how many actions of the kind a run has,
whatever else happens in between, and a fair run comes to where none is left.
-/
namespace NaiveNet.Runs

variable {σ α M : Type*}

section Sum
variable [AddCommMonoid M] [PartialOrder M] [IsOrderedAddMonoid M]

/-- Every step keeps the invariant, and the potential pays for its work. -/
structure Paid (step : σ → α → Option σ) (I : σ → Prop) (work cost : α → M)
    (potential : σ → M) : Prop where
  keep : ∀ s a s', I s → step s a = some s' → I s'
  pay : ∀ s a s', I s → step s a = some s' → work a + potential s' ≤ potential s + cost a

/-- The work of a run is at most the potential it starts from and what it brings in. -/
theorem Paid.sum_le {step : σ → α → Option σ} {I : σ → Prop} {work cost : α → M}
    {potential : σ → M} (h : Paid step I work cost potential) {s s' : σ} {as : List α}
    (hs : I s) (hrun : run step s as = some s') :
    (as.map work).sum + potential s' ≤ potential s + (as.map cost).sum := by
  induction as generalizing s with
  | nil =>
    obtain rfl : s = s' := by simpa using hrun
    simp
  | cons a as ih =>
    obtain ⟨t, ht, hrun⟩ := Option.bind_eq_some_iff.mp hrun
    have hrest := ih (h.keep s a t hs ht) hrun
    have hfirst := h.pay s a t hs ht
    rw [List.map_cons, List.map_cons, List.sum_cons, List.sum_cons]
    calc work a + (as.map work).sum + potential s'
        = work a + ((as.map work).sum + potential s') := add_assoc _ _ _
      _ ≤ work a + (potential t + (as.map cost).sum) := add_le_add_right hrest _
      _ = work a + potential t + (as.map cost).sum := (add_assoc _ _ _).symm
      _ ≤ potential s + cost a + (as.map cost).sum := add_le_add_left hfirst _
      _ = potential s + (cost a + (as.map cost).sum) := add_assoc _ _ _

end Sum

section Kind

/-- One unit of work for each action of the kind. -/
def unit [Zero M] [One M] (kind : α → Bool) (a : α) : M := if kind a = true then 1 else 0

theorem sum_map_unit [AddCommMonoidWithOne M] (kind : α → Bool) (as : List α) :
    (as.map (unit kind)).sum = (as.countP kind : M) := by
  induction as with
  | nil => simp
  | cons a as ih =>
    rw [List.map_cons, List.sum_cons, ih, List.countP_cons, Nat.cast_add, add_comm, unit]
    split_ifs <;> simp

/-- Actions of the kind lower the measure, the others do not raise it. -/
structure Descends (step : σ → α → Option σ) (I : σ → Prop) (kind : α → Bool)
    (measure : σ → ℕ) : Prop where
  keep : ∀ s a s', I s → step s a = some s' → I s'
  lower : ∀ s a s', I s → step s a = some s' → kind a = true → measure s' < measure s
  hold : ∀ s a s', I s → step s a = some s' → kind a = false → measure s' ≤ measure s

variable {step : σ → α → Option σ} {I : σ → Prop} {kind : α → Bool} {measure : σ → ℕ}

theorem Descends.paid (h : Descends step I kind measure) :
    Paid step I (unit kind) (fun _ => 0) measure where
  keep := h.keep
  pay s a s' hs hstep := by
    unfold unit
    split_ifs with hk
    · have hlt := h.lower s a s' hs hstep hk
      omega
    · have hle := h.hold s a s' hs hstep (by simpa using hk)
      omega

/-- A run has no more actions of the kind than the measure at its start. -/
theorem Descends.countP_le (h : Descends step I kind measure) {s s' : σ} {as : List α}
    (hs : I s) (hrun : run step s as = some s') : as.countP kind + measure s' ≤ measure s := by
  have hsum := h.paid.sum_le hs hrun
  rw [sum_map_unit, Nat.cast_id, List.sum_map_zero, add_zero] at hsum
  exact hsum

/-- An infinite run. -/
structure Execution (step : σ → α → Option σ) where
  state : ℕ → σ
  action : ℕ → α
  next : ∀ i, step (state i) (action i) = some (state (i + 1))

/-- Again and again an action of the kind is taken, or none can be. -/
def Execution.Fair (e : Execution step) (kind : α → Bool) : Prop :=
  ∀ i, ∃ j ≥ i, kind (e.action j) = true ∨ ∀ a, kind a = true → step (e.state j) a = none

theorem Execution.invariant (e : Execution step)
    (hkeep : ∀ s a s', I s → step s a = some s' → I s') (h : I (e.state 0)) (i : ℕ) :
    I (e.state i) := by
  induction i with
  | zero => exact h
  | succ i ih => exact hkeep _ _ _ ih (e.next i)

theorem Descends.antitone (h : Descends step I kind measure) (e : Execution step)
    (hs : I (e.state 0)) : Antitone fun i => measure (e.state i) := by
  apply antitone_nat_of_succ_le
  intro i
  have hi := e.invariant h.keep hs i
  cases hk : kind (e.action i) with
  | false => exact h.hold _ _ _ hi (e.next i) hk
  | true => exact (h.lower _ _ _ hi (e.next i) hk).le

/-- A fair infinite run comes to a goal that only actions of the kind can be missing for. -/
theorem Descends.eventually (h : Descends step I kind measure) {goal : σ → Prop}
    (hgoal : ∀ s, I s → ¬ goal s → ∃ a s', kind a = true ∧ step s a = some s')
    (e : Execution step) (hs : I (e.state 0)) (hfair : e.Fair kind) : ∃ i, goal (e.state i) := by
  by_contra hnever
  rw [not_exists] at hnever
  -- an action of the kind is always possible, so one is taken after every moment
  have hdrop : ∀ i, ∃ j > i, measure (e.state j) < measure (e.state i) := by
    intro i
    obtain ⟨j, hij, hj⟩ := hfair i
    have hinv := e.invariant h.keep hs j
    have htaken : kind (e.action j) = true := by
      refine hj.resolve_right fun hnone => ?_
      obtain ⟨a, s', hk, hstep⟩ := hgoal _ hinv (hnever j)
      rw [hnone a hk] at hstep
      contradiction
    exact ⟨j + 1, by omega,
      (h.lower _ _ _ hinv (e.next j) htaken).trans_le (h.antitone e hs hij)⟩
  have hall : ∀ k i, measure (e.state i) ≠ k := by
    intro k
    induction k using Nat.strong_induction_on with
    | _ k ih =>
      intro i hi
      obtain ⟨j, _, hj⟩ := hdrop i
      exact ih _ (hi ▸ hj) j rfl
  exact hall _ 0 rfl

end Kind

end NaiveNet.Runs
