import NaiveNet.Potential
import NaiveNet.ThreadPoolStop
import Mathlib.Algebra.Order.Group.Int
import Mathlib.Data.Int.Cast.Basic
import Mathlib.Data.Int.ConditionallyCompleteOrder
import Mathlib.Order.ConditionallyCompleteLattice.Basic

/-!
# Progress of the pool

A worker never spins: between two signals it makes a bounded number of steps, and then it
is blocked. While the pool runs, the workers left to themselves therefore come to rest,
and where they rest everything that was pushed has been done. After `stop` the same count
says how long the join takes: the producers may go on, but the workers leave within four
steps each.
-/
namespace NaiveNet.ThreadPool

open Tally

variable {n m : ℕ} {s s' : Pool n m} {a : Action n m}

/-- A step of some worker. -/
def Action.ofWorker (a : Action n m) : Bool := a.worker?.isSome

/-- A step that `stop` waits for, or one of its own. -/
def Action.ofStopping : Action n m → Bool
  | .join => true
  | .returnStop => true
  | a => a.ofWorker

def Action.spurious : Action n m → Bool
  | .spuriousNotEmpty _ => true
  | _ => false

/-! ### Leaving -/

theorem distance_wake (x : Worker) : (notEmpty.wake x).distance = x.distance := by
  cases x <;> rfl

theorem distance_le (x : Worker) : x.distance ≤ 4 := by
  cases x <;> simp [Worker.distance]

/-- The steps of all workers before they have left. -/
def distances (workers : Fin n → Worker) : ℕ := tally Worker.distance workers

theorem distances_le (workers : Fin n → Worker) : distances workers ≤ 4 * n := by
  have hsum := tally_le distance_le workers
  rwa [Fintype.card_fin, mul_comm] at hsum

theorem distances_update (workers : Fin n → Worker) (w : Fin n) (x : Worker) :
    distances (Function.update workers w x) + (workers w).distance =
      distances workers + x.distance :=
  tally_update Worker.distance workers w x

theorem distances_notify {workers : Fin n → Worker} {wake : Option (Fin n)}
    (hn : notEmpty.notify s.workers wake = some workers) :
    distances workers = distances s.workers :=
  Condition.notify_tally distance_wake hn

/-- Once `running_` is cleared, a worker's step brings it nearer, and no other step takes a
worker back. -/
theorem distances_step (hr : s.running = false) (hs : step s a = some s') :
    distances s'.workers + a.ofWorker.toNat ≤ distances s.workers := by
  have hmove {w : Fin n} {x : Worker} (h : x.distance + 1 ≤ (s.workers w).distance) :
      distances (Function.update s.workers w x) + 1 ≤ distances s.workers := by
    have hu := distances_update s.workers w x
    omega
  have hrunning {p : Prop} (h : s.running = true) : p := by
    rw [hr] at h
    contradiction
  have hentering {w : Fin n} (h : s.workers w = .enter ∨ s.workers w = .waiting true) :
      (s.workers w).distance = 4 := by
    rcases h with h | h <;> rw [h] <;> rfl
  cases step_effect hs with
  | initialized h => exact hmove (by rw [h]; decide)
  | stay h hr => exact hrunning hr
  | leave h hr => exact hmove (by rw [h]; decide)
  | takeWait h hq hr => exact hrunning hr
  | takeNone h hq hr => exact hmove (by rw [hentering h]; decide)
  | takeJob h hq hp => exact hmove (x := .took _) (by rw [hentering h]; exact le_rfl)
  | @spuriousNotEmpty w h =>
    have hu := distances_update s.workers w (.waiting true)
    rw [h] at hu
    exact (Nat.add_right_cancel hu).le
  | testNone h => exact hmove (by rw [h]; exact Nat.le_of_ble_eq_true rfl)
  | invoke h hc => exact hmove (by rw [h]; exact le_rfl)
  | passOver h hc => exact hmove (x := .loop) (by rw [h]; exact Nat.le_of_ble_eq_true rfl)
  | finishTask h => exact hmove (x := .loop) (by rw [h]; exact le_rfl)
  | push h hf hw => exact (distances_notify hw).le
  | stop h => exact (Condition.notifyAll_tally distance_wake s.workers).le
  | _ => exact le_rfl

/-- The steps of `stop` before it returns, once it has cleared `running_`. -/
def Stopper.distance (n : ℕ) : Stopper → ℕ
  | .joining k => n + 1 - k
  | _ => 0

/-- What the return of `stop` waits for. -/
def remaining (s : Pool n m) : ℕ := distances s.workers + s.stopper.distance n

/-- `running_` is cleared, and so `stop` is joining or done. -/
structure Leaving (s : Pool n m) : Prop where
  cleared : s.running = false
  awake : Awake s
  stopInv : StopInv s

theorem Leaving.step (hi : Leaving s) (hs : step s a = some s') : Leaving s' :=
  ⟨running_step hi.cleared hs, hi.awake.step hs, hi.stopInv.step hs⟩

/-- `stop` has been called, and its critical section is behind. -/
theorem Leaving.stopper_cases (hi : Leaving s) :
    s.stopper = .returned ∨ ∃ k ≤ n, s.stopper = .joining k :=
  hi.stopInv.cleared_joining.mp hi.cleared

theorem Leaving.remaining_step (hi : Leaving s) (hs : ThreadPool.step s a = some s') :
    remaining s' + a.ofStopping.toNat ≤ remaining s := by
  have hd := distances_step hi.cleared hs
  cases step_effect hs with
  | callStop h =>
    rcases hi.stopper_cases with hst | ⟨k, hk, hst⟩ <;> rw [h] at hst <;> contradiction
  | stop h =>
    rcases hi.stopper_cases with hst | ⟨k, hk, hst⟩ <;> rw [h] at hst <;> contradiction
  | join h hk hl =>
    simp only [remaining, Stopper.distance, h, Action.ofStopping, Bool.toNat_true]
    omega
  | returnStop h =>
    simp only [remaining, Stopper.distance, h, Action.ofStopping, Bool.toNat_true]
    omega
  | _ => exact (Nat.add_right_comm _ _ _).trans_le (Nat.add_le_add_right hd _)

theorem descends_remaining :
    Runs.Descends (step (n := n) (m := m)) Leaving Action.ofStopping remaining where
  keep _ _ _ hi hs := hi.step hs
  lower s a s' hi hs hk := by
    have hle := hi.remaining_step hs
    rw [hk, Bool.toNat_true] at hle
    omega
  hold s a s' hi hs hk := by
    have hle := hi.remaining_step hs
    rw [hk, Bool.toNat_false] at hle
    omega

/-- `stop` waits only for steps that can be made. -/
theorem Leaving.exists_step (hi : Leaving s) (hret : s.stopper ≠ .returned) :
    ∃ (a : Action n m) (s' : Pool n m), a.ofStopping = true ∧ ThreadPool.step s a = some s' := by
  obtain ⟨k, hk, hst⟩ := hi.stopper_cases.resolve_left hret
  obtain hlt | rfl := hk.lt_or_eq
  · by_cases hw : s.workers ⟨k, hlt⟩ = .left
    · exact ⟨.join, { s with stopper := .joining (k + 1) }, rfl, by
        simp [ThreadPool.step, hst, hlt, hw]⟩
    · obtain ⟨a, s', ha, hs, _⟩ := exists_worker_step hi.cleared hi.awake hw
      refine ⟨a, s', ?_, hs⟩
      cases a <;> first | rfl | contradiction
  · exact ⟨.returnStop, { s with stopper := .returned }, rfl, by simp [ThreadPool.step, hst]⟩

theorem Reachable.leaving {maxQueueSize : ℕ} (h : Reachable maxQueueSize s)
    (hr : s.running = false) : Leaving s :=
  ⟨hr, h.wakeInv.awake, h.stopInv⟩

/-- Once `running_` is cleared, `stop` returns. Whatever the producers do, the workers and
`stop` make at most `5 * n + 1` steps in all, and while `stop` has not returned one of them
can make a step; so it returns in every infinite run that does not starve them for ever. -/
theorem stop_terminates {n m maxQueueSize : ℕ} {s : Pool n m} (h : Reachable maxQueueSize s)
    (hr : s.running = false) :
    (∀ as s', Runs.run step s as = some s' → as.countP Action.ofStopping ≤ 5 * n + 1 ∧
      (s'.stopper ≠ .returned → ∃ (a : Action n m) (s'' : Pool n m),
        a.ofStopping = true ∧ step s' a = some s'')) ∧
    ∀ e : Runs.Execution (step (n := n) (m := m)), e.state 0 = s → e.Fair Action.ofStopping →
      ∃ i, (e.state i).stopper = .returned := by
  have hi := h.leaving hr
  refine ⟨fun as s' hrun => ⟨?_, ?_⟩, fun e he hfair => ?_⟩
  · have hcount := descends_remaining.countP_le hi hrun
    have hworkers := distances_le s.workers
    have hstop : s.stopper.distance n ≤ n + 1 := by
      cases s.stopper <;> simp [Stopper.distance]
    simp only [remaining] at hcount
    omega
  · have hi' : Leaving s' := Runs.Reaches.invariant (fun _ _ _ => Leaving.step) ⟨as, hrun⟩ hi
    exact hi'.exists_step
  · exact descends_remaining.eventually (fun t ht => ht.exists_step) e (he ▸ hi) hfair

/-- `stop` is waiting for the one worker, which a task is queued for. -/
theorem stop_terminates_late :
    ∃ s : Pool 1 1, s.queue = [⟨0, .call 7⟩] ∧ s.stopper = .joining 0 ∧
      ∀ as s', Runs.run step s as = some s' → as.countP Action.ofStopping ≤ 6 ∧
        (s'.stopper ≠ .returned → ∃ (a : Action 1 1) (s'' : Pool 1 1),
          a.ofStopping = true ∧ step s' a = some s'') := by
  obtain ⟨s, hrun, hs⟩ := Runs.exists_of_any step (start 1 1 1)
    [.callRun 0 (.call 7), .push 0 none, .returnRun 0, .callStop, .stop]
    (fun s => s.running = false ∧ s.queue = [⟨0, .call 7⟩] ∧ s.stopper = .joining 0) (by decide)
  obtain ⟨hr, hqueue, hstop⟩ := of_decide_eq_true hs
  exact ⟨s, hqueue, hstop, (stop_terminates ⟨_, hrun⟩ hr).1⟩

/-! ### Coming to rest -/

/-- How much a worker has still to do before it is blocked, when nothing is queued. -/
def Worker.rank : Worker → ℕ
  | .left => 0
  | .waiting false => 0
  | .waiting true => 1
  | .enter => 1
  | .loop => 2
  | .starting => 3
  | .executing _ => 3
  | .took _ => 4

theorem rank_le (x : Worker) : x.rank ≤ 4 := by
  cases x with
  | waiting woken => cases woken <;> simp [Worker.rank]
  | _ => simp [Worker.rank]

theorem rank_wake_le (x : Worker) : (notEmpty.wake x).rank ≤ x.rank + 1 := by
  cases x with
  | waiting woken => cases woken <;> exact Nat.le_of_ble_eq_true rfl
  | _ => exact Nat.le_succ _

def ranks (workers : Fin n → Worker) : ℕ := tally Worker.rank workers

theorem ranks_le (workers : Fin n → Worker) : ranks workers ≤ 4 * n := by
  have hsum := tally_le rank_le workers
  rwa [Fintype.card_fin, mul_comm] at hsum

theorem ranks_update (workers : Fin n → Worker) (w : Fin n) (x : Worker) :
    ranks (Function.update workers w x) + (workers w).rank = ranks workers + x.rank :=
  tally_update Worker.rank workers w x

/-- A signal gives one worker one more step to make. -/
theorem ranks_notify {workers : Fin n → Worker} {wake : Option (Fin n)}
    (hn : notEmpty.notify s.workers wake = some workers) :
    ranks workers ≤ ranks s.workers + 1 := by
  obtain ⟨_, rfl⟩ | ⟨w, _, rfl⟩ := Condition.notify_cases hn
  · exact Nat.le_succ _
  · have hu := ranks_update s.workers w (notEmpty.wake (s.workers w))
    have hw := rank_wake_le (s.workers w)
    omega

/-- What the workers have to do. A queued task is worth the four steps it can cause, and
while the pool runs, `stop` may still send every worker on its way out. -/
def load (s : Pool n m) : ℕ :=
  if s.running then ranks s.workers + 4 * s.queue.length + 4 * n else distances s.workers

/-- Only a push and a spurious wake-up give the workers more to do. -/
theorem load_step (hs : step s a = some s') :
    a.ofWorker.toNat + load s' + 5 * s.pushed.length ≤
      load s + 5 * s'.pushed.length + a.spurious.toNat := by
  cases hr : s.running with
  | false =>
    have hd := distances_step hr hs
    have hpushed : s.pushed.length ≤ s'.pushed.length := by
      cases step_effect hs with
      | push h hf hw => simp
      | _ => exact le_rfl
    simp only [load, hr, running_step hr hs, Bool.false_eq_true, if_false]
    omega
  | true =>
    have hload : load s = ranks s.workers + 4 * s.queue.length + 4 * n := by simp [load, hr]
    have hmove {w : Fin n} {x : Worker} (h : x.rank + 1 ≤ (s.workers w).rank) :
        1 + load (s.setWorker w x) + 5 * s.pushed.length ≤
          load s + 5 * s.pushed.length + 0 := by
      have hu := ranks_update s.workers w x
      simp only [load, Pool.setWorker, hr, if_true]
      omega
    have hentering {w : Fin n} (h : s.workers w = .enter ∨ s.workers w = .waiting true) :
        (s.workers w).rank = 1 := by
      rcases h with h | h <;> rw [h] <;> rfl
    cases step_effect hs with
    | initialized h => exact hmove (by rw [h]; exact le_rfl)
    | stay h hr => exact hmove (by rw [h]; exact le_rfl)
    | leave h hr' =>
      rw [hr] at hr'
      contradiction
    | takeWait h hq hr => exact hmove (by rw [hentering h]; exact le_rfl)
    | takeNone h hq hr' =>
      rw [hr] at hr'
      contradiction
    | @takeJob w wake job rest producers h hq hp =>
      -- the task in hand is worth three steps more than the entry, and one queued task less
      have hu := ranks_update s.workers w (.took (some job))
      rw [hentering h] at hu
      simp only [load, Pool.setWorker, hr, hq, if_true, List.length_cons, Worker.rank] at hu ⊢
      simp only [Action.ofWorker, Action.worker?, Action.spurious, Option.isSome_some,
        Bool.toNat_true, Bool.toNat_false]
      omega
    | @spuriousNotEmpty w h =>
      have hu := ranks_update s.workers w (.waiting true)
      rw [h] at hu
      simp only [load, Pool.setWorker, hr, if_true, Worker.rank] at hu ⊢
      simp only [Action.ofWorker, Action.worker?, Action.spurious, Option.isSome_none,
        Bool.toNat_true, Bool.toNat_false]
      omega
    | testNone h => exact hmove (by rw [h]; exact Nat.le_of_ble_eq_true rfl)
    | invoke h hc => exact hmove (by rw [h]; exact le_rfl)
    | passOver h hc => exact hmove (x := .loop) (by rw [h]; exact Nat.le_of_ble_eq_true rfl)
    | finishTask h => exact hmove (x := .loop) (by rw [h]; exact le_rfl)
    | push h hf hw =>
      have hn := ranks_notify hw
      simp only [load, Pool.setProducer, hr, if_true, List.length_append, List.length_singleton]
      simp only [Action.ofWorker, Action.worker?, Action.spurious, Option.isSome_none,
        Bool.toNat_false]
      omega
    | stop h =>
      have hd : distances (notEmpty.notifyAll s.workers) = distances s.workers :=
        Condition.notifyAll_tally distance_wake s.workers
      have hle := distances_le s.workers
      simp only [load, ThreadPool.stop, hr, if_true, Bool.false_eq_true, if_false, hd]
      simp only [Action.ofWorker, Action.worker?, Action.spurious, Option.isSome_none,
        Bool.toNat_false]
      omega
    | _ =>
      simp only [load, Pool.setProducer, hr, if_true]
      simp only [Action.ofWorker, Action.worker?, Action.spurious, Option.isSome_none,
        Bool.toNat_false]
      omega

/-- The load, less what the pushes have brought in. -/
def balance (s : Pool n m) : ℤ := load s - 5 * s.pushed.length

theorem paid_balance : Runs.Paid (step (n := n) (m := m)) (fun _ => True)
    (Runs.unit Action.ofWorker) (Runs.unit Action.spurious) balance where
  keep _ _ _ _ _ := trivial
  pay s a s' _ hs := by
    have hstep := load_step hs
    unfold Runs.unit balance
    cases hw : a.ofWorker <;> cases hsp : a.spurious <;> rw [hw, hsp] at hstep <;>
      simp only [Bool.toNat_true, Bool.toNat_false, Bool.false_eq_true, if_true, if_false] at * <;>
      omega

/-- The steps of the workers in a run from any state. -/
theorem countP_ofWorker_le {as : List (Action n m)} (hrun : Runs.run step s as = some s') :
    as.countP Action.ofWorker + load s' + 5 * s.pushed.length ≤
      load s + 5 * s'.pushed.length + as.countP Action.spurious := by
  have hsum := paid_balance.sum_le trivial hrun
  rw [Runs.sum_map_unit, Runs.sum_map_unit] at hsum
  unfold balance at hsum
  omega

/-- The pool never spins. In every run, stopped or not, the workers make at most seven steps
each at the start and the end, five for each task pushed, and one for each spurious wake-up. -/
theorem worker_steps_le {n m maxQueueSize : ℕ} {as : List (Action n m)} {s : Pool n m}
    (hrun : Runs.run step (start n m maxQueueSize) as = some s) :
    as.countP Action.ofWorker ≤ 7 * n + 5 * s.pushed.length + as.countP Action.spurious := by
  have hcount := countP_ofWorker_le hrun
  have hstart : load (start n m maxQueueSize) = 7 * n := by
    simp [load, start, ranks, tally, Worker.rank]
    omega
  rw [hstart] at hcount
  omega

/-- One worker executes one task and is blocked again: eight steps. -/
theorem worker_steps_le_one :
    ∃ (as : List (Action 1 1)) (s : Pool 1 1), Runs.run step (start 1 1 0) as = some s ∧
      as.countP Action.ofWorker = 8 ∧ s.pushed.length = 1 ∧
      as.countP Action.ofWorker ≤ 7 * 1 + 5 * s.pushed.length + as.countP Action.spurious := by
  obtain ⟨s, hrun, hs⟩ := Runs.exists_of_any step (start 1 1 0)
    [.initialized 0, .testRunning 0, .take 0 none, .callRun 0 (.call 7), .push 0 (some 0),
      .take 0 none, .testTask 0, .finishTask 0, .testRunning 0, .take 0 none]
    (fun s => s.pushed.length = 1) (by decide)
  exact ⟨_, s, hrun, by decide, of_decide_eq_true hs, worker_steps_le hrun⟩

/-- Whoever holds the lock in `take` comes out of it, or back to the wait. -/
theorem exists_take_any (s : Pool n m) (w : Fin n) : ∃ wake s', take s w wake = some s' := by
  cases hq : s.queue with
  | nil => by_cases hr : s.running = true <;> exact ⟨none, _, by simp only [take, hq, hr]; rfl⟩
  | cons job rest =>
    by_cases hmax : 0 < s.maxQueueSize
    · obtain ⟨wake, producers, hp⟩ := Condition.exists_notify notFull s.producers
      exact ⟨wake, _, by simp only [take, hq, if_pos hmax, hp]; rfl⟩
    · exact ⟨none, _, by simp only [take, hq, if_neg hmax]; rfl⟩

/-- A worker that neither left nor is blocked can make a step. -/
theorem exists_step_of_not_blocked {w : Fin n} (hw : s.workers w ≠ .left)
    (hb : s.workers w ≠ .waiting false) :
    ∃ (a : Action n m) (s' : Pool n m), a.ofWorker = true ∧ step s a = some s' := by
  obtain ⟨wake, s₁, htake⟩ := exists_take_any s w
  cases hx : s.workers w with
  | starting => exact ⟨.initialized w, _, rfl, by simp only [step, hx, if_true]; rfl⟩
  | loop => exact ⟨.testRunning w, _, rfl, by simp only [step, hx, if_true]; rfl⟩
  | enter => exact ⟨.take w wake, s₁, rfl, by simp [step, hx, htake]⟩
  | waiting woken =>
    cases woken with
    | false => exact absurd hx hb
    | true => exact ⟨.take w wake, s₁, rfl, by simp [step, hx, htake]⟩
  | took job =>
    cases job with
    | none => exact ⟨.testTask w, _, rfl, by simp only [step, hx]; rfl⟩
    | some job =>
      by_cases hc : job.task.callable = true
      · exact ⟨.testTask w, _, rfl, by simp only [step, hx, if_pos hc]; rfl⟩
      · exact ⟨.testTask w, _, rfl, by simp only [step, hx, if_neg hc]; rfl⟩
  | executing job => exact ⟨.finishTask w, _, rfl, by simp only [step, hx]; rfl⟩
  | left => exact absurd hx hw

/-- No worker can make a step. -/
def Idle (s : Pool n m) : Prop := ∀ a : Action n m, a.ofWorker = true → step s a = none

/-- In a running pool that is idle every worker is blocked. -/
theorem Idle.blocked (hi : StopInv s) (hr : s.running = true) (h : Idle s) (w : Fin n) :
    s.workers w = .waiting false := by
  by_contra hb
  have hleft : s.workers w ≠ .left := by
    intro hw
    have hcleared := hi.left_cleared w hw
    rw [hr] at hcleared
    contradiction
  obtain ⟨a, s', ha, hs⟩ := exists_step_of_not_blocked hleft hb
  rw [h a ha] at hs
  contradiction

/-- Blocked workers have left nothing in the queue. -/
theorem queue_eq_nil_of_blocked {maxQueueSize : ℕ} (hn : 0 < n)
    (hreach : Reachable maxQueueSize s) (hblocked : ∀ w, s.workers w = .waiting false) :
    s.queue = [] := by
  have hcov := hreach.wakeInv.tasks ⟨⟨0, hn⟩, by rw [hblocked]; rfl⟩
  have hnone : count notEmpty.woken s.workers = 0 := by
    simp [count, hblocked, notEmpty]
  rw [hnone] at hcov
  exact List.eq_nil_of_length_eq_zero (Nat.le_zero.mp hcov)

/-- Every task pushed was executed, or passed over for being empty, and that once. -/
def Finished (s : Pool n m) : Prop :=
  s.queue = [] ∧ ∀ job ∈ s.pushed, holders s job = 0 ∧
    (job.task.callable = true → s.executed.count job = 1) ∧
    (job.task.callable = false → s.discarded.count job = 1 ∧ job ∉ s.executed)

theorem finished_of_blocked {maxQueueSize : ℕ} (hn : 0 < n)
    (hreach : Reachable maxQueueSize s) (hblocked : ∀ w, s.workers w = .waiting false) :
    Finished s := by
  have hqueue := queue_eq_nil_of_blocked hn hreach hblocked
  have hi := hreach.tasksInv
  refine ⟨hqueue, fun job hj => ?_⟩
  have hheld : holders s job = 0 := by simp [holders, hblocked]
  have hplaces := hi.places hj
  rw [hqueue, hheld, List.count_nil] at hplaces
  refine ⟨hheld, fun hc => ?_, fun hc => ?_⟩
  · have hd : job ∉ s.discarded := fun hmem => by simp [hi.invoked.discarded job hmem] at hc
    rw [List.count_eq_zero.mpr hd] at hplaces
    omega
  · have he : job ∉ s.executed := fun hmem => by simp [hi.invoked.executed job hmem] at hc
    rw [List.count_eq_zero.mpr he] at hplaces
    exact ⟨by omega, he⟩

/-- The workers push nothing and do not stop the pool. -/
theorem worker_frame (ha : a.ofWorker = true) (hs : step s a = some s') :
    s'.pushed = s.pushed ∧ s'.running = s.running := by
  cases step_effect hs with
  | push h hf hw => contradiction
  | stop h => contradiction
  | _ => exact ⟨rfl, rfl⟩

theorem workers_frame {as : List (Action n m)} (has : ∀ a ∈ as, a.ofWorker = true)
    (hrun : Runs.run step s as = some s') : s'.pushed = s.pushed ∧ s'.running = s.running := by
  induction as generalizing s with
  | nil =>
    obtain rfl : s = s' := by simpa using hrun
    exact ⟨rfl, rfl⟩
  | cons a as ih =>
    obtain ⟨ha, has⟩ := List.forall_mem_cons.mp has
    obtain ⟨t, ht, hrun⟩ := Option.bind_eq_some_iff.mp hrun
    obtain ⟨hpushed, hrunning⟩ := worker_frame ha ht
    obtain ⟨hpushed', hrunning'⟩ := ih has hrun
    exact ⟨hpushed'.trans hpushed, hrunning'.trans hrunning⟩

/-- The workers of a running pool, left to themselves, come to rest whatever the order they
run in: after at most four steps for each of them and for each queued task. Where they rest
the queue is empty, every task pushed is done, once, and a producer still blocked on a full
queue has a wake-up pending for some producer. -/
theorem workers_drain {n m maxQueueSize : ℕ} (hn : 0 < n) {s s' : Pool n m}
    {as : List (Action n m)} (h : Reachable maxQueueSize s) (hr : s.running = true)
    (has : ∀ a ∈ as, a.ofWorker = true) (hrun : Runs.run step s as = some s') :
    as.length ≤ 4 * n + 4 * s.queue.length ∧ s'.pushed = s.pushed ∧
    (Idle s' → (∀ w, s'.workers w = .waiting false) ∧ Finished s' ∧
      (0 < s'.maxQueueSize → (∃ p, notFull.blocked (s'.producers p) = true) →
        ∃ p, notFull.woken (s'.producers p) = true)) := by
  obtain ⟨hpushed, hrunning⟩ := workers_frame has hrun
  have hreach : Reachable maxQueueSize s' := h.trans ⟨as, hrun⟩
  have hr' : s'.running = true := hrunning.trans hr
  refine ⟨?_, hpushed, fun hidle => ?_⟩
  · have hcount := countP_ofWorker_le hrun
    have hall : as.countP Action.ofWorker = as.length := List.countP_eq_length.mpr has
    have hnone : as.countP Action.spurious = 0 := by
      refine List.countP_eq_zero.mpr fun a ha => ?_
      have hw := has a ha
      cases a <;> first | contradiction | simp [Action.spurious]
    have hranks := ranks_le s.workers
    rw [hall, hnone, hpushed] at hcount
    simp only [load, hr, hr', if_true] at hcount
    omega
  · have hall := hidle.blocked hreach.stopInv hr'
    refine ⟨hall, finished_of_blocked hn hreach hall, fun hmax hblocked => ?_⟩
    have hcov := hreach.wakeInv.slots hmax hblocked
    rw [queue_eq_nil_of_blocked hn hreach hall, List.length_nil] at hcov
    have hpos : 0 < count notFull.woken s'.producers := by omega
    obtain ⟨p, hp⟩ := Finset.card_pos.mp hpos
    exact ⟨p, (Finset.mem_filter.mp hp).2⟩

/-- Two workers that have not begun are left alone with one task. -/
theorem workers_drain_two :
    ∃ (s s' : Pool 2 1), s.queue = [⟨0, .call 7⟩] ∧ Runs.Reaches step s s' ∧ Finished s' ∧
      s'.executed = [⟨0, .call 7⟩] := by
  let workers : List (Action 2 1) := [.initialized 0, .initialized 1, .testRunning 1,
    .testRunning 0, .take 1 none, .testTask 1, .take 0 none, .finishTask 1, .testRunning 1,
    .take 1 none]
  obtain ⟨s, hrun, hs⟩ := Runs.exists_of_any step (start 2 1 0)
    [.callRun 0 (.call 7), .push 0 none, .returnRun 0]
    (fun s => decide (s.running = true ∧ s.queue = [⟨0, .call 7⟩]) &&
      (Runs.run step s workers).any fun s' =>
        s'.workers 0 = .waiting false ∧ s'.workers 1 = .waiting false ∧
          s'.executed = [⟨0, .call 7⟩]) (by decide)
  obtain ⟨hs, hs'⟩ := (Bool.and_eq_true _ _).mp hs
  obtain ⟨hr, hqueue⟩ := of_decide_eq_true hs
  obtain ⟨s', hrun', hs'⟩ := (Option.any_eq_true _ _).mp hs'
  obtain ⟨h0, h1, hexec⟩ := of_decide_eq_true hs'
  have hdrain := workers_drain (by decide) ⟨_, hrun⟩ hr (by decide) hrun'
  have hall : ∀ w, s'.workers w = .waiting false := Fin.forall_fin_two.mpr ⟨h0, h1⟩
  have hidle : Idle s' := by
    intro a ha
    cases a <;> first | contradiction | simp [step, hall]
  exact ⟨s, s', hqueue, ⟨_, hrun'⟩, (hdrain.2.2 hidle).2.1, hexec⟩

end NaiveNet.ThreadPool
