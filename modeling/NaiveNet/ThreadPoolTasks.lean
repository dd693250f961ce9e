import NaiveNet.ThreadPool
import Mathlib.Tactic.Abel

/-!
# Where the tasks of the pool are

Every pushed task has a ticket of its own. What left `queue_` is accounted for
by one equation of multisets: in the hands of the workers, executed, or passed
over by `if (task)`. A step moves at most one task across that equation, so
counting a ticket in every reachable state gives one.
-/
namespace NaiveNet.ThreadPool

open Tally

variable {n m : ℕ} {s s' : Pool n m} {a : Action n m}

/-- The task in a worker's hands. -/
def held : Worker → Multiset Job
  | .took (some job) => {job}
  | .executing job => {job}
  | _ => 0

@[simp] theorem held_wake (x : Worker) : held (notEmpty.wake x) = held x := by
  cases x <;> rfl

@[simp] theorem held_entering {x : Worker} (h : x = .enter ∨ x = .waiting true) :
    held x = 0 := by
  rcases h with rfl | rfl <;> rfl

/-- Tasks leave `queue_` in the order in which they were pushed. -/
def Fifo (s : Pool n m) : Prop := s.pushed = s.popped ++ s.queue

theorem Fifo.step (hi : Fifo s) (hs : step s a = some s') : Fifo s' := by
  cases step_effect hs with
  | takeJob h hq hp => simpa [Fifo, hq] using hi
  | push h hf hw =>
    unfold Fifo at hi ⊢
    simp [hi]
  | _ => exact hi

/-- The tickets are the places in the order of the pushes. -/
def Ticketed (s : Pool n m) : Prop :=
  s.pushed.map Job.ticket = List.range s.pushed.length

theorem Ticketed.step (hi : Ticketed s) (hs : step s a = some s') : Ticketed s' := by
  cases step_effect hs with
  | push h hf hw =>
    unfold Ticketed at hi ⊢
    simp [hi, List.range_succ]
  | _ => exact hi

theorem Ticketed.nodup (hi : Ticketed s) : s.pushed.Nodup := by
  apply List.Nodup.of_map Job.ticket
  rw [hi]
  exact List.nodup_range

/-- What left `queue_` is held, executed or discarded. -/
def Placed (s : Pool n m) : Prop :=
  (s.popped : Multiset Job) = tally held s.workers + s.executed + s.discarded

/-- A worker moves with the same task, or none, in its hands. -/
theorem Placed.move (hi : Placed s) {w : Fin n} {x : Worker}
    (hx : held x = held (s.workers w)) : Placed (s.setWorker w x) := by
  unfold Placed at hi ⊢
  simpa [tally_update_of_eq hx] using hi

theorem Placed.step (hi : Placed s) (hs : step s a = some s') : Placed s' := by
  cases step_effect hs with
  | initialized h => exact hi.move (by rw [h]; rfl)
  | stay h hr => exact hi.move (by rw [h]; rfl)
  | leave h hr => exact hi.move (by rw [h]; rfl)
  | takeWait h hq hr => exact hi.move (by rw [held_entering h]; rfl)
  | takeNone h hq hr => exact hi.move (by rw [held_entering h]; rfl)
  | spuriousNotEmpty h => exact hi.move (by rw [h]; rfl)
  | testNone h => exact hi.move (by rw [h]; rfl)
  | invoke h hc => exact hi.move (by rw [h]; rfl)
  | @takeJob w wake job rest producers h hq hp =>
    have hu := tally_update held s.workers w (.took (some job))
    simp only [held_entering h, add_zero] at hu
    unfold Placed at hi ⊢
    simp only [Pool.setWorker, hu, ← Multiset.coe_add, hi, held, Multiset.coe_singleton]
    abel
  | @passOver w job h hc =>
    have hu := tally_update held s.workers w .loop
    simp only [h, held, add_zero] at hu
    unfold Placed at hi ⊢
    simp only [Pool.setWorker, ← Multiset.coe_add, hi, ← hu, Multiset.coe_singleton]
    abel
  | @finishTask w job h =>
    have hu := tally_update held s.workers w .loop
    simp only [h, held, add_zero] at hu
    unfold Placed at hi ⊢
    simp only [Pool.setWorker, ← Multiset.coe_add, hi, ← hu, Multiset.coe_singleton]
    abel
  | push h hf hw =>
    unfold Placed at hi ⊢
    simpa only [Pool.setProducer, Condition.notify_tally held_wake hw] using hi
  | stop h =>
    unfold Placed at hi ⊢
    simpa only [ThreadPool.stop, Condition.notifyAll_tally held_wake] using hi
  | _ => exact hi

/-- A worker that executes holds a callable task. -/
def Worker.Sound : Worker → Prop
  | .executing job => job.task.callable = true
  | _ => True

theorem Worker.Sound.wake {x : Worker} (h : x.Sound) : (notEmpty.wake x).Sound := by
  cases x <;> trivial

/-- Only callable tasks are invoked, only empty ones passed over. -/
structure Invoked (s : Pool n m) : Prop where
  sound : ∀ w, (s.workers w).Sound
  executed : ∀ job ∈ s.executed, job.task.callable = true
  discarded : ∀ job ∈ s.discarded, job.task.callable = false

theorem Invoked.move (hi : Invoked s) {w : Fin n} {x : Worker} (hx : x.Sound) :
    Invoked (s.setWorker w x) where
  sound := (Function.forall_update_iff s.workers fun _ => Worker.Sound).mpr
    ⟨hx, fun w' _ => hi.sound w'⟩
  executed := hi.executed
  discarded := hi.discarded

theorem Invoked.step (hi : Invoked s) (hs : step s a = some s') : Invoked s' := by
  cases step_effect hs with
  | initialized h => exact hi.move trivial
  | stay h hr => exact hi.move trivial
  | leave h hr => exact hi.move trivial
  | takeWait h hq hr => exact hi.move trivial
  | takeNone h hq hr => exact hi.move trivial
  | takeJob h hq hp =>
    exact ⟨(hi.move (x := .took _) trivial).sound, hi.executed, hi.discarded⟩
  | spuriousNotEmpty h => exact hi.move trivial
  | testNone h => exact hi.move trivial
  | invoke h hc => exact hi.move hc
  | passOver h hc =>
    refine ⟨(hi.move (x := .loop) trivial).sound, hi.executed, fun job hj => ?_⟩
    rcases List.mem_append.mp hj with hj | hj
    · exact hi.discarded job hj
    · rwa [List.mem_singleton.mp hj]
  | @finishTask w job h =>
    have hc : job.task.callable = true := by have := hi.sound w; rwa [h] at this
    refine ⟨(hi.move (x := .loop) trivial).sound, fun job hj => ?_, hi.discarded⟩
    rcases List.mem_append.mp hj with hj | hj
    · exact hi.executed job hj
    · rwa [List.mem_singleton.mp hj]
  | push h hf hw =>
    exact ⟨Condition.notify_forall (fun _ => Worker.Sound.wake) hw hi.sound,
      hi.executed, hi.discarded⟩
  | stop h =>
    exact ⟨Condition.notifyAll_forall (fun _ => Worker.Sound.wake) hi.sound,
      hi.executed, hi.discarded⟩
  | _ => exact ⟨hi.sound, hi.executed, hi.discarded⟩

/-- A bounded queue stays within its bound. -/
def Bounded (s : Pool n m) : Prop := 0 < s.maxQueueSize → s.queue.length ≤ s.maxQueueSize

theorem isFull_eq_false :
    isFull s = false ↔ s.maxQueueSize = 0 ∨ s.queue.length < s.maxQueueSize := by
  simp only [isFull, Bool.and_eq_false_iff, decide_eq_false_iff_not]
  omega

theorem Bounded.step (hi : Bounded s) (hs : step s a = some s') : Bounded s' := by
  cases step_effect hs with
  | takeJob h hq hp =>
    unfold Bounded at hi ⊢
    simp only [hq, List.length_cons] at hi
    simp only [Pool.setWorker]
    omega
  | push h hf hw =>
    unfold Bounded at hi ⊢
    simp only [Pool.setProducer, List.length_append, List.length_singleton]
    have := isFull_eq_false.mp hf
    omega
  | _ => exact hi

/-- With a thread in the pool, no producer runs its task itself. -/
def Producer.Delegates (x : Producer) : Prop := ∀ task, x ≠ .calling task

theorem Producer.Delegates.wake {x : Producer} (h : x.Delegates) :
    (notFull.wake x).Delegates := by
  cases x with
  | waiting task woken => simp [Producer.Delegates, notFull]
  | _ => exact h

def Delegated (s : Pool n m) : Prop := ∀ p, (s.producers p).Delegates

theorem Delegated.move (hi : Delegated s) {p : Fin m} {x : Producer} (hx : x.Delegates) :
    Delegated (s.setProducer p x) :=
  (Function.forall_update_iff s.producers fun _ => Producer.Delegates).mpr
    ⟨hx, fun p' _ => hi p'⟩

theorem Delegated.step (hn : 0 < n) (hi : Delegated s) (hs : step s a = some s') :
    Delegated s' := by
  cases step_effect hs with
  | takeJob h hq hp =>
    obtain ⟨_, hp⟩ | ⟨_, rfl⟩ := hp
    · exact Condition.notify_forall (fun _ => Producer.Delegates.wake) hp hi
    · exact hi
  | callRun h =>
    rw [if_neg (by omega)]
    exact hi.move (by simp [Producer.Delegates])
  | pushWait h hf => exact hi.move (by simp [Producer.Delegates])
  | push h hf hw => exact hi.move (x := .returning _) (by simp [Producer.Delegates])
  | spuriousNotFull h => exact hi.move (by simp [Producer.Delegates])
  | returnRun h => exact hi.move (x := .outside) (by simp [Producer.Delegates])
  | returnCall h => exact hi.move (by simp [Producer.Delegates])
  | _ => exact hi

/-- The invariant of the tasks. -/
structure TasksInv (s : Pool n m) : Prop where
  fifo : Fifo s
  ticketed : Ticketed s
  placed : Placed s
  invoked : Invoked s
  bounded : Bounded s

theorem tasksInv_start (n m maxQueueSize : ℕ) : TasksInv (start n m maxQueueSize) where
  fifo := rfl
  ticketed := rfl
  placed := by simp [Placed, start, held, tally]
  invoked := ⟨fun _ => trivial, by simp [start], by simp [start]⟩
  bounded := fun _ => Nat.zero_le _

theorem TasksInv.step (hi : TasksInv s) (hs : step s a = some s') : TasksInv s' :=
  ⟨hi.fifo.step hs, hi.ticketed.step hs, hi.placed.step hs, hi.invoked.step hs,
    hi.bounded.step hs⟩

theorem Reachable.tasksInv {maxQueueSize : ℕ} (h : Reachable maxQueueSize s) : TasksInv s :=
  h.invariant (fun _ _ _ => TasksInv.step) (tasksInv_start n m maxQueueSize)

theorem Reachable.delegated {maxQueueSize : ℕ} (hn : 0 < n) (h : Reachable maxQueueSize s) :
    Delegated s :=
  h.invariant (fun _ _ _ => Delegated.step hn) (by simp [Delegated, start, Producer.Delegates])

/-- The number of workers with the task in their hands. -/
def holders (s : Pool n m) (job : Job) : ℕ :=
  (Finset.univ.filter fun w =>
    s.workers w = .took (some job) ∨ s.workers w = .executing job).card

theorem count_held (s : Pool n m) (job : Job) :
    (tally held s.workers).count job = holders s job := by
  rw [tally, Multiset.count_sum', holders, Finset.card_filter]
  apply Finset.sum_congr rfl
  intro w _
  cases s.workers w with
  | took job' => cases job' <;> simp [held, Multiset.count_singleton, eq_comm]
  | executing job' => simp [held, Multiset.count_singleton, eq_comm]
  | _ => simp [held]

/-- The places of a pushed task, counted. -/
theorem TasksInv.places (hi : TasksInv s) {job : Job} (hj : job ∈ s.pushed) :
    s.queue.count job + holders s job + s.executed.count job + s.discarded.count job = 1 := by
  have hone : s.pushed.count job = 1 := List.count_eq_one_of_mem hi.ticketed.nodup hj
  rw [hi.fifo, List.count_append] at hone
  have hpop := congrArg (Multiset.count job) hi.placed
  simp only [Multiset.count_add, Multiset.coe_count, count_held] at hpop
  omega

/-! ### What a run of the pool shows -/

/-- The task that the step pushes, and whose call of `run` pushes it. -/
def pushes (_ : Pool n m) (a : Action n m) (s' : Pool n m) : List (Fin m × Job) :=
  match a with
  | .push p _ =>
    match s'.producers p with
    | .returning job => [(p, job)]
    | _ => []
  | _ => []

/-- The task that the step takes out of `queue_`. -/
def takes (_ : Pool n m) (a : Action n m) (s' : Pool n m) : List Job :=
  match a with
  | .take w _ =>
    match s'.workers w with
    | .took (some job) => [job]
    | _ => []
  | _ => []

/-- The task that a worker has executed when the step is done. -/
def executes (s : Pool n m) (a : Action n m) (_ : Pool n m) : List Job :=
  match a with
  | .finishTask w =>
    match s.workers w with
    | .executing job => [job]
    | _ => []
  | _ => []

/-- The task whose call of `run` returns with the step. -/
def returns (s : Pool n m) (a : Action n m) (_ : Pool n m) : List Job :=
  match a with
  | .returnRun p =>
    match s.producers p with
    | .returning job => [job]
    | _ => []
  | _ => []

/-- What `p` calls `run` with. -/
def Action.argument (p : Fin m) : Action n m → List Task
  | .callRun q task => if q = p then [task] else []
  | _ => []

/-- What a producer in `run` has not pushed yet. -/
def Producer.pending : Producer → List Task
  | .enter task => [task]
  | .waiting task _ => [task]
  | _ => []

@[simp] theorem pending_wake (x : Producer) : (notFull.wake x).pending = x.pending := by
  cases x <;> rfl

/-- The histories are what the steps show. -/
theorem history_step (hs : step s a = some s') :
    s'.pushed = s.pushed ++ (pushes s a s').map Prod.snd ∧
    s'.popped = s.popped ++ takes s a s' ∧
    s'.executed = s.executed ++ executes s a s' ∧
    s'.returned = s.returned ++ returns s a s' := by
  cases step_effect hs with
  | finishTask h => simp [pushes, takes, executes, returns, h]
  | returnRun h => simp [pushes, takes, executes, returns, h]
  | returnCall h => simp [pushes, takes, executes, returns, h]
  | stop h => simp [pushes, takes, executes, returns, ThreadPool.stop]
  | _ => simp [pushes, takes, executes, returns]

theorem history_run {as : List (Action n m)} (h : Runs.run step s as = some s') :
    s'.pushed = s.pushed ++ (Runs.trace step pushes s as).map Prod.snd ∧
    s'.popped = s.popped ++ Runs.trace step takes s as ∧
    s'.executed = s.executed ++ Runs.trace step executes s as ∧
    s'.returned = s.returned ++ Runs.trace step returns s as := by
  rw [Runs.apply_trace List.map_nil fun _ _ => List.map_append]
  exact ⟨Runs.eq_append_trace (fun _ _ _ hs => (history_step hs).1) h,
    Runs.eq_append_trace (fun _ _ _ hs => (history_step hs).2.1) h,
    Runs.eq_append_trace (fun _ _ _ hs => (history_step hs).2.2.1) h,
    Runs.eq_append_trace (fun _ _ _ hs => (history_step hs).2.2.2) h⟩

/-- A producer pushes what it called `run` with, one call after the other. -/
theorem argument_step (hn : 0 < n) (hs : step s a = some s') (p : Fin m) :
    (s.producers p).pending ++ a.argument p =
      ((pushes s a s').filter fun x => x.1 = p).map (fun x => x.2.task) ++
        (s'.producers p).pending := by
  cases step_effect hs with
  | takeJob h hq hp =>
    obtain ⟨_, hp⟩ | ⟨_, rfl⟩ := hp
    · obtain he | ⟨_, he⟩ := Condition.notify_apply hp p <;> simp [pushes, Action.argument, he]
    · simp [pushes, Action.argument]
  | @callRun q task h =>
    have hgiven : (s.producers q).pending ++ [task] = [] ++ Producer.pending (.enter task) := by
      rw [h]
      rfl
    simpa [pushes, Action.argument, hn.ne'] using Runs.append_held_update hgiven p
  | @pushWait q wake task h hf =>
    have hsame : (s.producers q).pending = Producer.pending (.waiting task false) := by
      rcases h with h | h <;> rw [h] <;> rfl
    simpa [pushes, Action.argument] using Runs.held_update hsame p
  | @push q wake task workers h hf hw =>
    have hpushed : (s.producers q).pending ++ [] =
        [task] ++ Producer.pending (.returning ⟨s.pushed.length, task⟩) := by
      rcases h with h | h <;> rw [h] <;> rfl
    have hmove := Runs.append_held_update hpushed p
    by_cases hq : q = p <;> simpa [pushes, Action.argument, hq] using hmove
  | @spuriousNotFull q task h =>
    have hsame : (s.producers q).pending = Producer.pending (.waiting task true) := by
      rw [h]
      rfl
    simpa [pushes, Action.argument] using Runs.held_update hsame p
  | @returnRun q job h =>
    have hsame : (s.producers q).pending = Producer.pending .outside := by
      rw [h]
      rfl
    simpa [pushes, Action.argument] using Runs.held_update hsame p
  | @returnCall q task h =>
    have hsame : (s.producers q).pending = Producer.pending .outside := by
      rw [h]
      rfl
    simpa [pushes, Action.argument] using Runs.held_update hsame p
  | _ => simp [pushes, Action.argument, ThreadPool.stop]

theorem argument_run (hn : 0 < n) {as : List (Action n m)} (h : Runs.run step s as = some s')
    (p : Fin m) : (s.producers p).pending ++ as.flatMap (Action.argument p) =
      ((Runs.trace step pushes s as).filter fun x => x.1 = p).map (fun x => x.2.task) ++
        (s'.producers p).pending := by
  rw [Runs.apply_trace (f := fun xs : List (Fin m × Job) =>
    (xs.filter fun x => x.1 = p).map fun x => x.2.task) rfl (by simp)]
  exact Runs.append_flatMap_eq_trace (fun s : Pool n m => (s.producers p).pending)
    (fun _ _ _ hs => argument_step hn hs p) h

/-- Conservation: a callable task that was pushed is in exactly one place, in
`queue_`, with one worker, or executed once; an empty one is never executed but
passed over. The queue is first in, first out, and keeps its bound. The tasks that
a producer pushed are those it called `run` with, in order, and what was pushed,
taken and executed is what the steps of the run pushed, took and executed. -/
theorem tasks_conserved {n m maxQueueSize : ℕ} (hn : 0 < n) {as : List (Action n m)}
    {s : Pool n m} (h : Runs.run step (start n m maxQueueSize) as = some s) :
    s.pushed.Nodup ∧
    (∀ job ∈ s.pushed, job.task.callable = true →
      s.queue.count job + holders s job + s.executed.count job = 1) ∧
    (∀ job ∈ s.pushed, job.task.callable = false →
      s.queue.count job + holders s job + s.discarded.count job = 1 ∧ job ∉ s.executed) ∧
    s.pushed = s.popped ++ s.queue ∧
    (∀ job, ((∃ w, s.workers w = .executing job) ∨ job ∈ s.executed) →
      job.task.callable = true) ∧
    (∀ p task, s.producers p ≠ .calling task) ∧
    (0 < s.maxQueueSize → s.queue.length ≤ s.maxQueueSize) ∧
    (∀ p, as.flatMap (Action.argument p) =
      ((Runs.trace step pushes (start n m maxQueueSize) as).filter fun x => x.1 = p).map
        (fun x => x.2.task) ++ (s.producers p).pending) ∧
    s.pushed = (Runs.trace step pushes (start n m maxQueueSize) as).map Prod.snd ∧
    s.popped = Runs.trace step takes (start n m maxQueueSize) as ∧
    s.executed = Runs.trace step executes (start n m maxQueueSize) as := by
  have hreach : Reachable maxQueueSize s := ⟨as, h⟩
  have hi := hreach.tasksInv
  obtain ⟨hpushed, hpopped, hexecuted, _⟩ := history_run h
  refine ⟨hi.ticketed.nodup, fun job hj hc => ?_, fun job hj hc => ?_, hi.fifo, ?_,
    hreach.delegated hn, hi.bounded, argument_run hn h, hpushed, hpopped, hexecuted⟩
  · have hd : s.discarded.count job = 0 := by
      apply List.count_eq_zero.mpr
      intro hmem
      simp [hi.invoked.discarded job hmem] at hc
    have := hi.places hj
    omega
  · have hne : job ∉ s.executed := by
      intro hmem
      simp [hi.invoked.executed job hmem] at hc
    have := hi.places hj
    rw [List.count_eq_zero.mpr hne] at this
    exact ⟨by omega, hne⟩
  · rintro job (⟨w, hw⟩ | hj)
    · have hsound := hi.invoked.sound w
      rwa [hw] at hsound
    · exact hi.invoked.executed job hj

/-- A run of one worker that takes the callable task it is given and executes it, while
the producer is at its next call. -/
theorem tasks_conserved_one :
    ∃ as, ∃ s : Pool 1 1, Runs.run step (start 1 1 1) as = some s ∧
      (0 < s.maxQueueSize → s.queue.length ≤ s.maxQueueSize) ∧
      as.flatMap (Action.argument 0) = [.call 7, .call 8] ∧
      Runs.trace step pushes (start 1 1 1) as = [(0, ⟨0, .call 7⟩)] ∧
      (s.producers 0).pending = [.call 8] ∧
      s.executed = [⟨0, .call 7⟩] ∧
      Runs.trace step executes (start 1 1 1) as = [⟨0, .call 7⟩] := by
  obtain ⟨s, hr, hs⟩ := Runs.exists_of_any step (start 1 1 1)
    [.callRun 0 (.call 7), .push 0 none, .initialized 0, .testRunning 0, .take 0 none,
      .testTask 0, .finishTask 0, .returnRun 0, .callRun 0 (.call 8)]
    (fun s => s.executed = [⟨0, .call 7⟩] ∧ (s.producers 0).pending = [.call 8]) (by decide)
  obtain ⟨hexec, hpending⟩ := of_decide_eq_true hs
  obtain ⟨_, _, _, _, _, _, hbound, _, _, _, hexecutes⟩ := tasks_conserved (by decide) hr
  exact ⟨_, s, hr, hbound, by decide, by decide, hpending, hexec, hexecutes.symm.trans hexec⟩

/-- A pushed empty task ends in none of the three places: it is popped, and then
`if (task)` passes it over. -/
theorem empty_task_unaccounted :
    ¬ ∀ (n m maxQueueSize : ℕ) (s : Pool n m), 0 < n → Reachable maxQueueSize s →
      ∀ job ∈ s.pushed, s.queue.count job + holders s job + s.executed.count job = 1 := by
  intro hevery
  obtain ⟨s, hr, hs⟩ := Runs.exists_of_any step (start 1 1 0)
    [.callRun 0 .empty, .push 0 none, .initialized 0, .testRunning 0, .take 0 none, .testTask 0]
    (fun s => (⟨0, .empty⟩ : Job) ∈ s.pushed ∧
      s.queue.count ⟨0, .empty⟩ + holders s ⟨0, .empty⟩ + s.executed.count ⟨0, .empty⟩ = 0)
    (by decide)
  obtain ⟨hpushed, hzero⟩ := of_decide_eq_true hs
  have hone := hevery 1 1 0 s (by decide) ⟨_, hr⟩ _ hpushed
  omega

end NaiveNet.ThreadPool
