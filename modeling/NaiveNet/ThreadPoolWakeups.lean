import NaiveNet.ThreadPoolTasks

/-!
# Wake-ups of the pool

Two conditions share `mutex_`. A push adds a task and signals `notEmpty_`, a
take of a bounded pool adds a free slot and signals `notFull_`, and whoever
overtakes a woken thread consumes what that thread was woken for. `Covered`
carries both counts through every step; the broadcast of `stop` empties the
first condition for good, because `take` tests `running_` before it waits.
-/
namespace NaiveNet.ThreadPool

open Tally

variable {n m : ℕ} {s s' : Pool n m} {a : Action n m}

theorem notEmpty_not_blocked {x : Worker} (h : x = .enter ∨ x = .waiting true) :
    notEmpty.blocked x = false := by
  rcases h with rfl | rfl <;> rfl

theorem notFull_not_blocked {x : Producer} {task : Task}
    (h : x = .enter task ∨ x = .waiting task true) : notFull.blocked x = false := by
  rcases h with rfl | rfl <;> rfl

/-- While a worker is blocked, every queued task has a woken worker coming. -/
def TasksCovered (s : Pool n m) : Prop := notEmpty.Covered s.queue.length s.workers

theorem TasksCovered.step (hi : TasksCovered s) (hs : step s a = some s') : TasksCovered s' := by
  cases step_effect hs with
  | initialized h => exact hi.update (by rw [h]; rfl) (by rw [h]; rfl)
  | stay h hr => exact hi.update (by rw [h]; rfl) (by rw [h]; rfl)
  | leave h hr => exact hi.update (by rw [h]; rfl) (by rw [h]; rfl)
  | takeWait h hq hr =>
    unfold TasksCovered
    simpa [hq] using notEmpty.covered_zero _
  | takeNone h hq hr =>
    unfold TasksCovered
    simpa [hq] using notEmpty.covered_zero _
  | takeJob h hq hp =>
    unfold TasksCovered at hi ⊢
    rw [hq] at hi
    exact hi.consume (notEmpty_not_blocked h) rfl
  | spuriousNotEmpty h =>
    have hw := hi.spurious (by rw [h]; rfl)
    rwa [h] at hw
  | testNone h => exact hi.update (by rw [h]; rfl) (by rw [h]; rfl)
  | invoke h hc => exact hi.update (by rw [h]; rfl) (by rw [h]; rfl)
  | passOver h hc => exact hi.update (x := .loop) (by rw [h]; rfl) (by rw [h]; rfl)
  | finishTask h => exact hi.update (x := .loop) (by rw [h]; rfl) (by rw [h]; rfl)
  | push h hf hw =>
    unfold TasksCovered at hi ⊢
    rw [List.length_append]
    exact hi.notify hw
  | stop h => exact Condition.covered_of_not_blocked (notEmpty.blocked_notifyAll s.workers)
  | _ => exact hi

/-- While a producer is blocked, every free slot has a woken producer coming. -/
def SlotsCovered (s : Pool n m) : Prop :=
  0 < s.maxQueueSize → notFull.Covered (s.maxQueueSize - s.queue.length) s.producers

theorem SlotsCovered.move (hi : SlotsCovered s) {p : Fin m} {x : Producer}
    (hb : notFull.blocked x = notFull.blocked (s.producers p))
    (hw : notFull.woken x = notFull.woken (s.producers p)) : SlotsCovered (s.setProducer p x) :=
  fun hmax => (hi hmax).update hb hw

theorem SlotsCovered.step (hbound : Bounded s) (hi : SlotsCovered s) (hs : step s a = some s') :
    SlotsCovered s' := by
  cases step_effect hs with
  | takeJob h hq hp =>
    intro hmax
    obtain ⟨_, hp⟩ | ⟨hzero, _⟩ := hp
    · -- the freed slot comes with the signal
      have hcov := (hi hmax).notify hp
      have hlen := hbound hmax
      rw [hq, List.length_cons] at hlen hcov
      exact hcov.mono (by simp only [Pool.setWorker]; omega)
    · simp only [Pool.setWorker] at hmax
      omega
  | @callRun p task h =>
    refine hi.move ?_ ?_ <;> rw [h] <;> split_ifs <;> rfl
  | pushWait h hf =>
    intro hmax
    have hfull : s.maxQueueSize - s.queue.length = 0 := by
      simp only [isFull, Bool.and_eq_true, decide_eq_true_eq] at hf
      omega
    simpa [hfull] using notFull.covered_zero _
  | push h hf hw =>
    intro hmax
    have hroom : s.maxQueueSize - s.queue.length =
        s.maxQueueSize - (s.queue.length + 1) + 1 := by
      have := isFull_eq_false.mp hf
      simp only [Pool.setProducer] at hmax
      omega
    have hcov := hi hmax
    rw [hroom] at hcov
    simpa using hcov.consume (x := .returning _) (notFull_not_blocked h) rfl
  | spuriousNotFull h =>
    intro hmax
    have hw := (hi hmax).spurious (by rw [h]; rfl)
    rwa [h] at hw
  | returnRun h => exact hi.move (x := .outside) (by rw [h]; rfl) (by rw [h]; rfl)
  | returnCall h => exact hi.move (by rw [h]; rfl) (by rw [h]; rfl)
  | _ => exact hi

/-- Once `running_` is cleared, no worker is blocked. -/
def Awake (s : Pool n m) : Prop := s.running = false → ∀ w, notEmpty.blocked (s.workers w) = false

theorem Awake.move (hi : Awake s) {w : Fin n} {x : Worker}
    (hx : s.running = false → notEmpty.blocked x = false) : Awake (s.setWorker w x) := by
  intro hr
  exact (Function.forall_update_iff s.workers fun _ y => notEmpty.blocked y = false).mpr
    ⟨hx hr, fun w' _ => hi hr w'⟩

theorem Awake.step (hi : Awake s) (hs : step s a = some s') : Awake s' := by
  cases step_effect hs with
  | initialized h => exact hi.move fun _ => rfl
  | stay h hr => exact hi.move fun _ => rfl
  | leave h hr => exact hi.move fun _ => rfl
  | takeWait h hq hr => exact hi.move fun hf => by rw [hr] at hf; contradiction
  | takeNone h hq hr => exact hi.move fun _ => rfl
  | takeJob h hq hp => exact hi.move (x := .took _) fun _ => rfl
  | spuriousNotEmpty h => exact hi.move fun _ => rfl
  | testNone h => exact hi.move fun _ => rfl
  | invoke h hc => exact hi.move fun _ => rfl
  | passOver h hc => exact hi.move (x := .loop) fun _ => rfl
  | finishTask h => exact hi.move (x := .loop) fun _ => rfl
  | push h hf hw =>
    intro hr
    exact Condition.notify_forall (P := fun x => notEmpty.blocked x = false)
      (fun x _ => notEmpty.blocked_wake x) hw (hi hr)
  | stop h => exact fun _ => notEmpty.blocked_notifyAll s.workers
  | _ => exact hi

/-- The critical section of `stop` clears `running_`. -/
theorem stop_cleared (hs : step s .stop = some s') : s'.running = false := by
  cases step_effect hs with
  | stop h => rfl

/-- `running_` is never set again. -/
theorem running_step (hr : s.running = false) (hs : step s a = some s') : s'.running = false := by
  cases step_effect hs with
  | stop h => rfl
  | _ => exact hr

/-- The invariant of the wake-ups. -/
structure WakeInv (s : Pool n m) : Prop where
  tasks : TasksCovered s
  slots : SlotsCovered s
  awake : Awake s

theorem Reachable.wakeInv {maxQueueSize : ℕ} (h : Reachable maxQueueSize s) : WakeInv s := by
  have hboth : TasksInv s ∧ WakeInv s := by
    refine h.invariant (I := fun s => TasksInv s ∧ WakeInv s) (fun s a s' hi hs => ?_)
      ⟨tasksInv_start n m maxQueueSize, notEmpty.covered_zero _, fun _ => ?_, fun hr => ?_⟩
    · obtain ⟨ht, hw⟩ := hi
      exact ⟨ht.step hs, hw.tasks.step hs, hw.slots.step ht.bounded hs, hw.awake.step hs⟩
    · exact Condition.covered_of_not_blocked fun _ => rfl
    · contradiction
  exact hboth.2

/-- The worker that makes the step, if a worker does. -/
def Action.worker? : Action n m → Option (Fin n)
  | .initialized w | .testRunning w | .take w _ | .testTask w | .finishTask w => some w
  | _ => none

/-- How many of its own steps a worker is from leaving, once `running_` is cleared. -/
def Worker.distance : Worker → ℕ
  | .left => 0
  | .loop => 1
  | .starting => 2
  | .executing _ => 2
  | .took _ => 3
  | .enter => 4
  | .waiting _ => 4

/-- After `stop`, a worker that gets the lock in `take` comes out of it. -/
theorem exists_take (hr : s.running = false) (w : Fin n) :
    ∃ wake s' job, take s w wake = some s' ∧ s'.workers w = .took job := by
  cases hq : s.queue with
  | nil => exact ⟨none, s.setWorker w (.took none), none, by simp [take, hq, hr], by simp⟩
  | cons job rest =>
    by_cases hmax : 0 < s.maxQueueSize
    · obtain ⟨wake, producers, hp⟩ := Condition.exists_notify notFull s.producers
      exact ⟨wake, { s.setWorker w (.took (some job)) with
          queue := rest, popped := s.popped ++ [job], producers := producers },
        some job, by simp [take, hq, hmax, hp], by simp⟩
    · exact ⟨none, { s.setWorker w (.took (some job)) with
          queue := rest, popped := s.popped ++ [job] },
        some job, by simp [take, hq, hmax], by simp⟩

/-- A worker that has not left can move, and every move brings it nearer. -/
theorem exists_worker_step (hr : s.running = false) (hi : Awake s) {w : Fin n}
    (hw : s.workers w ≠ .left) : ∃ a s', a.worker? = some w ∧ step s a = some s' ∧
      (s'.workers w).distance < (s.workers w).distance := by
  obtain ⟨wake, s₁, job₁, htake, hs₁⟩ := exists_take hr w
  cases hx : s.workers w with
  | starting =>
    exact ⟨.initialized w, s.setWorker w .loop, rfl, by simp [step, hx], by simp [Worker.distance]⟩
  | loop =>
    exact ⟨.testRunning w, s.setWorker w .left, rfl, by simp [step, hx, hr],
      by simp [Worker.distance]⟩
  | enter =>
    exact ⟨.take w wake, s₁, rfl, by simp [step, hx, htake], by simp [hs₁, Worker.distance]⟩
  | waiting woken =>
    cases woken with
    | false =>
      have hb := hi hr w
      rw [hx] at hb
      simp [notEmpty] at hb
    | true =>
      exact ⟨.take w wake, s₁, rfl, by simp [step, hx, htake], by simp [hs₁, Worker.distance]⟩
  | took job =>
    cases job with
    | none =>
      exact ⟨.testTask w, s.setWorker w .loop, rfl, by simp [step, hx], by simp [Worker.distance]⟩
    | some job =>
      by_cases hc : job.task.callable = true
      · exact ⟨.testTask w, s.setWorker w (.executing job), rfl, by simp [step, hx, hc],
          by simp [Worker.distance]⟩
      · exact ⟨.testTask w, { s.setWorker w .loop with discarded := s.discarded ++ [job] }, rfl,
          by simp [step, hx, hc], by simp [Worker.distance]⟩
  | executing job =>
    exact ⟨.finishTask w, { s.setWorker w .loop with executed := s.executed ++ [job] }, rfl,
      by simp [step, hx], by simp [Worker.distance]⟩
  | left => exact absurd hx hw

/-- No wake-up is lost. While the pool runs, a blocked worker means that the
queued tasks are matched by woken workers, and a blocked producer that the free
slots are matched by woken producers; `stop` clears `running_`, and once it is
cleared, no worker is blocked or ever blocks again, and each that has not left
can move on. -/
theorem no_lost_wakeup {n m maxQueueSize : ℕ} {s : Pool n m} (h : Reachable maxQueueSize s) :
    (s.running = true → (∃ w, s.workers w = .waiting false) →
      s.queue.length ≤ (Finset.univ.filter fun w => s.workers w = .waiting true).card) ∧
    (s.running = true → 0 < s.maxQueueSize → (∃ p task, s.producers p = .waiting task false) →
      s.maxQueueSize ≤ s.queue.length +
        (Finset.univ.filter fun p => notFull.woken (s.producers p) = true).card) ∧
    (s.running = false → ∀ s', Runs.Reaches step s s' →
      s'.running = false ∧ (∀ w, s'.workers w ≠ .waiting false) ∧
      ∀ w, s'.workers w ≠ .left → ∃ a s'', a.worker? = some w ∧ step s' a = some s'' ∧
        (s''.workers w).distance < (s'.workers w).distance) ∧
    ∀ s', step s .stop = some s' → s'.running = false := by
  refine ⟨fun _ hb => ?_, fun _ hmax hb => ?_, fun hr s' hs => ?_, fun s' => stop_cleared⟩
  · obtain ⟨w, hw⟩ := hb
    have hcov := h.wakeInv.tasks ⟨w, by rw [hw]; rfl⟩
    simpa [count, notEmpty] using hcov
  · obtain ⟨p, task, hp⟩ := hb
    have hcov := h.wakeInv.slots hmax ⟨p, by rw [hp]; rfl⟩
    simp only [count] at hcov
    omega
  · have hr' : s'.running = false := hs.invariant (I := fun s => s.running = false)
      (fun _ _ _ => running_step) hr
    have hawake : Awake s' := (Reachable.wakeInv (h.trans hs)).awake
    refine ⟨hr', fun w hw => ?_, fun w hw => exists_worker_step hr' hawake hw⟩
    have hb := hawake hr' w
    rw [hw] at hb
    simp [notEmpty] at hb

/-- Two workers asleep, one task pushed: one of the two is woken for it. `stop` clears
`running_` and wakes the other, and each of them can move on. -/
theorem no_lost_wakeup_two :
    ∃ s s' : Pool 2 1, Reachable 0 s ∧ s.running = true ∧ s.workers 0 = .waiting false ∧
      s.queue.length = 1 ∧
      s.queue.length ≤ (Finset.univ.filter fun w => s.workers w = .waiting true).card ∧
      step s .stop = some s' ∧ s'.running = false ∧ s'.workers 0 = .waiting true ∧
      (∀ w, s'.workers w ≠ .waiting false) ∧
      ∀ w, s'.workers w ≠ .left → ∃ a s'', a.worker? = some w ∧ step s' a = some s'' ∧
        (s''.workers w).distance < (s'.workers w).distance := by
  obtain ⟨s, hr, hs⟩ := Runs.exists_of_any step (start 2 1 0)
    [.initialized 0, .testRunning 0, .take 0 none, .initialized 1, .testRunning 1, .take 1 none,
      .callRun 0 (.call 7), .push 0 (some 1), .callStop]
    (fun s => s.running = true ∧ s.workers 0 = .waiting false ∧ s.queue.length = 1 ∧
      s.stopper = .enter) (by decide)
  obtain ⟨hrun, hblocked, hlen, hcalled⟩ := of_decide_eq_true hs
  have hstop : step s .stop = some (stop s) := by rw [step, if_pos hcalled]
  have hreach : Reachable 0 s := ⟨_, hr⟩
  obtain ⟨htasks, _, _, hclears⟩ := no_lost_wakeup hreach
  have hcleared := hclears _ hstop
  obtain ⟨_, hawake, hmove⟩ := (no_lost_wakeup (hreach.tail hstop)).2.2.1 hcleared _ ⟨[], rfl⟩
  have hwoken : (stop s).workers 0 = .waiting true := by
    simp [stop, Condition.notifyAll, notEmpty, hblocked]
  exact ⟨s, stop s, hreach, hrun, hblocked, hlen, htasks hrun ⟨0, hblocked⟩, hstop, hcleared,
    hwoken, hawake, hmove⟩

end NaiveNet.ThreadPool
