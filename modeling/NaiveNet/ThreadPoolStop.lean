import NaiveNet.ThreadPoolWakeups

/-!
# Stopping the pool

`stop` clears `running_`, wakes the workers and joins them. A worker leaves at
its next test of `running_`, whatever is queued, and nobody ever signals
`notFull_` again once the last worker has left. So a task that was accepted in
time may stay in `queue_`, and a producer may stay blocked in `run`; the results
here say exactly when.
-/
namespace NaiveNet.ThreadPool

open Tally

variable {n m : ℕ} {s s' : Pool n m} {a : Action n m}

theorem wake_eq_left {x : Worker} (h : notEmpty.wake x = .left) : x = .left := by
  cases x <;> simp_all [notEmpty]

/-- A signal does not make a worker leave. -/
theorem notify_left {workers : Fin n → Worker} {wake : Option (Fin n)}
    (hn : notEmpty.notify s.workers wake = some workers) {w : Fin n} (hw : workers w = .left) :
    s.workers w = .left := by
  obtain he | ⟨_, he⟩ := Condition.notify_apply hn w
  · exact he.symm.trans hw
  · exact wake_eq_left (he.symm.trans hw)

theorem notifyAll_left {w : Fin n} (hw : notEmpty.notifyAll s.workers w = .left) :
    s.workers w = .left := by
  obtain he | ⟨_, he⟩ := Condition.notifyAll_apply notEmpty s.workers w
  · exact he.symm.trans hw
  · exact wake_eq_left (he.symm.trans hw)

/-- What a step can do to a worker, as far as leaving goes. -/
theorem worker_step (hs : step s a = some s') (w : Fin n) :
    s'.workers w = s.workers w ∨
      s.workers w ≠ .left ∧ (s'.workers w = .left → s.running = false) := by
  have hmove {w' : Fin n} {x : Worker} (h : s.workers w' ≠ .left)
      (hx : x = .left → s.running = false) : (s.setWorker w' x).workers w = s.workers w ∨
        s.workers w ≠ .left ∧ ((s.setWorker w' x).workers w = .left → s.running = false) := by
    by_cases hww : w = w'
    · subst hww
      exact Or.inr ⟨h, by simpa using hx⟩
    · exact Or.inl (by simp [Function.update_of_ne hww])
  have hwoken {x : Worker} (hb : notEmpty.blocked (s.workers w) = true)
      (hx : x = .left → s.workers w = .left) :
      x = s.workers w ∨ s.workers w ≠ .left ∧ (x = .left → s.running = false) := by
    have hne : s.workers w ≠ .left := by
      intro hw
      rw [hw] at hb
      contradiction
    exact Or.inr ⟨hne, fun h => absurd (hx h) hne⟩
  cases step_effect hs with
  | initialized h => exact hmove (by simp [h]) (by simp)
  | stay h hr => exact hmove (by simp [h]) (by simp)
  | leave h hr => exact hmove (by simp [h]) (fun _ => hr)
  | takeWait h hq hr => exact hmove (by rcases h with h | h <;> simp [h]) (by simp)
  | takeNone h hq hr => exact hmove (by rcases h with h | h <;> simp [h]) (by simp)
  | takeJob h hq hp =>
    exact hmove (x := .took _) (by rcases h with h | h <;> simp [h]) (by simp)
  | spuriousNotEmpty h => exact hmove (by simp [h]) (by simp)
  | testNone h => exact hmove (by simp [h]) (by simp)
  | invoke h hc => exact hmove (by simp [h]) (by simp)
  | passOver h hc => exact hmove (x := .loop) (by simp [h]) (by simp)
  | finishTask h => exact hmove (x := .loop) (by simp [h]) (by simp)
  | push h hf hn =>
    obtain he | ⟨hb, _⟩ := Condition.notify_apply hn w
    · exact Or.inl he
    · exact hwoken hb (notify_left hn)
  | stop h =>
    obtain he | ⟨hb, _⟩ := Condition.notifyAll_apply notEmpty s.workers w
    · exact Or.inl he
    · exact hwoken hb notifyAll_left
  | _ => exact Or.inl rfl

/-- A worker that has left stays away. -/
theorem left_step {w : Fin n} (hw : s.workers w = .left) (hs : step s a = some s') :
    s'.workers w = .left := by
  obtain he | ⟨hne, _⟩ := worker_step hs w
  · exact he.trans hw
  · exact absurd hw hne

/-- A worker leaves only after `running_` is cleared. -/
theorem left_or_cleared {w : Fin n} (hs : step s a = some s') (hw : s'.workers w = .left) :
    s.workers w = .left ∨ s.running = false := by
  obtain he | ⟨_, hcleared⟩ := worker_step hs w
  · exact Or.inl (he.symm.trans hw)
  · exact Or.inr (hcleared hw)

def AllLeft (s : Pool n m) : Prop := ∀ w, s.workers w = .left

/-- How far `stop` has come, against `running_` and the workers. -/
structure StopInv (s : Pool n m) : Prop where
  left_cleared : ∀ w, s.workers w = .left → s.running = false
  cleared_joining : s.running = false ↔ s.stopper = .returned ∨ ∃ k ≤ n, s.stopper = .joining k
  joined : ∀ k, s.stopper = .joining k → ∀ w : Fin n, w.val < k → s.workers w = .left
  returned : s.stopper = .returned → AllLeft s

theorem stopInv_start (n m maxQueueSize : ℕ) : StopInv (start n m maxQueueSize) where
  left_cleared := by simp [start]
  cleared_joining := by simp [start]
  joined := by simp [start]
  returned := by simp [start]

/-- A step that moves neither `stop` nor `running_`. -/
theorem StopInv.keep (hi : StopInv s) (hs : step s a = some s')
    (hstop : s'.stopper = s.stopper) (hrun : s'.running = s.running) : StopInv s' where
  left_cleared w hw := by
    rw [hrun]
    exact (left_or_cleared hs hw).elim (hi.left_cleared w) id
  cleared_joining := by rw [hrun, hstop]; exact hi.cleared_joining
  joined := by
    rw [hstop]
    exact fun k hk w hw => left_step (hi.joined k hk w hw) hs
  returned := by
    rw [hstop]
    exact fun hret w => left_step (hi.returned hret w) hs

theorem StopInv.step (hi : StopInv s) (hs : step s a = some s') : StopInv s' := by
  cases step_effect hs with
  | callStop h =>
    refine ⟨hi.left_cleared, ?_, by simp, by simp⟩
    have hcj := hi.cleared_joining
    simpa [h] using hcj
  | stop h =>
    refine ⟨fun _ _ => rfl, ?_, ?_, by simp [ThreadPool.stop]⟩
    · simp [ThreadPool.stop]
    · intro k hk w hw
      simp only [ThreadPool.stop, Stopper.joining.injEq] at hk
      omega
  | @join k h hk hl =>
    have hcj := hi.cleared_joining
    have hrun : s.running = false := hcj.mpr (Or.inr ⟨k, hk.le, h⟩)
    refine ⟨hi.left_cleared, ?_, ?_, by simp⟩
    · simp only [hrun, true_iff]
      exact Or.inr ⟨k + 1, hk, rfl⟩
    · intro l hlk w hw
      simp only [Stopper.joining.injEq] at hlk
      by_cases hwk : w.val = k
      · obtain rfl : w = ⟨k, hk⟩ := Fin.ext hwk
        exact hl
      · exact hi.joined k h w (by omega)
  | returnStop h =>
    have hrun : s.running = false := hi.cleared_joining.mpr (Or.inr ⟨n, le_rfl, h⟩)
    exact ⟨hi.left_cleared, by simp [hrun], by simp, fun _ w => hi.joined n h w w.isLt⟩
  | _ => exact hi.keep hs rfl rfl

theorem Reachable.stopInv {maxQueueSize : ℕ} (h : Reachable maxQueueSize s) : StopInv s :=
  h.invariant (fun _ _ _ => StopInv.step) (stopInv_start n m maxQueueSize)

/-! ### Accepted tasks -/

/-- A call of `run` that returns, or is about to, has pushed its task. -/
structure Accepted (s : Pool n m) : Prop where
  returned : ∀ job ∈ s.returned, job ∈ s.pushed
  returning : ∀ p job, s.producers p = .returning job → job ∈ s.pushed

theorem Accepted.move (hi : Accepted s) {p : Fin m} {x : Producer}
    (hx : ∀ job, x = .returning job → job ∈ s.pushed) : Accepted (s.setProducer p x) where
  returned := hi.returned
  returning := (Function.forall_update_iff s.producers
    fun _ y => ∀ job, y = .returning job → job ∈ s.pushed).mpr ⟨hx, fun q _ => hi.returning q⟩

theorem Accepted.step (hi : Accepted s) (hs : step s a = some s') : Accepted s' := by
  cases step_effect hs with
  | takeJob h hq hp =>
    refine ⟨hi.returned, ?_⟩
    obtain ⟨_, hp⟩ | ⟨_, rfl⟩ := hp
    · refine Condition.notify_forall (P := fun x => ∀ job, x = .returning job → job ∈ s.pushed)
        (fun x hx job hw => ?_) hp hi.returning
      cases x <;> simp_all [notFull]
    · exact hi.returning
  | callRun h => exact hi.move (by split_ifs <;> simp)
  | pushWait h hf => exact hi.move (by simp)
  | @push p wake task workers h hf hw =>
    have hgrow : Accepted { s with pushed := s.pushed ++ [⟨s.pushed.length, task⟩] } :=
      ⟨fun job hj => List.mem_append_left _ (hi.returned job hj),
        fun q job hq => List.mem_append_left _ (hi.returning q job hq)⟩
    have hmoved := hgrow.move (p := p) (x := .returning ⟨s.pushed.length, task⟩) (by simp)
    exact ⟨hmoved.returned, hmoved.returning⟩
  | spuriousNotFull h => exact hi.move (by simp)
  | @returnRun p job h =>
    refine ⟨fun j hj => ?_, (hi.move (p := p) (x := .outside) (by simp)).returning⟩
    rcases List.mem_append.mp hj with hj | hj
    · exact hi.returned j hj
    · rw [List.mem_singleton.mp hj]
      exact hi.returning p job h
  | returnCall h => exact hi.move (by simp)
  | _ => exact ⟨hi.returned, hi.returning⟩

theorem Reachable.accepted {maxQueueSize : ℕ} (h : Reachable maxQueueSize s) : Accepted s :=
  h.invariant (fun _ _ _ => Accepted.step) ⟨by simp [start], by simp [start]⟩

/-- When `stop` returns, no worker holds a task. -/
theorem holders_eq_zero (hi : AllLeft s) (job : Job) : holders s job = 0 := by
  simp [holders, hi _]

/-- A task whose `run` has returned, in particular before `stop` was called, has,
when `stop` returns, either been executed once or is still in `queue_` and was
not executed; an empty one may have been passed over instead. No worker holds
anything, and what is left in `queue_` was pushed after all that was taken. What
returned and what was executed is what the steps of the run returned and executed. -/
theorem accepted_executed_or_queued {n m maxQueueSize : ℕ} {as bs : List (Action n m)}
    {s₁ s₂ : Pool n m} (h₁ : Runs.run step (start n m maxQueueSize) as = some s₁)
    (h₂ : Runs.run step s₁ bs = some s₂) (hstop : s₂.stopper = .returned) :
    s₂.pushed = s₂.popped ++ s₂.queue ∧ s₂.pushed.Nodup ∧
    (∀ job ∈ s₁.returned, job ∈ s₂.pushed ∧ holders s₂ job = 0 ∧
      (job.task.callable = true → s₂.executed.count job + s₂.queue.count job = 1) ∧
      (job.task.callable = false →
        s₂.discarded.count job + s₂.queue.count job = 1 ∧ job ∉ s₂.executed)) ∧
    s₁.returned = Runs.trace step returns (start n m maxQueueSize) as ∧
    s₂.executed = Runs.trace step executes (start n m maxQueueSize) (as ++ bs) := by
  have hrun : Runs.run step (start n m maxQueueSize) (as ++ bs) = some s₂ := by
    rw [Runs.run_append, h₁, Option.bind_some, h₂]
  have hreach₁ : Reachable maxQueueSize s₁ := ⟨as, h₁⟩
  have hreach : Reachable maxQueueSize s₂ := ⟨as ++ bs, hrun⟩
  have hi := hreach.tasksInv
  have hleft := hreach.stopInv.returned hstop
  obtain ⟨_, _, _, hreturned⟩ := history_run h₁
  obtain ⟨_, _, hexecuted, _⟩ := history_run hrun
  refine ⟨hi.fifo, hi.ticketed.nodup, fun job hj => ?_, hreturned, hexecuted⟩
  have hpushed : job ∈ s₂.pushed := by
    rw [(history_run h₂).1]
    exact List.mem_append_left _ (hreach₁.accepted.returned job hj)
  have hplaces := hi.places hpushed
  rw [holders_eq_zero hleft] at hplaces
  refine ⟨hpushed, holders_eq_zero hleft job, fun hc => ?_, fun hc => ?_⟩
  · have hd : job ∉ s₂.discarded := fun hmem => by simp [hi.invoked.discarded job hmem] at hc
    rw [List.count_eq_zero.mpr hd] at hplaces
    omega
  · have he : job ∉ s₂.executed := fun hmem => by simp [hi.invoked.executed job hmem] at hc
    rw [List.count_eq_zero.mpr he] at hplaces
    exact ⟨by omega, he⟩

/-- A task is accepted; `stop` is called before the one worker gets to it. -/
def lateStop : List (Action 1 1) × List (Action 1 1) :=
  ([.callRun 0 (.call 7), .push 0 none, .returnRun 0],
    [.callStop, .stop, .initialized 0, .testRunning 0, .join, .returnStop])

/-- The accepted task of `lateStop` is in `queue_` for ever. -/
theorem accepted_task_left_in_queue :
    ∃ s₁ s₂ : Pool 1 1, Reachable 1 s₁ ∧ Runs.Reaches step s₁ s₂ ∧ s₂.stopper = .returned ∧
      ⟨0, .call 7⟩ ∈ s₁.returned ∧ ⟨0, .call 7⟩ ∈ s₂.queue ∧
      s₂.executed.count ⟨0, .call 7⟩ + s₂.queue.count ⟨0, .call 7⟩ = 1 := by
  obtain ⟨s₁, hr₁, hs₁⟩ := Runs.exists_of_any step (start 1 1 1) lateStop.1
    (fun s => ⟨0, .call 7⟩ ∈ s.returned) (by decide)
  obtain ⟨s₂, hr₂, hs₂⟩ := Runs.exists_of_any step (start 1 1 1) (lateStop.1 ++ lateStop.2)
    (fun s => s.stopper = .returned ∧ ⟨0, .call 7⟩ ∈ s.queue) (by decide)
  rw [Runs.run_append, hr₁] at hr₂
  have hret := of_decide_eq_true hs₁
  obtain ⟨hstop, hqueue⟩ := of_decide_eq_true hs₂
  exact ⟨s₁, s₂, ⟨_, hr₁⟩, ⟨_, hr₂⟩, hstop, hret, hqueue,
    ((accepted_executed_or_queued hr₁ hr₂ hstop).2.2.1 _ hret).2.2.1 rfl⟩

/-- `stop` does not drain `queue_`: the worker of `lateStop` tests `running_`
before it would take the accepted task. -/
theorem stop_drains_nothing :
    ¬ ∀ (n m maxQueueSize : ℕ) (s₁ s₂ : Pool n m), 0 < n → Reachable maxQueueSize s₁ →
      s₁.stopper = .notCalled → Runs.Reaches step s₁ s₂ → s₂.stopper = .returned →
      ∀ job ∈ s₁.returned, job.task.callable = true → s₂.executed.count job = 1 := by
  intro hevery
  obtain ⟨s₁, hr₁, hs₁⟩ := Runs.exists_of_any step (start 1 1 1) lateStop.1
    (fun s => s.stopper = .notCalled ∧ ⟨0, .call 7⟩ ∈ s.returned) (by decide)
  obtain ⟨s₂, hr₂, hs₂⟩ := Runs.exists_of_any step (start 1 1 1) (lateStop.1 ++ lateStop.2)
    (fun s => s.stopper = .returned ∧ s.executed = []) (by decide)
  rw [Runs.run_append, hr₁] at hr₂
  obtain ⟨hcall, hret⟩ := of_decide_eq_true hs₁
  obtain ⟨hstop, hexec⟩ := of_decide_eq_true hs₂
  have hone := hevery 1 1 1 s₁ s₂ (by decide) ⟨_, hr₁⟩ hcall ⟨_, hr₂⟩ hstop _ hret rfl
  simp [hexec] at hone

/-! ### Stranded producers -/

/-- `stop` has returned and a producer is blocked in `run` with no wake-up pending. -/
def Stranded (s : Pool n m) : Prop :=
  s.stopper = .returned ∧ ∃ p task, s.producers p = .waiting task false

/-- The two branches that strand a producer are not taken: the last worker does
not leave while a producer is blocked on `notFull_`, and no producer finds the
queue full once the last worker has left. -/
def Attended (s : Pool n m) : Action n m → Prop
  | .testRunning w => s.running = true ∨ (∃ w' ≠ w, s.workers w' ≠ .left) ∨
      ∀ p task, s.producers p ≠ .waiting task false
  | .push _ _ => isFull s = false ∨ ¬ AllLeft s
  | _ => True

/-- Once all workers have left, no producer is blocked. -/
def Unstranded (s : Pool n m) : Prop :=
  AllLeft s → ∀ p, notFull.blocked (s.producers p) = false

theorem blocked_iff {x : Producer} :
    notFull.blocked x = true ↔ ∃ task, x = .waiting task false := by
  cases x with
  | waiting task woken => cases woken <;> simp [notFull]
  | _ => simp [notFull]

/-- A worker that moves without leaving is still there. -/
theorem not_allLeft_setWorker {w : Fin n} {x : Worker} (hx : x ≠ .left) :
    ¬ AllLeft (s.setWorker w x) := by
  intro hall
  have hw := hall w
  simp [hx] at hw

theorem Unstranded.move (hi : Unstranded s) {p : Fin m} {x : Producer}
    (hx : AllLeft s → notFull.blocked x = false) : Unstranded (s.setProducer p x) := by
  intro hall
  exact (Function.forall_update_iff s.producers fun _ y => notFull.blocked y = false).mpr
    ⟨hx hall, fun q _ => hi hall q⟩

theorem Unstranded.step (hi : Unstranded s) (hatt : Attended s a) (hs : step s a = some s') :
    Unstranded s' := by
  cases step_effect hs with
  | initialized h => exact fun hall => absurd hall (not_allLeft_setWorker (by simp))
  | stay h hr => exact fun hall => absurd hall (not_allLeft_setWorker (by simp))
  | @leave w h hr =>
    intro hall p
    rcases hatt with hrun | ⟨w', hne, hw'⟩ | hfree
    · rw [hr] at hrun; contradiction
    · -- another worker is still there
      have hleft := hall w'
      simp [Function.update_of_ne hne, hw'] at hleft
    · by_contra hb
      obtain ⟨task, hp⟩ := blocked_iff.mp (by simpa using hb)
      exact hfree p task hp
  | takeWait h hq hr => exact fun hall => absurd hall (not_allLeft_setWorker (by simp))
  | takeNone h hq hr => exact fun hall => absurd hall (not_allLeft_setWorker (by simp))
  | takeJob h hq hp =>
    exact fun hall => absurd hall (not_allLeft_setWorker (x := .took _) (by simp))
  | spuriousNotEmpty h => exact fun hall => absurd hall (not_allLeft_setWorker (by simp))
  | testNone h => exact fun hall => absurd hall (not_allLeft_setWorker (by simp))
  | invoke h hc => exact fun hall => absurd hall (not_allLeft_setWorker (by simp))
  | passOver h hc =>
    exact fun hall => absurd hall (not_allLeft_setWorker (x := .loop) (by simp))
  | finishTask h =>
    exact fun hall => absurd hall (not_allLeft_setWorker (x := .loop) (by simp))
  | callRun h => exact hi.move fun _ => by split_ifs <;> rfl
  | pushWait h hf =>
    refine hi.move fun hall => ?_
    rcases hatt with hroom | hnot
    · rw [hf] at hroom; contradiction
    · exact absurd hall hnot
  | push h hf hn =>
    exact fun hall => hi.move (x := .returning _) (fun _ => rfl) fun w => notify_left hn (hall w)
  | spuriousNotFull h => exact hi.move fun _ => rfl
  | returnRun h => exact hi.move (x := .outside) fun _ => rfl
  | returnCall h => exact hi.move fun _ => rfl
  | stop h => exact fun hall => hi fun w => notifyAll_left (hall w)
  | _ => exact hi

/-- With all workers gone, `stop` returns and leaves the producers as they are. -/
theorem stop_returns (hn : 0 < n) (hi : StopInv s) (hall : AllLeft s) :
    ∃ as s', (∀ b ∈ as, b = .join ∨ b = .returnStop) ∧ Runs.run step s as = some s' ∧
      s'.stopper = .returned ∧ s'.producers = s.producers := by
  have hjoin (j : ℕ) : ∀ (s : Pool n m) (k : ℕ), AllLeft s → s.stopper = .joining k → k + j = n →
      ∃ as s', (∀ b ∈ as, b = .join ∨ b = .returnStop) ∧ Runs.run step s as = some s' ∧
        s'.stopper = .returned ∧ s'.producers = s.producers := by
    induction j with
    | zero =>
      intro s k _ hk hkn
      obtain rfl : k = n := by omega
      exact ⟨[.returnStop], { s with stopper := .returned }, by simp, by simp [step, hk], rfl, rfl⟩
    | succ j ih =>
      intro s k hall hk hkn
      have hlt : k < n := by omega
      obtain ⟨as, s', has, hrun, hret, hprod⟩ :=
        ih { s with stopper := .joining (k + 1) } (k + 1) hall rfl (by omega)
      refine ⟨.join :: as, s', ?_, ?_, hret, hprod⟩
      · simpa using has
      · simpa [step, hk, hlt, hall _] using hrun
  have hcleared := hi.left_cleared ⟨0, hn⟩ (hall _)
  obtain hret | ⟨k, hk, hjoining⟩ := hi.cleared_joining.mp hcleared
  · exact ⟨[], s, by simp, rfl, hret, rfl⟩
  · exact hjoin (n - k) s k hall hjoining (by omega)

/-- A step that is not attended leaves a producer blocked and no worker. -/
theorem blocked_of_not_attended (hatt : ¬ Attended s a) (hs : step s a = some s') :
    AllLeft s' ∧ ∃ p task, s'.producers p = .waiting task false := by
  cases step_effect hs with
  | stay h hr => exact absurd (Or.inl hr) hatt
  | @leave w h hr =>
    simp only [Attended, not_or, not_exists, not_and, not_forall, not_not] at hatt
    obtain ⟨_, hothers, p, task, hp⟩ := hatt
    refine ⟨fun w' => ?_, p, task, hp⟩
    by_cases hw : w' = w
    · subst hw; simp
    · simpa [Function.update_of_ne hw] using hothers w' hw
  | @pushWait p wake task h hf =>
    simp only [Attended, not_or, not_not] at hatt
    exact ⟨hatt.2, p, task, by simp⟩
  | push h hf hn => exact absurd (Or.inl hf) hatt
  | _ => exact absurd trivial hatt

/-- When `stop` strands no producer. In a run all of whose steps are attended,
no state is stranded; and after a step that is not attended, `stop` alone, by
joining the workers and returning, ends in a stranded state. -/
theorem unstranded_of_attended {n m maxQueueSize : ℕ} (hn : 0 < n) :
    (∀ as, Runs.Meets Attended step (start n m maxQueueSize) as →
      ∀ s, Runs.Visits step (start n m maxQueueSize) as s → ¬ Stranded s) ∧
    (∀ (s s' : Pool n m) (a : Action n m), Reachable maxQueueSize s → step s a = some s' →
      ¬ Attended s a → ∃ as s'', (∀ b ∈ as, b = .join ∨ b = .returnStop) ∧
        Runs.run step s' as = some s'' ∧ Stranded s'') := by
  constructor
  · rintro as hmeets s hvisit ⟨hret, p, task, hp⟩
    have hun : Unstranded s := hmeets.invariant (fun _ _ _ => Unstranded.step)
      (fun hall => by simpa [start] using hall ⟨0, hn⟩) hvisit
    have hreach : Reachable maxQueueSize s := hvisit.reaches
    have hfree := hun (hreach.stopInv.returned hret) p
    rw [blocked_iff.mpr ⟨task, hp⟩] at hfree
    contradiction
  · intro s s' a hreach hs hatt
    obtain ⟨hall, p, task, hp⟩ := blocked_of_not_attended hatt hs
    obtain ⟨as, s'', has, hrun, hret, hprod⟩ :=
      stop_returns hn (hreach.stopInv.step hs) hall
    exact ⟨as, s'', has, hrun, hret, p, task, by rw [hprod, hp]⟩

/-- The one worker is busy, the queue of one is full and a producer is blocked
when `stop` is called; then the worker finishes its task. -/
def busyStop : List (Action 1 1) :=
  [.initialized 0, .callRun 0 (.call 1), .push 0 none, .returnRun 0, .testRunning 0, .take 0 none,
    .testTask 0, .callRun 0 (.call 2), .push 0 none, .returnRun 0, .callRun 0 (.call 3),
    .push 0 none, .callStop, .stop, .finishTask 0]

/-- The worker of `busyStop` may not leave, and if it does, `stop` strands the producer. -/
theorem unstranded_of_attended_busyStop :
    ∃ s s' : Pool 1 1, Reachable 1 s ∧ step s (.testRunning 0) = some s' ∧
      ¬ Attended s (.testRunning 0) ∧ ∃ as s'', (∀ b ∈ as, b = .join ∨ b = .returnStop) ∧
        Runs.run step s' as = some s'' ∧ Stranded s'' := by
  obtain ⟨s, hr, hs⟩ := Runs.exists_of_any step (start 1 1 1) busyStop
    (fun s => s.running = false ∧ s.workers 0 = .loop ∧
      s.producers 0 = .waiting (.call 3) false) (by decide)
  obtain ⟨hrun, hw, hp⟩ := of_decide_eq_true hs
  have hstep : step s (.testRunning 0) = some (s.setWorker 0 .left) := by simp [step, hw, hrun]
  have hatt : ¬ Attended s (.testRunning 0) := by
    rintro (h | ⟨w, hne, _⟩ | hfree)
    · rw [hrun] at h; contradiction
    · exact hne (Subsingleton.elim w 0)
    · exact hfree 0 _ hp
  exact ⟨s, _, ⟨_, hr⟩, hstep, hatt,
    (unstranded_of_attended (by decide)).2 s _ _ ⟨_, hr⟩ hstep hatt⟩

/-- `stop` can strand a producer: `busyStop`, and then the worker leaves. -/
theorem stop_strands_producer :
    ¬ ∀ (n m maxQueueSize : ℕ) (s : Pool n m), 0 < n → 0 < maxQueueSize →
      Reachable maxQueueSize s → ¬ Stranded s := by
  intro hevery
  obtain ⟨s, hr, hs⟩ := Runs.exists_of_any step (start 1 1 1)
    (busyStop ++ [.testRunning 0, .join, .returnStop])
    (fun s => s.stopper = .returned ∧ s.producers 0 = .waiting (.call 3) false) (by decide)
  obtain ⟨hret, hp⟩ := of_decide_eq_true hs
  exact hevery 1 1 1 s (by decide) (by decide) ⟨_, hr⟩ ⟨hret, 0, _, hp⟩

end NaiveNet.ThreadPool
