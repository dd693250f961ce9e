import NaiveNet.CountDownLatch
import NaiveNet.ThreadPoolProgress

/-!
# A pool that is stopped behind a latch

`test` of the pool hands over its tasks, then one that counts a latch down, waits for the
latch and stops the pool. `stop` alone may leave tasks in `queue_`; but the latch opens only
when all of them are taken, and so they are all executed. The pool and the latch make their
own steps; `test` and the workers say which they make, and in what order.
-/
namespace NaiveNet.ThreadPoolTest

open ThreadPool (Pool Job Producer Stopper Task Worker)
open CountDownLatch (Latch)

/-- Where `test` stands. -/
inductive Main
  /-- So many calls of `run` have returned. -/
  | adding (i : ℕ)
  /-- In `latch.wait()`. -/
  | waiting
  /-- In `pool.stop()`, or about to call it. -/
  | stopping
  | returned
  deriving DecidableEq

/-- The thread that runs `test`, the only one that calls `run`. -/
def producer : Fin 1 := Fin.last 0

/-- The one producer runs `test`. The latch has the workers as its threads and this one as the
last. -/
structure State (n : ℕ) where
  pool : Pool n 1
  latch : Option (Latch (n + 1))
  main : Main

def start (n maxSize : ℕ) : State n := ⟨ThreadPool.start n 1 maxSize, none, .adding 0⟩

/-- The worker executes the task that counts the latch down, the last of the `k + 1` tasks. -/
def counts (k : ℕ) : Worker → Bool
  | .executing job => job.task = .call k
  | _ => false

variable {n : ℕ}

inductive Action (n : ℕ)
  /-- `CountDownLatch latch(1)` -/
  | construct
  | run
  | returnRun
  | wait
  | returnWait
  | stop
  /-- `~CountDownLatch()`, at the end of `test`. -/
  | destroy
  /-- A worker calls its task. -/
  | testTask (w : Fin n)
  /-- The task returns. -/
  | finishTask (w : Fin n)
  /-- The critical section of `countDown`. -/
  | countDown (w : Fin n)
  /-- A critical section of `wait`. -/
  | testCount
  | spuriousCount
  | pool (a : ThreadPool.Action n 1)

/-- The steps of the pool that need nothing from `test` or a task. -/
def inner : ThreadPool.Action n 1 → Bool
  | .initialized _ | .testRunning _ | .take _ _ | .spuriousNotEmpty _ => true
  | .push _ _ | .spuriousNotFull _ | .stop | .join | .returnStop => true
  | _ => false

def onPool (s : State n) (a : ThreadPool.Action n 1) : Option (State n) :=
  (ThreadPool.step s.pool a).map fun pool => { s with pool := pool }

def onLatch (s : State n) (a : CountDownLatch.Action (n + 1)) : Option (State n) := do
  let latch ← s.latch
  let latch ← CountDownLatch.step latch a
  return { s with latch := some latch }

def step (k : ℕ) (s : State n) : Action n → Option (State n)
  | .construct =>
    if s.main = .adding k ∧ s.latch.isNone then
      some { s with latch := some (CountDownLatch.new (n + 1) 1) }
    else none
  | .run =>
    match s.main with
    | .adding i =>
      if i < k ∨ i = k ∧ s.latch.isSome then onPool s (.callRun producer (.call i)) else none
    | _ => none
  | .returnRun =>
    match s.main with
    | .adding i => onPool { s with main := .adding (i + 1) } (.returnRun producer)
    | _ => none
  | .wait =>
    if s.main = .adding (k + 1) then onLatch { s with main := .waiting } (.callWait (Fin.last n))
    else none
  | .returnWait =>
    if s.main = .waiting then onLatch { s with main := .stopping } (.return (Fin.last n)) else none
  | .stop => if s.main = .stopping then onPool s .callStop else none
  | .destroy =>
    if s.main = .stopping ∧ s.pool.stopper = .returned then
      some { s with latch := none, main := .returned }
    else none
  | .testTask w => do
    let s' ← onPool s (.testTask w)
    if counts k (s'.pool.workers w) then onLatch s' (.callCountDown w.castSucc)
    else return s'
  | .finishTask w => do
    let s' ← onPool s (.finishTask w)
    if counts k (s.pool.workers w) then onLatch s' (.return w.castSucc) else return s'
  | .countDown w => onLatch s (.countDown w.castSucc)
  | .testCount => onLatch s (.wait (Fin.last n))
  | .spuriousCount => onLatch s (.spurious (Fin.last n))
  | .pool a => if inner a then onPool s a else none

def Action.spurious : Action n → Bool
  | .spuriousCount | .pool (.spuriousNotEmpty _) | .pool (.spuriousNotFull _) => true
  | _ => false

/-- All that a step can do. -/
inductive Effect (k : ℕ) (s : State n) : Action n → State n → Prop
  | construct (hmain : s.main = .adding k) (hnone : s.latch = none) :
      Effect k s .construct { s with latch := some (CountDownLatch.new (n + 1) 1) }
  | run {i p} (hmain : s.main = .adding i) (hi : i < k ∨ i = k ∧ s.latch.isSome)
      (hs : ThreadPool.step s.pool (.callRun producer (.call i)) = some p) :
      Effect k s .run { s with pool := p }
  | returnRun {i p} (hmain : s.main = .adding i)
      (hs : ThreadPool.step s.pool (.returnRun producer) = some p) :
      Effect k s .returnRun { s with pool := p, main := .adding (i + 1) }
  | wait {l l'} (hmain : s.main = .adding (k + 1)) (hl : s.latch = some l)
      (hs : CountDownLatch.step l (.callWait (Fin.last n)) = some l') :
      Effect k s .wait { s with latch := some l', main := .waiting }
  | returnWait {l l'} (hmain : s.main = .waiting) (hl : s.latch = some l)
      (hs : CountDownLatch.step l (.return (Fin.last n)) = some l') :
      Effect k s .returnWait { s with latch := some l', main := .stopping }
  | stop {p} (hmain : s.main = .stopping) (hs : ThreadPool.step s.pool .callStop = some p) :
      Effect k s .stop { s with pool := p }
  | destroy (hmain : s.main = .stopping) (hstop : s.pool.stopper = .returned) :
      Effect k s .destroy { s with latch := none, main := .returned }
  | testTask {w p} (hs : ThreadPool.step s.pool (.testTask w) = some p)
      (hcounts : counts k (p.workers w) = false) : Effect k s (.testTask w) { s with pool := p }
  | callCountDown {w p l l'} (hs : ThreadPool.step s.pool (.testTask w) = some p)
      (hcounts : counts k (p.workers w) = true) (hl : s.latch = some l)
      (hs' : CountDownLatch.step l (.callCountDown w.castSucc) = some l') :
      Effect k s (.testTask w) { s with pool := p, latch := some l' }
  | finishTask {w p} (hs : ThreadPool.step s.pool (.finishTask w) = some p)
      (hcounts : counts k (s.pool.workers w) = false) :
      Effect k s (.finishTask w) { s with pool := p }
  | returnCountDown {w p l l'} (hs : ThreadPool.step s.pool (.finishTask w) = some p)
      (hcounts : counts k (s.pool.workers w) = true) (hl : s.latch = some l)
      (hs' : CountDownLatch.step l (.return w.castSucc) = some l') :
      Effect k s (.finishTask w) { s with pool := p, latch := some l' }
  | countDown {w l l'} (hl : s.latch = some l)
      (hs : CountDownLatch.step l (.countDown w.castSucc) = some l') :
      Effect k s (.countDown w) { s with latch := some l' }
  | testCount {l l'} (hl : s.latch = some l)
      (hs : CountDownLatch.step l (.wait (Fin.last n)) = some l') :
      Effect k s .testCount { s with latch := some l' }
  | spuriousCount {l l'} (hl : s.latch = some l)
      (hs : CountDownLatch.step l (.spurious (Fin.last n)) = some l') :
      Effect k s .spuriousCount { s with latch := some l' }
  | pool {b p} (hinner : inner b = true) (hs : ThreadPool.step s.pool b = some p) :
      Effect k s (.pool b) { s with pool := p }

def Reachable (k maxSize : ℕ) (s : State n) : Prop := Runs.Reaches (step k) (start n maxSize) s

variable {k maxSize : ℕ} {s s' : State n} {a : Action n}

theorem onPool_cases {b : ThreadPool.Action n 1} (h : onPool s b = some s') :
    ∃ p, ThreadPool.step s.pool b = some p ∧ s' = { s with pool := p } := by
  obtain ⟨p, hp, rfl⟩ := Option.map_eq_some_iff.mp h
  exact ⟨p, hp, rfl⟩

theorem onLatch_cases {b : CountDownLatch.Action (n + 1)} (h : onLatch s b = some s') :
    ∃ l l', s.latch = some l ∧ CountDownLatch.step l b = some l' ∧
      s' = { s with latch := some l' } := by
  obtain ⟨l, hl, h⟩ := Option.bind_eq_some_iff.mp h
  obtain ⟨l', hl', h⟩ := Option.bind_eq_some_iff.mp h
  exact ⟨l, l', hl, hl', (Option.some.inj h).symm⟩

theorem step_effect (h : step k s a = some s') : Effect k s a s' := by
  cases a with
  | construct =>
    rw [step, Option.ite_none_right_eq_some] at h
    obtain ⟨⟨hmain, hnone⟩, h⟩ := h
    obtain rfl := Option.some.inj h
    exact .construct hmain (Option.isNone_iff_eq_none.mp hnone)
  | run =>
    simp only [step] at h
    split at h
    · next i hmain =>
      rw [Option.ite_none_right_eq_some] at h
      obtain ⟨hi, h⟩ := h
      obtain ⟨p, hp, rfl⟩ := onPool_cases h
      exact .run hmain hi hp
    · contradiction
  | returnRun =>
    simp only [step] at h
    split at h
    · next i hmain =>
      obtain ⟨p, hp, rfl⟩ := onPool_cases h
      exact .returnRun hmain hp
    · contradiction
  | wait =>
    rw [step, Option.ite_none_right_eq_some] at h
    obtain ⟨hmain, h⟩ := h
    obtain ⟨l, l', hl, hl', rfl⟩ := onLatch_cases h
    exact .wait hmain hl hl'
  | returnWait =>
    rw [step, Option.ite_none_right_eq_some] at h
    obtain ⟨hmain, h⟩ := h
    obtain ⟨l, l', hl, hl', rfl⟩ := onLatch_cases h
    exact .returnWait hmain hl hl'
  | stop =>
    rw [step, Option.ite_none_right_eq_some] at h
    obtain ⟨hmain, h⟩ := h
    obtain ⟨p, hp, rfl⟩ := onPool_cases h
    exact .stop hmain hp
  | destroy =>
    rw [step, Option.ite_none_right_eq_some] at h
    obtain ⟨⟨hmain, hstop⟩, h⟩ := h
    obtain rfl := Option.some.inj h
    exact .destroy hmain hstop
  | testTask w =>
    obtain ⟨s₁, hs₁, h⟩ := Option.bind_eq_some_iff.mp h
    obtain ⟨p, hp, rfl⟩ := onPool_cases hs₁
    split_ifs at h with hcounts
    · obtain ⟨l, l', hl, hl', rfl⟩ := onLatch_cases h
      exact .callCountDown hp hcounts hl hl'
    · obtain rfl := Option.some.inj h
      exact .testTask hp (by simpa using hcounts)
  | finishTask w =>
    obtain ⟨s₁, hs₁, h⟩ := Option.bind_eq_some_iff.mp h
    obtain ⟨p, hp, rfl⟩ := onPool_cases hs₁
    split_ifs at h with hcounts
    · obtain ⟨l, l', hl, hl', rfl⟩ := onLatch_cases h
      exact .returnCountDown hp hcounts hl hl'
    · obtain rfl := Option.some.inj h
      exact .finishTask hp (by simpa using hcounts)
  | countDown w =>
    obtain ⟨l, l', hl, hl', rfl⟩ := onLatch_cases h
    exact .countDown hl hl'
  | testCount =>
    obtain ⟨l, l', hl, hl', rfl⟩ := onLatch_cases h
    exact .testCount hl hl'
  | spuriousCount =>
    obtain ⟨l, l', hl, hl', rfl⟩ := onLatch_cases h
    exact .spuriousCount hl hl'
  | pool b =>
    rw [step, Option.ite_none_right_eq_some] at h
    obtain ⟨hinner, h⟩ := h
    obtain ⟨p, hp, rfl⟩ := onPool_cases h
    exact .pool hinner hp

/-! ### What the pool leaves alone -/

section PoolSteps

variable {p p' : Pool n 1} {b : ThreadPool.Action n 1}

/-- `stop` is called by `test` only, and is never undone. -/
theorem stopper_step (hs : ThreadPool.step p b = some p') :
    p'.stopper = p.stopper ∨ p.stopper ≠ .returned ∧ (p.stopper = .notCalled → b = .callStop) := by
  cases ThreadPool.step_effect hs with
  | callStop h => exact Or.inr ⟨by simp [h], fun _ => rfl⟩
  | stop h => exact Or.inr ⟨by simp [h], by simp [h]⟩
  | join h hk hl => exact Or.inr ⟨by simp [h], by simp [h]⟩
  | returnStop h => exact Or.inr ⟨by simp [h], by simp [h]⟩
  | _ => exact Or.inl rfl

theorem counts_wake (x : Worker) : counts k (ThreadPool.notEmpty.wake x) = counts k x := by
  cases x <;> rfl

/-- A worker enters and leaves the task that counts by its own steps only. -/
theorem counts_step (hs : ThreadPool.step p b = some p') {w : Fin n} (htest : b ≠ .testTask w)
    (hfinish : b ≠ .finishTask w) : counts k (p'.workers w) = counts k (p.workers w) := by
  have hmove {v : Fin n} {x : Worker} (h : w = v → counts k x = counts k (p.workers v)) :
      counts k (Function.update p.workers v x w) = counts k (p.workers w) := by
    by_cases hv : w = v
    · subst hv
      rw [Function.update_self, h rfl]
    · rw [Function.update_of_ne hv]
  cases ThreadPool.step_effect hs with
  | initialized h | stay h _ | leave h _ | spuriousNotEmpty h =>
    exact hmove fun _ => by rw [h]; rfl
  | takeWait h _ _ | takeNone h _ _ =>
    exact hmove fun _ => by rcases h with h | h <;> rw [h] <;> rfl
  | takeJob h _ _ => exact hmove (x := .took _) fun _ => by rcases h with h | h <;> rw [h] <;> rfl
  | @testNone v h => exact hmove fun hv => absurd (hv ▸ rfl) htest
  | invoke h _ => exact hmove fun hv => absurd (hv ▸ rfl) htest
  | passOver h _ => exact hmove (x := .loop) fun hv => absurd (hv ▸ rfl) htest
  | finishTask h => exact hmove (x := .loop) fun hv => absurd (hv ▸ rfl) hfinish
  | push h _ hw =>
    rcases Condition.notify_apply hw w with heq | ⟨_, heq⟩
    · exact congrArg _ heq
    · exact (congrArg _ heq).trans (counts_wake _)
  | stop h =>
    rcases Condition.notifyAll_apply ThreadPool.notEmpty p.workers w with heq | ⟨_, heq⟩
    · exact congrArg _ heq
    · exact (congrArg _ heq).trans (counts_wake _)
  | _ => rfl

theorem executed_step (hs : ThreadPool.step p b = some p') (hfinish : ∀ w, b ≠ .finishTask w) :
    p'.executed = p.executed := by
  cases ThreadPool.step_effect hs with
  | @finishTask w job h => exact absurd rfl (hfinish w)
  | _ => rfl

theorem popped_pushed (hi : ThreadPool.TasksInv p) {job : Job} (h : job ∈ p.popped) :
    job ∈ p.pushed := by
  rw [hi.fifo]
  exact List.mem_append_left _ h

/-- A task in a worker's hands was taken, is in no other's and not yet executed. -/
theorem executing_cases (hi : ThreadPool.TasksInv p) {w : Fin n} {job : Job}
    (hw : p.workers w = .executing job) :
    job ∈ p.popped ∧ job ∉ p.executed ∧ ∀ v, p.workers v = .executing job → v = w := by
  have hmem : w ∈ Finset.univ.filter fun v =>
      p.workers v = .took (some job) ∨ p.workers v = .executing job := by simp [hw]
  have hheld : 0 < ThreadPool.holders p job := Finset.card_pos.mpr ⟨w, hmem⟩
  have hcount := congrArg (Multiset.count job) hi.placed
  simp only [Multiset.count_add, Multiset.coe_count, ThreadPool.count_held] at hcount
  have hpopped : job ∈ p.popped := List.count_pos_iff.mp (by omega)
  have hplaces := hi.places (popped_pushed hi hpopped)
  refine ⟨hpopped, List.count_eq_zero.mp (by omega), fun v hv => ?_⟩
  have hone : ThreadPool.holders p job ≤ 1 := by omega
  exact Finset.card_le_one.mp hone v (by simp [hv]) w hmem

theorem executed_popped (hi : ThreadPool.TasksInv p) {job : Job} (h : job ∈ p.executed) :
    job ∈ p.popped := by
  have hcount := congrArg (Multiset.count job) hi.placed
  simp only [Multiset.count_add, Multiset.coe_count] at hcount
  have hpos : 0 < p.executed.count job := List.count_pos_iff.mpr h
  exact List.count_pos_iff.mp (by omega)

theorem executed_subset (hs : ThreadPool.step p b = some p') {job : Job}
    (hj : job ∈ p.executed) : job ∈ p'.executed := by
  cases ThreadPool.step_effect hs with
  | finishTask h => exact List.mem_append_left _ hj
  | _ => exact hj

end PoolSteps

/-! ### The tasks that `test` hands over -/

/-- The task of a call of `run`. -/
def job (i : ℕ) : Job := ⟨i, .call i⟩

def jobs (r : ℕ) : List Job := (List.range r).map job

@[simp] theorem length_jobs (r : ℕ) : (jobs r).length = r := by simp [jobs]

theorem jobs_succ (r : ℕ) : jobs (r + 1) = jobs r ++ [job r] := by simp [jobs, List.range_succ]

theorem mem_jobs {r : ℕ} {j : Job} : j ∈ jobs r ↔ j.ticket < r ∧ j = job j.ticket := by
  simp only [jobs, List.mem_map, List.mem_range]
  constructor
  · intro h
    obtain ⟨i, hlt, rfl⟩ := h
    exact ⟨hlt, rfl⟩
  · intro h
    exact ⟨j.ticket, h.1, h.2.symm⟩

/-- Among the tasks handed over, one counts. -/
theorem eq_job {r : ℕ} {j : Job} (hj : j ∈ jobs r) (hk : j.task = .call k) : j = job k ∧ k < r := by
  obtain ⟨hlt, heq⟩ := mem_jobs.mp hj
  rw [heq] at hk
  obtain rfl := Task.call.inj hk
  exact ⟨heq, hlt⟩

theorem executing_job {p : Pool n 1} (hi : ThreadPool.TasksInv p) {r : ℕ}
    (hpushed : p.pushed = jobs r) {w : Fin n} (hw : counts k (p.workers w) = true) :
    p.workers w = .executing (job k) := by
  cases hx : p.workers w with
  | executing j =>
    have hmem := popped_pushed hi (executing_cases hi hx).1
    rw [hpushed] at hmem
    rw [hx] at hw
    rw [(eq_job hmem (of_decide_eq_true hw)).1]
  | _ =>
    rw [hx] at hw
    contradiction

/-- So many tasks are pushed when `i` calls of `run` have returned and the producer stands
here; the latch is made before the last call. -/
inductive Adds (k : ℕ) (made : Prop) : ℕ → Producer → ℕ → Prop
  | outside {i} (hi : i ≤ k + 1) (hmade : k < i → made) : Adds k made i .outside i
  | enter {i} (hi : i ≤ k) (hmade : i = k → made) : Adds k made i (.enter (.call i)) i
  | waiting {i woken} (hi : i ≤ k) (hmade : i = k → made) :
      Adds k made i (.waiting (.call i) woken) i
  | returning {i job} (hi : i ≤ k) (hmade : i = k → made) :
      Adds k made i (.returning job) (i + 1)

variable {made made' : Prop} {i r : ℕ} {x : Producer}

theorem Adds.mono (h : Adds k made i x r) (hmono : made → made') : Adds k made' i x r := by
  cases h with
  | outside hi hmade => exact .outside hi fun h => hmono (hmade h)
  | enter hi hmade => exact .enter hi fun h => hmono (hmade h)
  | waiting hi hmade => exact .waiting hi fun h => hmono (hmade h)
  | returning hi hmade => exact .returning hi fun h => hmono (hmade h)

theorem Adds.le (h : Adds k made i x r) : i ≤ r ∧ r ≤ k + 1 ∧ (k < r → made) := by
  cases h with
  | outside hi hmade => exact ⟨le_rfl, hi, hmade⟩
  | enter hi hmade => exact ⟨le_rfl, by omega, by omega⟩
  | waiting hi hmade => exact ⟨le_rfl, by omega, by omega⟩
  | returning hi hmade => exact ⟨by omega, by omega, fun h => hmade (by omega)⟩

/-- After the last call of `run`. -/
theorem Adds.outside_of (h : Adds k made i x r) (hi : i = k + 1) :
    x = .outside ∧ r = k + 1 ∧ made := by
  cases h with
  | outside _ hmade => exact ⟨rfl, hi, hmade (by omega)⟩
  | enter | waiting | returning => omega

theorem Adds.wake (h : Adds k made i x r) : Adds k made i (ThreadPool.notFull.wake x) r := by
  cases h with
  | outside hi hmade => exact .outside hi hmade
  | enter hi hmade => exact .enter hi hmade
  | waiting hi hmade => exact .waiting hi hmade
  | returning hi hmade => exact .returning hi hmade

theorem Adds.entering (h : Adds k made i x r) {task : Task} {woken : Bool}
    (hx : x = .enter task ∨ x = .waiting task woken) :
    task = .call i ∧ r = i ∧ i ≤ k ∧ (i = k → made) := by
  rcases hx with rfl | rfl
  · cases h with
    | enter hi hmade => exact ⟨rfl, rfl, hi, hmade⟩
  · cases h with
    | waiting hi hmade => exact ⟨rfl, rfl, hi, hmade⟩

/-- The calls of `run` and the pushed tasks, through the steps of the pool. -/
theorem Adds.step {p p' : Pool n 1} {b : ThreadPool.Action n 1}
    (h : Adds k made i (p.producers producer) r) (hpushed : p.pushed = jobs r)
    (hs : ThreadPool.step p b = some p') (hrun : ∀ q task, b ≠ .callRun q task)
    (hreturn : ∀ q, b ≠ .returnRun q) :
    ∃ r', Adds k made i (p'.producers producer) r' ∧ p'.pushed = jobs r' := by
  cases ThreadPool.step_effect hs with
  | takeJob hw hq hp =>
    refine ⟨r, ?_, hpushed⟩
    rcases hp with ⟨_, hp⟩ | ⟨_, rfl⟩
    · rcases Condition.notify_apply hp producer with heq | ⟨_, heq⟩
      · simpa only [heq] using h
      · simpa only [heq] using h.wake
    · exact h
  | callRun hq => exact absurd rfl (hrun _ _)
  | @pushWait q wake task hq hf =>
    obtain rfl := Subsingleton.elim q producer
    obtain ⟨rfl, rfl, hi, hmade⟩ := h.entering hq
    refine ⟨r, ?_, hpushed⟩
    simp only [ThreadPool.Pool.setProducer, Function.update_self]
    exact .waiting hi hmade
  | @push q wake task workers hq hf hw =>
    obtain rfl := Subsingleton.elim q producer
    obtain ⟨rfl, rfl, hi, hmade⟩ := h.entering hq
    have hlen : p.pushed.length = r := by rw [hpushed, length_jobs]
    refine ⟨r + 1, ?_, ?_⟩
    · simp only [ThreadPool.Pool.setProducer, Function.update_self]
      exact .returning hi hmade
    · rw [hlen, hpushed, jobs_succ]
      rfl
  | @spuriousNotFull q task hq =>
    obtain rfl := Subsingleton.elim q producer
    obtain ⟨rfl, rfl, hi, hmade⟩ := h.entering (Or.inr hq)
    refine ⟨r, ?_, hpushed⟩
    simp only [ThreadPool.Pool.setProducer, Function.update_self]
    exact .waiting hi hmade
  | returnRun hq => exact absurd rfl (hreturn _)
  | returnCall hq => exact absurd rfl (hreturn _)
  | _ => exact ⟨r, h, hpushed⟩

end NaiveNet.ThreadPoolTest
