import NaiveNet.Condition
import NaiveNet.Runs

/-!
# The thread pool

`ThreadPool` as its threads see it: `n` workers in `runInThread`, `m` producers
that may call `run` again and again, and one call of `stop`. A step is one
critical section of `mutex_` (from acquiring it to releasing it or to `wait`),
one read of `running_` outside the lock, or the start or end of a task. The
action names the thread that moves and the thread a signal wakes.

Tasks terminate and throw nothing: a throwing task aborts the process. The
lists `pushed`, `popped`, `executed`, `discarded` and `returned` record the
history and are read by no step.
-/
namespace NaiveNet.ThreadPool

/-- `std::function<void()>`, by the identity of what it calls. -/
inductive Task
  | empty
  | call (f : ℕ)
  deriving DecidableEq, Repr

/-- `operator bool` of a task. -/
def Task.callable : Task → Bool
  | .empty => false
  | .call _ => true

/-- A task in `queue_`. The ticket is its place in the order of the pushes. -/
structure Job where
  ticket : ℕ
  task : Task
  deriving DecidableEq, Repr

/-- Where a worker stands in `runInThread` and `take`. -/
inductive Worker
  /-- Created, `threadInitCallback_` not yet done. -/
  | starting
  /-- About to read `running_`. -/
  | loop
  /-- In `take`, about to lock `mutex_`. -/
  | enter
  /-- In `notEmpty_.wait()`. -/
  | waiting (woken : Bool)
  /-- `take` has returned; `none` is the default-constructed task. -/
  | took (job : Option Job)
  | executing (job : Job)
  | left
  deriving DecidableEq, Repr

/-- Where a producer stands in `run`. -/
inductive Producer
  | outside
  /-- About to lock `mutex_`. -/
  | enter (task : Task)
  /-- In `notFull_.wait()`. -/
  | waiting (task : Task) (woken : Bool)
  /-- The task is pushed and the lock released. -/
  | returning (job : Job)
  /-- Without threads the caller runs the task itself. -/
  | calling (task : Task)
  deriving DecidableEq, Repr

/-- Where the one call of `stop` stands. -/
inductive Stopper
  | notCalled
  | enter
  /-- The threads before this one are joined. -/
  | joining (thread : ℕ)
  | returned
  deriving DecidableEq, Repr

structure Pool (n m : ℕ) where
  maxQueueSize : ℕ
  running : Bool
  queue : List Job
  workers : Fin n → Worker
  producers : Fin m → Producer
  stopper : Stopper
  pushed : List Job
  popped : List Job
  executed : List Job
  /-- Empty tasks that a worker took and passed over. -/
  discarded : List Job
  /-- Tasks whose call of `run` has returned. -/
  returned : List Job

/-- The pool after `setMaxQueueSize(maxQueueSize)` and `start(n)`. -/
def start (n m maxQueueSize : ℕ) : Pool n m where
  maxQueueSize := maxQueueSize
  running := true
  queue := []
  workers := fun _ => .starting
  producers := fun _ => .outside
  stopper := .notCalled
  pushed := []
  popped := []
  executed := []
  discarded := []
  returned := []

/-- `notEmpty_`, on which workers wait in `take`. -/
def notEmpty : Condition Worker where
  blocked x := x = .waiting false
  woken x := x = .waiting true
  wake
    | .waiting _ => .waiting true
    | x => x
  blocked_wake x := by cases x <;> simp
  woken_wake x h := by simp_all
  not_woken x h := by simp_all

/-- `notFull_`, on which producers wait in `run`. -/
def notFull : Condition Producer where
  blocked
    | .waiting _ false => true
    | _ => false
  woken
    | .waiting _ true => true
    | _ => false
  wake
    | .waiting task _ => .waiting task true
    | x => x
  blocked_wake x := by cases x <;> simp
  woken_wake x h := by split at h <;> simp_all
  not_woken x h := by split at h <;> simp_all

variable {n m : ℕ}

@[simp] def Pool.setWorker (s : Pool n m) (w : Fin n) (x : Worker) : Pool n m :=
  { s with workers := Function.update s.workers w x }

@[simp] def Pool.setProducer (s : Pool n m) (p : Fin m) (x : Producer) : Pool n m :=
  { s with producers := Function.update s.producers p x }

def isFull (s : Pool n m) : Bool := 0 < s.maxQueueSize && s.maxQueueSize ≤ s.queue.length

/-- One critical section of `take`: back to `wait`, or out with a task. -/
def take (s : Pool n m) (w : Fin n) (wake : Option (Fin m)) : Option (Pool n m) :=
  match s.queue with
  | [] => if s.running then some (s.setWorker w (.waiting false))
          else some (s.setWorker w (.took none))
  | job :: rest =>
    let s' := { s.setWorker w (.took (some job)) with
      queue := rest, popped := s.popped ++ [job] }
    if 0 < s.maxQueueSize then
      (notFull.notify s.producers wake).map fun producers => { s' with producers := producers }
    else some s'

/-- One critical section of `run`: back to `wait`, or a push and a signal. -/
def push (s : Pool n m) (p : Fin m) (task : Task) (wake : Option (Fin n)) : Option (Pool n m) :=
  if isFull s then some (s.setProducer p (.waiting task false))
  else
    let job : Job := ⟨s.pushed.length, task⟩
    (notEmpty.notify s.workers wake).map fun workers =>
      { s.setProducer p (.returning job) with
        workers := workers, queue := s.queue ++ [job], pushed := s.pushed ++ [job] }

/-- The critical section of `stop`. -/
def stop (s : Pool n m) : Pool n m :=
  { s with running := false, workers := notEmpty.notifyAll s.workers, stopper := .joining 0 }

/-- What can happen next, and whom a signal wakes. -/
inductive Action (n m : ℕ)
  | initialized (w : Fin n)
  | testRunning (w : Fin n)
  | take (w : Fin n) (wake : Option (Fin m))
  | spuriousNotEmpty (w : Fin n)
  | testTask (w : Fin n)
  | finishTask (w : Fin n)
  | callRun (p : Fin m) (task : Task)
  | push (p : Fin m) (wake : Option (Fin n))
  | spuriousNotFull (p : Fin m)
  | returnRun (p : Fin m)
  | callStop
  | stop
  | join
  | returnStop
  deriving DecidableEq, Repr

def step (s : Pool n m) : Action n m → Option (Pool n m)
  | .initialized w =>
    if s.workers w = .starting then some (s.setWorker w .loop) else none
  | .testRunning w =>
    if s.workers w = .loop then some (s.setWorker w (if s.running then .enter else .left))
    else none
  | .take w wake =>
    if s.workers w = .enter ∨ s.workers w = .waiting true then take s w wake else none
  | .spuriousNotEmpty w =>
    if s.workers w = .waiting false then some (s.setWorker w (.waiting true)) else none
  | .testTask w =>
    match s.workers w with
    | .took none => some (s.setWorker w .loop)
    | .took (some job) =>
      if job.task.callable then some (s.setWorker w (.executing job))
      else some { s.setWorker w .loop with discarded := s.discarded ++ [job] }
    | _ => none
  | .finishTask w =>
    match s.workers w with
    | .executing job => some { s.setWorker w .loop with executed := s.executed ++ [job] }
    | _ => none
  | .callRun p task =>
    if s.producers p = .outside then
      some (s.setProducer p (if n = 0 then .calling task else .enter task))
    else none
  | .push p wake =>
    match s.producers p with
    | .enter task => push s p task wake
    | .waiting task true => push s p task wake
    | _ => none
  | .spuriousNotFull p =>
    match s.producers p with
    | .waiting task false => some (s.setProducer p (.waiting task true))
    | _ => none
  | .returnRun p =>
    match s.producers p with
    | .returning job => some { s.setProducer p .outside with returned := s.returned ++ [job] }
    | .calling _ => some (s.setProducer p .outside)
    | _ => none
  | .callStop => if s.stopper = .notCalled then some { s with stopper := .enter } else none
  | .stop => if s.stopper = .enter then some (stop s) else none
  | .join =>
    match s.stopper with
    | .joining k =>
      if h : k < n then
        if s.workers ⟨k, h⟩ = .left then some { s with stopper := .joining (k + 1) } else none
      else none
    | _ => none
  | .returnStop => if s.stopper = .joining n then some { s with stopper := .returned } else none

/-- A state of some run of the pool that was started with `n` threads. -/
def Reachable (maxQueueSize : ℕ) (s : Pool n m) : Prop :=
  Runs.Reaches step (start n m maxQueueSize) s

/-- All that a step can do, branch by branch. -/
inductive Effect (s : Pool n m) : Action n m → Pool n m → Prop
  | initialized {w} (h : s.workers w = .starting) :
      Effect s (.initialized w) (s.setWorker w .loop)
  | stay {w} (h : s.workers w = .loop) (hr : s.running = true) :
      Effect s (.testRunning w) (s.setWorker w .enter)
  | leave {w} (h : s.workers w = .loop) (hr : s.running = false) :
      Effect s (.testRunning w) (s.setWorker w .left)
  | takeWait {w wake} (h : s.workers w = .enter ∨ s.workers w = .waiting true)
      (hq : s.queue = []) (hr : s.running = true) :
      Effect s (.take w wake) (s.setWorker w (.waiting false))
  | takeNone {w wake} (h : s.workers w = .enter ∨ s.workers w = .waiting true)
      (hq : s.queue = []) (hr : s.running = false) :
      Effect s (.take w wake) (s.setWorker w (.took none))
  | takeJob {w wake job rest producers}
      (h : s.workers w = .enter ∨ s.workers w = .waiting true) (hq : s.queue = job :: rest)
      (hp : 0 < s.maxQueueSize ∧ notFull.notify s.producers wake = some producers ∨
        s.maxQueueSize = 0 ∧ producers = s.producers) :
      Effect s (.take w wake) { s.setWorker w (.took (some job)) with
        queue := rest, popped := s.popped ++ [job], producers := producers }
  | spuriousNotEmpty {w} (h : s.workers w = .waiting false) :
      Effect s (.spuriousNotEmpty w) (s.setWorker w (.waiting true))
  | testNone {w} (h : s.workers w = .took none) :
      Effect s (.testTask w) (s.setWorker w .loop)
  | invoke {w job} (h : s.workers w = .took (some job)) (hc : job.task.callable = true) :
      Effect s (.testTask w) (s.setWorker w (.executing job))
  | passOver {w job} (h : s.workers w = .took (some job)) (hc : job.task.callable = false) :
      Effect s (.testTask w) { s.setWorker w .loop with discarded := s.discarded ++ [job] }
  | finishTask {w job} (h : s.workers w = .executing job) :
      Effect s (.finishTask w) { s.setWorker w .loop with executed := s.executed ++ [job] }
  | callRun {p task} (h : s.producers p = .outside) :
      Effect s (.callRun p task)
        (s.setProducer p (if n = 0 then .calling task else .enter task))
  | pushWait {p wake task} (h : s.producers p = .enter task ∨ s.producers p = .waiting task true)
      (hf : isFull s = true) :
      Effect s (.push p wake) (s.setProducer p (.waiting task false))
  | push {p wake task workers}
      (h : s.producers p = .enter task ∨ s.producers p = .waiting task true)
      (hf : isFull s = false) (hw : notEmpty.notify s.workers wake = some workers) :
      Effect s (.push p wake) { s.setProducer p (.returning ⟨s.pushed.length, task⟩) with
        workers := workers
        queue := s.queue ++ [⟨s.pushed.length, task⟩]
        pushed := s.pushed ++ [⟨s.pushed.length, task⟩] }
  | spuriousNotFull {p task} (h : s.producers p = .waiting task false) :
      Effect s (.spuriousNotFull p) (s.setProducer p (.waiting task true))
  | returnRun {p job} (h : s.producers p = .returning job) :
      Effect s (.returnRun p) { s.setProducer p .outside with returned := s.returned ++ [job] }
  | returnCall {p task} (h : s.producers p = .calling task) :
      Effect s (.returnRun p) (s.setProducer p .outside)
  | callStop (h : s.stopper = .notCalled) : Effect s .callStop { s with stopper := .enter }
  | stop (h : s.stopper = .enter) : Effect s .stop (stop s)
  | join {k} (h : s.stopper = .joining k) (hk : k < n) (hl : s.workers ⟨k, hk⟩ = .left) :
      Effect s .join { s with stopper := .joining (k + 1) }
  | returnStop (h : s.stopper = .joining n) :
      Effect s .returnStop { s with stopper := .returned }

theorem take_effect {s s' : Pool n m} {w : Fin n} {wake : Option (Fin m)}
    (he : s.workers w = .enter ∨ s.workers w = .waiting true) (h : take s w wake = some s') :
    Effect s (.take w wake) s' := by
  unfold take at h
  split at h
  next hq =>
    split_ifs at h with hr <;> obtain rfl := Option.some.inj h
    · exact .takeWait he hq hr
    · exact .takeNone he hq (by simpa using hr)
  next job rest hq =>
    dsimp only at h
    split_ifs at h with hmax
    · obtain ⟨producers, hp, rfl⟩ := Option.map_eq_some_iff.mp h
      exact .takeJob he hq (Or.inl ⟨hmax, hp⟩)
    · obtain rfl := Option.some.inj h
      exact .takeJob he hq (Or.inr ⟨by omega, rfl⟩)

theorem push_effect {s s' : Pool n m} {p : Fin m} {task : Task} {wake : Option (Fin n)}
    (he : s.producers p = .enter task ∨ s.producers p = .waiting task true)
    (h : push s p task wake = some s') : Effect s (.push p wake) s' := by
  unfold push at h
  split_ifs at h with hf
  · obtain rfl := Option.some.inj h
    exact .pushWait he hf
  · obtain ⟨workers, hw, rfl⟩ := Option.map_eq_some_iff.mp h
    exact .push he (by simpa using hf) hw

theorem step_effect {s s' : Pool n m} {a : Action n m} (h : step s a = some s') :
    Effect s a s' := by
  cases a with
  | initialized w =>
    simp only [step, Option.ite_none_right_eq_some, Option.some.injEq] at h
    obtain ⟨h, rfl⟩ := h
    exact .initialized h
  | testRunning w =>
    simp only [step, Option.ite_none_right_eq_some, Option.some.injEq] at h
    obtain ⟨h, rfl⟩ := h
    split_ifs with hr
    · exact .stay h hr
    · exact .leave h (by simpa using hr)
  | take w wake =>
    simp only [step, Option.ite_none_right_eq_some] at h
    exact take_effect h.1 h.2
  | spuriousNotEmpty w =>
    simp only [step, Option.ite_none_right_eq_some, Option.some.injEq] at h
    obtain ⟨h, rfl⟩ := h
    exact .spuriousNotEmpty h
  | testTask w =>
    simp only [step] at h
    split at h
    next hw => obtain rfl := Option.some.inj h; exact .testNone hw
    next job hw =>
      split_ifs at h with hc <;> obtain rfl := Option.some.inj h
      · exact .invoke hw hc
      · exact .passOver hw (by simpa using hc)
    next => contradiction
  | finishTask w =>
    simp only [step] at h
    split at h
    next job hw => obtain rfl := Option.some.inj h; exact .finishTask hw
    next => contradiction
  | callRun p task =>
    simp only [step, Option.ite_none_right_eq_some, Option.some.injEq] at h
    obtain ⟨h, rfl⟩ := h
    exact .callRun h
  | push p wake =>
    simp only [step] at h
    split at h
    next task hp => exact push_effect (Or.inl hp) h
    next task hp => exact push_effect (Or.inr hp) h
    next => contradiction
  | spuriousNotFull p =>
    simp only [step] at h
    split at h
    next task hp => obtain rfl := Option.some.inj h; exact .spuriousNotFull hp
    next => contradiction
  | returnRun p =>
    simp only [step] at h
    split at h
    next job hp => obtain rfl := Option.some.inj h; exact .returnRun hp
    next task hp => obtain rfl := Option.some.inj h; exact .returnCall hp
    next => contradiction
  | callStop =>
    simp only [step, Option.ite_none_right_eq_some, Option.some.injEq] at h
    obtain ⟨h, rfl⟩ := h
    exact .callStop h
  | stop =>
    simp only [step, Option.ite_none_right_eq_some, Option.some.injEq] at h
    obtain ⟨h, rfl⟩ := h
    exact .stop h
  | join =>
    simp only [step] at h
    split at h
    next k hs =>
      split_ifs at h with hk hl
      obtain rfl := Option.some.inj h
      exact .join hs hk hl
    next => contradiction
  | returnStop =>
    simp only [step, Option.ite_none_right_eq_some, Option.some.injEq] at h
    obtain ⟨h, rfl⟩ := h
    exact .returnStop h

end NaiveNet.ThreadPool
