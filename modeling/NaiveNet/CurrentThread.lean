import NaiveNet.Numerals
import NaiveNet.Runs
import Mathlib.Data.List.Nodup

/-!
# The cached thread id

`CurrentThread` keeps the id of a thread, and its text for the log, in variables of the
thread. `fork` copies the variables of the calling thread into another process, where they
would be wrong; `afterFork` runs there before anything else does. The tasks below are the
threads of all processes; which ids the kernel gives is its choice, but not one in use.
-/
namespace NaiveNet.CurrentThread

/-- The variables of a thread. -/
structure Locals where
  t_cachedTid : ℤ
  t_tidString : List Char
  t_tidStringLength : ℤ
  t_threadName : List Char
  deriving DecidableEq

/-- Those of a new thread. -/
def Locals.new : Locals := ⟨0, [], 6, "unknown".toList⟩

/-- `cacheTid`, where `gettid` returns `gettid`; `snprintf` has room for 31 characters. -/
def cacheTid (v : Locals) (gettid : ℤ) : Locals :=
  if v.t_cachedTid = 0 then
    let text := blankFilled 5 gettid ++ [' ']
    { v with
      t_cachedTid := gettid
      t_tidString := text.take 31
      t_tidStringLength := text.length }
  else v

def tid (v : Locals) (gettid : ℤ) : ℤ × Locals :=
  let v := if v.t_cachedTid = 0 then cacheTid v gettid else v
  (v.t_cachedTid, v)

/-- The same for `ThreadNameInitializer` in the first process. -/
def afterFork (v : Locals) (gettid : ℤ) : Locals :=
  (tid { v with t_cachedTid := 0, t_threadName := "main".toList } gettid).2

/-- A thread, in the process `pid`. -/
structure Task where
  pid : ℤ
  /-- What `gettid` returns in it. -/
  gettid : ℤ
  locals : Locals
  /-- In the child's `fork`, `afterFork` not yet done. -/
  forking : Bool
  deriving DecidableEq

def isMainThread (task : Task) : Bool := (tid task.locals task.gettid).1 = task.pid

/-- The first process, `main` about to begin. -/
def start (pid : ℤ) : List Task := [⟨pid, pid, afterFork .new pid, false⟩]

inductive Action
  /-- A call of `tid()`. -/
  | tid (i : ℕ)
  /-- `pthread_create`, and the id of the new thread. -/
  | create (i : ℕ) (gettid : ℤ)
  /-- `fork`, and the id of the new process. -/
  | fork (i : ℕ) (pid : ℤ)
  | afterFork (i : ℕ)
  /-- `t_threadName` is assigned, in `runInThread`. -/
  | setName (i : ℕ) (name : List Char)
  | exit (i : ℕ)
  deriving DecidableEq

/-- An id that the kernel may give. -/
def fresh (tasks : List Task) (id : ℤ) : Bool :=
  0 < id ∧ id < 2 ^ 31 ∧ ∀ task ∈ tasks, task.gettid ≠ id ∧ task.pid ≠ id

/-- The task that acts, if it may. -/
def ready (tasks : List Task) (i : ℕ) (forking : Bool) : Option Task :=
  (tasks[i]?).filter (·.forking = forking)

def step (tasks : List Task) : Action → Option (List Task)
  | .tid i => do
    let task ← ready tasks i false
    return tasks.set i { task with locals := (tid task.locals task.gettid).2 }
  | .create i id => do
    let task ← ready tasks i false
    if fresh tasks id then some (tasks ++ [⟨task.pid, id, .new, false⟩]) else none
  | .fork i id => do
    let task ← ready tasks i false
    if fresh tasks id then some (tasks ++ [⟨id, id, task.locals, true⟩]) else none
  | .afterFork i => do
    let task ← ready tasks i true
    return tasks.set i { task with locals := afterFork task.locals task.gettid, forking := false }
  | .setName i name => do
    let task ← ready tasks i false
    return tasks.set i { task with locals := { task.locals with t_threadName := name } }
  | .exit i => do
    let _ ← ready tasks i false
    return tasks.eraseIdx i

/-- The variables have nothing cached, or the thread's id and its text. -/
def Locals.Valid (v : Locals) (gettid : ℤ) : Prop :=
  v.t_cachedTid = 0 ∨ v.t_cachedTid = gettid ∧
    v.t_tidString = blankFilled 5 gettid ++ [' '] ∧
    v.t_tidStringLength = (blankFilled 5 gettid ++ [' ']).length

/-- The id is one a kernel gives, and the variables are right once `fork` is over. -/
structure Task.Sound (task : Task) : Prop where
  pos : 0 < task.gettid
  lt : task.gettid < 2 ^ 31
  valid : task.forking = false → task.locals.Valid task.gettid

/-- The text of an id fits the array. -/
theorem take_tidString {id : ℤ} (hpos : 0 < id) (hlt : id < 2 ^ 31) :
    (blankFilled 5 id ++ [' ']).take 31 = blankFilled 5 id ++ [' '] := by
  have hdecimal := length_decimal_le (v := id) (k := 10) (by omega) (by omega)
  apply List.take_of_length_le
  rw [blankFilled, List.length_append, List.length_leftpad, List.length_singleton]
  omega

theorem cacheTid_valid {v : Locals} {id : ℤ} (hpos : 0 < id) (hlt : id < 2 ^ 31)
    (h : v.Valid id) : (cacheTid v id).Valid id ∧ (cacheTid v id).t_cachedTid = id := by
  unfold cacheTid
  split_ifs with hzero
  · exact ⟨Or.inr ⟨rfl, take_tidString hpos hlt, rfl⟩, rfl⟩
  · exact ⟨h, (h.resolve_left hzero).1⟩

/-- `tid()` returns the id of the thread, and caches it. -/
theorem tid_valid {v : Locals} {id : ℤ} (hpos : 0 < id) (hlt : id < 2 ^ 31)
    (h : v.Valid id) : (tid v id).1 = id ∧ (tid v id).2.Valid id := by
  unfold tid
  dsimp only
  split_ifs with hzero
  · have hcache := cacheTid_valid hpos hlt h
    exact ⟨hcache.2, hcache.1⟩
  · exact ⟨(h.resolve_left hzero).1, h⟩

theorem afterFork_valid (v : Locals) {id : ℤ} (hpos : 0 < id) (hlt : id < 2 ^ 31) :
    (afterFork v id).Valid id :=
  (tid_valid hpos hlt (Or.inl rfl)).2

theorem mem_of_ready {tasks : List Task} {i : ℕ} {forking : Bool} {task : Task}
    (h : ready tasks i forking = some task) : task ∈ tasks ∧ task.forking = forking := by
  obtain ⟨hmem, hforking⟩ := Option.filter_eq_some_iff.mp h
  exact ⟨List.mem_of_getElem? hmem, of_decide_eq_true hforking⟩

/-- The invariant: sound tasks with ids of their own. -/
structure TasksSound (tasks : List Task) : Prop where
  sound : ∀ task ∈ tasks, task.Sound
  nodup : (tasks.map Task.gettid).Nodup

theorem tasksSound_start {pid : ℤ} (hpos : 0 < pid) (hlt : pid < 2 ^ 31) :
    TasksSound (start pid) := by
  refine ⟨fun task htask => ?_, List.nodup_singleton _⟩
  rw [List.mem_singleton.mp htask]
  exact ⟨hpos, hlt, fun _ => afterFork_valid _ hpos hlt⟩

namespace TasksSound

variable {tasks : List Task} {i : ℕ} {forking : Bool} {task : Task}

/-- A task goes on under its id. -/
theorem set (h : TasksSound tasks) (hi : ready tasks i forking = some task) {task' : Task}
    (hid : task'.gettid = task.gettid) (hsound : task'.Sound) : TasksSound (tasks.set i task') := by
  refine ⟨fun t ht => ?_, ?_⟩
  · rcases List.mem_or_eq_of_mem_set ht with ht | rfl
    · exact h.sound t ht
    · exact hsound
  · obtain ⟨hget, _⟩ := Option.filter_eq_some_iff.mp hi
    obtain ⟨hlt, rfl⟩ := List.getElem?_eq_some_iff.mp hget
    rw [List.map_set, hid, ← List.getElem_map Task.gettid (h := by simpa using hlt),
      List.set_getElem_self]
    exact h.nodup

/-- A task comes with an id that nobody has. -/
theorem append (h : TasksSound tasks) {id pid : ℤ} {v : Locals} (hfresh : fresh tasks id = true)
    (hvalid : forking = false → v.Valid id) : TasksSound (tasks ++ [⟨pid, id, v, forking⟩]) := by
  obtain ⟨hpos, hlt, hnew⟩ := of_decide_eq_true hfresh
  refine ⟨fun t ht => ?_, ?_⟩
  · rcases List.mem_append.mp ht with ht | ht
    · exact h.sound t ht
    · rw [List.mem_singleton.mp ht]
      exact ⟨hpos, hlt, hvalid⟩
  · rw [List.map_append, List.map_singleton]
    refine List.nodup_append.mpr ⟨h.nodup, List.nodup_singleton _, fun x hx y hy => ?_⟩
    obtain ⟨t, ht, rfl⟩ := List.mem_map.mp hx
    rw [List.mem_singleton.mp hy]
    exact (hnew t ht).1

theorem step (h : TasksSound tasks) {a : Action} {tasks' : List Task}
    (hs : CurrentThread.step tasks a = some tasks') : TasksSound tasks' := by
  cases a with
  | tid i =>
    obtain ⟨task, hi, hs⟩ := Option.bind_eq_some_iff.mp hs
    obtain rfl := Option.some.inj hs
    obtain ⟨hmem, _⟩ := mem_of_ready hi
    have hsound := h.sound task hmem
    exact h.set hi rfl ⟨hsound.pos, hsound.lt, fun hf =>
      (tid_valid hsound.pos hsound.lt (hsound.valid hf)).2⟩
  | create i id =>
    obtain ⟨task, hi, hs⟩ := Option.bind_eq_some_iff.mp hs
    obtain ⟨hfresh, hs⟩ := Option.ite_none_right_eq_some.mp hs
    obtain rfl := Option.some.inj hs
    exact h.append hfresh fun _ => Or.inl rfl
  | fork i id =>
    obtain ⟨task, hi, hs⟩ := Option.bind_eq_some_iff.mp hs
    obtain ⟨hfresh, hs⟩ := Option.ite_none_right_eq_some.mp hs
    obtain rfl := Option.some.inj hs
    exact h.append hfresh fun hf => nomatch hf
  | afterFork i =>
    obtain ⟨task, hi, hs⟩ := Option.bind_eq_some_iff.mp hs
    obtain rfl := Option.some.inj hs
    obtain ⟨hmem, _⟩ := mem_of_ready hi
    have hsound := h.sound task hmem
    exact h.set hi rfl ⟨hsound.pos, hsound.lt, fun _ =>
      afterFork_valid task.locals hsound.pos hsound.lt⟩
  | setName i name =>
    obtain ⟨task, hi, hs⟩ := Option.bind_eq_some_iff.mp hs
    obtain rfl := Option.some.inj hs
    obtain ⟨hmem, _⟩ := mem_of_ready hi
    have hsound := h.sound task hmem
    exact h.set hi rfl ⟨hsound.pos, hsound.lt, hsound.valid⟩
  | exit i =>
    obtain ⟨task, hi, hs⟩ := Option.bind_eq_some_iff.mp hs
    obtain rfl := Option.some.inj hs
    have hsub := List.eraseIdx_sublist tasks i
    exact ⟨fun t ht => h.sound t (hsub.subset ht), h.nodup.sublist (hsub.map Task.gettid)⟩

end TasksSound

/-- Whatever threads and processes are made from whatever threads, `tid()` returns the id of
the thread it is called in, and leaves its text, with its length, for the log. No two threads
get the same answer, and `isMainThread` tells the thread that its process began with. -/
theorem tid_exact {pid : ℤ} (hpos : 0 < pid) (hlt : pid < 2 ^ 31) {tasks : List Task}
    (h : Runs.Reaches step (start pid) tasks) :
    (tasks.map Task.gettid).Nodup ∧ ∀ task ∈ tasks, task.forking = false →
      (tid task.locals task.gettid).1 = task.gettid ∧
      (tid task.locals task.gettid).2.t_tidString = blankFilled 5 task.gettid ++ [' '] ∧
      (tid task.locals task.gettid).2.t_tidStringLength =
        (tid task.locals task.gettid).2.t_tidString.length ∧
      (isMainThread task = true ↔ task.gettid = task.pid) := by
  have hi : TasksSound tasks := h.invariant (fun _ _ _ hi hs => hi.step hs)
    (tasksSound_start hpos hlt)
  refine ⟨hi.nodup, fun task htask hf => ?_⟩
  have hsound := hi.sound task htask
  obtain ⟨htid, hvalid⟩ := tid_valid hsound.pos hsound.lt (hsound.valid hf)
  have hcached : (tid task.locals task.gettid).2.t_cachedTid = task.gettid := htid
  have hne : (tid task.locals task.gettid).2.t_cachedTid ≠ 0 := by
    rw [hcached]
    exact hsound.pos.ne'
  obtain ⟨_, htext, hlength⟩ := hvalid.resolve_left hne
  refine ⟨htid, htext, by rw [hlength, htext], ?_⟩
  rw [isMainThread, decide_eq_true_eq, htid]

/-- A thread that is not the first forks, and its child forks again. -/
theorem tid_exact_forked :
    ∃ tasks, Runs.Reaches step (start 10) tasks ∧ ∃ task ∈ tasks, task.pid = 13 ∧
      (tid task.locals task.gettid).1 = 13 ∧ isMainThread task = true := by
  obtain ⟨tasks, hrun, hs⟩ := Runs.exists_of_any step (start 10)
    [.create 0 11, .tid 1, .fork 1 12, .afterFork 2, .fork 2 13, .afterFork 3]
    (fun tasks => tasks.any fun task =>
      task.pid = 13 ∧ task.gettid = 13 ∧ task.forking = false) (by decide)
  obtain ⟨task, htask, hall⟩ := List.any_eq_true.mp hs
  obtain ⟨hpid, hid, hf⟩ := of_decide_eq_true hall
  obtain ⟨_, hexact⟩ := tid_exact (by omega) (by omega) ⟨_, hrun⟩
  obtain ⟨htid, _, _, hmain⟩ := hexact task htask hf
  exact ⟨tasks, ⟨_, hrun⟩, task, htask, hpid, htid.trans hid, hmain.mpr (hid.trans hpid.symm)⟩

end NaiveNet.CurrentThread
