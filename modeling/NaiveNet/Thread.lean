import NaiveNet.Numerals
import NaiveNet.Runs
import NaiveNet.SharedCell

/-!
# Thread objects and their threads

A `Thread` object, the POSIX thread it starts, the `ThreadData` handed to that thread and
the `pid_t` they share. The object and its thread go their own ways: the object may be
destroyed before the thread has begun, in the middle of it or after a join. A step is one
call on the object or one statement of `startThread`, in any order.

The assertions of `start` and `join` are the caller's part, and so is that an object is
used by one thread at a time and not after its destruction. A failure is what has no
defined result: `ThreadData` used or deleted when it is not there, a `pid_t` written or
released when it is gone, a thread joined or detached twice. A failed `pthread_create` and
an exception out of `func_` end the process.
-/
namespace NaiveNet.Thread

/-- Where the new thread stands in `startThread`. -/
inductive Stage
  /-- About to call `CurrentThread::tid`. -/
  | begin
  /-- About to lock `wkTid_`. -/
  | locking
  /-- `ptid` is not null, `*ptid` not yet written. -/
  | storing
  /-- About to reset `ptid`. -/
  | resetting
  /-- About to set `t_threadName`. -/
  | naming
  /-- In `func_`. -/
  | running
  /-- About to delete `data`. -/
  | deleting
  | ended
  deriving DecidableEq, Repr

/-- What has become of the `pthread_t`. -/
inductive Handle
  | absent
  | joinable
  | joined
  | detached
  deriving DecidableEq, Repr

inductive Allocation
  | absent
  | live
  | deleted
  deriving DecidableEq, Repr

/-- Where `t_threadName` points. -/
inductive CString
  | literal (text : List Char)
  /-- Into `data->name_`. -/
  | name_
  deriving DecidableEq, Repr

structure Object where
  started_ : Bool
  joined_ : Bool
  tid_ : SharedCell ℤ
  name_ : List Char
  /-- Somebody is in `pthread_join`. -/
  joining : Bool
  destroyed : Bool
  handle : Handle
  data : Allocation
  /-- The new thread, once there is one, and its thread-local variables. -/
  stage : Option Stage
  t_cachedTid : ℤ
  t_threadName : CString
  /-- The calls of `func_` that have begun, and those that have returned. -/
  begun : ℕ
  calls : ℕ

/-- `setDefaultName` -/
def defaultName (name : List Char) (num : ℤ) : List Char :=
  if name.isEmpty then "Thread".toList ++ decimal num else name

/-- The constructor, once it has counted itself. -/
def Object.new (name : List Char) (num : ℤ) : Object where
  started_ := false
  joined_ := false
  tid_ := .new 0
  name_ := defaultName name num
  joining := false
  destroyed := false
  handle := .absent
  data := .absent
  stage := none
  t_cachedTid := 0
  t_threadName := .literal "unknown".toList
  begun := 0
  calls := 0

/-- What can happen to an object and its thread. -/
inductive Call
  /-- `start`, and whether `pthread_create` succeeds. -/
  | start (created : Bool)
  | join
  | returnJoin
  | destroy
  /-- A statement of the thread; `tid` is what the kernel says if it is asked. -/
  | run (tid : ℤ)
  | throw
  deriving DecidableEq, Repr

namespace Object

def enabled (o : Object) : Call → Bool
  | .start _ => !o.destroyed && !o.started_
  | .join => !o.destroyed && o.started_ && !o.joined_
  | .returnJoin => o.joining && o.stage = some .ended
  | .destroy => !o.destroyed && !o.joining
  | .run tid => o.stage.any (· ≠ .ended) && 0 < tid
  | .throw => o.stage = some .running

/-- `new ThreadData`, `pthread_create`, and `delete data` where it fails. -/
def start (o : Object) (created : Bool) : Object :=
  if created then
    { o with started_ := true, data := .live, handle := .joinable, stage := some .begin }
  else { o with started_ := false, data := .deleted }

/-- `pthread_join` returns. -/
def returnJoin (o : Object) : Option Object :=
  if o.handle = .joinable then some { o with handle := .joined, joining := false } else none

/-- `pthread_detach`, where nobody has joined. -/
def detach (o : Object) : Option Handle :=
  if o.started_ && !o.joined_ then
    if o.handle = .joinable then some .detached else none
  else some o.handle

/-- `~Thread`, and then that of `tid_` -/
def destroy (o : Object) : Option Object := do
  let handle ← o.detach
  let tid_ ← o.tid_.release
  return { o with destroyed := true, handle := handle, tid_ := tid_ }

/-- The statement of `startThread` at a stage. -/
def statement (o : Object) (tid : ℤ) : Stage → Option Object
  | .begin =>
    let t_cachedTid := if o.t_cachedTid = 0 then tid else o.t_cachedTid
    some { o with t_cachedTid := t_cachedTid, stage := some .locking }
  | .locking =>
    match o.tid_.lock with
    | some tid_ => some { o with tid_ := tid_, stage := some .storing }
    | none => some { o with stage := some .naming }
  | .storing =>
    (o.tid_.store o.t_cachedTid).map fun tid_ =>
      { o with tid_ := tid_, stage := some .resetting }
  | .resetting => o.tid_.release.map fun tid_ => { o with tid_ := tid_, stage := some .naming }
  | .naming =>
    let t_threadName := if o.name_.isEmpty then .literal "muduoThread".toList else CString.name_
    some { o with t_threadName := t_threadName, begun := o.begun + 1, stage := some .running }
  | .running =>
    some { o with
      t_threadName := .literal "finished".toList
      calls := o.calls + 1
      stage := some .deleting }
  | .deleting => some { o with data := .deleted, stage := some .ended }
  | .ended => none

/-- One statement of `startThread`, on the way through `data`. -/
def run (o : Object) (tid : ℤ) : Option Object := do
  let stage ← o.stage
  if o.data = .live then o.statement tid stage else none

/-- The effect of a call that can happen; `none` is a failure. -/
def perform (o : Object) : Call → Option Object
  | .start created => some (o.start created)
  | .join => some { o with joined_ := true, joining := true }
  | .returnJoin => o.returnJoin
  | .destroy => o.destroy
  | .run tid => o.run tid
  | .throw => some { o with t_threadName := .literal "crashed".toList }

end Object

/-- The process ends: a fatal log message, or an exception that nobody catches. -/
def Call.aborts : Call → Bool
  | .start created => !created
  | .throw => true
  | _ => false

structure Process where
  /-- The objects in the order in which they counted themselves. -/
  objects : List Object
  numCreated_ : Int32
  aborted : Bool
  failed : Bool

inductive Action
  | construct (name : List Char)
  | call (i : ℕ) (c : Call)

def Process.new : Process := ⟨[], 0, false, false⟩

/-- `numCreated_.incrementAndGet()`, which wraps around, and the object with that number. -/
def construct (s : Process) (name : List Char) : Process :=
  let num := s.numCreated_ + 1
  { s with objects := s.objects ++ [.new name num.toInt], numCreated_ := num }

def call (s : Process) (i : ℕ) (c : Call) : Option Process := do
  let o ← s.objects[i]?
  if o.enabled c then
    match o.perform c with
    | some o' => return { s with objects := s.objects.set i o', aborted := c.aborts }
    | none => return { s with failed := true }
  else none

def step (s : Process) (a : Action) : Option Process :=
  if s.aborted || s.failed then none
  else match a with
  | .construct name => some (construct s name)
  | .call i c => call s i c

def Reachable (s : Process) : Prop := Runs.Reaches step .new s

/-- All that a step can do. -/
inductive Effect (s : Process) : Action → Process → Prop
  | construct {name} : Effect s (.construct name) (construct s name)
  | call {i c o o'} (ho : s.objects[i]? = some o) (hc : o.enabled c = true)
      (hp : o.perform c = some o') :
      Effect s (.call i c) { s with objects := s.objects.set i o', aborted := c.aborts }
  | fail {i c o} (ho : s.objects[i]? = some o) (hc : o.enabled c = true)
      (hp : o.perform c = none) : Effect s (.call i c) { s with failed := true }

theorem step_effect {s s' : Process} {a : Action} (h : step s a = some s') : Effect s a s' := by
  unfold step at h
  rw [Option.ite_none_left_eq_some] at h
  obtain ⟨_, h⟩ := h
  cases a with
  | construct name =>
    obtain rfl := Option.some.inj h
    exact .construct
  | call i c =>
    obtain ⟨o, ho, h⟩ := Option.bind_eq_some_iff.mp h
    obtain ⟨hc, h⟩ := Option.ite_none_right_eq_some.mp h
    split at h
    next o' hp =>
      obtain rfl := Option.some.inj h
      exact .call ho hc hp
    next hp =>
      obtain rfl := Option.some.inj h
      exact .fail ho hc hp

end NaiveNet.Thread
