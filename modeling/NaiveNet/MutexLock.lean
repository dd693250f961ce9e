import NaiveNet.Condition
import NaiveNet.Runs

/-!
# The mutex and its holder

`MutexLock`, `MutexLockGuard` and the conditions of one mutex, one step for each
pthread call and each write of `holder_`. A thread calls `unlock` or waits only in
its own critical section, which is what the scope of a `MutexLockGuard` gives.

The thread `t` has the id `tid t` for as long as it runs.
-/
namespace NaiveNet.MutexLock

/-- Where a thread stands in the code of the mutex. -/
inductive Phase (κ : Type)
  | outside
  /-- In `lock()`, at `pthread_mutex_lock`. -/
  | locking
  /-- In `lock()`, before `assignHolder()`. -/
  | locked
  /-- Returned from `lock()` or a wait. -/
  | inside
  /-- At the `pthread_mutex_lock` of a second `lock()`. -/
  | relocking
  /-- In `unlock()`, before `unassignHolder()`. -/
  | unlocking
  /-- In `unlock()`, at `pthread_mutex_unlock`. -/
  | unassigned
  /-- In a wait on `c`, before the constructor of its `UnassignGuard`. -/
  | waiting (c : κ) (timed : Bool)
  /-- In a wait on `c`, at `pthread_cond_wait` or `pthread_cond_timedwait`. -/
  | guarded (c : κ) (timed : Bool)
  /-- Asleep on `c`, the mutex given up. -/
  | blocked (c : κ) (timed : Bool)
  /-- No longer asleep on `c`, about to lock the mutex again. -/
  | woken (c : κ)
  /-- In a wait, before the destructor of its `UnassignGuard`. -/
  | reacquired
  deriving DecidableEq

variable {κ : Type} {n : ℕ}

/-- The thread holds the pthread mutex. -/
def Phase.owns : Phase κ → Bool
  | .locked | .inside | .relocking | .unlocking | .unassigned => true
  | .waiting _ _ | .guarded _ _ | .reacquired => true
  | .outside | .locking | .blocked _ _ | .woken _ => false

/-- The thread has written its id to `holder_` and has not cleared it. -/
def Phase.assigned : Phase κ → Bool
  | .inside | .relocking | .unlocking | .waiting _ _ => true
  | _ => false

/-- The thread has returned from `lock()` or a wait, and has begun neither
`unlock()` nor another wait. -/
def Phase.returned : Phase κ → Bool
  | .inside | .relocking => true
  | _ => false

theorem Phase.assigned_of_returned {x : Phase κ} (h : x.returned = true) : x.assigned = true := by
  cases x <;> simp_all [Phase.returned, Phase.assigned]

theorem Phase.owns_of_assigned {x : Phase κ} (h : x.assigned = true) : x.owns = true := by
  cases x <;> simp_all [Phase.owns, Phase.assigned]

/-- The threads asleep on `c`. -/
def cond [DecidableEq κ] (c : κ) : Condition (Phase κ) where
  blocked
    | .blocked d _ => d = c
    | _ => false
  woken
    | .woken d => d = c
    | _ => false
  wake
    | .blocked d _ => .woken d
    | x => x
  blocked_wake x := by cases x <;> simp
  woken_wake x h := by cases x <;> simp_all
  not_woken x h := by cases x <;> simp_all

/-- The mutex, and the threads that use it. -/
structure Mutex (κ : Type) (n : ℕ) where
  /-- The thread that holds the pthread mutex. -/
  mutex_ : Option (Fin n)
  holder_ : ℤ
  phases : Fin n → Phase κ
  /-- An assertion failed, or a thread unlocked or waited without holding the mutex. -/
  failed : Bool

def new (κ : Type) (n : ℕ) : Mutex κ n where
  mutex_ := none
  holder_ := 0
  phases := fun _ => .outside
  failed := false

@[simp] def Mutex.setPhase (s : Mutex κ n) (t : Fin n) (x : Phase κ) : Mutex κ n :=
  { s with phases := Function.update s.phases t x }

/-- `pthread_mutex_lock` returns only when the mutex was free. -/
def pthreadLock (s : Mutex κ n) (t : Fin n) (x : Phase κ) : Option (Mutex κ n) :=
  if s.mutex_ = none then some { s.setPhase t x with mutex_ := some t } else none

/-- `pthread_mutex_unlock`, alone or as the first half of a wait. -/
def pthreadUnlock (s : Mutex κ n) (t : Fin n) (x : Phase κ) : Mutex κ n :=
  if s.mutex_ = some t then { s.setPhase t x with mutex_ := none } else { s with failed := true }

def assignHolder (tid : Fin n → ℤ) (s : Mutex κ n) (t : Fin n) (x : Phase κ) : Mutex κ n :=
  { s.setPhase t x with holder_ := tid t }

def unassignHolder (s : Mutex κ n) (t : Fin n) (x : Phase κ) : Mutex κ n :=
  { s.setPhase t x with holder_ := 0 }

def isLockedByThisThread (tid : Fin n → ℤ) (s : Mutex κ n) (t : Fin n) : Bool :=
  s.holder_ = tid t

def assertLocked (tid : Fin n → ℤ) (s : Mutex κ n) (t : Fin n) : Mutex κ n :=
  if isLockedByThisThread tid s t then s else { s with failed := true }

/-- What a thread does next, and whom a signal wakes. -/
inductive Action (κ : Type) (n : ℕ)
  /-- `lock()` is called, by hand or by the constructor of a `MutexLockGuard`. -/
  | lock (t : Fin n)
  | mutexLock (t : Fin n)
  | assignHolder (t : Fin n)
  /-- `unlock()` is called, by hand or by the destructor of a `MutexLockGuard`. -/
  | unlock (t : Fin n)
  | unassignHolder (t : Fin n)
  | mutexUnlock (t : Fin n)
  | wait (t : Fin n) (c : κ)
  | waitForSeconds (t : Fin n) (c : κ)
  /-- The constructor of the wait's `UnassignGuard`. -/
  | guard (t : Fin n)
  /-- `pthread_cond_wait` gives the mutex up and goes to sleep. -/
  | condWait (t : Fin n)
  | spurious (t : Fin n)
  | timeout (t : Fin n)
  /-- `pthread_cond_wait` has the mutex again and returns. -/
  | relock (t : Fin n)
  /-- The destructor of the wait's `UnassignGuard`. -/
  | unguard (t : Fin n)
  | notify (t : Fin n) (c : κ) (wake : Option (Fin n))
  | notifyAll (t : Fin n) (c : κ)
  /-- `ThreadPool::isFull`, called in the critical section of `run`. -/
  | isFull (t : Fin n)

section Step

variable [DecidableEq κ]

def step (tid : Fin n → ℤ) (s : Mutex κ n) : Action κ n → Option (Mutex κ n)
  | .lock t =>
    match s.phases t with
    | .outside => some (s.setPhase t .locking)
    | .inside => some (s.setPhase t .relocking)
    | _ => none
  | .mutexLock t =>
    match s.phases t with
    | .locking => pthreadLock s t .locked
    | .relocking => pthreadLock s t .locked
    | _ => none
  | .assignHolder t =>
    match s.phases t with
    | .locked => some (assignHolder tid s t .inside)
    | _ => none
  | .unlock t =>
    match s.phases t with
    | .inside => some (s.setPhase t .unlocking)
    | _ => none
  | .unassignHolder t =>
    match s.phases t with
    | .unlocking => some (unassignHolder s t .unassigned)
    | _ => none
  | .mutexUnlock t =>
    match s.phases t with
    | .unassigned => some (pthreadUnlock s t .outside)
    | _ => none
  | .wait t c =>
    match s.phases t with
    | .inside => some (s.setPhase t (.waiting c false))
    | _ => none
  | .waitForSeconds t c =>
    match s.phases t with
    | .inside => some (s.setPhase t (.waiting c true))
    | _ => none
  | .guard t =>
    match s.phases t with
    | .waiting c timed => some (unassignHolder s t (.guarded c timed))
    | _ => none
  | .condWait t =>
    match s.phases t with
    | .guarded c timed => some (pthreadUnlock s t (.blocked c timed))
    | _ => none
  | .spurious t =>
    match s.phases t with
    | .blocked c _ => some (s.setPhase t (.woken c))
    | _ => none
  | .timeout t =>
    match s.phases t with
    | .blocked c true => some (s.setPhase t (.woken c))
    | _ => none
  | .relock t =>
    match s.phases t with
    | .woken _ => pthreadLock s t .reacquired
    | _ => none
  | .unguard t =>
    match s.phases t with
    | .reacquired => some (assignHolder tid s t .inside)
    | _ => none
  | .notify t c wake =>
    match s.phases t with
    | .outside | .inside =>
      ((cond c).notify s.phases wake).map fun phases => { s with phases := phases }
    | _ => none
  | .notifyAll t c =>
    match s.phases t with
    | .outside | .inside => some { s with phases := (cond c).notifyAll s.phases }
    | _ => none
  | .isFull t =>
    match s.phases t with
    | .inside => some (assertLocked tid s t)
    | _ => none

/-- A state of some run of `n` threads on a fresh mutex. -/
def Reachable (tid : Fin n → ℤ) (s : Mutex κ n) : Prop := Runs.Reaches (step tid) (new κ n) s

end Step

/-- All that a step can do, by what it does to the mutex and to `holder_`. -/
inductive Effect (tid : Fin n → ℤ) (s : Mutex κ n) : Mutex κ n → Prop
  | move {t x} (ho : x.owns = (s.phases t).owns) (ha : x.assigned = (s.phases t).assigned) :
      Effect tid s (s.setPhase t x)
  | acquire {t x} (hm : s.mutex_ = none) (ho : x.owns = true) (ha : x.assigned = false) :
      Effect tid s { s.setPhase t x with mutex_ := some t }
  | release {t x} (hp : (s.phases t).owns = true) (hu : (s.phases t).assigned = false)
      (ho : x.owns = false) : Effect tid s (pthreadUnlock s t x)
  | assign {t x} (hp : (s.phases t).owns = true) (hx : x.assigned = true) :
      Effect tid s (assignHolder tid s t x)
  | unassign {t x} (hp : (s.phases t).owns = true) (ho : x.owns = true)
      (ha : x.assigned = false) : Effect tid s (unassignHolder s t x)
  | signal {phases} (ho : ∀ t, (phases t).owns = (s.phases t).owns)
      (ha : ∀ t, (phases t).assigned = (s.phases t).assigned) :
      Effect tid s { s with phases := phases }
  | assertLocked {t} (ha : (s.phases t).assigned = true) : Effect tid s (assertLocked tid s t)

variable {tid : Fin n → ℤ} {s s' : Mutex κ n} {a : Action κ n}

theorem pthreadLock_effect {t : Fin n} {x : Phase κ} (ho : x.owns = true)
    (ha : x.assigned = false) (h : pthreadLock s t x = some s') : Effect tid s s' := by
  unfold pthreadLock at h
  split_ifs at h with hm
  obtain rfl := Option.some.inj h
  exact .acquire hm ho ha

/-- Who holds the mutex, and what `holder_` says about it. -/
structure Exact (tid : Fin n → ℤ) (s : Mutex κ n) : Prop where
  owner : ∀ t, (s.phases t).owns = true ↔ s.mutex_ = some t
  assigned : ∀ t, (s.phases t).assigned = true → s.holder_ = tid t
  cleared : (∀ t, (s.phases t).assigned = false) → s.holder_ = 0
  passed : s.failed = false

theorem exact_new (tid : Fin n → ℤ) : Exact tid (new κ n) where
  owner := by simp [new, Phase.owns]
  assigned := by simp [new, Phase.assigned]
  cleared _ := rfl
  passed := rfl

namespace Exact

variable {t : Fin n} {x : Phase κ}

/-- One thread at most holds the mutex. -/
theorem eq_of_owns (hi : Exact tid s) {u : Fin n} (ht : (s.phases t).owns = true)
    (hu : (s.phases u).owns = true) : u = t :=
  Option.some.inj (((hi.owner u).mp hu).symm.trans ((hi.owner t).mp ht))

/-- While a thread holds the mutex, no other has its id in `holder_`. -/
theorem not_assigned (hi : Exact tid s) {u : Fin n} (ht : (s.phases t).owns = true)
    (hu : u ≠ t) : (s.phases u).assigned = false := by
  by_contra ha
  have hown := Phase.owns_of_assigned (Bool.not_eq_false _ |>.mp ha)
  exact hu (hi.eq_of_owns ht hown)

theorem signal (hi : Exact tid s) {phases : Fin n → Phase κ}
    (ho : ∀ t, (phases t).owns = (s.phases t).owns)
    (ha : ∀ t, (phases t).assigned = (s.phases t).assigned) :
    Exact tid { s with phases := phases } where
  owner t := by rw [ho t]; exact hi.owner t
  assigned t h := hi.assigned t (by rw [← ha t]; exact h)
  cleared h := hi.cleared fun t => by rw [← ha t]; exact h t
  passed := hi.passed

theorem move (hi : Exact tid s) (ho : x.owns = (s.phases t).owns)
    (ha : x.assigned = (s.phases t).assigned) : Exact tid (s.setPhase t x) :=
  hi.signal
    ((Function.forall_update_iff s.phases fun u y => y.owns = (s.phases u).owns).mpr
      ⟨ho, fun _ _ => rfl⟩)
    ((Function.forall_update_iff s.phases fun u y => y.assigned = (s.phases u).assigned).mpr
      ⟨ha, fun _ _ => rfl⟩)

theorem acquire (hi : Exact tid s) (hm : s.mutex_ = none) (ho : x.owns = true)
    (ha : x.assigned = false) : Exact tid { s.setPhase t x with mutex_ := some t } where
  owner := by
    refine (Function.forall_update_iff s.phases fun u y => y.owns = true ↔ some t = some u).mpr
      ⟨iff_of_true ho rfl, fun u hu => iff_of_false ?_ ?_⟩
    · rw [hi.owner u, hm]
      exact (Option.some_ne_none u).symm
    · exact fun h => hu (Option.some.inj h).symm
  assigned := by
    refine (Function.forall_update_iff s.phases
      fun u y => y.assigned = true → s.holder_ = tid u).mpr ⟨fun h => ?_, fun u _ => hi.assigned u⟩
    rw [ha] at h
    contradiction
  cleared h := by
    obtain ⟨_, hothers⟩ := (Function.forall_update_iff s.phases fun _ y => y.assigned = false).mp h
    refine hi.cleared fun u => ?_
    by_cases hu : u = t
    · -- The mutex was free, so `t` did not hold it either.
      by_contra hassigned
      have hown := (hi.owner u).mp (Phase.owns_of_assigned (Bool.not_eq_false _ |>.mp hassigned))
      rw [hm] at hown
      contradiction
    · exact hothers u hu
  passed := hi.passed

theorem release (hi : Exact tid s) (hp : (s.phases t).owns = true)
    (hu : (s.phases t).assigned = false) (ho : x.owns = false) :
    Exact tid (pthreadUnlock s t x) := by
  have hx : x.assigned = false := by
    by_contra h
    rw [Phase.owns_of_assigned (Bool.not_eq_false _ |>.mp h)] at ho
    contradiction
  have hothers : ∀ u ≠ t, (s.phases u).assigned = false := fun u => hi.not_assigned hp
  rw [pthreadUnlock, if_pos ((hi.owner t).mp hp)]
  refine ⟨?_, ?_, fun _ => ?_, hi.passed⟩
  · refine (Function.forall_update_iff s.phases fun u y => y.owns = true ↔ none = some u).mpr
      ⟨iff_of_false (by rw [ho]; exact Bool.false_ne_true) (Option.some_ne_none t).symm,
        fun u hne => iff_of_false (fun h => ?_) (Option.some_ne_none u).symm⟩
    exact hne (hi.eq_of_owns hp h)
  · refine (Function.forall_update_iff s.phases
      fun u y => y.assigned = true → s.holder_ = tid u).mpr ⟨fun h => ?_, fun u _ => hi.assigned u⟩
    rw [hx] at h
    contradiction
  · refine hi.cleared fun u => ?_
    by_cases hne : u = t
    · rw [hne]; exact hu
    · exact hothers u hne

theorem assign (hi : Exact tid s) (hp : (s.phases t).owns = true) (hx : x.assigned = true) :
    Exact tid (assignHolder tid s t x) where
  owner := by
    refine (Function.forall_update_iff s.phases fun u y => y.owns = true ↔ s.mutex_ = some u).mpr
      ⟨iff_of_true (Phase.owns_of_assigned hx) ((hi.owner t).mp hp), fun u _ => hi.owner u⟩
  assigned := by
    refine (Function.forall_update_iff s.phases
      fun u y => y.assigned = true → tid t = tid u).mpr ⟨fun _ => rfl, fun u hu h => ?_⟩
    rw [hi.not_assigned hp hu] at h
    contradiction
  cleared h := by
    obtain ⟨hself, _⟩ := (Function.forall_update_iff s.phases fun _ y => y.assigned = false).mp h
    rw [hx] at hself
    contradiction
  passed := hi.passed

theorem unassign (hi : Exact tid s) (hp : (s.phases t).owns = true) (ho : x.owns = true)
    (ha : x.assigned = false) : Exact tid (unassignHolder s t x) where
  owner := by
    refine (Function.forall_update_iff s.phases fun u y => y.owns = true ↔ s.mutex_ = some u).mpr
      ⟨iff_of_true ho ((hi.owner t).mp hp), fun u _ => hi.owner u⟩
  assigned := by
    refine (Function.forall_update_iff s.phases fun u y => y.assigned = true → 0 = tid u).mpr
      ⟨fun h => ?_, fun u hu h => ?_⟩
    · rw [ha] at h
      contradiction
    · rw [hi.not_assigned hp hu] at h
      contradiction
  cleared _ := rfl
  passed := hi.passed

theorem assertLocked (hi : Exact tid s) (ha : (s.phases t).assigned = true) :
    Exact tid (assertLocked tid s t) := by
  have hlocked : isLockedByThisThread tid s t = true := decide_eq_true (hi.assigned t ha)
  rwa [MutexLock.assertLocked, if_pos hlocked]

/-- An id in `holder_` is that of the thread that holds the mutex. -/
theorem exists_owner (hi : Exact tid s) (h : s.holder_ ≠ 0) :
    ∃ t, s.holder_ = tid t ∧ s.mutex_ = some t := by
  by_contra hnone
  refine h (hi.cleared fun t => ?_)
  by_contra ha
  have hassigned := Bool.not_eq_false _ |>.mp ha
  exact hnone ⟨t, hi.assigned t hassigned, (hi.owner t).mp (Phase.owns_of_assigned hassigned)⟩

end Exact

section Step

variable [DecidableEq κ]

theorem owns_wake (c : κ) (x : Phase κ) : ((cond c).wake x).owns = x.owns := by
  cases x <;> simp [cond, Phase.owns]

theorem assigned_wake (c : κ) (x : Phase κ) : ((cond c).wake x).assigned = x.assigned := by
  cases x <;> simp [cond, Phase.assigned]

/-- A wake-up moves a thread from asleep to woken, and neither holds the mutex. -/
theorem notify_effect {c : κ} {wake : Option (Fin n)} {phases : Fin n → Phase κ}
    (h : (cond c).notify s.phases wake = some phases) :
    Effect tid s { s with phases := phases } := by
  refine .signal (fun t => ?_) (fun t => ?_)
  · obtain he | ⟨_, he⟩ := Condition.notify_apply h t
    · rw [he]
    · rw [he, owns_wake]
  · obtain he | ⟨_, he⟩ := Condition.notify_apply h t
    · rw [he]
    · rw [he, assigned_wake]

theorem notifyAll_effect (c : κ) :
    Effect tid s { s with phases := (cond c).notifyAll s.phases } := by
  refine .signal (fun t => ?_) (fun t => ?_)
  · obtain he | ⟨_, he⟩ := (cond c).notifyAll_apply s.phases t
    · rw [he]
    · rw [he, owns_wake]
  · obtain he | ⟨_, he⟩ := (cond c).notifyAll_apply s.phases t
    · rw [he]
    · rw [he, assigned_wake]

theorem step_effect (h : step tid s a = some s') : Effect tid s s' := by
  cases a with
  | lock t =>
    simp only [step] at h
    split at h
    next hp => obtain rfl := Option.some.inj h; exact .move (by rw [hp]; rfl) (by rw [hp]; rfl)
    next hp => obtain rfl := Option.some.inj h; exact .move (by rw [hp]; rfl) (by rw [hp]; rfl)
    next => contradiction
  | mutexLock t | relock t =>
    simp only [step] at h
    split at h <;> first | contradiction | exact pthreadLock_effect rfl rfl h
  | assignHolder t | unguard t =>
    simp only [step] at h
    split at h
    next hp => obtain rfl := Option.some.inj h; exact .assign (by rw [hp]; rfl) rfl
    next => contradiction
  | unlock t | wait t c | waitForSeconds t c | timeout t | spurious t =>
    simp only [step] at h
    split at h
    next hp => obtain rfl := Option.some.inj h; exact .move (by rw [hp]; rfl) (by rw [hp]; rfl)
    next => contradiction
  | unassignHolder t | guard t =>
    simp only [step] at h
    split at h
    next hp => obtain rfl := Option.some.inj h; exact .unassign (by rw [hp]; rfl) rfl rfl
    next => contradiction
  | mutexUnlock t | condWait t =>
    simp only [step] at h
    split at h
    next hp =>
      obtain rfl := Option.some.inj h
      exact .release (by rw [hp]; rfl) (by rw [hp]; rfl) rfl
    next => contradiction
  | notify t c wake =>
    simp only [step] at h
    split at h <;> try contradiction
    all_goals
      obtain ⟨phases, hn, rfl⟩ := Option.map_eq_some_iff.mp h
      exact notify_effect hn
  | notifyAll t c =>
    simp only [step] at h
    split at h
    next => obtain rfl := Option.some.inj h; exact notifyAll_effect c
    next => obtain rfl := Option.some.inj h; exact notifyAll_effect c
    next => contradiction
  | isFull t =>
    simp only [step] at h
    split at h
    next hp => obtain rfl := Option.some.inj h; exact .assertLocked (by rw [hp]; rfl)
    next => contradiction

theorem Exact.step (hi : Exact tid s) (hs : MutexLock.step tid s a = some s') : Exact tid s' := by
  cases step_effect hs with
  | move ho ha => exact hi.move ho ha
  | acquire hm ho ha => exact hi.acquire hm ho ha
  | release hp hu ho => exact hi.release hp hu ho
  | assign hp hx => exact hi.assign hp hx
  | unassign hp ho ha => exact hi.unassign hp ho ha
  | signal ho ha => exact hi.signal ho ha
  | assertLocked ha => exact hi.assertLocked ha

end Step

/-- In every state of every run: an id in `holder_` is that of the thread that
holds the mutex, a thread that has returned from `lock()` or a wait finds its own
there, no assertion fails, and `holder_` is `0` while the mutex is free. -/
theorem holder_exact {κ : Type} [DecidableEq κ] {n : ℕ} {tid : Fin n → ℤ}
    (htid : ∀ t, tid t ≠ 0) (hinj : Function.Injective tid) {s : Mutex κ n}
    (h : Reachable tid s) :
    (∀ t, s.holder_ = tid t → s.mutex_ = some t) ∧
    (s.holder_ ≠ 0 → ∃ t, s.holder_ = tid t ∧ s.mutex_ = some t) ∧
    (∀ t, (s.phases t).returned = true → s.mutex_ = some t ∧ s.holder_ = tid t) ∧
    s.failed = false ∧
    (s.mutex_ = none → s.holder_ = 0) := by
  have hi : Exact tid s := h.invariant (fun _ _ _ => Exact.step) (exact_new tid)
  refine ⟨fun t ht => ?_, hi.exists_owner, fun t ht => ?_, hi.passed, fun hm => ?_⟩
  · obtain ⟨u, hu, hm⟩ := hi.exists_owner (by rw [ht]; exact htid t)
    rw [hinj (ht.symm.trans hu)]
    exact hm
  · have ha := Phase.assigned_of_returned ht
    exact ⟨(hi.owner t).mp (Phase.owns_of_assigned ha), hi.assigned t ha⟩
  · by_contra hne
    obtain ⟨t, _, ht⟩ := hi.exists_owner hne
    rw [hm] at ht
    contradiction

/-- Thread 0 sleeps, its wait times out while thread 1 is in its critical section. -/
theorem holder_exact_two :
    ∃ s : Mutex Unit 2, Reachable (fun t : Fin 2 => 11 + (t : ℤ)) s ∧ s.phases 0 = .woken () ∧
      (s.phases 1).returned = true ∧ s.mutex_ = some 1 ∧ s.holder_ = 12 := by
  obtain ⟨s, hr, hs⟩ := Runs.exists_of_any (step fun t : Fin 2 => 11 + (t : ℤ)) (new Unit 2)
    [.lock 0, .lock 1, .mutexLock 0, .assignHolder 0, .isFull 0, .waitForSeconds 0 (), .guard 0,
      .condWait 0, .mutexLock 1, .assignHolder 1, .timeout 0]
    (fun s => s.phases 0 = .woken () ∧ (s.phases 1).returned = true) (by decide)
  obtain ⟨hwoken, hreturned⟩ := of_decide_eq_true hs
  have hinj : Function.Injective fun t : Fin 2 => 11 + (t : ℤ) := by decide
  obtain ⟨hmutex, hholder⟩ := (holder_exact (by decide) hinj ⟨_, hr⟩).2.2.1 1 hreturned
  exact ⟨s, ⟨_, hr⟩, hwoken, hreturned, hmutex, hholder⟩

end NaiveNet.MutexLock
