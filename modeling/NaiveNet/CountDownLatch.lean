import NaiveNet.CInt
import NaiveNet.Condition
import NaiveNet.Runs

/-!
# The count-down latch

`CountDownLatch` and any number of threads that call `wait` and `countDown` as
often as they like. A step is a call, a return, a spurious wake-up or one critical
section of `mutex_`, from acquiring it to releasing it or to `condition_.wait()`.

`countDowns` and `waits` record the history and are read by no step.
-/
namespace NaiveNet.CountDownLatch

/-- Where a thread stands. -/
inductive Thread
  | outside
  /-- In `countDown`, about to lock `mutex_`. -/
  | counting
  /-- In `wait`, about to lock `mutex_`. -/
  | enter
  /-- In `condition_.wait()`. -/
  | waiting (woken : Bool)
  | returning
  deriving DecidableEq

/-- The latch and the threads that use it. -/
structure Latch (m : ℕ) where
  count_ : ℤ
  threads : Fin m → Thread
  /-- The calls of `countDown` that have taken effect. -/
  countDowns : ℕ
  /-- The calls of `wait` that have left their loop. -/
  waits : ℕ

variable {m : ℕ}

/-- The constructor. -/
def new (m : ℕ) (count : ℤ) : Latch m where
  count_ := count
  threads := fun _ => .outside
  countDowns := 0
  waits := 0

/-- `condition_`, on which threads wait for the count. -/
def condition : Condition Thread where
  blocked x := x = .waiting false
  woken x := x = .waiting true
  wake
    | .waiting _ => .waiting true
    | x => x
  blocked_wake x := by cases x <;> simp
  woken_wake x h := by cases x <;> simp_all
  not_woken x h := by cases x <;> simp_all

@[simp] def Latch.setThread (s : Latch m) (t : Fin m) (x : Thread) : Latch m :=
  { s with threads := Function.update s.threads t x }

/-- `--count_` on an `int`. Past the least `int` C++ leaves it undefined; it wraps here. -/
def decrement (count : ℤ) : ℤ := (count - 1).bmod (2 ^ 32)

/-- The critical section of `countDown`. -/
def countDown (s : Latch m) (t : Fin m) : Latch m :=
  let count := decrement s.count_
  let threads := Function.update s.threads t .returning
  { s with
    count_ := count
    threads := if count = 0 then condition.notifyAll threads else threads
    countDowns := s.countDowns + 1 }

/-- One critical section of `wait`: back to `condition_.wait()`, or out of the loop. -/
def wait (s : Latch m) (t : Fin m) : Latch m :=
  if 0 < s.count_ then s.setThread t (.waiting false)
  else { s.setThread t .returning with waits := s.waits + 1 }

inductive Action (m : ℕ)
  | callCountDown (t : Fin m)
  | countDown (t : Fin m)
  | callWait (t : Fin m)
  | wait (t : Fin m)
  | spurious (t : Fin m)
  | return (t : Fin m)

def step (s : Latch m) : Action m → Option (Latch m)
  | .callCountDown t =>
    match s.threads t with
    | .outside => some (s.setThread t .counting)
    | _ => none
  | .countDown t =>
    match s.threads t with
    | .counting => some (countDown s t)
    | _ => none
  | .callWait t =>
    match s.threads t with
    | .outside => some (s.setThread t .enter)
    | _ => none
  | .wait t =>
    match s.threads t with
    | .enter => some (wait s t)
    | .waiting true => some (wait s t)
    | _ => none
  | .spurious t =>
    match s.threads t with
    | .waiting false => some (s.setThread t (.waiting true))
    | _ => none
  | .return t =>
    match s.threads t with
    | .returning => some (s.setThread t .outside)
    | _ => none

/-- A state of some run of `m` threads on a latch of `count`. -/
def Reachable (count : ℤ) (s : Latch m) : Prop := Runs.Reaches step (new m count) s

/-- All that a step can do, branch by branch. -/
inductive Effect (s : Latch m) : Latch m → Prop
  | move {t x} (hx : x ≠ .waiting false) : Effect s (s.setThread t x)
  | countDown {t} : Effect s (countDown s t)
  | waitBlock {t} (hc : 0 < s.count_) : Effect s (s.setThread t (.waiting false))
  | waitLeave {t} (hc : s.count_ ≤ 0) :
      Effect s { s.setThread t .returning with waits := s.waits + 1 }

variable {s s' : Latch m} {a : Action m} {count : ℤ}

theorem wait_effect (t : Fin m) : Effect s (wait s t) := by
  unfold wait
  split_ifs with h
  · exact .waitBlock h
  · exact .waitLeave (not_lt.mp h)

theorem step_effect (h : step s a = some s') : Effect s s' := by
  cases a with
  | callCountDown t | callWait t | spurious t | «return» t =>
    simp only [step] at h
    split at h
    next => obtain rfl := Option.some.inj h; exact .move (by decide)
    next => contradiction
  | countDown t =>
    simp only [step] at h
    split at h
    next => obtain rfl := Option.some.inj h; exact .countDown
    next => contradiction
  | wait t =>
    simp only [step] at h
    split at h
    next => obtain rfl := Option.some.inj h; exact wait_effect t
    next => obtain rfl := Option.some.inj h; exact wait_effect t
    next => contradiction

/-- Where a thread stood before its step, and what the step made of the latch. -/
theorem step_cases (hs : step s a = some s') :
    match a with
    | .callCountDown t => s.threads t = .outside ∧ s' = s.setThread t .counting
    | .countDown t => s.threads t = .counting ∧ s' = countDown s t
    | .callWait t => s.threads t = .outside ∧ s' = s.setThread t .enter
    | .wait t => (s.threads t = .enter ∨ s.threads t = .waiting true) ∧ s' = wait s t
    | .spurious t => s.threads t = .waiting false ∧ s' = s.setThread t (.waiting true)
    | .return t => s.threads t = .returning ∧ s' = s.setThread t .outside := by
  cases a with
  | callCountDown t | countDown t | callWait t | spurious t | «return» t =>
    simp only [step] at hs
    split at hs
    next ht => exact ⟨ht, (Option.some.inj hs).symm⟩
    next => contradiction
  | wait t =>
    simp only [step] at hs
    split at hs
    next ht => exact ⟨Or.inl ht, (Option.some.inj hs).symm⟩
    next ht => exact ⟨Or.inr ht, (Option.some.inj hs).symm⟩
    next => contradiction

/-- A `countDown` leaves the other threads alone, but for those that it wakes. -/
theorem countDown_thread {t u : Fin m} (hne : u ≠ t) :
    (countDown s t).threads u = s.threads u ∨
      s.threads u = .waiting false ∧ (countDown s t).threads u = .waiting true := by
  simp only [countDown]
  split_ifs
  · rcases Condition.notifyAll_apply condition
      (Function.update s.threads t .returning) u with heq | ⟨hb, heq⟩
    · left
      rw [heq, Function.update_of_ne hne]
    · right
      have hu : s.threads u = .waiting false := by
        rw [Function.update_of_ne hne] at hb
        exact of_decide_eq_true hb
      rw [heq, Function.update_of_ne hne, hu]
      exact ⟨rfl, rfl⟩
  · exact Or.inl (Function.update_of_ne hne ..)

theorem countDown_self (s : Latch m) (t : Fin m) : (countDown s t).threads t = .returning := by
  simp only [countDown]
  split_ifs
  · simp [Condition.notifyAll, condition]
  · simp

/-- How far a call of `wait` is from its end. -/
def waitLeft : Thread → ℕ
  | .enter => 4
  | .waiting true => 3
  | .waiting false => 2
  | .returning => 1
  | _ => 0

/-- Who sleeps after a `countDown` slept before it, and was not woken: the count is not `0`. -/
theorem countDown_waiting {t u : Fin m} (h : (countDown s t).threads u = .waiting false) :
    decrement s.count_ ≠ 0 ∧ s.threads u = .waiting false := by
  simp only [countDown] at h
  split_ifs at h with hc
  · have hb := condition.blocked_notifyAll (Function.update s.threads t .returning) u
    exact absurd h (of_decide_eq_false hb)
  · refine ⟨hc, ?_⟩
    by_cases hu : u = t
    · subst hu
      simp at h
    · rwa [Function.update_of_ne hu] at h

theorem decrement_eq {count : ℤ} (h : InRange 32 (count - 1)) : decrement count = count - 1 := by
  obtain ⟨hmin, hmax⟩ := inRange_32.mp h
  exact Int.bmod_eq_of_le (by norm_num; omega) (by norm_num; omega)

/-- No step takes a `countDown` back. -/
theorem countDowns_le (h : Runs.Reaches step s s') : s.countDowns ≤ s'.countDowns := by
  refine h.invariant (I := fun r => s.countDowns ≤ r.countDowns) (fun r a r' hr hs => ?_) le_rfl
  cases step_effect hs with
  | countDown => exact hr.trans (Nat.le_succ _)
  | _ => exact hr

/-! ### What a run of the latch shows -/

/-- The thread whose `countDown` takes effect with the step. -/
def counts : Action m → List (Fin m)
  | .countDown t => [t]
  | _ => []

/-- The thread whose `wait` leaves its loop with the step. -/
def passes (_ : Latch m) (a : Action m) (s' : Latch m) : List (Fin m) :=
  match a with
  | .wait t =>
    match s'.threads t with
    | .returning => [t]
    | _ => []
  | _ => []

theorem countDowns_step (hs : step s a = some s') :
    s'.countDowns = s.countDowns + (counts a).length := by
  have hcases := step_cases hs
  cases a with
  | wait t =>
    obtain ⟨_, rfl⟩ := hcases
    simp only [wait]
    split_ifs <;> rfl
  | _ =>
    obtain ⟨_, rfl⟩ := hcases
    rfl

theorem waits_step (hs : step s a = some s') :
    s'.waits = s.waits + (passes s a s').length := by
  have hcases := step_cases hs
  cases a with
  | wait t =>
    obtain ⟨_, rfl⟩ := hcases
    simp only [wait]
    split_ifs <;> simp [passes]
  | _ =>
    obtain ⟨_, rfl⟩ := hcases
    rfl

theorem countDowns_run {as : List (Action m)} (h : Runs.run step s as = some s') :
    s'.countDowns = s.countDowns + (as.flatMap counts).length := by
  rw [← Runs.trace_eq_flatMap counts h]
  exact Runs.eq_add_trace List.length Latch.countDowns rfl (fun _ _ => List.length_append)
    (fun _ _ _ => countDowns_step) h

theorem waits_run {as : List (Action m)} (h : Runs.run step s as = some s') :
    s'.waits = s.waits + (Runs.trace step passes s as).length :=
  Runs.eq_add_trace List.length Latch.waits rfl (fun _ _ => List.length_append)
    (fun _ _ _ => waits_step) h

/-- As long as `count_` has not left `int`, it is what is left to count; threads sleep
only above `0` and leave only at or below it. -/
structure Gate (count : ℤ) (s : Latch m) : Prop where
  counted : s.count_ = count - s.countDowns
  blocked : ∀ t, s.threads t = .waiting false → s.countDowns < count
  passed : 0 < s.waits → count ≤ s.countDowns

/-- `count_` has not left `int`. -/
def Fits (count : ℤ) (s : Latch m) : Prop := -2 ^ 31 ≤ count - s.countDowns

theorem Gate.step (hcount : InRange 32 count) (hi : Gate count s) (hs : step s a = some s')
    (hfits : Fits count s') : Gate count s' := by
  cases step_effect hs with
  | @move t x hx =>
    refine ⟨hi.counted, fun u hu => hi.blocked u ?_, hi.passed⟩
    by_cases hut : u = t
    · subst hut
      exact absurd (by simpa using hu) hx
    · simpa [hut] using hu
  | @countDown t =>
    have hlast : (countDown s t).countDowns = s.countDowns + 1 := rfl
    have hdec : decrement s.count_ = s.count_ - 1 := by
      apply decrement_eq
      rw [inRange_32] at hcount ⊢
      rw [Fits, hlast] at hfits
      rw [hi.counted]
      push_cast at hfits
      omega
    refine ⟨?_, fun u hu => ?_, fun hw => ?_⟩
    · show decrement s.count_ = count - (s.countDowns + 1 : ℕ)
      rw [hdec, hi.counted]
      omega
    · obtain ⟨hne, hu⟩ := countDown_waiting hu
      have hlt := hi.blocked u hu
      rw [hdec, hi.counted] at hne
      rw [hlast]
      push_cast
      omega
    · have hle := hi.passed hw
      rw [hlast]
      push_cast
      omega
  | waitBlock hc =>
    refine ⟨hi.counted, fun _ _ => ?_, hi.passed⟩
    rw [hi.counted] at hc
    exact sub_pos.mp hc
  | @waitLeave t hc =>
    refine ⟨hi.counted, fun u hu => hi.blocked u ?_, fun _ => ?_⟩
    · by_cases hut : u = t
      · subst hut
        simp at hu
      · simpa [hut] using hu
    · rw [hi.counted] at hc
      exact sub_nonpos.mp hc

theorem Reachable.gate (hcount : InRange 32 count) (h : Reachable count s)
    (hfits : Fits count s) : Gate count s := by
  have hstep : ∀ (r : Latch m) a r', (Fits count r → Gate count r) → step r a = some r' →
      Fits count r' → Gate count r' := by
    intro r a r' hr hs hfits
    have hle := countDowns_le ⟨[a], by rw [Runs.run_cons, hs]; rfl⟩
    refine (hr ?_).step hcount hs hfits
    unfold Fits at hfits ⊢
    omega
  refine h.invariant (I := fun r => Fits count r → Gate count r) hstep (fun _ => ?_) hfits
  exact ⟨by simp [new], fun t ht => by simp [new] at ht, fun hw => by simp [new] at hw⟩

/-- While `count_` has not left `int`: no `wait` leaves its loop before the count has been
counted down, and from then on nobody is asleep in it. Counted are the critical sections of
`countDown` and those of `wait` that leave the loop. -/
theorem latch_opens {m : ℕ} {count : ℤ} (hcount : InRange 32 count) {as : List (Action m)}
    {s : Latch m} (h : Runs.run step (new m count) as = some s)
    (hfits : -2 ^ 31 ≤ count - s.countDowns) :
    (0 < s.waits → max count 0 ≤ s.countDowns) ∧
    (count ≤ s.countDowns → ∀ s', Runs.Reaches step s s' → -2 ^ 31 ≤ count - s'.countDowns →
      ∀ t, s'.threads t ≠ .waiting false) ∧
    s.countDowns = (as.flatMap counts).length ∧
    s.waits = (Runs.trace step passes (new m count) as).length := by
  have hstart : Reachable count s := ⟨as, h⟩
  refine ⟨fun hw => ?_, fun hdone s' hs hfits' t ht => ?_, ?_, ?_⟩
  · exact max_le ((hstart.gate hcount hfits).passed hw) (Int.natCast_nonneg _)
  · have hreach : Reachable count s' := Runs.Reaches.trans hstart hs
    have hlt := (hreach.gate hcount hfits').blocked t ht
    have hle := countDowns_le hs
    omega
  · rw [countDowns_run h]
    exact Nat.zero_add _
  · rw [waits_run h]
    exact Nat.zero_add _

/-- A thread is asleep when the last of two `countDown`s comes, and goes on to return. -/
theorem latch_opens_two :
    ∃ as, ∃ s : Latch 2, Runs.run step (new 2 2) as = some s ∧ as.flatMap counts = [1, 1] ∧
      Runs.trace step passes (new 2 2) as = [0] ∧ s.waits = 1 ∧ s.countDowns = 2 ∧
      max 2 0 ≤ (s.countDowns : ℤ) ∧ ∀ t, s.threads t ≠ .waiting false := by
  obtain ⟨s, hr, hs⟩ := Runs.exists_of_any step (new 2 2)
    [.callWait 0, .wait 0, .callCountDown 1, .countDown 1, .return 1, .callCountDown 1,
      .countDown 1, .wait 0]
    (fun s => 0 < s.waits ∧ s.countDowns = 2) (by decide)
  obtain ⟨hwaits, hdowns⟩ := of_decide_eq_true hs
  have hfits : (-2 : ℤ) ^ 31 ≤ 2 - s.countDowns := by
    rw [hdowns]
    decide
  obtain ⟨hopen, hawake, hcounts, hpasses⟩ := latch_opens (by decide) hr hfits
  exact ⟨_, s, hr, by decide, by decide, hpasses.trans (by decide), hdowns, hopen hwaits,
    hawake (by rw [hdowns]; decide) s ⟨[], rfl⟩ hfits⟩

/-- From the least `int`, one `countDown` leaves a positive count that blocks the next `wait`. -/
theorem latch_blocks_min :
    ¬ ∀ (m : ℕ) (count : ℤ), InRange 32 count → ∀ s : Latch m, Reachable count s →
      (0 < s.waits → max count 0 ≤ s.countDowns) ∧
      (count ≤ s.countDowns → ∀ s', Runs.Reaches step s s' →
        ∀ t, s'.threads t ≠ .waiting false) := by
  intro hevery
  obtain ⟨s, hr, hs⟩ := Runs.exists_of_any step (new 1 (-2147483648))
    [.callCountDown 0, .countDown 0, .return 0, .callWait 0, .wait 0]
    (fun s => s.countDowns = 1 ∧ s.threads 0 = .waiting false) (by decide)
  obtain ⟨hdowns, hblocked⟩ := of_decide_eq_true hs
  refine (hevery 1 _ (by decide) s ⟨_, hr⟩).2 ?_ s ⟨[], rfl⟩ 0 hblocked
  rw [hdowns]
  decide

end NaiveNet.CountDownLatch
