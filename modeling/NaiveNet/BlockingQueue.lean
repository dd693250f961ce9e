import NaiveNet.Condition
import NaiveNet.Runs

/-!
# The blocking queue

`BlockingQueue<T>` as its threads see it: `n` consumers that call `take` and `m`
producers that call `put`, again and again. A step is one critical section of
`mutex_` (from acquiring it to releasing it or to `wait`), a call, a return or a
spurious wake-up. The action names the thread that moves and the consumer that
a signal wakes.

The lists `values` and `taken` record the history and are read by no step.
-/
namespace NaiveNet.BlockingQueue

open Tally

/-- Where a consumer stands in `take`. -/
inductive Consumer (T : Type)
  | outside
  /-- About to lock `mutex_`. -/
  | enter
  /-- In `notEmpty_.wait()`. -/
  | waiting (woken : Bool)
  | returning (front : T)

/-- Where a producer stands in `put`. -/
inductive Producer (T : Type)
  | outside
  /-- About to lock `mutex_`. -/
  | enter (x : T)
  | returning

/-- The queue and the threads that use it. -/
structure Queue (T : Type) (n m : ℕ) where
  queue_ : List T
  consumers : Fin n → Consumer T
  producers : Fin m → Producer T
  /-- `front()` or `pop_front()` was called on an empty deque. -/
  emptyRead : Bool
  /-- What was put, in the order of the critical sections. -/
  values : List T
  /-- What `take` found, in the order of the critical sections. -/
  taken : List T

variable {T : Type} {n m : ℕ}

def new (T : Type) (n m : ℕ) : Queue T n m where
  queue_ := []
  consumers := fun _ => .outside
  producers := fun _ => .outside
  emptyRead := false
  values := []
  taken := []

/-- `notEmpty_`, on which consumers wait in `take`. -/
def notEmpty : Condition (Consumer T) where
  blocked
    | .waiting false => true
    | _ => false
  woken
    | .waiting true => true
    | _ => false
  wake
    | .waiting _ => .waiting true
    | x => x
  blocked_wake x := by cases x <;> simp
  woken_wake x h := by split at h <;> simp_all
  not_woken x h := by split at h <;> simp_all

@[simp] def Queue.setConsumer (s : Queue T n m) (c : Fin n) (x : Consumer T) : Queue T n m :=
  { s with consumers := Function.update s.consumers c x }

@[simp] def Queue.setProducer (s : Queue T n m) (p : Fin m) (x : Producer T) : Queue T n m :=
  { s with producers := Function.update s.producers p x }

/-- The critical section of `put`. -/
def put (s : Queue T n m) (p : Fin m) (x : T) (wake : Option (Fin n)) : Option (Queue T n m) :=
  (notEmpty.notify s.consumers wake).map fun consumers =>
    { s.setProducer p .returning with
      consumers := consumers, queue_ := s.queue_ ++ [x], values := s.values ++ [x] }

/-- One critical section of `take`: back to `wait`, or out with the front. -/
def take (s : Queue T n m) (c : Fin n) : Queue T n m :=
  if s.queue_.isEmpty then s.setConsumer c (.waiting false)
  else
    match s.queue_.head? with
    | some front =>
      { s.setConsumer c (.returning front) with
        queue_ := s.queue_.tail, taken := s.taken ++ [front] }
    | none => { s with emptyRead := true }

/-- What can happen next, and whom a signal wakes. -/
inductive Action (T : Type) (n m : ℕ)
  | callPut (p : Fin m) (x : T)
  | put (p : Fin m) (wake : Option (Fin n))
  | returnPut (p : Fin m)
  | callTake (c : Fin n)
  | take (c : Fin n)
  | spurious (c : Fin n)
  | returnTake (c : Fin n)

def step (s : Queue T n m) : Action T n m → Option (Queue T n m)
  | .callPut p x =>
    match s.producers p with
    | .outside => some (s.setProducer p (.enter x))
    | _ => none
  | .put p wake =>
    match s.producers p with
    | .enter x => put s p x wake
    | _ => none
  | .returnPut p =>
    match s.producers p with
    | .returning => some (s.setProducer p .outside)
    | _ => none
  | .callTake c =>
    match s.consumers c with
    | .outside => some (s.setConsumer c .enter)
    | _ => none
  | .take c =>
    match s.consumers c with
    | .enter => some (take s c)
    | .waiting true => some (take s c)
    | _ => none
  | .spurious c =>
    match s.consumers c with
    | .waiting false => some (s.setConsumer c (.waiting true))
    | _ => none
  | .returnTake c =>
    match s.consumers c with
    | .returning _ => some (s.setConsumer c .outside)
    | _ => none

/-- A state of some run on a fresh queue. -/
def Reachable (s : Queue T n m) : Prop := Runs.Reaches step (new T n m) s

/-- All that a step can do, branch by branch. -/
inductive Effect (s : Queue T n m) : Queue T n m → Prop
  | producer {p} (x : Producer T) : Effect s (s.setProducer p x)
  | put {p x wake consumers} (hw : notEmpty.notify s.consumers wake = some consumers) :
      Effect s { s.setProducer p .returning with
        consumers := consumers, queue_ := s.queue_ ++ [x], values := s.values ++ [x] }
  | callTake {c} (h : s.consumers c = .outside) : Effect s (s.setConsumer c .enter)
  | takeWait {c} (h : notEmpty.blocked (s.consumers c) = false) (hq : s.queue_ = []) :
      Effect s (s.setConsumer c (.waiting false))
  | takeFront {c front rest} (h : notEmpty.blocked (s.consumers c) = false)
      (hq : s.queue_ = front :: rest) :
      Effect s { s.setConsumer c (.returning front) with
        queue_ := rest, taken := s.taken ++ [front] }
  | spurious {c} (h : s.consumers c = .waiting false) : Effect s (s.setConsumer c (.waiting true))
  | returnTake {c front} (h : s.consumers c = .returning front) :
      Effect s (s.setConsumer c .outside)

variable {s s' : Queue T n m} {a : Action T n m}

/-- The test of `empty` in the same critical section keeps `front` off an empty deque. -/
theorem take_effect {c : Fin n} (h : notEmpty.blocked (s.consumers c) = false) :
    Effect s (take s c) := by
  unfold take
  cases hq : s.queue_ with
  | nil =>
    rw [List.isEmpty_nil, if_pos rfl]
    exact .takeWait h hq
  | cons front rest =>
    rw [List.isEmpty_cons, if_neg Bool.false_ne_true, List.head?_cons, List.tail_cons]
    exact .takeFront h hq

theorem step_effect (h : step s a = some s') : Effect s s' := by
  cases a with
  | callPut p x =>
    simp only [step] at h
    split at h
    next => obtain rfl := Option.some.inj h; exact .producer _
    next => contradiction
  | put p wake =>
    simp only [step] at h
    split at h
    next x hp =>
      obtain ⟨consumers, hw, rfl⟩ := Option.map_eq_some_iff.mp h
      exact .put hw
    next => contradiction
  | returnPut p =>
    simp only [step] at h
    split at h
    next => obtain rfl := Option.some.inj h; exact .producer _
    next => contradiction
  | callTake c =>
    simp only [step] at h
    split at h
    next hc => obtain rfl := Option.some.inj h; exact .callTake hc
    next => contradiction
  | take c =>
    simp only [step] at h
    split at h
    next hc => obtain rfl := Option.some.inj h; exact take_effect (by rw [hc]; rfl)
    next hc => obtain rfl := Option.some.inj h; exact take_effect (by rw [hc]; rfl)
    next => contradiction
  | spurious c =>
    simp only [step] at h
    split at h
    next hc => obtain rfl := Option.some.inj h; exact .spurious hc
    next => contradiction
  | returnTake c =>
    simp only [step] at h
    split at h
    next front hc => obtain rfl := Option.some.inj h; exact .returnTake hc
    next => contradiction

/-- Where a thread stood before its step, and what the step made of the queue. -/
theorem step_cases (h : step s a = some s') :
    match a with
    | .callPut p x => s.producers p = .outside ∧ s' = s.setProducer p (.enter x)
    | .put p wake => ∃ x consumers, s.producers p = .enter x ∧
        notEmpty.notify s.consumers wake = some consumers ∧
        s' = { s.setProducer p .returning with
          consumers := consumers, queue_ := s.queue_ ++ [x], values := s.values ++ [x] }
    | .returnPut p => s.producers p = .returning ∧ s' = s.setProducer p .outside
    | .callTake c => s.consumers c = .outside ∧ s' = s.setConsumer c .enter
    | .take c => (s.consumers c = .enter ∨ s.consumers c = .waiting true) ∧ s' = take s c
    | .spurious c => s.consumers c = .waiting false ∧ s' = s.setConsumer c (.waiting true)
    | .returnTake c => (∃ front, s.consumers c = .returning front) ∧
        s' = s.setConsumer c .outside := by
  cases a with
  | callPut p x | returnPut p | callTake c | spurious c =>
    simp only [step] at h
    split at h
    next hx => exact ⟨hx, (Option.some.inj h).symm⟩
    next => contradiction
  | put p wake =>
    simp only [step] at h
    split at h
    next x hp =>
      obtain ⟨consumers, hw, rfl⟩ := Option.map_eq_some_iff.mp h
      exact ⟨x, consumers, hp, hw, rfl⟩
    next => contradiction
  | take c =>
    simp only [step] at h
    split at h
    next hc => exact ⟨Or.inl hc, (Option.some.inj h).symm⟩
    next hc => exact ⟨Or.inr hc, (Option.some.inj h).symm⟩
    next => contradiction
  | returnTake c =>
    simp only [step] at h
    split at h
    next front hc => exact ⟨⟨front, hc⟩, (Option.some.inj h).symm⟩
    next => contradiction

theorem take_cases (s : Queue T n m) (c : Fin n) :
    s.queue_ = [] ∧ take s c = s.setConsumer c (.waiting false) ∨
    ∃ front rest, s.queue_ = front :: rest ∧ take s c =
      { s.setConsumer c (.returning front) with
        queue_ := rest, taken := s.taken ++ [front] } := by
  unfold take
  cases hq : s.queue_ with
  | nil => exact Or.inl ⟨rfl, rfl⟩
  | cons front rest => exact Or.inr ⟨front, rest, rfl, rfl⟩

/-- First in, first out. -/
def Fifo (s : Queue T n m) : Prop := s.taken ++ s.queue_ = s.values

theorem Fifo.step (hi : Fifo s) (hs : step s a = some s') : Fifo s' := by
  unfold Fifo at hi ⊢
  cases step_effect hs with
  | put hw =>
    show s.taken ++ (s.queue_ ++ _) = s.values ++ _
    rw [← hi, List.append_assoc]
  | takeFront h hq =>
    rw [hq] at hi
    simpa using hi
  | _ => exact hi

theorem emptyRead_step (hi : s.emptyRead = false) (hs : step s a = some s') :
    s'.emptyRead = false := by
  cases step_effect hs with
  | _ => exact hi

/-- While a consumer is blocked, every element has a woken consumer coming. -/
def ElementsCovered (s : Queue T n m) : Prop := notEmpty.Covered s.queue_.length s.consumers

theorem ElementsCovered.step (hi : ElementsCovered s) (hs : step s a = some s') :
    ElementsCovered s' := by
  unfold ElementsCovered at hi ⊢
  cases step_effect hs with
  | producer x => exact hi
  | put hw =>
    rw [List.length_append]
    exact hi.notify hw
  | callTake h => exact hi.update (by rw [h]; rfl) (by rw [h]; rfl)
  | takeWait h hq =>
    show notEmpty.Covered s.queue_.length _
    rw [hq]
    exact notEmpty.covered_zero _
  | takeFront h hq =>
    -- A newcomer may be the one that takes it: the woken consumer then finds one element less.
    rw [hq] at hi
    exact hi.consume h rfl
  | spurious h =>
    have hw := hi.spurious (by rw [h]; rfl)
    rwa [h] at hw
  | returnTake h => exact hi.update (by rw [h]; rfl) (by rw [h]; rfl)

/-! ### What the calls put and take -/

/-- The producer whose critical section the step is, and what it was called with. -/
def puts (s : Queue T n m) (a : Action T n m) (_ : Queue T n m) : List (Fin m × T) :=
  match a with
  | .put p _ =>
    match s.producers p with
    | .enter x => [(p, x)]
    | _ => []
  | _ => []

/-- What the step makes `take` return. -/
def takes (_ : Queue T n m) (a : Action T n m) (s' : Queue T n m) : List T :=
  match a with
  | .take c =>
    match s'.consumers c with
    | .returning front => [front]
    | _ => []
  | _ => []

/-- What `p` calls `put` with. -/
def Action.argument (p : Fin m) : Action T n m → List T
  | .callPut q x => if q = p then [x] else []
  | _ => []

/-- What a producer is about to put. -/
def Producer.pending : Producer T → List T
  | .enter x => [x]
  | _ => []

theorem values_step (hs : step s a = some s') :
    s'.values = s.values ++ (puts s a s').map Prod.snd := by
  have hcases := step_cases hs
  cases a with
  | put p wake =>
    obtain ⟨x, consumers, hp, _, rfl⟩ := hcases
    simp only [puts, hp, List.map_singleton]
  | take c =>
    obtain ⟨_, rfl⟩ := hcases
    rcases take_cases s c with ⟨_, ht⟩ | ⟨front, rest, _, ht⟩ <;> rw [ht] <;>
      exact (List.append_nil _).symm
  | _ =>
    obtain ⟨_, rfl⟩ := hcases
    exact (List.append_nil _).symm

theorem taken_step (hs : step s a = some s') : s'.taken = s.taken ++ takes s a s' := by
  have hcases := step_cases hs
  cases a with
  | put p wake =>
    obtain ⟨x, consumers, _, _, rfl⟩ := hcases
    exact (List.append_nil _).symm
  | take c =>
    obtain ⟨_, rfl⟩ := hcases
    rcases take_cases s c with ⟨_, ht⟩ | ⟨front, rest, _, ht⟩ <;> simp [ht, takes]
  | _ =>
    obtain ⟨_, rfl⟩ := hcases
    exact (List.append_nil _).symm

/-- A producer puts what it was called with, one call after the other. -/
theorem argument_step (hs : step s a = some s') (p : Fin m) :
    (s.producers p).pending ++ a.argument p =
      ((puts s a s').filter fun x => x.1 = p).map Prod.snd ++ (s'.producers p).pending := by
  have hcases := step_cases hs
  cases a with
  | callPut q x =>
    obtain ⟨hq, rfl⟩ := hcases
    have hgiven : (s.producers q).pending ++ [x] = [] ++ Producer.pending (.enter x) := by
      rw [hq]
      rfl
    simpa [puts, Action.argument] using Runs.append_held_update hgiven p
  | put q wake =>
    obtain ⟨x, consumers, hq, _, rfl⟩ := hcases
    have hput : (s.producers q).pending ++ [] = [x] ++ Producer.pending .returning := by
      rw [hq]
      rfl
    have hmove := Runs.append_held_update hput p
    simp only [puts, hq]
    by_cases hp : q = p <;> simpa [Action.argument, hp] using hmove
  | returnPut q =>
    obtain ⟨hq, rfl⟩ := hcases
    have hsame : (s.producers q).pending = Producer.pending .outside := by
      rw [hq]
      rfl
    simpa [puts, Action.argument] using Runs.held_update hsame p
  | take c =>
    obtain ⟨_, rfl⟩ := hcases
    rcases take_cases s c with ⟨_, ht⟩ | ⟨front, rest, _, ht⟩ <;> simp [ht, puts, Action.argument]
  | callTake c | spurious c | returnTake c =>
    obtain ⟨_, rfl⟩ := hcases
    simp [puts, Action.argument]

theorem values_run {as : List (Action T n m)} (h : Runs.run step s as = some s') :
    s'.values = s.values ++ (Runs.trace step puts s as).map Prod.snd := by
  rw [Runs.apply_trace List.map_nil fun _ _ => List.map_append]
  exact Runs.eq_append_trace (fun _ _ _ => values_step) h

theorem taken_run {as : List (Action T n m)} (h : Runs.run step s as = some s') :
    s'.taken = s.taken ++ Runs.trace step takes s as :=
  Runs.eq_append_trace (fun _ _ _ => taken_step) h

theorem argument_run {as : List (Action T n m)} (h : Runs.run step s as = some s') (p : Fin m) :
    (s.producers p).pending ++ as.flatMap (Action.argument p) =
      ((Runs.trace step puts s as).filter fun x => x.1 = p).map Prod.snd ++
        (s'.producers p).pending := by
  rw [Runs.apply_trace (f := fun xs : List (Fin m × T) =>
    (xs.filter fun x => x.1 = p).map Prod.snd) rfl fun _ _ => by simp]
  exact Runs.append_flatMap_eq_trace (fun s : Queue T n m => (s.producers p).pending)
    (fun _ _ _ hs => argument_step hs p) h

/-- In every run the values that `take` returned, in the order of its critical sections, and
then the queue are the values that were put, in order: each producer's are the arguments of
its calls, the one it is about to put left out. `take` never reads an empty deque, and while
some consumer is blocked there are as many woken consumers on their way as elements. -/
theorem fifo_and_no_lost_wakeup {T : Type} {n m : ℕ} {as : List (Action T n m)}
    {s : Queue T n m} (h : Runs.run step (new T n m) as = some s) :
    Runs.trace step takes (new T n m) as ++ s.queue_ =
      (Runs.trace step puts (new T n m) as).map Prod.snd ∧
    (∀ p, as.flatMap (Action.argument p) =
      ((Runs.trace step puts (new T n m) as).filter fun x => x.1 = p).map Prod.snd ++
        (s.producers p).pending) ∧
    s.emptyRead = false ∧
    ((∃ c, s.consumers c = .waiting false) →
      s.queue_.length ≤
        (Finset.univ.filter fun c => notEmpty.woken (s.consumers c) = true).card) := by
  have hreach : Reachable s := ⟨as, h⟩
  have hfifo : Fifo s := hreach.invariant (fun _ _ _ => Fifo.step) rfl
  have hread : s.emptyRead = false :=
    hreach.invariant (I := fun s => s.emptyRead = false) (fun _ _ _ => emptyRead_step) rfl
  have hcov : ElementsCovered s :=
    hreach.invariant (fun _ _ _ => ElementsCovered.step) (notEmpty.covered_zero _)
  refine ⟨?_, fun p => ?_, hread, fun hblocked => ?_⟩
  · have hvalues := values_run h
    have htaken := taken_run h
    rw [Fifo, htaken, hvalues] at hfifo
    exact hfifo
  · exact argument_run h p
  · obtain ⟨c, hc⟩ := hblocked
    exact hcov ⟨c, by rw [hc]; rfl⟩

/-- Two consumers asleep; the one that is woken takes the first element, sleeps again and is
woken for the second. A third is about to be put. -/
theorem fifo_and_no_lost_wakeup_two :
    ∃ (as : List (Action ℕ 2 2)) (s : Queue ℕ 2 2), Runs.run step (new ℕ 2 2) as = some s ∧
      Runs.trace step takes (new ℕ 2 2) as = [7] ∧
      Runs.trace step puts (new ℕ 2 2) as = [(0, 7), (1, 8)] ∧ s.queue_ = [8] ∧
      as.flatMap (Action.argument 0) = [7, 9] ∧ (s.producers 0).pending = [9] ∧
      s.consumers 0 = .waiting false ∧
      s.queue_.length ≤
        (Finset.univ.filter fun c => notEmpty.woken (s.consumers c) = true).card := by
  obtain ⟨s, hr, hs⟩ := Runs.exists_of_any step (new ℕ 2 2)
    [.callTake 0, .take 0, .callTake 1, .take 1, .callPut 0 7, .put 0 (some 1), .take 1,
      .returnTake 1, .returnPut 0, .callTake 1, .take 1, .callPut 1 8, .put 1 (some 1),
      .callPut 0 9]
    (fun s => (s.producers 0).pending = [9] ∧ notEmpty.blocked (s.consumers 0) = true)
    (by decide)
  obtain ⟨hpending, hblocked⟩ := of_decide_eq_true hs
  have hwaiting : s.consumers 0 = .waiting false := by
    revert hblocked
    cases s.consumers 0 with
    | waiting woken => cases woken <;> simp [notEmpty]
    | _ => simp [notEmpty]
  obtain ⟨hfifo, hargument, _, hcovered⟩ := fifo_and_no_lost_wakeup hr
  refine ⟨_, s, hr, by decide, by decide, ?_, ?_, hpending, hwaiting, hcovered ⟨0, hwaiting⟩⟩
  · exact List.append_cancel_left (show [7] ++ s.queue_ = [7] ++ [8] from hfifo)
  · rw [hargument, hpending]
    decide

end NaiveNet.BlockingQueue
