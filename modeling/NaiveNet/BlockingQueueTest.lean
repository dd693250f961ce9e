import NaiveNet.BlockingQueue
import NaiveNet.CountDownLatch

/-!
# A blocking queue behind a latch

The program of `BlockingQueue_test`: the constructor of `Test` starts the threads, `run`
waits on the latch until each of them has counted it down and puts its strings, `joinAll`
puts one `"stop"` for every thread and joins them. No thread looks at what it takes. The
queue and the latch make their own steps; the program says which, and in what order. What
it prints changes nothing and is left out.
-/
namespace NaiveNet.BlockingQueueTest

open BlockingQueue (Queue)
open CountDownLatch (Latch)

/-- Where a thread stands in `threadFunc`. -/
inductive Worker
  /-- `start` has not been called. -/
  | created
  | started
  /-- In `latch_.countDown()`, about to lock its mutex. -/
  | counting
  | counted
  /-- In the loop, with the variable of its condition. -/
  | looping (running : Bool)
  | stopped
  deriving DecidableEq

/-- Where `main` stands. -/
inductive Main
  /-- In the constructor: so many threads are started. -/
  | starting (i : ℕ)
  /-- In `latch_.wait()`. -/
  | waiting
  /-- In `run` or `joinAll`: so many calls of `put` have returned. -/
  | putting (i : ℕ)
  /-- In `joinAll`: so many calls of `join` have returned. -/
  | joining (i : ℕ)
  | returned
  deriving DecidableEq

/-- The thread that runs `main`, the only one that calls `put`. -/
def producer : Fin 1 := Fin.last 0

/-- The latch has the workers as its threads and `main` as the last. -/
structure State (n : ℕ) where
  queue : Queue String n 1
  latch : Latch (n + 1)
  main : Main
  workers : Fin n → Worker

def start (n : ℕ) : State n where
  queue := BlockingQueue.new String n 1
  latch := CountDownLatch.new (n + 1) n
  main := .starting 0
  workers := fun _ => .created

/-- What `run` and `joinAll` put, one after the other. -/
def text (times i : ℕ) : String := if i < times then "hello " ++ toString i else "stop"

/-- The first `r` of them. -/
def texts (times r : ℕ) : List String := (List.range r).map (text times)

variable {n : ℕ}

inductive Action (n : ℕ)
  | start
  | wait
  | returnWait
  | callPut
  | returnPut
  /-- The first call of `join`. -/
  | join
  /-- A call of `join` returns, and the next one comes. -/
  | joined
  | return
  /-- A critical section of `wait`. -/
  | testCount
  | spuriousCount
  | callCountDown (w : Fin n)
  /-- The critical section of `countDown`. -/
  | countDown (w : Fin n)
  | returnCountDown (w : Fin n)
  /-- The test of `running`, and with it the call of `take`. -/
  | loop (w : Fin n)
  | returnTake (w : Fin n)
  | queue (a : BlockingQueue.Action String n 1)

/-- The steps of the queue that need nothing from `main` or a thread. -/
def inner : BlockingQueue.Action String n 1 → Bool
  | .put _ _ | .take _ | .spurious _ => true
  | _ => false

@[simp] def State.setWorker (s : State n) (w : Fin n) (x : Worker) : State n :=
  { s with workers := Function.update s.workers w x }

def onQueue (s : State n) (a : BlockingQueue.Action String n 1) : Option (State n) :=
  (BlockingQueue.step s.queue a).map fun queue => { s with queue := queue }

def onLatch (s : State n) (a : CountDownLatch.Action (n + 1)) : Option (State n) :=
  (CountDownLatch.step s.latch a).map fun latch => { s with latch := latch }

def step (times : ℕ) (s : State n) : Action n → Option (State n)
  | .start =>
    match s.main with
    | .starting i =>
      if h : i < n then some { s.setWorker ⟨i, h⟩ .started with main := .starting (i + 1) }
      else none
    | _ => none
  | .wait =>
    if s.main = .starting n then onLatch { s with main := .waiting } (.callWait (Fin.last n))
    else none
  | .returnWait =>
    if s.main = .waiting then onLatch { s with main := .putting 0 } (.return (Fin.last n))
    else none
  | .callPut =>
    match s.main with
    | .putting i =>
      if i < times + n then onQueue s (.callPut producer (text times i)) else none
    | _ => none
  | .returnPut =>
    match s.main with
    | .putting i => onQueue { s with main := .putting (i + 1) } (.returnPut producer)
    | _ => none
  | .join => if s.main = .putting (times + n) then some { s with main := .joining 0 } else none
  | .joined =>
    match s.main with
    | .joining i =>
      if h : i < n then
        if s.workers ⟨i, h⟩ = .stopped then some { s with main := .joining (i + 1) } else none
      else none
    | _ => none
  | .return => if s.main = .joining n then some { s with main := .returned } else none
  | .testCount => onLatch s (.wait (Fin.last n))
  | .spuriousCount => onLatch s (.spurious (Fin.last n))
  | .callCountDown w =>
    if s.workers w = .started then onLatch (s.setWorker w .counting) (.callCountDown w.castSucc)
    else none
  | .countDown w =>
    if s.workers w = .counting then onLatch (s.setWorker w .counted) (.countDown w.castSucc)
    else none
  | .returnCountDown w =>
    if s.workers w = .counted then onLatch (s.setWorker w (.looping true)) (.return w.castSucc)
    else none
  | .loop w =>
    match s.workers w, s.queue.consumers w with
    | .looping running, .outside =>
      if running then onQueue s (.callTake w) else some (s.setWorker w .stopped)
    | _, _ => none
  | .returnTake w => onQueue s (.returnTake w)
  | .queue a => if inner a then onQueue s a else none

def Action.spurious : Action n → Bool
  | .spuriousCount | .queue (.spurious _) => true
  | _ => false

def Reachable (times : ℕ) (s : State n) : Prop := Runs.Reaches (step times) (start n) s

/-- All that a step can do. -/
inductive Effect (times : ℕ) (s : State n) : Action n → State n → Prop
  | start {i} (hmain : s.main = .starting i) (h : i < n) :
      Effect times s .start { s.setWorker ⟨i, h⟩ .started with main := .starting (i + 1) }
  | wait {l} (hmain : s.main = .starting n)
      (hs : CountDownLatch.step s.latch (.callWait (Fin.last n)) = some l) :
      Effect times s .wait { s with latch := l, main := .waiting }
  | returnWait {l} (hmain : s.main = .waiting)
      (hs : CountDownLatch.step s.latch (.return (Fin.last n)) = some l) :
      Effect times s .returnWait { s with latch := l, main := .putting 0 }
  | callPut {i q} (hmain : s.main = .putting i) (hi : i < times + n)
      (hs : BlockingQueue.step s.queue (.callPut producer (text times i)) = some q) :
      Effect times s .callPut { s with queue := q }
  | returnPut {i q} (hmain : s.main = .putting i)
      (hs : BlockingQueue.step s.queue (.returnPut producer) = some q) :
      Effect times s .returnPut { s with queue := q, main := .putting (i + 1) }
  | join (hmain : s.main = .putting (times + n)) :
      Effect times s .join { s with main := .joining 0 }
  | joined {i} (hmain : s.main = .joining i) (h : i < n) (hw : s.workers ⟨i, h⟩ = .stopped) :
      Effect times s .joined { s with main := .joining (i + 1) }
  | return (hmain : s.main = .joining n) : Effect times s .return { s with main := .returned }
  | testCount {l} (hs : CountDownLatch.step s.latch (.wait (Fin.last n)) = some l) :
      Effect times s .testCount { s with latch := l }
  | spuriousCount {l} (hs : CountDownLatch.step s.latch (.spurious (Fin.last n)) = some l) :
      Effect times s .spuriousCount { s with latch := l }
  | callCountDown {w l} (hw : s.workers w = .started)
      (hs : CountDownLatch.step s.latch (.callCountDown w.castSucc) = some l) :
      Effect times s (.callCountDown w) { s.setWorker w .counting with latch := l }
  | countDown {w l} (hw : s.workers w = .counting)
      (hs : CountDownLatch.step s.latch (.countDown w.castSucc) = some l) :
      Effect times s (.countDown w) { s.setWorker w .counted with latch := l }
  | returnCountDown {w l} (hw : s.workers w = .counted)
      (hs : CountDownLatch.step s.latch (.return w.castSucc) = some l) :
      Effect times s (.returnCountDown w) { s.setWorker w (.looping true) with latch := l }
  | callTake {w q} (hw : s.workers w = .looping true)
      (hs : BlockingQueue.step s.queue (.callTake w) = some q) :
      Effect times s (.loop w) { s with queue := q }
  | leave {w} (hw : s.workers w = .looping false) :
      Effect times s (.loop w) (s.setWorker w .stopped)
  | returnTake {w q} (hs : BlockingQueue.step s.queue (.returnTake w) = some q) :
      Effect times s (.returnTake w) { s with queue := q }
  | queue {b q} (hinner : inner b = true) (hs : BlockingQueue.step s.queue b = some q) :
      Effect times s (.queue b) { s with queue := q }

variable {times : ℕ} {s s' : State n} {a : Action n}

theorem onQueue_cases {b : BlockingQueue.Action String n 1} (h : onQueue s b = some s') :
    ∃ q, BlockingQueue.step s.queue b = some q ∧ s' = { s with queue := q } := by
  obtain ⟨q, hq, rfl⟩ := Option.map_eq_some_iff.mp h
  exact ⟨q, hq, rfl⟩

theorem onLatch_cases {b : CountDownLatch.Action (n + 1)} (h : onLatch s b = some s') :
    ∃ l, CountDownLatch.step s.latch b = some l ∧ s' = { s with latch := l } := by
  obtain ⟨l, hl, rfl⟩ := Option.map_eq_some_iff.mp h
  exact ⟨l, hl, rfl⟩

theorem step_effect (h : step times s a = some s') : Effect times s a s' := by
  cases a with
  | start =>
    simp only [step] at h
    split at h
    · next i hmain =>
      split_ifs at h with hi
      obtain rfl := Option.some.inj h
      exact .start hmain hi
    · contradiction
  | wait =>
    rw [step, Option.ite_none_right_eq_some] at h
    obtain ⟨hmain, h⟩ := h
    obtain ⟨l, hl, rfl⟩ := onLatch_cases h
    exact .wait hmain hl
  | returnWait =>
    rw [step, Option.ite_none_right_eq_some] at h
    obtain ⟨hmain, h⟩ := h
    obtain ⟨l, hl, rfl⟩ := onLatch_cases h
    exact .returnWait hmain hl
  | callPut =>
    simp only [step] at h
    split at h
    · next i hmain =>
      rw [Option.ite_none_right_eq_some] at h
      obtain ⟨hi, h⟩ := h
      obtain ⟨q, hq, rfl⟩ := onQueue_cases h
      exact .callPut hmain hi hq
    · contradiction
  | returnPut =>
    simp only [step] at h
    split at h
    · next i hmain =>
      obtain ⟨q, hq, rfl⟩ := onQueue_cases h
      exact .returnPut hmain hq
    · contradiction
  | join =>
    rw [step, Option.ite_none_right_eq_some] at h
    obtain ⟨hmain, h⟩ := h
    obtain rfl := Option.some.inj h
    exact .join hmain
  | joined =>
    simp only [step] at h
    split at h
    · next i hmain =>
      split_ifs at h with hi hw
      obtain rfl := Option.some.inj h
      exact .joined hmain hi hw
    · contradiction
  | «return» =>
    rw [step, Option.ite_none_right_eq_some] at h
    obtain ⟨hmain, h⟩ := h
    obtain rfl := Option.some.inj h
    exact .return hmain
  | testCount =>
    obtain ⟨l, hl, rfl⟩ := onLatch_cases h
    exact .testCount hl
  | spuriousCount =>
    obtain ⟨l, hl, rfl⟩ := onLatch_cases h
    exact .spuriousCount hl
  | callCountDown w =>
    rw [step, Option.ite_none_right_eq_some] at h
    obtain ⟨hw, h⟩ := h
    obtain ⟨l, hl, rfl⟩ := onLatch_cases h
    exact .callCountDown hw hl
  | countDown w =>
    rw [step, Option.ite_none_right_eq_some] at h
    obtain ⟨hw, h⟩ := h
    obtain ⟨l, hl, rfl⟩ := onLatch_cases h
    exact .countDown hw hl
  | returnCountDown w =>
    rw [step, Option.ite_none_right_eq_some] at h
    obtain ⟨hw, h⟩ := h
    obtain ⟨l, hl, rfl⟩ := onLatch_cases h
    exact .returnCountDown hw hl
  | loop w =>
    simp only [step] at h
    split at h
    · next running hw hc =>
      cases running with
      | true =>
        obtain ⟨q, hq, rfl⟩ := onQueue_cases h
        exact .callTake hw hq
      | false =>
        obtain rfl := Option.some.inj h
        exact .leave hw
    · contradiction
  | returnTake w =>
    obtain ⟨q, hq, rfl⟩ := onQueue_cases h
    exact .returnTake hq
  | queue b =>
    rw [step, Option.ite_none_right_eq_some] at h
    obtain ⟨hinner, h⟩ := h
    obtain ⟨q, hq, rfl⟩ := onQueue_cases h
    exact .queue hinner hq

/-! ### The invariant -/

theorem texts_succ (times r : ℕ) : texts times (r + 1) = texts times r ++ [text times r] := by
  simp [texts, List.range_succ]

@[simp] theorem length_texts (times r : ℕ) : (texts times r).length = r := by simp [texts]

theorem texts_isPrefix {r k : ℕ} (h : r ≤ k) : texts times r <+: texts times k := by
  have hrange : List.range r = (List.range k).take r := by rw [List.take_range, min_eq_left h]
  unfold texts
  rw [hrange]
  exact (List.take_prefix ..).map _

/-- Where the latch has a worker. -/
def Worker.latch : Worker → CountDownLatch.Thread
  | .counting => .counting
  | .counted => .returning
  | _ => .outside

def Worker.hasCounted : Worker → Bool
  | .counted | .looping _ | .stopped => true
  | _ => false

/-- Where the latch has `main`, which goes on only when it is `opened`. -/
def AtLatch (opened : Prop) : Main → CountDownLatch.Thread → Prop
  | .starting _, x => x = .outside
  | .waiting, x => x = .enter ∨ (∃ woken, x = .waiting woken) ∨ x = .returning ∧ opened
  | _, x => x = .outside ∧ opened

/-- Which workers `main` has started, and for which it has waited. -/
def Started : Main → (Fin n → Worker) → Prop
  | .starting i, workers => i ≤ n ∧ ∀ w : Fin n, workers w = .created ↔ i ≤ w
  | .joining i, workers => (∀ w, workers w ≠ .created) ∧ i = 0
  | .returned, workers => (∀ w, workers w ≠ .created) ∧ n = 0
  | _, workers => ∀ w, workers w ≠ .created

/-- How many strings were put, by the stand of `main` and of its call of `put`. -/
inductive Puts (n times : ℕ) : Main → BlockingQueue.Producer String → ℕ → Prop
  | starting {i} : Puts n times (.starting i) .outside 0
  | waiting : Puts n times .waiting .outside 0
  | outside {i} (hi : i ≤ times + n) : Puts n times (.putting i) .outside i
  | enter {i} (hi : i < times + n) : Puts n times (.putting i) (.enter (text times i)) i
  | returning {i} (hi : i < times + n) : Puts n times (.putting i) .returning (i + 1)
  | joining {i} : Puts n times (.joining i) .outside (times + n)
  | returned : Puts n times .returned .outside (times + n)

theorem Puts.le {main : Main} {x : BlockingQueue.Producer String} {r : ℕ}
    (h : Puts n times main x r) : r ≤ times + n := by
  cases h with
  | outside hi | enter hi | returning hi => omega
  | _ => omega

structure Inv (times : ℕ) (s : State n) : Prop where
  queue : BlockingQueue.Reachable s.queue
  latch : CountDownLatch.Reachable n s.latch
  threads : ∀ w, s.latch.threads (Fin.castSucc w) = (s.workers w).latch
  counted : s.latch.countDowns = Tally.count Worker.hasCounted s.workers
  main : AtLatch (n ≤ s.latch.countDowns) s.main (s.latch.threads (Fin.last n))
  started : Started s.main s.workers
  loops : ∀ w, s.workers w ≠ .looping false ∧ s.workers w ≠ .stopped
  outside : ∀ w, s.workers w ≠ .looping true → s.queue.consumers w = .outside
  puts : ∃ r, Puts n times s.main (s.queue.producers producer) r ∧ s.queue.values = texts times r

theorem inv_start : Inv times (start n) where
  queue := ⟨[], rfl⟩
  latch := ⟨[], rfl⟩
  threads _ := rfl
  counted := by simp [start, CountDownLatch.new, Tally.count, Worker.hasCounted]
  main := rfl
  started := ⟨Nat.zero_le n, fun _ => by simp [start]⟩
  loops _ := by simp [start]
  outside _ _ := rfl
  puts := ⟨0, .starting, rfl⟩

/-- The latch is counted down once by each of its threads at most. -/
theorem Inv.countDowns_le (hi : Inv times s) : s.latch.countDowns ≤ n := by
  rw [hi.counted, Tally.count]
  exact (Finset.card_le_univ _).trans_eq (Fintype.card_fin n)

theorem Inv.gate (hn : InRange 32 n) (hi : Inv times s) : CountDownLatch.Gate n s.latch := by
  refine hi.latch.gate hn ?_
  have hle := hi.countDowns_le
  unfold CountDownLatch.Fits
  omega

/-- Where the latch is open, every worker has counted it down. -/
theorem Inv.hasCounted (hi : Inv times s) (hle : n ≤ s.latch.countDowns) (w : Fin n) :
    (s.workers w).hasCounted = true := by
  rw [hi.counted, Tally.count] at hle
  have hcard : (Finset.univ.filter fun w => (s.workers w).hasCounted = true).card =
      (Finset.univ : Finset (Fin n)).card :=
    le_antisymm (Finset.card_le_univ _) (by rwa [Finset.card_univ, Fintype.card_fin])
  exact Finset.card_filter_eq_iff.mp hcard w (Finset.mem_univ w)

section QueueSteps

variable {q q' : Queue String n 1} {b : BlockingQueue.Action String n 1}

theorem producers_step (hs : BlockingQueue.step q b = some q') (hcall : ∀ p x, b ≠ .callPut p x)
    (hput : ∀ p wake, b ≠ .put p wake) (hreturn : ∀ p, b ≠ .returnPut p) :
    q'.producers = q.producers ∧ q'.values = q.values := by
  have hcases := BlockingQueue.step_cases hs
  cases b with
  | callPut p x => exact absurd rfl (hcall p x)
  | put p wake => exact absurd rfl (hput p wake)
  | returnPut p => exact absurd rfl (hreturn p)
  | callTake c | spurious c | returnTake c =>
    obtain ⟨_, rfl⟩ := hcases
    exact ⟨rfl, rfl⟩
  | take c =>
    obtain ⟨_, rfl⟩ := hcases
    rcases BlockingQueue.take_cases q c with ⟨_, ht⟩ | ⟨front, rest, _, ht⟩ <;> rw [ht] <;>
      exact ⟨rfl, rfl⟩

/-- Who is outside comes in by a call of `take` only. -/
theorem consumers_step (hs : BlockingQueue.step q b = some q') {w : Fin n}
    (hcall : b ≠ .callTake w) (hw : q.consumers w = .outside) : q'.consumers w = .outside := by
  have hothers {c : Fin n} {x y : BlockingQueue.Consumer String} (hc : q.consumers c = y)
      (hy : y ≠ .outside) : Function.update q.consumers c x w = .outside := by
    have hne : w ≠ c := by
      intro heq
      rw [heq, hc] at hw
      exact hy hw
    rw [Function.update_of_ne hne, hw]
  have hcases := BlockingQueue.step_cases hs
  cases b with
  | callPut p x | returnPut p =>
    obtain ⟨_, rfl⟩ := hcases
    exact hw
  | put p wake =>
    obtain ⟨x, consumers, _, hnotify, rfl⟩ := hcases
    rcases Condition.notify_apply hnotify w with heq | ⟨hblocked, _⟩
    · exact heq.trans hw
    · rw [hw] at hblocked
      contradiction
  | callTake c =>
    obtain ⟨_, rfl⟩ := hcases
    have hne : w ≠ c := fun heq => hcall (heq ▸ rfl)
    exact (Function.update_of_ne hne ..).trans hw
  | take c =>
    obtain ⟨hc, rfl⟩ := hcases
    have hafter (x) : Function.update q.consumers c x w = .outside := by
      rcases hc with hc | hc <;> exact hothers hc (by simp)
    rcases BlockingQueue.take_cases q c with ⟨_, ht⟩ | ⟨front, rest, _, ht⟩ <;> rw [ht] <;>
      exact hafter _
  | spurious c =>
    obtain ⟨hc, rfl⟩ := hcases
    exact hothers hc (by simp)
  | returnTake c =>
    obtain ⟨⟨front, hc⟩, rfl⟩ := hcases
    exact hothers hc (by simp)

end QueueSteps

theorem AtLatch.mono {opened opened' : Prop} (h : opened → opened') {main : Main}
    {x : CountDownLatch.Thread} (hx : AtLatch opened main x) : AtLatch opened' main x := by
  cases main with
  | starting i => exact hx
  | waiting => exact hx.imp_right (Or.imp_right (And.imp_right h))
  | _ => exact ⟨hx.1, h hx.2⟩

theorem Started.update {main : Main} {workers : Fin n → Worker} (h : Started main workers)
    {w : Fin n} {x : Worker} (hw : workers w ≠ .created) (hx : x ≠ .created) :
    Started main (Function.update workers w x) := by
  have hsame (v : Fin n) : Function.update workers w x v = .created ↔ workers v = .created := by
    by_cases hv : v = w
    · subst hv
      rw [Function.update_self]
      exact iff_of_false hx hw
    · rw [Function.update_of_ne hv]
  cases main with
  | starting i => exact ⟨h.1, fun v => (hsame v).trans (h.2 v)⟩
  | joining i | returned => exact ⟨fun v hv => h.1 v ((hsame v).mp hv), h.2⟩
  | waiting | putting i => exact fun v hv => h v ((hsame v).mp hv)

theorem Inv.onQueue {b : BlockingQueue.Action String n 1} {q : Queue String n 1} (hi : Inv times s)
    (hs : BlockingQueue.step s.queue b = some q)
    (houtside : ∀ w, s.workers w ≠ .looping true → b ≠ .callTake w) {main' : Main}
    (hmain : AtLatch (n ≤ s.latch.countDowns) main' (s.latch.threads (Fin.last n)))
    (hstarted : Started main' s.workers)
    (hputs : ∃ r, Puts n times main' (q.producers producer) r ∧ q.values = texts times r) :
    Inv times { s with queue := q, main := main' } :=
  { hi with
    queue := Runs.Reaches.tail hi.queue hs
    main := hmain
    started := hstarted
    outside := fun w hw => consumers_step hs (houtside w hw) (hi.outside w hw)
    puts := hputs }

/-- A step of `main` in the latch. -/
theorem Inv.onLatch {b : CountDownLatch.Action (n + 1)} (hi : Inv times s) {main' : Main}
    {x : CountDownLatch.Thread} {waits : ℕ}
    (hs : CountDownLatch.step s.latch b =
      some { s.latch.setThread (Fin.last n) x with waits := waits })
    (hmain : AtLatch (n ≤ s.latch.countDowns) main' x) (hstarted : Started main' s.workers)
    (hputs : ∃ r, Puts n times main' (s.queue.producers producer) r ∧
      s.queue.values = texts times r) :
    Inv times { s with
      latch := { s.latch.setThread (Fin.last n) x with waits := waits }, main := main' } :=
  { hi with
    latch := Runs.Reaches.tail hi.latch hs
    threads := fun w => (Function.update_of_ne (Fin.castSucc_ne_last w) ..).trans (hi.threads w)
    main := by simpa using hmain
    started := hstarted
    puts := hputs }

/-- A step of a worker in the latch. -/
theorem Inv.setWorker {b : CountDownLatch.Action (n + 1)} {l : Latch (n + 1)} (hi : Inv times s)
    (hs : CountDownLatch.step s.latch b = some l) {w : Fin n} {x : Worker}
    (hself : l.threads w.castSucc = x.latch)
    (hothers : ∀ v ≠ w, l.threads (Fin.castSucc v) = s.latch.threads (Fin.castSucc v))
    (hcounted : l.countDowns + (s.workers w).hasCounted.toNat =
      s.latch.countDowns + x.hasCounted.toNat)
    (hmain : AtLatch (n ≤ l.countDowns) s.main (l.threads (Fin.last n)))
    (hbefore : s.workers w ≠ .created ∧ s.workers w ≠ .looping true)
    (hx : x ≠ .created ∧ x ≠ .looping false ∧ x ≠ .stopped) :
    Inv times { s.setWorker w x with latch := l } where
  queue := hi.queue
  latch := Runs.Reaches.tail hi.latch hs
  threads v := by
    by_cases hv : v = w
    · subst hv
      simpa using hself
    · simpa [hv] using (hothers v hv).trans (hi.threads v)
  counted := by
    have hu := Tally.count_update Worker.hasCounted s.workers w x
    have hc := hi.counted
    simp only [State.setWorker]
    omega
  main := hmain
  started := hi.started.update hbefore.1 hx.1
  loops v := by
    by_cases hv : v = w
    · subst hv
      simpa using hx.2
    · simpa [hv] using hi.loops v
  outside v hv := by
    by_cases hvw : v = w
    · subst hvw
      exact hi.outside v hbefore.2
    · exact hi.outside v (by simpa [hvw] using hv)
  puts := hi.puts

/-- A step of a worker in the queue. -/
theorem Inv.take {b : BlockingQueue.Action String n 1} {q : Queue String n 1} (hi : Inv times s)
    (hs : BlockingQueue.step s.queue b = some q) (hcallPut : ∀ p x, b ≠ .callPut p x)
    (hput : ∀ p wake, b ≠ .put p wake) (hreturn : ∀ p, b ≠ .returnPut p)
    (houtside : ∀ w, s.workers w ≠ .looping true → b ≠ .callTake w) :
    Inv times { s with queue := q } := by
  obtain ⟨hproducers, hvalues⟩ := producers_step hs hcallPut hput hreturn
  refine hi.onQueue hs houtside hi.main hi.started ?_
  rw [hproducers, hvalues]
  exact hi.puts

theorem Inv.put {wake : Option (Fin n)} {p : Fin 1} {q : Queue String n 1} (hi : Inv times s)
    (hs : BlockingQueue.step s.queue (.put p wake) = some q) : Inv times { s with queue := q } := by
  refine hi.onQueue hs (by simp) hi.main hi.started ?_
  obtain ⟨x, consumers, hp, _, rfl⟩ := BlockingQueue.step_cases hs
  obtain rfl := Subsingleton.elim p producer
  obtain ⟨r, hputs, hvalues⟩ := hi.puts
  rw [hp] at hputs
  generalize hmain : s.main = main at hputs ⊢
  cases hputs with
  | enter hr =>
    refine ⟨r + 1, ?_, ?_⟩
    · simpa using Puts.returning hr
    · show s.queue.values ++ [text times r] = texts times (r + 1)
      rw [hvalues, texts_succ]

theorem Inv.putting (hi : Inv times s) {i : ℕ} (hmain : s.main = .putting i) :
    s.latch.threads (Fin.last n) = .outside ∧ n ≤ s.latch.countDowns := by
  have hatlatch := hi.main
  rw [hmain] at hatlatch
  exact hatlatch

theorem Inv.waiting (hi : Inv times s) (ht : s.latch.threads (Fin.last n) ≠ .outside) :
    s.main = .waiting := by
  have hatlatch := hi.main
  cases hmain : s.main with
  | waiting => rfl
  | starting i =>
    rw [hmain] at hatlatch
    exact absurd hatlatch ht
  | _ =>
    rw [hmain] at hatlatch
    exact absurd hatlatch.1 ht

theorem Inv.start (hi : Inv times s) {i : ℕ} (hmain : s.main = .starting i) (h : i < n) :
    Inv times { s.setWorker ⟨i, h⟩ .started with main := .starting (i + 1) } := by
  have hstarted := hi.started
  rw [hmain] at hstarted
  have hcreated : s.workers ⟨i, h⟩ = .created := (hstarted.2 ⟨i, h⟩).mpr le_rfl
  obtain ⟨r, hputs, hvalues⟩ := hi.puts
  rw [hmain] at hputs
  refine ⟨hi.queue, hi.latch, fun w => ?_, ?_, ?_, ⟨h, fun w => ?_⟩, fun w => ?_,
    fun w hw => ?_, ?_⟩
  · have hw := hi.threads w
    by_cases hwi : w = ⟨i, h⟩
    · subst hwi
      rw [hcreated] at hw
      simp only [State.setWorker, Function.update_self]
      exact hw
    · simpa [hwi] using hw
  · show s.latch.countDowns = Tally.count Worker.hasCounted (Function.update _ _ _)
    rw [Tally.count_update_of_eq (by rw [hcreated]; rfl), hi.counted]
  · have hatlatch := hi.main
    rw [hmain] at hatlatch
    exact hatlatch
  · by_cases hwi : w = ⟨i, h⟩
    · subst hwi
      simp
    · have hne : (w : ℕ) ≠ i := fun heq => hwi (Fin.ext heq)
      simp only [State.setWorker, Function.update_of_ne hwi, hstarted.2 w]
      omega
  · by_cases hwi : w = ⟨i, h⟩
    · subst hwi
      simp
    · simpa [hwi] using hi.loops w
  · refine hi.outside w ?_
    by_cases hwi : w = ⟨i, h⟩
    · subst hwi
      rw [hcreated]
      simp
    · simpa [hwi] using hw
  · dsimp only [State.setWorker]
    generalize s.queue.producers producer = x at hputs ⊢
    cases hputs
    exact ⟨0, .starting, hvalues⟩

theorem Inv.effect (hn : InRange 32 n) (hi : Inv times s) (he : Effect times s a s') :
    Inv times s' := by
  cases he with
  | start hmain h => exact hi.start hmain h
  | wait hmain hs =>
    obtain ⟨_, rfl⟩ := CountDownLatch.step_cases hs
    have hstarted := hi.started
    obtain ⟨r, hputs, hvalues⟩ := hi.puts
    rw [hmain] at hstarted hputs
    refine hi.onLatch hs (Or.inl rfl) (fun w hw => ?_) ?_
    · have hle := (hstarted.2 w).mp hw
      omega
    · generalize s.queue.producers producer = x at hputs ⊢
      cases hputs
      exact ⟨0, .waiting, hvalues⟩
  | returnWait hmain hs =>
    obtain ⟨ht, rfl⟩ := CountDownLatch.step_cases hs
    have hatlatch := hi.main
    have hstarted := hi.started
    obtain ⟨r, hputs, hvalues⟩ := hi.puts
    rw [hmain] at hatlatch hstarted hputs
    have hopened : n ≤ s.latch.countDowns := by simpa [AtLatch, ht] using hatlatch
    refine hi.onLatch hs ⟨rfl, hopened⟩ hstarted ?_
    generalize s.queue.producers producer = x at hputs ⊢
    cases hputs
    exact ⟨0, .outside (Nat.zero_le _), hvalues⟩
  | @callPut i q hmain hlt hs =>
    refine hi.onQueue hs (by simp) hi.main hi.started ?_
    obtain ⟨hp, rfl⟩ := BlockingQueue.step_cases hs
    obtain ⟨r, hputs, hvalues⟩ := hi.puts
    rw [hmain, hp] at hputs
    cases hputs with
    | outside hle => exact ⟨i, by simpa [hmain] using Puts.enter hlt, hvalues⟩
  | @returnPut i q hmain hs =>
    have hatlatch := hi.main
    have hstarted := hi.started
    rw [hmain] at hatlatch hstarted
    refine hi.onQueue hs (by simp) hatlatch hstarted ?_
    obtain ⟨hp, rfl⟩ := BlockingQueue.step_cases hs
    obtain ⟨r, hputs, hvalues⟩ := hi.puts
    rw [hmain, hp] at hputs
    cases hputs with
    | returning hlt => exact ⟨i + 1, by simpa using Puts.outside hlt, hvalues⟩
  | join hmain =>
    have hatlatch := hi.main
    have hstarted := hi.started
    obtain ⟨r, hputs, hvalues⟩ := hi.puts
    rw [hmain] at hatlatch hstarted hputs
    refine { hi with main := hatlatch, started := ⟨hstarted, rfl⟩, puts := ?_ }
    dsimp only
    generalize s.queue.producers producer = x at hputs ⊢
    cases hputs with
    | outside => exact ⟨_, .joining, hvalues⟩
    | enter hlt | returning hlt => omega
  | joined hmain h hw => exact absurd hw (hi.loops _).2
  | «return» hmain =>
    have hatlatch := hi.main
    have hstarted := hi.started
    obtain ⟨r, hputs, hvalues⟩ := hi.puts
    rw [hmain] at hatlatch hstarted hputs
    refine { hi with main := hatlatch, started := hstarted, puts := ?_ }
    dsimp only
    generalize s.queue.producers producer = x at hputs ⊢
    cases hputs
    exact ⟨_, .returned, hvalues⟩
  | testCount hs =>
    have hcases := CountDownLatch.step_cases hs
    obtain ⟨ht, rfl⟩ := hcases
    have hmain := hi.waiting (by rcases ht with h | h <;> simp [h])
    have hatlatch : n ≤ s.latch.countDowns ∨ 0 < s.latch.count_ := by
      have hcount := (hi.gate hn).counted
      omega
    unfold CountDownLatch.wait at hs ⊢
    split_ifs at hs ⊢ with hcount
    · exact hi.onLatch hs (by rw [hmain]; exact Or.inr (Or.inl ⟨false, rfl⟩)) hi.started hi.puts
    · have hopen := hatlatch.resolve_right hcount
      exact hi.onLatch hs (by rw [hmain]; exact Or.inr (Or.inr ⟨rfl, hopen⟩)) hi.started hi.puts
  | spuriousCount hs =>
    obtain ⟨ht, rfl⟩ := CountDownLatch.step_cases hs
    have hmain := hi.waiting (by simp [ht])
    exact hi.onLatch hs (by rw [hmain]; exact Or.inr (Or.inl ⟨true, rfl⟩)) hi.started hi.puts
  | @callCountDown w l hw hs =>
    obtain ⟨_, rfl⟩ := CountDownLatch.step_cases hs
    have hlast : Fin.last n ≠ w.castSucc := (Fin.castSucc_ne_last w).symm
    refine hi.setWorker hs (by simp [Worker.latch]) (fun v hv => ?_) (by rw [hw]; rfl) ?_
      (by simp [hw]) (by simp)
    · exact Function.update_of_ne ((Fin.castSucc_injective n).ne hv) ..
    · simpa [hlast] using hi.main
  | @countDown w l hw hs =>
    obtain ⟨_, rfl⟩ := CountDownLatch.step_cases hs
    have hmono : n ≤ s.latch.countDowns → n ≤ s.latch.countDowns + 1 := by omega
    refine hi.setWorker hs (CountDownLatch.countDown_self _ _) (fun v hv => ?_)
      (by rw [hw]; rfl) ?_ (by simp [hw]) (by simp)
    · -- no worker waits for the latch
      refine (CountDownLatch.countDown_thread
        ((Fin.castSucc_injective n).ne hv)).resolve_right fun hwoken => ?_
      rw [hi.threads v] at hwoken
      cases hv : s.workers v <;> simp [hv, Worker.latch] at hwoken
    · have hmain := hi.main.mono hmono
      rcases CountDownLatch.countDown_thread (s := s.latch) (Fin.castSucc_ne_last w).symm with
        heq | ⟨ht, hwoken⟩
      · rw [heq]
        exact hmain
      · rw [hwoken, hi.waiting (by simp [ht])]
        exact Or.inr (Or.inl ⟨true, rfl⟩)
  | @returnCountDown w l hw hs =>
    obtain ⟨_, rfl⟩ := CountDownLatch.step_cases hs
    have hlast : Fin.last n ≠ w.castSucc := (Fin.castSucc_ne_last w).symm
    refine hi.setWorker hs (by simp [Worker.latch]) (fun v hv => ?_) (by rw [hw]; rfl) ?_
      (by simp [hw]) (by simp)
    · exact Function.update_of_ne ((Fin.castSucc_injective n).ne hv) ..
    · simpa [hlast] using hi.main
  | @callTake w q hw hs =>
    refine hi.take hs (by simp) (by simp) (by simp) fun v hv heq => ?_
    obtain rfl := BlockingQueue.Action.callTake.inj heq
    exact hv hw
  | leave hw => exact absurd hw (hi.loops _).1
  | returnTake hs => exact hi.take hs (by simp) (by simp) (by simp) (by simp)
  | @queue b q hinner hs =>
    cases b with
    | put p wake => exact hi.put hs
    | take c | spurious c => exact hi.take hs (by simp) (by simp) (by simp) (by simp)
    | _ => contradiction

theorem Inv.step (hn : InRange 32 n) (hi : Inv times s)
    (hs : BlockingQueueTest.step times s a = some s') : Inv times s' :=
  hi.effect hn (step_effect hs)

theorem Reachable.inv (hn : InRange 32 n) (h : Reachable times s) : Inv times s :=
  Runs.Reaches.invariant (fun _ _ _ hi hs => hi.step hn hs) h inv_start

/-- What the step makes `take` return. -/
def takes (s : State n) (a : Action n) (s' : State n) : List String :=
  match a with
  | .queue b => BlockingQueue.takes s.queue b s'.queue
  | _ => []

theorem taken_step (hs : BlockingQueueTest.step times s a = some s') :
    s'.queue.taken = s.queue.taken ++ takes s a s' := by
  cases step_effect hs with
  | queue _ hq | callPut _ _ hq | returnPut _ hq | callTake _ hq | returnTake hq =>
    exact BlockingQueue.taken_step hq
  | _ => exact (List.append_nil _).symm

theorem taken_run {as : List (Action n)}
    (h : Runs.run (BlockingQueueTest.step times) (start n) as = some s) :
    s.queue.taken = Runs.trace (BlockingQueueTest.step times) takes (start n) as :=
  Runs.eq_append_trace (fun _ _ _ => taken_step) h

/-- What was taken and what is in the queue is the beginning of what `main` puts, in order;
nothing is put before each of the threads has counted the latch down, and no thread reads an
empty deque. -/
theorem texts_in_order {n times : ℕ} (hn : InRange 32 n) {as : List (Action n)} {s : State n}
    (h : Runs.run (step times) (start n) as = some s) :
    s.queue.taken ++ s.queue.queue_ <+: texts times (times + n) ∧ s.queue.emptyRead = false ∧
    (s.queue.values ≠ [] → ∀ w, (s.workers w).hasCounted = true) ∧
    s.queue.taken = Runs.trace (step times) takes (start n) as := by
  have hi : Inv times s := Reachable.inv hn ⟨as, h⟩
  obtain ⟨r, hputs, hvalues⟩ := hi.puts
  have hfifo : BlockingQueue.Fifo s.queue :=
    hi.queue.invariant (fun _ _ _ => BlockingQueue.Fifo.step) rfl
  have hread : s.queue.emptyRead = false :=
    hi.queue.invariant (I := fun q : Queue String n 1 => q.emptyRead = false)
      (fun _ _ _ => BlockingQueue.emptyRead_step) rfl
  refine ⟨?_, hread, fun hne => hi.hasCounted ?_, taken_run h⟩
  · rw [hfifo, hvalues]
    exact texts_isPrefix hputs.le
  · have hatlatch := hi.main
    cases hmain : s.main with
    | starting i | waiting =>
      rw [hmain] at hputs
      generalize s.queue.producers producer = x at hputs
      cases hputs
      exact absurd hvalues hne
    | _ =>
      rw [hmain] at hatlatch
      exact hatlatch.2

/-- Two threads and one string: it is taken before `main` puts the first `"stop"`. -/
theorem texts_in_order_two :
    ∃ as, ∃ s : State 2, Runs.run (step 1) (start 2) as = some s ∧ s.main = .putting 1 ∧
      s.queue.taken.length = 1 ∧ (Runs.trace (step 1) takes (start 2) as).length = 1 ∧
      s.queue.taken ++ s.queue.queue_ <+: texts 1 3 ∧ ∀ w, (s.workers w).hasCounted = true := by
  obtain ⟨s, hr, hs⟩ := Runs.exists_of_any (step 1) (start 2)
    [.start, .callCountDown 0, .start, .countDown 0, .wait, .testCount, .callCountDown 1,
      .countDown 1, .returnCountDown 0, .loop 0, .queue (.take 0), .testCount, .returnWait,
      .callPut, .returnCountDown 1, .loop 1, .queue (.put 0 (some 0)), .queue (.take 1),
      .returnPut]
    (fun s => s.main = .putting 1 ∧ s.queue.taken.length = 1 ∧ s.queue.values.length = 1)
    (by decide)
  obtain ⟨hmain, htaken, hvalues⟩ := of_decide_eq_true hs
  obtain ⟨htexts, _, hcounted, htakes⟩ := texts_in_order (by decide) hr
  refine ⟨_, s, hr, hmain, htaken, by rw [← htakes, htaken], htexts, hcounted ?_⟩
  exact List.length_pos_iff.mp (by omega)

end NaiveNet.BlockingQueueTest
