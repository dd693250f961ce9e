import NaiveNet.BlockingQueueTest
import NaiveNet.Potential

/-!
# How the threads of the queue come to rest

Nothing in `threadFunc` ends its loop. All steps together are bounded but for spurious
wake-ups, and so the program comes to where every string is taken, every thread sleeps in
`take` and `main` waits for the first of them, for ever.
-/
namespace NaiveNet.BlockingQueueTest

open BlockingQueue (Queue Consumer)
open CountDownLatch (Latch)
open Tally

section Load

variable {T : Type} {n m : ℕ} {q q' : Queue T n m} {b : BlockingQueue.Action T n m}

/-- How far a consumer is from the next time it is blocked on an empty queue. -/
def consumerLeft : Consumer T → ℕ
  | .returning _ => 3
  | .outside => 2
  | .enter => 1
  | .waiting true => 1
  | .waiting false => 0

/-- What the consumers have to do for what is in the queue. -/
def load (q : Queue T n m) : ℕ := 3 * q.queue_.length + tally consumerLeft q.consumers

theorem consumerLeft_wake (x : Consumer T) :
    consumerLeft (BlockingQueue.notEmpty.wake x) ≤ consumerLeft x + 1 := by
  cases x with
  | waiting woken => cases woken <;> simp [consumerLeft, BlockingQueue.notEmpty]
  | _ => exact Nat.le_succ _

/-- A consumer's step takes one away, a wake-up brings one in and a string three. -/
theorem load_step (hs : BlockingQueue.step q b = some q') :
    match b with
    | .callPut _ _ | .returnPut _ => load q' = load q
    | .put _ _ => load q' ≤ load q + 4
    | .spurious _ => load q' = load q + 1
    | .callTake _ | .take _ | .returnTake _ => load q' + 1 ≤ load q := by
  have hupdate (c : Fin n) (x : Consumer T) := tally_update consumerLeft q.consumers c x
  have hcases := BlockingQueue.step_cases hs
  unfold load
  cases b with
  | callPut p x | returnPut p =>
    obtain ⟨_, rfl⟩ := hcases
    rfl
  | put p wake =>
    obtain ⟨x, consumers, _, hnotify, rfl⟩ := hcases
    have hwoken : tally consumerLeft consumers ≤ tally consumerLeft q.consumers + 1 := by
      rcases Condition.notify_cases hnotify with ⟨_, rfl⟩ | ⟨c, _, rfl⟩
      · exact Nat.le_succ _
      · have hc := hupdate c (BlockingQueue.notEmpty.wake (q.consumers c))
        have hle := consumerLeft_wake (q.consumers c)
        omega
    simp only [List.length_append, List.length_singleton]
    omega
  | callTake c =>
    obtain ⟨hc, rfl⟩ := hcases
    have hu := hupdate c .enter
    simp only [hc, consumerLeft] at hu
    simp only [Queue.setConsumer]
    omega
  | take c =>
    obtain ⟨hc, rfl⟩ := hcases
    have hone : consumerLeft (q.consumers c) = 1 := by rcases hc with hc | hc <;> rw [hc] <;> rfl
    rcases BlockingQueue.take_cases q c with ⟨_, ht⟩ | ⟨front, rest, hq, ht⟩
    · have hu := hupdate c (.waiting false)
      rw [hone] at hu
      simp only [consumerLeft] at hu
      simp only [ht, Queue.setConsumer]
      omega
    · have hu := hupdate c (.returning front)
      rw [hone] at hu
      simp only [consumerLeft] at hu
      simp only [ht, hq, Queue.setConsumer, List.length_cons]
      omega
  | spurious c =>
    obtain ⟨hc, rfl⟩ := hcases
    have hu := hupdate c (.waiting true)
    simp only [hc, consumerLeft] at hu
    simp only [Queue.setConsumer]
    omega
  | returnTake c =>
    obtain ⟨⟨front, hc⟩, rfl⟩ := hcases
    have hu := hupdate c .outside
    simp only [hc, consumerLeft] at hu
    simp only [Queue.setConsumer]
    omega

end Load

variable {n times : ℕ} {s s' : State n} {a : Action n}

/-! ### Who can go on -/

/-- Somebody can make a step that is not a spurious wake-up. -/
def CanStep (times : ℕ) (s : State n) : Prop :=
  ∃ a s', a.spurious = false ∧ step times s a = some s'

theorem canStep_of_isSome (ha : a.spurious = false) (h : (step times s a).isSome = true) :
    CanStep times s := by
  obtain ⟨s', hs⟩ := Option.isSome_iff_exists.mp h
  exact ⟨a, s', ha, hs⟩

theorem canStep_of_queue {b : BlockingQueue.Action String n 1} (hinner : inner b = true)
    (hb : (Action.queue b).spurious = false) (h : (BlockingQueue.step s.queue b).isSome = true) :
    CanStep times s :=
  canStep_of_isSome hb (by rw [step, if_pos hinner, onQueue, Option.isSome_map, h])

/-- A worker that was started can make a step, unless it is blocked in `take`. -/
theorem canStep_of_worker (hi : Inv times s) {w : Fin n} (hcreated : s.workers w ≠ .created)
    (hblocked : s.queue.consumers w ≠ .waiting false) : CanStep times s := by
  have hlatch := hi.threads w
  have htake (hc : s.queue.consumers w = .enter ∨ s.queue.consumers w = .waiting true) :
      CanStep times s := by
    refine canStep_of_queue (b := .take w) rfl rfl ?_
    rcases hc with hc | hc <;> simp only [BlockingQueue.step, hc, Option.isSome_some]
  cases hw : s.workers w with
  | created => exact absurd hw hcreated
  | started =>
    rw [hw] at hlatch
    exact canStep_of_isSome (a := .callCountDown w) rfl (by
      simp only [step, hw, if_true, onLatch, State.setWorker, CountDownLatch.step, hlatch,
        Worker.latch, Option.map_some, Option.isSome_some])
  | counting =>
    rw [hw] at hlatch
    exact canStep_of_isSome (a := .countDown w) rfl (by
      simp only [step, hw, if_true, onLatch, State.setWorker, CountDownLatch.step, hlatch,
        Worker.latch, Option.map_some, Option.isSome_some])
  | counted =>
    rw [hw] at hlatch
    exact canStep_of_isSome (a := .returnCountDown w) rfl (by
      simp only [step, hw, if_true, onLatch, State.setWorker, CountDownLatch.step, hlatch,
        Worker.latch, Option.map_some, Option.isSome_some])
  | looping running =>
    cases running with
    | false => exact absurd hw (hi.loops w).1
    | true =>
      cases hc : s.queue.consumers w with
      | outside =>
        exact canStep_of_isSome (a := .loop w) rfl (by
          simp only [step, hw, hc, if_true, onQueue, BlockingQueue.step, Option.map_some,
            Option.isSome_some])
      | enter => exact htake (Or.inl hc)
      | waiting woken =>
        cases woken with
        | false => exact absurd hc hblocked
        | true => exact htake (Or.inr hc)
      | returning front =>
        exact canStep_of_isSome (a := .returnTake w) rfl (by
          simp only [step, hc, onQueue, BlockingQueue.step, Option.map_some, Option.isSome_some])
  | stopped => exact absurd hw (hi.loops w).2

theorem canStep_starting (hi : Inv times s) {i : ℕ} (hmain : s.main = .starting i) :
    CanStep times s := by
  have hstarted := hi.started
  have hatlatch := hi.main
  rw [hmain] at hstarted hatlatch
  rcases hstarted.1.lt_or_eq with hlt | rfl
  · exact canStep_of_isSome (a := .start) rfl (by
        simp only [step, hmain, dif_pos hlt, Option.isSome_some])
  · have houtside : s.latch.threads (Fin.last i) = .outside := hatlatch
    exact canStep_of_isSome (a := .wait) rfl (by
      simp only [step, hmain, if_true, onLatch, CountDownLatch.step, houtside, Option.map_some,
        Option.isSome_some])

/-- While the latch is closed, there is a worker that has not counted it down. -/
theorem canStep_waiting (hn : InRange 32 n) (hi : Inv times s) (hmain : s.main = .waiting) :
    CanStep times s := by
  have hstarted := hi.started
  have hatlatch := hi.main
  rw [hmain] at hstarted hatlatch
  have htest (ht : s.latch.threads (Fin.last n) = .enter ∨
      s.latch.threads (Fin.last n) = .waiting true) : CanStep times s := by
    refine canStep_of_isSome (a := .testCount) rfl ?_
    rcases ht with ht | ht <;>
      simp only [step, onLatch, CountDownLatch.step, ht, Option.map_some, Option.isSome_some]
  rcases hatlatch with ht | ⟨woken, ht⟩ | ⟨ht, _⟩
  · exact htest (Or.inl ht)
  · cases woken with
    | true => exact htest (Or.inr ht)
    | false =>
      have hlt := (hi.gate hn).blocked (Fin.last n) ht
      obtain ⟨w, hw⟩ : ∃ w, (s.workers w).hasCounted = false := by
        by_contra hall
        have hcount : Tally.count Worker.hasCounted s.workers = n := by
          rw [Tally.count, Finset.filter_true_of_mem, Finset.card_univ, Fintype.card_fin]
          exact fun w _ => by simpa using not_exists.mp hall w
        rw [hi.counted, hcount] at hlt
        exact lt_irrefl _ hlt
      refine canStep_of_worker hi (hstarted w) fun hblocked => ?_
      have houtside : s.queue.consumers w = .outside := by
        apply hi.outside w
        intro hloop
        rw [hloop] at hw
        contradiction
      rw [houtside] at hblocked
      contradiction
  · exact canStep_of_isSome (a := .returnWait) rfl (by
      simp only [step, hmain, if_true, onLatch, CountDownLatch.step, ht, Option.map_some,
        Option.isSome_some])

theorem canStep_putting (hi : Inv times s) {i : ℕ} (hmain : s.main = .putting i) :
    CanStep times s := by
  obtain ⟨r, hputs, _⟩ := hi.puts
  rw [hmain] at hputs
  generalize hp : s.queue.producers producer = x at hputs
  cases hputs with
  | outside hle =>
    rcases hle.lt_or_eq with hlt | rfl
    · exact canStep_of_isSome (a := .callPut) rfl (by
        simp only [step, hmain, if_pos hlt, onQueue, BlockingQueue.step, hp, Option.map_some,
          Option.isSome_some])
    · exact canStep_of_isSome (a := .join) rfl (by
          simp only [step, hmain, if_true, Option.isSome_some])
  | enter hlt =>
    obtain ⟨wake, consumers, hw⟩ :=
      Condition.exists_notify BlockingQueue.notEmpty s.queue.consumers
    exact canStep_of_queue (b := .put producer wake) rfl rfl (by
      simp only [BlockingQueue.step, hp, BlockingQueue.put, hw, Option.map_some,
        Option.isSome_some])
  | returning hlt =>
    exact canStep_of_isSome (a := .returnPut) rfl (by
      simp only [step, hmain, onQueue, BlockingQueue.step, hp, Option.map_some, Option.isSome_some])

/-- Where nobody can go on, `main` is in its first `join` and the threads are blocked. -/
theorem canStep_or_blocked (hn : InRange 32 n) (hpos : 0 < n) (hi : Inv times s) :
    CanStep times s ∨ s.main = .joining 0 ∧ ∀ w, s.queue.consumers w = .waiting false := by
  cases hmain : s.main with
  | starting i => exact Or.inl (canStep_starting hi hmain)
  | waiting => exact Or.inl (canStep_waiting hn hi hmain)
  | putting i => exact Or.inl (canStep_putting hi hmain)
  | joining i =>
    have hstarted := hi.started
    rw [hmain] at hstarted
    obtain ⟨hcreated, rfl⟩ := hstarted
    by_cases hall : ∀ w, s.queue.consumers w = .waiting false
    · exact Or.inr ⟨rfl, hall⟩
    · obtain ⟨w, hw⟩ := not_forall.mp hall
      exact Or.inl (canStep_of_worker hi (hcreated w) hw)
  | returned =>
    have hstarted := hi.started
    rw [hmain] at hstarted
    exact absurd hstarted.2 hpos.ne'

/-- Threads that are all blocked have taken everything. -/
theorem taken_of_blocked (hpos : 0 < n) (hi : Inv times s) (hmain : s.main = .joining 0)
    (hall : ∀ w, s.queue.consumers w = .waiting false) :
    s.queue.queue_ = [] ∧ s.queue.taken = texts times (times + n) := by
  have hcov : BlockingQueue.ElementsCovered s.queue :=
    hi.queue.invariant (fun _ _ _ => BlockingQueue.ElementsCovered.step)
      (BlockingQueue.notEmpty.covered_zero _)
  have hnone : Tally.count BlockingQueue.notEmpty.woken s.queue.consumers = 0 := by
    refine Finset.card_eq_zero.mpr (Finset.filter_eq_empty_iff.mpr fun w _ => ?_)
    rw [hall w]
    exact Bool.false_ne_true
  have hempty : s.queue.queue_ = [] := by
    have hle := hcov ⟨⟨0, hpos⟩, by rw [hall]; rfl⟩
    rw [hnone] at hle
    exact List.length_eq_zero_iff.mp (Nat.le_zero.mp hle)
  have hfifo : BlockingQueue.Fifo s.queue :=
    hi.queue.invariant (fun _ _ _ => BlockingQueue.Fifo.step) rfl
  obtain ⟨r, hputs, hvalues⟩ := hi.puts
  rw [hmain] at hputs
  generalize s.queue.producers producer = x at hputs
  cases hputs
  rw [BlockingQueue.Fifo, hempty, List.append_nil] at hfifo
  exact ⟨hempty, hfifo.trans hvalues⟩

/-! ### The steps that are left -/

/-- How far the call of `put` is. -/
def advance : BlockingQueue.Producer String → ℕ
  | .outside => 0
  | .enter _ => 1
  | .returning => 6

/-- What `main` has to do, with what its strings bring in. -/
def mainLeft (n times : ℕ) :
    Main → CountDownLatch.Thread → BlockingQueue.Producer String → ℕ
  | .starting _, _, _ => 7 * (times + n) + 7
  | .waiting, x, _ => 7 * (times + n) + 2 + CountDownLatch.waitLeft x
  | .putting i, _, x => 7 * (times + n - i) + 2 - advance x
  | .joining _, _, _ => 1
  | .returned, _, _ => 0

/-- What a worker has to do to come to its loop, with the wake-up that its `countDown` brings. -/
def workerLeft : Worker → ℕ
  | .created => 5
  | .started => 4
  | .counting => 3
  | .counted => 1
  | _ => 0

def weight (times : ℕ) (s : State n) : ℕ :=
  load s.queue + tally workerLeft s.workers +
    mainLeft n times s.main (s.latch.threads (Fin.last n)) (s.queue.producers producer)

theorem weight_start (n times : ℕ) : weight times (start n) = 7 * times + 14 * n + 7 := by
  have hconsumers : tally consumerLeft (start n).queue.consumers = n * 2 := by
    simp [tally, start, BlockingQueue.new, consumerLeft]
  have hworkers : tally workerLeft (start n).workers = n * 5 := by
    simp [tally, start, workerLeft]
  have hqueue : (start n).queue.queue_ = [] := rfl
  unfold weight load
  rw [hconsumers, hworkers, hqueue]
  simp only [start, mainLeft, List.length_nil]
  omega

/-- A queue that takes part in the step without its producer. -/
theorem weight_take (times : ℕ) {b : BlockingQueue.Action String n 1} {q : Queue String n 1}
    (hs : BlockingQueue.step s.queue b = some q) (hcallPut : ∀ p x, b ≠ .callPut p x)
    (hput : ∀ p wake, b ≠ .put p wake) (hreturn : ∀ p, b ≠ .returnPut p) :
    weight times { s with queue := q } + load s.queue = weight times s + load q := by
  obtain ⟨hproducers, _⟩ := producers_step hs hcallPut hput hreturn
  simp only [weight, hproducers]
  omega

/-- A step takes one away, a spurious wake-up brings one in. -/
theorem weight_effect (hi : Inv times s) (he : Effect times s a s') :
    (!a.spurious).toNat + weight times s' ≤ weight times s + a.spurious.toNat := by
  have hworker (w : Fin n) (x : Worker) := tally_update workerLeft s.workers w x
  cases he with
  | @start i hmain h =>
    have hstarted := hi.started
    rw [hmain] at hstarted
    have hcreated : s.workers ⟨i, h⟩ = .created := (hstarted.2 ⟨i, h⟩).mpr le_rfl
    have hu := hworker ⟨i, h⟩ .started
    simp only [hcreated, workerLeft] at hu
    simp only [weight, Action.spurious, Bool.not_false, Bool.toNat_true, Bool.toNat_false, hmain,
      mainLeft, State.setWorker]
    omega
  | wait hmain hs =>
    obtain ⟨_, rfl⟩ := CountDownLatch.step_cases hs
    simp only [weight, Action.spurious, Bool.not_false, Bool.toNat_true, Bool.toNat_false, hmain,
      mainLeft, CountDownLatch.Latch.setThread, Function.update_self, CountDownLatch.waitLeft]
    omega
  | returnWait hmain hs =>
    obtain ⟨ht, rfl⟩ := CountDownLatch.step_cases hs
    simp only [weight, Action.spurious, Bool.not_false, Bool.toNat_true, Bool.toNat_false, hmain,
      mainLeft, ht, CountDownLatch.waitLeft]
    omega
  | @callPut i q hmain hlt hs =>
    have hload := load_step hs
    obtain ⟨hp, rfl⟩ := BlockingQueue.step_cases hs
    simp only [weight, Action.spurious, Bool.not_false, Bool.toNat_true, Bool.toNat_false, hmain,
      mainLeft, hp, advance, Queue.setProducer, Function.update_self] at hload ⊢
    omega
  | @returnPut i q hmain hs =>
    have hload := load_step hs
    obtain ⟨hp, rfl⟩ := BlockingQueue.step_cases hs
    obtain ⟨r, hputs, _⟩ := hi.puts
    rw [hmain, hp] at hputs
    have hlt : i < times + n := by
      cases hputs with
      | returning hlt => exact hlt
    simp only [weight, Action.spurious, Bool.not_false, Bool.toNat_true, Bool.toNat_false, hmain,
      mainLeft, hp, advance, Queue.setProducer, Function.update_self] at hload ⊢
    omega
  | join hmain =>
    obtain ⟨r, hputs, _⟩ := hi.puts
    rw [hmain] at hputs
    have hp : advance (s.queue.producers producer) = 0 := by
      generalize s.queue.producers producer = x at hputs ⊢
      cases hputs with
      | outside => rfl
      | enter hlt | returning hlt => omega
    simp only [weight, Action.spurious, Bool.not_false, Bool.toNat_true, Bool.toNat_false, hmain,
      mainLeft, hp]
    omega
  | joined hmain h hw => exact absurd hw (hi.loops _).2
  | «return» hmain =>
    simp only [weight, Action.spurious, Bool.not_false, Bool.toNat_true, Bool.toNat_false, hmain,
      mainLeft]
    omega
  | testCount hs =>
    obtain ⟨ht, rfl⟩ := CountDownLatch.step_cases hs
    have hmain := hi.waiting (by rcases ht with h | h <;> simp [h])
    have hbefore : 3 ≤ CountDownLatch.waitLeft (s.latch.threads (Fin.last n)) := by
      rcases ht with ht | ht <;> rw [ht] <;> decide
    have hblocked : CountDownLatch.waitLeft (.waiting false) = 2 := rfl
    have hleft : CountDownLatch.waitLeft .returning = 1 := rfl
    unfold CountDownLatch.wait
    split_ifs <;>
      simp only [weight, Action.spurious, Bool.not_false, Bool.toNat_true, Bool.toNat_false, hmain,
        mainLeft, CountDownLatch.Latch.setThread, Function.update_self, hblocked, hleft] <;>
      omega
  | spuriousCount hs =>
    obtain ⟨ht, rfl⟩ := CountDownLatch.step_cases hs
    have hmain := hi.waiting (by simp [ht])
    simp only [weight, Action.spurious, Bool.not_true, Bool.toNat_true, Bool.toNat_false, hmain,
      mainLeft, ht, CountDownLatch.Latch.setThread, Function.update_self, CountDownLatch.waitLeft]
    omega
  | @callCountDown w l hw hs =>
    obtain ⟨_, rfl⟩ := CountDownLatch.step_cases hs
    have hlast : Fin.last n ≠ w.castSucc := (Fin.castSucc_ne_last w).symm
    have hu := hworker w .counting
    simp only [hw, workerLeft] at hu
    simp only [weight, Action.spurious, Bool.not_false, Bool.toNat_true, Bool.toNat_false,
      State.setWorker, CountDownLatch.Latch.setThread, Function.update_of_ne hlast]
    omega
  | @countDown w l hw hs =>
    obtain ⟨_, rfl⟩ := CountDownLatch.step_cases hs
    have hu := hworker w .counted
    simp only [hw, workerLeft] at hu
    have hwoken : mainLeft n times s.main
        ((CountDownLatch.countDown s.latch w.castSucc).threads (Fin.last n))
        (s.queue.producers producer) ≤
        mainLeft n times s.main (s.latch.threads (Fin.last n))
          (s.queue.producers producer) + 1 := by
      rcases CountDownLatch.countDown_thread (s := s.latch) (Fin.castSucc_ne_last w).symm with
        heq | ⟨ht, heq⟩
      · rw [heq]
        exact Nat.le_succ _
      · rw [heq, ht, hi.waiting (by simp [ht])]
        simp only [mainLeft, CountDownLatch.waitLeft]
        omega
    simp only [weight, Action.spurious, Bool.not_false, Bool.toNat_true, Bool.toNat_false,
      State.setWorker]
    omega
  | @returnCountDown w l hw hs =>
    obtain ⟨_, rfl⟩ := CountDownLatch.step_cases hs
    have hlast : Fin.last n ≠ w.castSucc := (Fin.castSucc_ne_last w).symm
    have hu := hworker w (.looping true)
    simp only [hw, workerLeft] at hu
    simp only [weight, Action.spurious, Bool.not_false, Bool.toNat_true, Bool.toNat_false,
      State.setWorker, CountDownLatch.Latch.setThread, Function.update_of_ne hlast]
    omega
  | callTake hw hs | returnTake hs =>
    have hload := load_step hs
    have htake := weight_take times hs (by simp) (by simp) (by simp)
    simp only [Action.spurious, Bool.not_false, Bool.toNat_true, Bool.toNat_false] at hload ⊢
    omega
  | leave hw => exact absurd hw (hi.loops _).1
  | @queue b q hinner hs =>
    have hload := load_step hs
    cases b with
    | put p wake =>
      obtain ⟨x, consumers, hp, _, rfl⟩ := BlockingQueue.step_cases hs
      obtain rfl := Subsingleton.elim p producer
      obtain ⟨r, hputs, _⟩ := hi.puts
      rw [hp] at hputs
      obtain ⟨hmain, hlt⟩ : s.main = .putting r ∧ r < times + n := by
        generalize s.main = main at hputs ⊢
        cases hputs with
        | enter hlt => exact ⟨rfl, hlt⟩
      simp only [weight, Action.spurious, Bool.not_false, Bool.toNat_true, Bool.toNat_false, hmain,
        mainLeft, hp, advance, Queue.setProducer, Function.update_self] at hload ⊢
      omega
    | take c | spurious c =>
      have htake := weight_take times hs (by simp) (by simp) (by simp)
      simp only [Action.spurious, Bool.not_false, Bool.not_true, Bool.toNat_true,
        Bool.toNat_false] at hload ⊢
      omega
    | _ => contradiction

theorem paid_weight (hn : InRange 32 n) : Runs.Paid (step (n := n) times) (Inv times)
    (Runs.unit fun a => !a.spurious) (Runs.unit Action.spurious) (weight times) where
  keep _ _ _ hi hs := hi.step hn hs
  pay s a s' hi hs := by
    have hweight := weight_effect hi (step_effect hs)
    cases ha : a.spurious <;> simpa [Runs.unit, ha] using hweight

/-- The program does not end: its threads do not stop, and `main` goes no further than its
first `join`. Without spurious wake-ups it makes a bounded number of steps; and where nothing
else can happen, all strings are taken and the threads are blocked on the empty queue. -/
theorem never_returns {n times : ℕ} (hn : InRange 32 n) (hpos : 0 < n) {as : List (Action n)}
    {s : State n} (hrun : Runs.run (step times) (start n) as = some s) :
    s.main ≠ .returned ∧ (∀ i, s.main = .joining i → i = 0) ∧ (∀ w, s.workers w ≠ .stopped) ∧
    as.countP (fun a => !a.spurious) ≤ 7 * times + 14 * n + 7 + as.countP Action.spurious ∧
    ((∀ a, a.spurious = false → step times s a = none) →
      s.main = .joining 0 ∧ s.queue.taken = texts times (times + n) ∧ s.queue.queue_ = [] ∧
      ∀ w, s.queue.consumers w = .waiting false) := by
  have hi : Inv times s := Reachable.inv hn ⟨as, hrun⟩
  have hstarted := hi.started
  refine ⟨fun hmain => ?_, fun i hmain => ?_, fun w => (hi.loops w).2, ?_, fun hstuck => ?_⟩
  · rw [hmain] at hstarted
    exact hpos.ne' hstarted.2
  · rw [hmain] at hstarted
    exact hstarted.2
  · have hsum := (paid_weight hn).sum_le inv_start hrun
    rw [Runs.sum_map_unit, Runs.sum_map_unit, weight_start, Nat.cast_id, Nat.cast_id] at hsum
    omega
  · rcases canStep_or_blocked hn hpos hi with ⟨a, s', ha, hs⟩ | ⟨hmain, hall⟩
    · rw [hstuck a ha] at hs
      contradiction
    · obtain ⟨hempty, htaken⟩ := taken_of_blocked hpos hi hmain hall
      exact ⟨hmain, htaken, hempty, hall⟩

/-- One thread takes its string and the `"stop"`, and sleeps. -/
theorem never_returns_one :
    ∃ (as : List (Action 1)) (s : State 1), Runs.run (step 1) (start 1) as = some s ∧
      s.main = .joining 0 ∧ s.queue.taken.length = 2 ∧ s.workers 0 ≠ .stopped ∧
      s.queue.consumers 0 = .waiting false ∧
      as.countP (fun a => !a.spurious) ≤ 28 + as.countP Action.spurious := by
  obtain ⟨s, hr, hs⟩ := Runs.exists_of_any (step 1) (start 1)
    [.start, .callCountDown 0, .countDown 0, .wait, .testCount, .returnWait, .callPut,
      .queue (.put 0 none), .returnPut, .callPut, .queue (.put 0 none), .returnPut, .join,
      .returnCountDown 0, .loop 0, .queue (.take 0), .returnTake 0, .loop 0, .queue (.take 0),
      .returnTake 0, .loop 0, .queue (.take 0)]
    (fun s => s.main = .joining 0 ∧ s.queue.taken.length = 2 ∧
      BlockingQueue.notEmpty.blocked (s.queue.consumers 0) = true) (by decide)
  obtain ⟨hmain, htaken, hblocked⟩ := of_decide_eq_true hs
  have hall := never_returns (by decide) Nat.one_pos hr
  refine ⟨_, s, hr, hmain, htaken, hall.2.2.1 0, ?_, hall.2.2.2.1⟩
  cases hc : s.queue.consumers 0 with
  | waiting woken =>
    cases woken with
    | false => rfl
    | true => simp [hc, BlockingQueue.notEmpty] at hblocked
  | _ => simp [hc, BlockingQueue.notEmpty] at hblocked

end NaiveNet.BlockingQueueTest
