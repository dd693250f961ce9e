import NaiveNet.ThreadPoolTestLatch

/-!
# How `test` comes to its end

As long as `test` has not returned, somebody can make a step; and all of them together make
a bounded number of steps, but for spurious wake-ups. So `test` returns, and then every task
has been executed once.
-/
namespace NaiveNet.ThreadPoolTest

open ThreadPool (Pool Producer Worker Stopper)
open CountDownLatch (Latch)

variable {n k maxSize r : ℕ} {s s' : State n} {a : Action n}

section PoolSteps

variable {p p' : Pool n 1} {b : ThreadPool.Action n 1} {w : Fin n}

/-- Only a pool with a bound makes a producer wait. -/
def BoundedWaits (p : Pool n 1) : Prop :=
  ∀ task woken, p.producers producer = .waiting task woken → 0 < p.maxQueueSize

theorem BoundedWaits.step (hi : BoundedWaits p) (hs : ThreadPool.step p b = some p') :
    BoundedWaits p' := by
  have hmove {q : Fin 1} {x : Producer} (hx : ∀ task woken, x ≠ .waiting task woken) :
      BoundedWaits (p.setProducer q x) := by
    intro task woken h
    obtain rfl := Subsingleton.elim q producer
    simp only [ThreadPool.Pool.setProducer, Function.update_self] at h
    exact absurd h (hx task woken)
  cases ThreadPool.step_effect hs with
  | takeJob hw hq hp =>
    rcases hp with ⟨hmax, _⟩ | ⟨_, rfl⟩
    · exact fun _ _ _ => hmax
    · exact hi
  | callRun h => exact hmove fun task woken => by split_ifs <;> simp
  | pushWait h hf =>
    intro _ _ _
    simp only [ThreadPool.isFull, Bool.and_eq_true, decide_eq_true_eq] at hf
    exact hf.1
  | push h hf hw => exact hmove (x := .returning _) (by simp)
  | @spuriousNotFull q task h =>
    obtain rfl := Subsingleton.elim q producer
    exact fun _ _ _ => hi task false h
  | returnRun h => exact hmove (x := .outside) (by simp)
  | returnCall h => exact hmove (by simp)
  | _ => exact hi

theorem boundedWaits (h : ThreadPool.Reachable maxSize p) : BoundedWaits p :=
  Runs.Reaches.invariant (fun _ _ _ hi hs => hi.step hs) h fun _ _ h => by contradiction

theorem joining_le (h : ThreadPool.Reachable maxSize p) {j : ℕ} (hj : p.stopper = .joining j) :
    j ≤ n := by
  apply Runs.Reaches.invariant (I := fun p : Pool n 1 => ∀ j, p.stopper = .joining j → j ≤ n) _ h
  · exact fun _ h => by contradiction
  · exact hj
  · intro p b p' hi hs
    cases ThreadPool.step_effect hs with
    | stop h =>
      intro j hj
      obtain rfl := Stopper.joining.inj hj
      exact Nat.zero_le n
    | join h hk hl =>
      intro j hj
      obtain rfl := Stopper.joining.inj hj
      exact hk
    | callStop h | returnStop h => exact fun _ hj => by contradiction
    | _ => exact hi

/-- Whoever holds the lock in `run` pushes, or goes back to the wait. -/
theorem exists_push (p : Pool n 1) (q : Fin 1) (task : ThreadPool.Task) :
    ∃ wake p', ThreadPool.push p q task wake = some p' := by
  by_cases hf : ThreadPool.isFull p = true
  · exact ⟨none, _, by simp only [ThreadPool.push, if_pos hf]; rfl⟩
  · obtain ⟨wake, workers, hw⟩ := Condition.exists_notify ThreadPool.notEmpty p.workers
    exact ⟨wake, _, by simp only [ThreadPool.push, if_neg hf, hw, Option.map_some]; rfl⟩

end PoolSteps

/-- While `test` has not returned, the latch is there for a worker that counts. -/
theorem Inv.latch_of_counts (hi : Inv k maxSize s) {p : Pool n 1} {w : Fin n}
    (hp : ThreadPool.TasksInv p) (hpushed : p.pushed = s.pool.pushed)
    (hmain : s.main ≠ .returned) (hw : counts k (p.workers w) = true) :
    ∃ l, s.latch = some l := by
  obtain ⟨r, hadds, hjobs⟩ := hi.added
  have hmem := popped_pushed hp (executing_cases hp (executing_job hp (hpushed.trans hjobs) hw)).1
  rw [hpushed, hjobs] at hmem
  exact Option.isSome_iff_exists.mp
    ((hadds.le.2.2 (eq_job hmem rfl).2).resolve_right hmain)

/-- Somebody can make a step that is not a spurious wake-up. -/
def CanStep (k : ℕ) (s : State n) : Prop := ∃ a s', a.spurious = false ∧ step k s a = some s'

theorem canStep_of_pool {b : ThreadPool.Action n 1} {p : Pool n 1} (hinner : inner b = true)
    (hb : (Action.pool b).spurious = false) (hs : ThreadPool.step s.pool b = some p) :
    CanStep k s :=
  ⟨.pool b, { s with pool := p }, hb, by rw [step, if_pos hinner, onPool, hs, Option.map_some]⟩

/-- A worker that neither left nor is blocked can make a step, and the latch does not stop it. -/
theorem canStep_of_worker (hi : Inv k maxSize s) (hmain : s.main ≠ .returned) {w : Fin n}
    (hleft : s.pool.workers w ≠ .left) (hblocked : s.pool.workers w ≠ .waiting false) :
    CanStep k s := by
  obtain ⟨wake, p₁, htake⟩ := ThreadPool.exists_take_any s.pool w
  have htest {p : Pool n 1} (hs : ThreadPool.step s.pool (.testTask w) = some p)
      (hpushed : p.pushed = s.pool.pushed) : CanStep k s := by
    refine ⟨.testTask w, ?_⟩
    by_cases hcounts : counts k (p.workers w) = true
    · obtain ⟨l, hl⟩ := hi.latch_of_counts (hi.reach hs).tasksInv hpushed hmain hcounts
      have houtside := (hi.latch l hl).idle w (testTask_cases hs).1
      refine ⟨{ s with pool := p, latch := some (l.setThread w.castSucc .counting) }, rfl, ?_⟩
      simp [step, onPool, hs, hcounts, onLatch, hl, CountDownLatch.step, houtside]
    · refine ⟨{ s with pool := p }, rfl, ?_⟩
      simp [step, onPool, hs, hcounts]
  cases hx : s.pool.workers w with
  | starting =>
    exact canStep_of_pool (b := .initialized w) rfl rfl
      (by simp only [ThreadPool.step, hx, if_true]; rfl)
  | loop =>
    exact canStep_of_pool (b := .testRunning w) rfl rfl
      (by simp only [ThreadPool.step, hx, if_true]; rfl)
  | enter =>
    exact canStep_of_pool (b := .take w wake) rfl rfl (by simp [ThreadPool.step, hx, htake]; rfl)
  | waiting woken =>
    cases woken with
    | false => exact absurd hx hblocked
    | true =>
      exact canStep_of_pool (b := .take w wake) rfl rfl (by simp [ThreadPool.step, hx, htake]; rfl)
  | took j =>
    cases j with
    | none =>
      exact htest (p := s.pool.setWorker w .loop) (by simp only [ThreadPool.step, hx]) rfl
    | some j =>
      by_cases hc : j.task.callable = true
      · exact htest (p := s.pool.setWorker w (.executing j))
          (by simp only [ThreadPool.step, hx, if_pos hc]) rfl
      · exact htest (p := { s.pool.setWorker w .loop with discarded := s.pool.discarded ++ [j] })
          (by simp only [ThreadPool.step, hx, if_neg hc]) rfl
  | executing j =>
    have hs : ThreadPool.step s.pool (.finishTask w) = some
        { s.pool.setWorker w .loop with executed := s.pool.executed ++ [j] } := by
      simp only [ThreadPool.step, hx]
    by_cases hcounts : counts k (s.pool.workers w) = true
    · obtain ⟨l, hl⟩ := hi.latch_of_counts hi.pool.tasksInv rfl hmain hcounts
      rcases (hi.latch l hl).busy w hcounts with ht | ht
      · refine ⟨.countDown w, { s with latch := some (CountDownLatch.countDown l w.castSucc) },
          rfl, ?_⟩
        simp [step, onLatch, hl, CountDownLatch.step, ht]
      · refine ⟨.finishTask w, { s with
          pool := { s.pool.setWorker w .loop with executed := s.pool.executed ++ [j] }
          latch := some (l.setThread w.castSucc .outside) }, rfl, ?_⟩
        simp [step, onPool, hs, hcounts, onLatch, hl, CountDownLatch.step, ht]
    · refine ⟨.finishTask w, { s with
        pool := { s.pool.setWorker w .loop with executed := s.pool.executed ++ [j] } }, rfl, ?_⟩
      simp [step, onPool, hs, hcounts]
  | left => exact absurd hx hleft

/-- Where all workers are blocked, every task that was handed over is executed. -/
theorem canStep_or_executed (hn : 0 < n) (hi : Inv k maxSize s) (hmain : s.main ≠ .returned)
    (hr : s.pool.running = true) : CanStep k s ∨
      s.pool.queue = [] ∧ ∀ j ∈ s.pool.pushed, j.task.callable = true → j ∈ s.pool.executed := by
  by_cases hall : ∀ w, s.pool.workers w = .waiting false
  · obtain ⟨hqueue, hdone⟩ := ThreadPool.finished_of_blocked hn hi.pool hall
    refine Or.inr ⟨hqueue, fun j hj hc => ?_⟩
    have hone := (hdone j hj).2.1 hc
    exact List.count_pos_iff.mp (by omega)
  · obtain ⟨w, hw⟩ := not_forall.mp hall
    refine Or.inl (canStep_of_worker hi hmain (fun hleft => ?_) hw)
    rw [hi.pool.stopInv.left_cleared w hleft] at hr
    contradiction

theorem Inv.running (hi : Inv k maxSize s) (hstop : s.pool.stopper = .notCalled) :
    s.pool.running = true := by
  by_contra hr
  have hcleared := hi.pool.stopInv.cleared_joining.mp (by simpa using hr)
  simp [hstop] at hcleared

/-- `test` goes on with its calls of `run`, or waits for a worker that can go on. -/
theorem canStep_adding (hn : 0 < n) (hi : Inv k maxSize s) {i : ℕ} (hmain : s.main = .adding i) :
    CanStep k s := by
  obtain ⟨r, hadds, hpushed⟩ := hi.added
  have hpush {task : ThreadPool.Task} (hp : s.pool.producers producer = .enter task ∨
      s.pool.producers producer = .waiting task true) : CanStep k s := by
    obtain ⟨wake, p, hs⟩ := exists_push s.pool producer task
    refine canStep_of_pool (b := .push producer wake) (p := p) rfl rfl ?_
    rcases hp with hp | hp <;> simpa [ThreadPool.step, hp] using hs
  rw [hmain] at hadds
  cases hp : s.pool.producers producer with
  | outside =>
    rw [hp] at hadds
    cases hadds with
    | outside hle hmade =>
      simp only [Main.calls] at hle hmade
      have hrun (hlatch : i < k ∨ i = k ∧ s.latch.isSome = true) : CanStep k s := by
        refine ⟨.run, { s with pool := s.pool.setProducer producer (.enter (.call i)) }, rfl, ?_⟩
        simp [step, hmain, hlatch, onPool, ThreadPool.step, hp, hn.ne']
      rcases Nat.lt_trichotomy i k with hlt | rfl | hlt
      · exact hrun (Or.inl hlt)
      · cases hl : s.latch with
        | some l => exact hrun (Or.inr ⟨rfl, by rw [hl]; rfl⟩)
        | none =>
          exact ⟨.construct, { s with latch := some (CountDownLatch.new (n + 1) 1) }, rfl, by
            simp [step, hmain, hl]⟩
      · obtain ⟨l, hl⟩ := Option.isSome_iff_exists.mp
          ((hmade hlt).resolve_right (by simp))
        obtain rfl : i = k + 1 := by omega
        have houtside := (hi.latch l hl).outside (by simp [hmain])
        refine ⟨.wait, { s with latch := some (l.setThread (Fin.last n) .enter), main := .waiting },
          rfl, ?_⟩
        simp [step, hmain, onLatch, hl, CountDownLatch.step, houtside]
  | enter task => exact hpush (Or.inl hp)
  | waiting task woken =>
    cases woken with
    | true => exact hpush (Or.inr hp)
    | false =>
      have hstopper := hi.early (by simp [hmain]) (by simp [hmain])
      refine (canStep_or_executed hn hi (by simp [hmain]) (hi.running hstopper)).resolve_right
        fun hdone => ?_
      -- an empty queue has room, and so the only producer would have been woken
      have hmax := boundedWaits hi.pool task false hp
      have hcov := hi.pool.wakeInv.slots hmax ⟨producer, by rw [hp]; rfl⟩
      have hnone : Tally.count ThreadPool.notFull.woken s.pool.producers = 0 := by
        refine Finset.card_eq_zero.mpr (Finset.filter_eq_empty_iff.mpr fun q _ => ?_)
        obtain rfl := Subsingleton.elim q producer
        simp [hp, ThreadPool.notFull]
      rw [hnone, hdone.1, List.length_nil] at hcov
      omega
  | returning j =>
    refine ⟨.returnRun, { s with
      pool := { s.pool.setProducer producer .outside with returned := s.pool.returned ++ [j] }
      main := .adding (i + 1) }, rfl, ?_⟩
    simp [step, hmain, onPool, ThreadPool.step, hp]
  | calling task =>
    rw [hp] at hadds
    contradiction

/-- A latch that is still closed has its task in the pool, where a worker can go on. -/
theorem canStep_waiting (hn : 0 < n) (hi : Inv k maxSize s) (hmain : s.main = .waiting) :
    CanStep k s := by
  obtain ⟨r, hadds, hpushed⟩ := hi.added
  rw [hmain] at hadds
  obtain ⟨_, rfl, hmade⟩ := hadds.outside_of rfl
  obtain ⟨l, hl⟩ := Option.isSome_iff_exists.mp (hmade.resolve_right (by simp))
  have hcoupled := hi.latch l hl
  have htest (ht : l.threads (Fin.last n) = .enter ∨ l.threads (Fin.last n) = .waiting true) :
      CanStep k s := by
    refine ⟨.testCount, { s with latch := some (CountDownLatch.wait l (Fin.last n)) }, rfl, ?_⟩
    rcases ht with ht | ht <;> simp [step, onLatch, hl, CountDownLatch.step, ht]
  rcases hcoupled.inside hmain with ht | ⟨woken, ht⟩ | ⟨ht, _⟩
  · exact htest (Or.inl ht)
  · cases woken with
    | true => exact htest (Or.inr ht)
    | false =>
      have hzero : l.countDowns = 0 := by
        have hlt := hcoupled.gate.blocked (Fin.last n) ht
        omega
      have hstopper := hi.early (by simp [hmain]) (by simp [hmain])
      refine (canStep_or_executed hn hi (by simp [hmain]) (hi.running hstopper)).resolve_right
        fun hdone => ?_
      have hmem : job k ∈ s.pool.pushed := by
        rw [hpushed]
        exact mem_jobs.mpr ⟨Nat.lt_succ_self k, rfl⟩
      exact (hcoupled.zero hzero).2 (hdone.2 _ hmem rfl)
  · refine ⟨.returnWait, { s with
      latch := some (l.setThread (Fin.last n) .outside), main := .stopping }, rfl, ?_⟩
    simp [step, hmain, onLatch, hl, CountDownLatch.step, ht]

theorem canStep_stopping (hi : Inv k maxSize s) (hmain : s.main = .stopping) : CanStep k s := by
  have hinv := hi.pool.stopInv
  cases hstop : s.pool.stopper with
  | notCalled =>
    refine ⟨.stop, { s with pool := { s.pool with stopper := .enter } }, rfl, ?_⟩
    simp [step, hmain, onPool, ThreadPool.step, hstop]
  | enter =>
    exact canStep_of_pool (b := .stop) (p := ThreadPool.stop s.pool) rfl rfl
      (by simp [ThreadPool.step, hstop])
  | joining j =>
    have hle := joining_le hi.pool hstop
    rcases hle.lt_or_eq with hlt | rfl
    · by_cases hleft : s.pool.workers ⟨j, hlt⟩ = .left
      · exact canStep_of_pool (b := .join) (p := { s.pool with stopper := .joining (j + 1) })
          rfl rfl (by simp [ThreadPool.step, hstop, hlt, hleft])
      · refine canStep_of_worker hi (by simp [hmain]) hleft fun hblocked => ?_
        have hr := hi.pool.stopInv.cleared_joining.mpr (Or.inr ⟨j, hle, hstop⟩)
        have hawake := hi.pool.wakeInv.awake hr ⟨j, hlt⟩
        rw [hblocked] at hawake
        contradiction
    · exact canStep_of_pool (b := .returnStop) (p := { s.pool with stopper := .returned }) rfl rfl
        (by simp [ThreadPool.step, hstop])
  | returned =>
    exact ⟨.destroy, { s with latch := none, main := .returned }, rfl, by
      simp [step, hmain, hstop]⟩

theorem canStep (hn : 0 < n) (hi : Inv k maxSize s) (hmain : s.main ≠ .returned) :
    CanStep k s := by
  cases h : s.main with
  | adding i => exact canStep_adding hn hi h
  | waiting => exact canStep_waiting hn hi h
  | stopping => exact canStep_stopping hi h
  | returned => exact absurd h hmain

/-! ### The steps that are left -/

/-- How far a producer is in its call of `run`. -/
def advance : Producer → ℕ
  | .enter _ => 1
  | .waiting _ true => 1
  | .waiting _ false => 2
  | .returning _ => 3
  | _ => 0

theorem advance_wake (x : Producer) : advance x ≤ advance (ThreadPool.notFull.wake x) + 1 := by
  cases x with
  | waiting task woken => cases woken <;> simp [advance, ThreadPool.notFull]
  | _ => exact Nat.le_succ _

/-- How far `stop` is. -/
def progress (n : ℕ) : Stopper → ℕ
  | .notCalled => 0
  | .enter => 1
  | .joining j => j + 2
  | .returned => n + 3

/-- What the pool has to do, but for the tasks that are still to come. -/
def poolWeight (p : Pool n 1) : ℤ :=
  ThreadPool.load p + p.queue.length - 5 * p.pushed.length - advance (p.producers producer) -
    progress n p.stopper

/-- What a step of the pool takes away; a call of `run` gives back at its end. -/
def poolGain : ThreadPool.Action n 1 → ℤ
  | .returnRun _ => -3
  | .spuriousNotEmpty _ | .spuriousNotFull _ => -1
  | _ => 1

theorem poolWeight_step (hn : 0 < n) {p p' : Pool n 1} {b : ThreadPool.Action n 1}
    (hs : ThreadPool.step p b = some p')
    (hdelegated : ∀ task, p.producers producer ≠ .calling task) :
    poolGain b + poolWeight p' ≤ poolWeight p := by
  have hload := ThreadPool.load_step hs
  have hmoved {q : Fin 1} {x : Producer} : Function.update p.producers q x producer = x := by
    obtain rfl := Subsingleton.elim q producer
    exact Function.update_self ..
  unfold poolWeight
  cases ThreadPool.step_effect hs with
  | @takeJob w wake j rest producers h hq hp =>
    have hwoken : advance (p.producers producer) ≤ advance (producers producer) + 1 := by
      rcases hp with ⟨_, hp⟩ | ⟨_, rfl⟩
      · rcases Condition.notify_apply hp producer with heq | ⟨_, heq⟩
        · rw [heq]
          exact Nat.le_succ _
        · rw [heq]
          exact advance_wake _
      · exact Nat.le_succ _
    have hlen : p.queue.length = rest.length + 1 := by rw [hq, List.length_cons]
    simp only [ThreadPool.Action.ofWorker, ThreadPool.Action.worker?, ThreadPool.Action.spurious,
      Option.isSome_some, Bool.toNat_true, Bool.toNat_false, poolGain,
      ThreadPool.Pool.setWorker] at hload ⊢
    omega
  | initialized h | stay h _ | leave h _ | takeWait h _ _ | takeNone h _ _ | testNone h
  | invoke h _ | passOver h _ | finishTask h =>
    simp only [ThreadPool.Action.ofWorker, ThreadPool.Action.worker?, ThreadPool.Action.spurious,
      Option.isSome_some, Bool.toNat_true, Bool.toNat_false, poolGain,
      ThreadPool.Pool.setWorker] at hload ⊢
    omega
  | spuriousNotEmpty h =>
    simp only [ThreadPool.Action.ofWorker, ThreadPool.Action.worker?, ThreadPool.Action.spurious,
      Option.isSome_none, Bool.toNat_true, Bool.toNat_false, poolGain,
      ThreadPool.Pool.setWorker] at hload ⊢
    omega
  | @callRun q task h =>
    obtain rfl := Subsingleton.elim q producer
    simp only [ThreadPool.Action.ofWorker, ThreadPool.Action.worker?, ThreadPool.Action.spurious,
      Option.isSome_none, Bool.toNat_false, poolGain, ThreadPool.Pool.setProducer, hmoved, h,
      if_neg hn.ne', advance] at hload ⊢
    omega
  | @pushWait q wake task h hf =>
    obtain rfl := Subsingleton.elim q producer
    have hbefore : advance (p.producers producer) = 1 := by rcases h with h | h <;> rw [h] <;> rfl
    have hafter : advance (.waiting task false) = 2 := rfl
    simp only [ThreadPool.Action.ofWorker, ThreadPool.Action.worker?, ThreadPool.Action.spurious,
      Option.isSome_none, Bool.toNat_false, poolGain, ThreadPool.Pool.setProducer, hmoved, hbefore,
      hafter] at hload ⊢
    omega
  | @push q wake task workers h hf hw =>
    obtain rfl := Subsingleton.elim q producer
    have hbefore : advance (p.producers producer) = 1 := by rcases h with h | h <;> rw [h] <;> rfl
    have hafter : advance (.returning ⟨p.pushed.length, task⟩) = 3 := rfl
    simp only [ThreadPool.Action.ofWorker, ThreadPool.Action.worker?, ThreadPool.Action.spurious,
      Option.isSome_none, Bool.toNat_false, poolGain, ThreadPool.Pool.setProducer, hmoved, hbefore,
      hafter, List.length_append, List.length_singleton] at hload ⊢
    omega
  | @spuriousNotFull q task h =>
    obtain rfl := Subsingleton.elim q producer
    simp only [ThreadPool.Action.ofWorker, ThreadPool.Action.worker?, ThreadPool.Action.spurious,
      Option.isSome_none, Bool.toNat_false, poolGain, ThreadPool.Pool.setProducer, hmoved, h,
      advance] at hload ⊢
    omega
  | @returnRun q j h =>
    obtain rfl := Subsingleton.elim q producer
    simp only [ThreadPool.Action.ofWorker, ThreadPool.Action.worker?, ThreadPool.Action.spurious,
      Option.isSome_none, Bool.toNat_false, poolGain, ThreadPool.Pool.setProducer, hmoved, h,
      advance] at hload ⊢
    omega
  | @returnCall q task h =>
    obtain rfl := Subsingleton.elim q producer
    exact absurd h (hdelegated task)
  | callStop h | stop h | join h _ _ | returnStop h =>
    simp only [ThreadPool.Action.ofWorker, ThreadPool.Action.worker?, ThreadPool.Action.spurious,
      Option.isSome_none, Bool.toNat_false, poolGain, ThreadPool.stop, h, progress] at hload ⊢
    omega

/-- What `test` has to do besides its steps in the pool. -/
def mainWeight (k : ℕ) : Main → Option (Latch (n + 1)) → ℤ
  | .adding i, none => 4 * (k + 1 - i) + n + 12
  | .adding i, some _ => 4 * (k + 1 - i) + n + 9
  | .waiting, none => n + 4
  | .waiting, some l => n + 4 + CountDownLatch.waitLeft (l.threads (Fin.last n))
  | .stopping, _ => n + 4
  | .returned, _ => n + 3

/-- The count that is left, with the wake-up it brings. -/
def latchWeight : Option (Latch (n + 1)) → ℤ
  | none => 0
  | some l => 2 * (1 - l.countDowns)

def weight (k : ℕ) (s : State n) : ℤ :=
  poolWeight s.pool + 5 * (k + 1) + mainWeight k s.main s.latch + latchWeight s.latch

theorem mainWeight_pool {l l' : Latch (n + 1)} {main : Main}
    (h : l'.threads (Fin.last n) = l.threads (Fin.last n)) :
    mainWeight k main (some l') = mainWeight k main (some l) := by
  cases main with
  | waiting => rw [mainWeight, mainWeight, h]
  | _ => rfl

/-- A step takes one away, a spurious wake-up brings one in. -/
def gain (a : Action n) : ℤ := if a.spurious then -1 else 1

theorem weight_effect (hn : 0 < n) (hi : Inv k maxSize s) (he : Effect k s a s') :
    gain a + weight k s' ≤ weight k s := by
  have hdelegated (task : ThreadPool.Task) : s.pool.producers producer ≠ .calling task :=
    hi.pool.delegated hn producer task
  unfold weight
  cases he with
  | construct hmain hnone =>
    simp only [gain, Action.spurious, hmain, hnone, mainWeight, latchWeight, CountDownLatch.new]
    omega
  | run hmain hle hs =>
    have hpool := poolWeight_step hn hs hdelegated
    simp only [gain, Action.spurious, poolGain] at hpool ⊢
    omega
  | returnRun hmain hs =>
    have hpool := poolWeight_step hn hs hdelegated
    cases hl : s.latch <;>
      simp only [gain, Action.spurious, poolGain, hmain, mainWeight] at hpool ⊢ <;> omega
  | wait hmain hl hs =>
    obtain ⟨_, rfl⟩ := CountDownLatch.step_cases hs
    simp only [gain, Action.spurious, hmain, hl, mainWeight, latchWeight,
      CountDownLatch.Latch.setThread, Function.update_self, CountDownLatch.waitLeft]
    omega
  | returnWait hmain hl hs =>
    obtain ⟨ht, rfl⟩ := CountDownLatch.step_cases hs
    simp only [gain, Action.spurious, hmain, hl, mainWeight, latchWeight, ht,
      CountDownLatch.waitLeft, CountDownLatch.Latch.setThread]
    omega
  | stop hmain hs =>
    have hpool := poolWeight_step hn hs hdelegated
    simp only [gain, Action.spurious, poolGain] at hpool ⊢
    omega
  | destroy hmain hstop =>
    have hlatch : 0 ≤ latchWeight s.latch := by
      cases hl : s.latch with
      | none => exact le_rfl
      | some l =>
        have hle := (hi.latch l hl).le_one
        simp only [latchWeight]
        omega
    have hgone : latchWeight (none : Option (Latch (n + 1))) = 0 := rfl
    simp only [gain, Action.spurious, hmain, mainWeight, hgone]
    omega
  | testTask hs hcounts =>
    have hpool := poolWeight_step hn hs hdelegated
    simp only [gain, Action.spurious, poolGain] at hpool ⊢
    omega
  | callCountDown hs hcounts hl hs' =>
    have hpool := poolWeight_step hn hs hdelegated
    obtain ⟨_, rfl⟩ := CountDownLatch.step_cases hs'
    rw [mainWeight_pool (Function.update_of_ne (Fin.castSucc_ne_last _).symm ..)]
    simp only [gain, Action.spurious, poolGain, hl, latchWeight,
      CountDownLatch.Latch.setThread] at hpool ⊢
    omega
  | finishTask hs hcounts =>
    have hpool := poolWeight_step hn hs hdelegated
    simp only [gain, Action.spurious, poolGain] at hpool ⊢
    omega
  | returnCountDown hs hcounts hl hs' =>
    have hpool := poolWeight_step hn hs hdelegated
    obtain ⟨_, rfl⟩ := CountDownLatch.step_cases hs'
    rw [mainWeight_pool (Function.update_of_ne (Fin.castSucc_ne_last _).symm ..)]
    simp only [gain, Action.spurious, poolGain, hl, latchWeight,
      CountDownLatch.Latch.setThread] at hpool ⊢
    omega
  | @countDown w l l' hl hs =>
    have hle := ((hi.effect hn (.countDown hl hs)).latch l' rfl).le_one
    obtain ⟨_, rfl⟩ := CountDownLatch.step_cases hs
    have hcount : (CountDownLatch.countDown l w.castSucc).countDowns = l.countDowns + 1 := rfl
    have hwoken : mainWeight k s.main (some (CountDownLatch.countDown l w.castSucc)) ≤
        mainWeight k s.main (some l) + 1 := by
      cases hmain : s.main with
      | waiting =>
        simp only [mainWeight]
        rcases CountDownLatch.countDown_thread (s := l) (Fin.castSucc_ne_last w).symm with
          heq | ⟨hw, heq⟩
        · rw [heq]
          omega
        · rw [heq, hw]
          simp only [CountDownLatch.waitLeft]
          omega
      | _ =>
        simp only [mainWeight]
        omega
    simp only [gain, Action.spurious, hl, latchWeight, hcount]
    push_cast
    omega
  | @testCount l l' hl hs =>
    obtain ⟨ht, rfl⟩ := CountDownLatch.step_cases hs
    have hmain := (hi.latch _ hl).waiting (by rcases ht with h | h <;> simp [h])
    have hbefore : 3 ≤ CountDownLatch.waitLeft (l.threads (Fin.last n)) := by
      rcases ht with ht | ht <;> rw [ht] <;> decide
    have hblocked : CountDownLatch.waitLeft (.waiting false) = 2 := rfl
    have hleft : CountDownLatch.waitLeft .returning = 1 := rfl
    unfold CountDownLatch.wait
    split_ifs <;>
      simp only [gain, Action.spurious, hl, hmain, mainWeight, latchWeight,
        CountDownLatch.Latch.setThread, Function.update_self, hblocked, hleft] <;>
      omega
  | spuriousCount hl hs =>
    have hmain := (hi.latch _ hl).waiting (by simp [(CountDownLatch.step_cases hs).1])
    obtain ⟨ht, rfl⟩ := CountDownLatch.step_cases hs
    simp only [gain, Action.spurious, hl, hmain, mainWeight, latchWeight, ht, if_true,
      CountDownLatch.Latch.setThread, Function.update_self, CountDownLatch.waitLeft]
    omega
  | @pool b p hinner hs =>
    have hpool := poolWeight_step hn hs hdelegated
    cases b <;> first | contradiction |
      (simp only [gain, Action.spurious, poolGain, if_true] at hpool ⊢; omega)

theorem paid_weight (hn : 0 < n) : Runs.Paid (step (n := n) k) (Inv k maxSize)
    (Runs.unit fun a => !a.spurious) (Runs.unit Action.spurious) (weight k) where
  keep _ _ _ hi hs := hi.step hn hs
  pay s a s' hi hs := by
    have hgain := weight_effect hn hi (step_effect hs)
    cases ha : a.spurious with
    | true =>
      simp only [gain, ha, if_true] at hgain
      simp only [Runs.unit, ha, Bool.not_true, Bool.false_eq_true, if_true, if_false]
      omega
    | false =>
      simp only [gain, ha, Bool.false_eq_true, if_false] at hgain
      simp only [Runs.unit, ha, Bool.not_false, Bool.false_eq_true, if_true, if_false]
      omega

theorem Adds.advance_le {made : Prop} {i : ℕ} {x : Producer} (h : Adds k made i x r) :
    advance x + 4 * i ≤ 4 * (k + 1) := by
  cases h with
  | outside hi _ =>
    simp only [advance]
    omega
  | enter hi _ =>
    simp only [advance]
    omega
  | @waiting woken hi _ =>
    cases woken <;> simp only [advance] <;> omega
  | returning hi _ =>
    simp only [advance]
    omega

theorem weight_nonneg (hi : Inv k maxSize s) : 0 ≤ weight k s := by
  obtain ⟨r, hadds, hpushed⟩ := hi.added
  have hlen : s.pool.pushed.length = r := by rw [hpushed, length_jobs]
  have hle := hadds.le.2.1
  have hlatch : 0 ≤ latchWeight s.latch := by
    cases hl : s.latch with
    | none => exact le_rfl
    | some l =>
      have hone := (hi.latch l hl).le_one
      simp only [latchWeight]
      omega
  have hprogress : progress n s.pool.stopper ≤ n + 3 := by
    cases hstop : s.pool.stopper with
    | joining j =>
      have hj := joining_le hi.pool hstop
      simp only [progress]
      omega
    | _ =>
      simp only [progress]
      omega
  have hadvance := hadds.advance_le
  have hmain : (advance (s.pool.producers producer) + progress n s.pool.stopper : ℤ) ≤
      mainWeight k s.main s.latch := by
    cases hm : s.main with
    | adding i =>
      have hstopper := hi.early (by simp [hm]) (by simp [hm])
      rw [hm] at hadvance
      simp only [Main.calls] at hadvance
      cases s.latch <;> simp only [mainWeight, hstopper, progress] <;> omega
    | waiting =>
      have hstopper := hi.early (by simp [hm]) (by simp [hm])
      rw [hm] at hadvance
      simp only [Main.calls] at hadvance
      cases s.latch <;> simp only [mainWeight, hstopper, progress] <;> omega
    | stopping | returned =>
      rw [hm] at hadvance
      simp only [Main.calls] at hadvance
      simp only [mainWeight]
      omega
  unfold weight poolWeight
  omega

/-! ### What `test` has done -/

/-- The last task is taken after all the others. -/
theorem queue_eq_nil {p : Pool n 1} (hi : ThreadPool.TasksInv p) (hpushed : p.pushed = jobs (k + 1))
    (hpopped : job k ∈ p.popped) : p.queue = [] := by
  have hfifo : p.popped ++ p.queue = jobs k ++ [job k] := by
    rw [← hi.fifo, hpushed, jobs_succ]
  have hnodup : (p.popped ++ p.queue).Nodup := hi.fifo ▸ hi.ticketed.nodup
  rcases List.eq_nil_or_concat p.queue with hnil | ⟨front, x, hqueue⟩
  · exact hnil
  · rw [hqueue, List.concat_eq_append, ← List.append_assoc] at hfifo
    obtain rfl := List.singleton_inj.mp (List.append_inj' hfifo rfl).2
    have hmem : job k ∈ p.queue := by simp [hqueue]
    exact absurd rfl ((List.nodup_append.mp hnodup).2.2 _ hpopped _ hmem)

/-- The task that a worker has executed when the step is done. -/
def executes (s : State n) (a : Action n) (s' : State n) : List ThreadPool.Job :=
  match a with
  | .finishTask w => ThreadPool.executes s.pool (.finishTask w) s'.pool
  | _ => []

theorem executes_step (hs : ThreadPoolTest.step k s a = some s') :
    s'.pool.executed = s.pool.executed ++ executes s a s' := by
  cases step_effect hs with
  | finishTask hp | returnCountDown hp | run _ _ hp | returnRun _ hp | stop _ hp | testTask hp
  | callCountDown hp => exact (ThreadPool.history_step hp).2.2.1
  | @pool b p hinner hp =>
    have hexecuted := (ThreadPool.history_step hp).2.2.1
    cases b with
    | finishTask w => contradiction
    | _ => exact hexecuted
  | _ => exact (List.append_nil _).symm

theorem executed_run {as : List (Action n)}
    (h : Runs.run (ThreadPoolTest.step k) (start n maxSize) as = some s) :
    s.pool.executed = Runs.trace (ThreadPoolTest.step k) executes (start n maxSize) as :=
  Runs.eq_append_trace (fun _ _ _ => executes_step) h

/-- When the latch has opened, no task is in the queue any more, and when `test` returns,
each has been executed once. A worker that counts finds the latch. -/
theorem tasks_executed {n k maxSize : ℕ} (hn : 0 < n) {as : List (Action n)} {s : State n}
    (hrun : Runs.run (step k) (start n maxSize) as = some s) :
    (s.main ≠ .returned → ∀ w, counts k (s.pool.workers w) = true → s.latch.isSome = true) ∧
    (s.main = .stopping → s.pool.pushed = jobs (k + 1) ∧ s.pool.queue = []) ∧
    (s.main = .returned → (∀ w, s.pool.workers w = .left) ∧
      s.pool.executed.Perm (jobs (k + 1))) ∧
    s.pool.executed = Runs.trace (step k) executes (start n maxSize) as := by
  have hi := Reachable.inv hn ⟨as, hrun⟩
  have htasks := hi.pool.tasksInv
  obtain ⟨r, hadds, hpushed⟩ := hi.added
  refine ⟨fun hmain w hw => ?_, fun hmain => ?_, fun hmain => ?_, executed_run hrun⟩
  · obtain ⟨l, hl⟩ := hi.latch_of_counts htasks rfl hmain hw
    rw [hl]
    rfl
  · rw [hmain] at hadds
    obtain ⟨_, rfl, hmade⟩ := hadds.outside_of rfl
    obtain ⟨l, hl⟩ := Option.isSome_iff_exists.mp (hmade.resolve_right (by simp))
    have hcoupled := hi.latch l hl
    refine ⟨hpushed, queue_eq_nil htasks hpushed ?_⟩
    rcases hcoupled.pos (hcoupled.opened hmain) with ⟨w, hw⟩ | hexecuted
    · have hcounts := hcoupled.counts_of_inside (w := w) (by simp [hw])
      exact (executing_cases htasks (executing_job htasks hpushed hcounts)).1
    · exact executed_popped htasks hexecuted
  · rw [hmain] at hadds
    obtain ⟨_, rfl, _⟩ := hadds.outside_of rfl
    obtain ⟨_, hstop, hexecuted⟩ := hi.late hmain
    have hleft := hi.pool.stopInv.returned hstop
    have hqueue := queue_eq_nil htasks hpushed (executed_popped htasks hexecuted)
    have hheld : Tally.tally ThreadPool.held s.pool.workers = 0 := by
      simp [Tally.tally, hleft _, ThreadPool.held]
    have hplaced := htasks.placed
    have hdiscarded : s.pool.discarded = [] := by
      refine List.eq_nil_iff_forall_not_mem.mpr fun j hj => ?_
      have hpopped : j ∈ (s.pool.popped : Multiset ThreadPool.Job) := by
        rw [hplaced]
        exact Multiset.mem_add.mpr (Or.inr hj)
      have hmem := popped_pushed htasks hpopped
      rw [hpushed] at hmem
      have hcallable := htasks.invoked.discarded j hj
      rw [(mem_jobs.mp hmem).2] at hcallable
      contradiction
    have hfifo := htasks.fifo
    rw [ThreadPool.Fifo, hqueue, List.append_nil] at hfifo
    rw [ThreadPool.Placed, hheld, hdiscarded, ← hfifo, hpushed] at hplaced
    refine ⟨hleft, (Multiset.coe_eq_coe.mp ?_).symm⟩
    simpa using hplaced

/-- `test` returns: until then somebody can make a step, and all together make a bounded
number of steps, but for spurious wake-ups. -/
theorem test_returns {n k maxSize : ℕ} (hn : 0 < n) {as : List (Action n)} {s : State n}
    (hrun : Runs.run (step k) (start n maxSize) as = some s) :
    as.countP (fun a => !a.spurious) ≤ 8 * n + 9 * k + 21 + as.countP Action.spurious ∧
    (s.main ≠ .returned → CanStep k s) := by
  have hi : Inv k maxSize s := Reachable.inv hn ⟨as, hrun⟩
  refine ⟨?_, canStep hn hi⟩
  have hsum := (paid_weight hn).sum_le inv_start hrun
  have hnonneg := weight_nonneg hi
  have hstart : weight k (start n maxSize) = 8 * n + 9 * k + 21 := by
    simp [weight, poolWeight, start, ThreadPool.start, ThreadPool.load, ThreadPool.ranks,
      Tally.tally, ThreadPool.Worker.rank, advance, progress, mainWeight, latchWeight]
    omega
  rw [Runs.sum_map_unit, Runs.sum_map_unit, hstart] at hsum
  omega

/-- The worker does both tasks, the second of which counts, and `test` has returned. -/
def testRun {n : ℕ} (w : Fin n) : List (Action n) :=
  [.run, .pool (.push producer none), .returnRun, .construct, .run, .pool (.push producer none),
    .returnRun, .wait, .testCount, .pool (.initialized w), .pool (.testRunning w),
    .pool (.take w none), .testTask w, .finishTask w, .pool (.testRunning w),
    .pool (.take w none), .testTask w, .countDown w, .testCount, .returnWait, .stop, .pool .stop,
    .finishTask w, .pool (.testRunning w), .pool .join, .pool .returnStop, .destroy]

theorem tasks_executed_two : ∃ s : State 1,
    Runs.run (step 1) (start 1 0) (testRun 0) = some s ∧ s.main = .returned ∧
    s.pool.executed.Perm [⟨0, .call 0⟩, ⟨1, .call 1⟩] := by
  obtain ⟨s, hrun, hs⟩ := Runs.exists_of_any (step 1) (start 1 0) (testRun 0)
    (fun s => s.main = .returned) (by decide)
  have hmain := of_decide_eq_true hs
  exact ⟨s, hrun, hmain, ((tasks_executed (by decide) hrun).2.2.1 hmain).2⟩

theorem test_returns_two : (testRun (0 : Fin 1)).countP (fun a => !a.spurious) ≤ 38 ∧
    ∃ s : State 1, Runs.run (step 1) (start 1 0) ((testRun 0).take 9) = some s ∧
      s.main = .waiting ∧ CanStep 1 s := by
  obtain ⟨s, hrun, hs⟩ := Runs.exists_of_any (step 1) (start 1 0) (testRun 0)
    (fun s => s.main = .returned) (by decide)
  obtain ⟨s₁, hrun₁, hs₁⟩ := Runs.exists_of_any (step 1) (start 1 0) ((testRun 0).take 9)
    (fun s => s.main = .waiting) (by decide)
  have hmain := of_decide_eq_true hs₁
  exact ⟨(test_returns (by decide) hrun).1, s₁, hrun₁, hmain,
    (test_returns (by decide) hrun₁).2 (by simp [hmain])⟩

end NaiveNet.ThreadPoolTest
