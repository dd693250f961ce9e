import NaiveNet.ThreadPoolTest

/-!
# The latch between the workers and `test`

A worker is in `countDown` exactly while it executes the last task, and `test` is in `wait`
while it stands there. So the latch is there when it is used, its count is that of the last
task, and `test` goes on only when this task has been taken.
-/
namespace NaiveNet.ThreadPoolTest

open ThreadPool (Pool Producer Worker)
open CountDownLatch (Latch)

variable {n k maxSize r : ℕ} {s s' : State n} {a : Action n}
variable {l l' : Latch (n + 1)} {p p' : Pool n 1} {main : Main} {w : Fin n}

/-- A worker is in `countDown` while it executes the last task, `test` is in `wait` while it
stands there, and the count is that of the last task. -/
structure Coupled (k : ℕ) (p : Pool n 1) (main : Main) (l : Latch (n + 1)) : Prop where
  reachable : CountDownLatch.Reachable 1 l
  idle : ∀ w, counts k (p.workers w) = false → l.threads w.castSucc = .outside
  busy : ∀ w, counts k (p.workers w) = true →
    l.threads w.castSucc = .counting ∨ l.threads w.castSucc = .returning
  le_one : l.countDowns ≤ 1
  zero : l.countDowns = 0 →
    (∀ w : Fin n, l.threads w.castSucc ≠ .returning) ∧ job k ∉ p.executed
  pos : 0 < l.countDowns →
    (∃ w : Fin n, l.threads w.castSucc = .returning) ∨ job k ∈ p.executed
  outside : main ≠ .waiting → l.threads (Fin.last n) = .outside
  inside : main = .waiting → l.threads (Fin.last n) = .enter ∨
    (∃ woken, l.threads (Fin.last n) = .waiting woken) ∨
    l.threads (Fin.last n) = .returning ∧ 0 < l.countDowns
  opened : main = .stopping → 0 < l.countDowns

theorem Coupled.gate (h : Coupled k p main l) : CountDownLatch.Gate 1 l := by
  refine h.reachable.gate (by decide) ?_
  have hle := h.le_one
  unfold CountDownLatch.Fits
  omega

theorem Coupled.step (h : Coupled k p main l) {b : CountDownLatch.Action (n + 1)}
    (hs : CountDownLatch.step l b = some l') : CountDownLatch.Reachable 1 l' :=
  Runs.Reaches.tail h.reachable hs

/-- A step that has nothing to do with the latch. -/
theorem Coupled.pool (h : Coupled k p main l)
    (hcounts : ∀ w, counts k (p'.workers w) = counts k (p.workers w))
    (hexecuted : job k ∈ p'.executed ↔ job k ∈ p.executed) : Coupled k p' main l where
  reachable := h.reachable
  idle w hw := h.idle w ((hcounts w).symm.trans hw)
  busy w hw := h.busy w ((hcounts w).symm.trans hw)
  le_one := h.le_one
  zero hzero := ⟨(h.zero hzero).1, fun hmem => (h.zero hzero).2 (hexecuted.mp hmem)⟩
  pos hpos := (h.pos hpos).imp_right hexecuted.mpr
  outside := h.outside
  inside := h.inside
  opened := h.opened

theorem Coupled.waiting (h : Coupled k p main l) (ht : l.threads (Fin.last n) ≠ .outside) :
    main = .waiting := by
  by_contra hmain
  exact ht (h.outside hmain)

/-- Only a worker that counts is inside `countDown`. -/
theorem Coupled.counts_of_inside (h : Coupled k p main l)
    (hw : l.threads w.castSucc ≠ .outside) : counts k (p.workers w) = true := by
  by_contra hcounts
  exact hw (h.idle w (by simpa using hcounts))

theorem Coupled.callCountDown (h : Coupled k p main l) (hw : counts k (p'.workers w) = true)
    (hothers : ∀ v ≠ w, counts k (p'.workers v) = counts k (p.workers v))
    (hexecuted : p'.executed = p.executed)
    (hs : CountDownLatch.step l (.callCountDown w.castSucc) = some l') :
    Coupled k p' main l' := by
  have hreach := h.step hs
  obtain ⟨ht, rfl⟩ := CountDownLatch.step_cases hs
  have hsame {v : Fin n} (hv : v ≠ w) : v.castSucc ≠ w.castSucc :=
    (Fin.castSucc_injective n).ne hv
  have hlast : Fin.last n ≠ w.castSucc := (Fin.castSucc_ne_last w).symm
  refine ⟨hreach, fun v hv => ?_, fun v hv => ?_, h.le_one, fun hzero => ?_, fun hpos => ?_, ?_, ?_,
    h.opened⟩
  · have hne : v ≠ w := by
      intro heq
      rw [heq, hw] at hv
      contradiction
    simpa [Function.update_of_ne (hsame hne)] using h.idle v ((hothers v hne).symm.trans hv)
  · by_cases hvw : v = w
    · subst hvw
      simp
    · simpa [Function.update_of_ne (hsame hvw)] using h.busy v ((hothers v hvw).symm.trans hv)
  · obtain ⟨hnone, hnot⟩ := h.zero hzero
    refine ⟨fun v => ?_, by rwa [hexecuted]⟩
    by_cases hvw : v = w
    · subst hvw
      simp
    · simpa [Function.update_of_ne (hsame hvw)] using hnone v
  · rw [hexecuted]
    refine (h.pos hpos).imp_left fun hret => ?_
    obtain ⟨v, hv⟩ := hret
    refine ⟨v, ?_⟩
    have hne : v ≠ w := by
      intro heq
      rw [heq, ht] at hv
      contradiction
    simpa [Function.update_of_ne (hsame hne)] using hv
  · simpa [Function.update_of_ne hlast] using h.outside
  · simpa [Function.update_of_ne hlast] using h.inside

theorem Coupled.returnCountDown (h : Coupled k p main l) (hw : counts k (p'.workers w) = false)
    (hothers : ∀ v ≠ w, counts k (p'.workers v) = counts k (p.workers v))
    (hexecuted : job k ∈ p'.executed)
    (hs : CountDownLatch.step l (.return w.castSucc) = some l') : Coupled k p' main l' := by
  have hreach := h.step hs
  obtain ⟨ht, rfl⟩ := CountDownLatch.step_cases hs
  have hsame {v : Fin n} (hv : v ≠ w) : v.castSucc ≠ w.castSucc :=
    (Fin.castSucc_injective n).ne hv
  have hlast : Fin.last n ≠ w.castSucc := (Fin.castSucc_ne_last w).symm
  refine ⟨hreach, fun v hv => ?_, fun v hv => ?_, h.le_one, fun hzero => ?_,
    fun _ => Or.inr hexecuted, ?_, ?_, h.opened⟩
  · by_cases hvw : v = w
    · subst hvw
      simp
    · simpa [Function.update_of_ne (hsame hvw)] using h.idle v ((hothers v hvw).symm.trans hv)
  · have hne : v ≠ w := by
      intro heq
      rw [heq, hw] at hv
      contradiction
    simpa [Function.update_of_ne (hsame hne)] using h.busy v ((hothers v hne).symm.trans hv)
  · exact absurd ht ((h.zero hzero).1 w)
  · simpa [Function.update_of_ne hlast] using h.outside
  · simpa [Function.update_of_ne hlast] using h.inside

/-- The one task that counts is with one worker, and not yet executed. -/
theorem Coupled.countDown (h : Coupled k p main l) (hi : ThreadPool.TasksInv p)
    (hpushed : p.pushed = jobs r) (hs : CountDownLatch.step l (.countDown w.castSucc) = some l') :
    Coupled k p main l' := by
  have hreach := h.step hs
  obtain ⟨ht, rfl⟩ := CountDownLatch.step_cases hs
  have hself : (CountDownLatch.countDown l w.castSucc).threads w.castSucc = .returning :=
    CountDownLatch.countDown_self l w.castSucc
  have hothers {v : Fin n} (hv : v ≠ w) :
      (CountDownLatch.countDown l w.castSucc).threads v.castSucc = l.threads v.castSucc := by
    have hne := (Fin.castSucc_injective n).ne hv
    refine (CountDownLatch.countDown_thread hne).resolve_right fun hwoken => ?_
    have hbusy := h.busy v (h.counts_of_inside (by simp [hwoken.1]))
    simp [hwoken.1] at hbusy
  have hlast := CountDownLatch.countDown_thread (s := l) (Fin.castSucc_ne_last w).symm
  have hcounts := h.counts_of_inside (w := w) (by simp [ht])
  -- this is the first `countDown`: another one was for the same task
  have hfirst : l.countDowns = 0 := by
    by_contra hne
    obtain ⟨_, hnot, honly⟩ := executing_cases hi (executing_job hi hpushed hcounts)
    rcases h.pos (Nat.pos_of_ne_zero hne) with ⟨v, hv⟩ | hexecuted
    · have hvcounts := h.counts_of_inside (w := v) (by simp [hv])
      rw [honly v (executing_job hi hpushed hvcounts), ht] at hv
      contradiction
    · exact hnot hexecuted
  have hcount : (CountDownLatch.countDown l w.castSucc).countDowns = 1 := by
    simp [CountDownLatch.countDown, hfirst]
  refine ⟨hreach, fun v hv => ?_, fun v hv => ?_, by rw [hcount], by simp [hcount],
    fun _ => Or.inl ⟨w, hself⟩, fun hmain => ?_, fun hmain => ?_, by simp [hcount]⟩
  · have hne : v ≠ w := by
      intro heq
      rw [heq, hcounts] at hv
      contradiction
    rw [hothers hne]
    exact h.idle v hv
  · by_cases hvw : v = w
    · subst hvw
      exact Or.inr hself
    · rw [hothers hvw]
      exact h.busy v hv
  · rcases hlast with heq | ⟨hwaiting, _⟩
    · exact heq.trans (h.outside hmain)
    · simp [h.outside hmain] at hwaiting
  · rcases hlast with heq | ⟨_, hwoken⟩
    · rw [heq, hcount]
      exact (h.inside hmain).imp_right fun h => h.imp_right fun h => ⟨h.1, Nat.one_pos⟩
    · exact Or.inr (Or.inl ⟨true, hwoken⟩)

/-- A step of `test` in the latch. -/
theorem Coupled.move (h : Coupled k p main l) {main' : Main} {x : CountDownLatch.Thread} {waits : ℕ}
    (hreach : CountDownLatch.Reachable 1 { l.setThread (Fin.last n) x with waits := waits })
    (houtside : main' ≠ .waiting → x = .outside)
    (hinside : main' = .waiting → x = .enter ∨ (∃ woken, x = .waiting woken) ∨
      x = .returning ∧ 0 < l.countDowns)
    (hopened : main' = .stopping → 0 < l.countDowns) :
    Coupled k p main' { l.setThread (Fin.last n) x with waits := waits } := by
  have hsame (v : Fin n) : Function.update l.threads (Fin.last n) x v.castSucc =
      l.threads v.castSucc := Function.update_of_ne (Fin.castSucc_ne_last v) ..
  refine ⟨hreach, fun v hv => ?_, fun v hv => ?_, h.le_one, fun hzero => ?_, fun hpos => ?_,
    ?_, ?_, hopened⟩
  · simpa [hsame] using h.idle v hv
  · simpa [hsame] using h.busy v hv
  · simpa [hsame] using h.zero hzero
  · simpa [hsame] using h.pos hpos
  · simpa using houtside
  · simpa using hinside

theorem Coupled.adding {i j : ℕ} (h : Coupled k p (.adding i) l) : Coupled k p (.adding j) l :=
  { h with
    outside := fun _ => h.outside (by simp)
    inside := by simp
    opened := by simp }

/-! ### The invariant -/

def Main.calls (k : ℕ) : Main → ℕ
  | .adding i => i
  | _ => k + 1

structure Inv (k maxSize : ℕ) (s : State n) : Prop where
  pool : ThreadPool.Reachable maxSize s.pool
  added : ∃ r, Adds k (s.latch.isSome ∨ s.main = .returned) (s.main.calls k)
    (s.pool.producers producer) r ∧ s.pool.pushed = jobs r
  early : s.main ≠ .stopping → s.main ≠ .returned → s.pool.stopper = .notCalled
  late : s.main = .returned →
    s.latch = none ∧ s.pool.stopper = .returned ∧ job k ∈ s.pool.executed
  latch : ∀ l, s.latch = some l → Coupled k s.pool s.main l

theorem inv_start : Inv k maxSize (start n maxSize) where
  pool := ⟨[], rfl⟩
  added := ⟨0, .outside (Nat.zero_le _) (by simp [start, Main.calls]), rfl⟩
  early _ _ := rfl
  late h := by contradiction
  latch _ h := by contradiction

theorem Inv.reach {b : ThreadPool.Action n 1} (hi : Inv k maxSize s)
    (hs : ThreadPool.step s.pool b = some p) : ThreadPool.Reachable maxSize p :=
  Runs.Reaches.tail hi.pool hs

theorem Inv.not_returned (hi : Inv k maxSize s) (hl : s.latch = some l) :
    s.main ≠ .returned := by
  intro hmain
  rw [(hi.late hmain).1] at hl
  contradiction

/-- A step of the pool alone, or of a worker in the latch as well. -/
theorem Inv.onPool {b : ThreadPool.Action n 1} {latch' : Option (Latch (n + 1))}
    (hi : Inv k maxSize s) (hs : ThreadPool.step s.pool b = some p)
    (hrun : ∀ q task, b ≠ .callRun q task) (hreturn : ∀ q, b ≠ .returnRun q)
    (hstop : b ≠ .callStop) (hsome : latch'.isSome = s.latch.isSome)
    (hlatch : ∀ l, latch' = some l → Coupled k p s.main l) :
    Inv k maxSize { s with pool := p, latch := latch' } where
  pool := hi.reach hs
  added := by
    obtain ⟨r, hadds, hpushed⟩ := hi.added
    obtain ⟨r', hadds', hpushed'⟩ := hadds.step hpushed hs hrun hreturn
    exact ⟨r', hadds'.mono (Or.imp_left hsome.trans), hpushed'⟩
  early hne hne' := by
    have hnot := hi.early hne hne'
    rcases stopper_step hs with heq | ⟨_, hcall⟩
    · exact heq.trans hnot
    · exact absurd (hcall hnot) hstop
  late hmain := by
    obtain ⟨hnone, hret, hexecuted⟩ := hi.late hmain
    have hnone' : latch' = none := by
      rw [← Option.isNone_iff_eq_none, ← Option.isSome_eq_false_iff, hsome, hnone]
      rfl
    refine ⟨hnone', ?_, executed_subset hs hexecuted⟩
    rcases stopper_step hs with heq | ⟨hne, _⟩
    · exact heq.trans hret
    · exact absurd hret hne
  latch := hlatch

/-- A step in the latch. -/
theorem Inv.onLatch (hi : Inv k maxSize s) {main' : Main}
    (hcalls : main'.calls k = s.main.calls k)
    (hearly : main' ≠ .stopping → s.main ≠ .stopping) (hne : s.main ≠ .returned)
    (hne' : main' ≠ .returned) (hlatch : Coupled k s.pool main' l') :
    Inv k maxSize { s with latch := some l', main := main' } where
  pool := hi.pool
  added := by
    obtain ⟨r, hadds, hpushed⟩ := hi.added
    refine ⟨r, ?_, hpushed⟩
    dsimp only
    rw [hcalls]
    exact hadds.mono fun _ => Or.inl rfl
  early hstopping _ := hi.early (hearly hstopping) hne
  late h := absurd h hne'
  latch l₁ hl₁ := by
    obtain rfl := Option.some.inj hl₁
    exact hlatch

/-- A worker that tests its task was not in it, and has not executed it yet. -/
theorem testTask_cases (hs : ThreadPool.step p (.testTask w) = some p') :
    counts k (p.workers w) = false ∧ p'.executed = p.executed := by
  cases ThreadPool.step_effect hs with
  | testNone h | invoke h _ | passOver h _ => exact ⟨by rw [h]; rfl, rfl⟩

theorem finishTask_cases (hs : ThreadPool.step p (.finishTask w) = some p') :
    ∃ j, p.workers w = .executing j ∧ p'.executed = p.executed ++ [j] ∧
      counts k (p'.workers w) = false := by
  cases ThreadPool.step_effect hs with
  | @finishTask _ j h =>
    refine ⟨j, h, rfl, ?_⟩
    simp only [ThreadPool.Pool.setWorker, Function.update_self]
    rfl

/-- The pool steps of `test` are the calls, and leave the workers alone. -/
theorem Coupled.called (h : Coupled k p main l) {b : ThreadPool.Action n 1}
    (hs : ThreadPool.step p b = some p') (htest : ∀ w, b ≠ .testTask w)
    (hfinish : ∀ w, b ≠ .finishTask w) : Coupled k p' main l := by
  refine h.pool (fun w => counts_step hs (htest w) (hfinish w)) ?_
  rw [executed_step hs hfinish]

theorem Inv.run (hn : 0 < n) (hi : Inv k maxSize s) {i : ℕ} (hmain : s.main = .adding i)
    (hle : i < k ∨ i = k ∧ s.latch.isSome = true)
    (hs : ThreadPool.step s.pool (.callRun producer (.call i)) = some p) :
    Inv k maxSize { s with pool := p } := by
  have hstopper := hi.early (by simp [hmain]) (by simp [hmain])
  refine ⟨hi.reach hs, ?_, fun _ _ => ?_, fun h => ?_, fun l hl => ?_⟩
  · obtain ⟨r, hadds, hpushed⟩ := hi.added
    rw [hmain] at hadds
    cases ThreadPool.step_effect hs with
    | callRun h =>
      rw [h] at hadds
      cases hadds with
      | outside _ hmade =>
        refine ⟨i, ?_, hpushed⟩
        simp only [hmain, Main.calls, ThreadPool.Pool.setProducer, Function.update_self,
          if_neg hn.ne']
        refine .enter (by omega) fun heq => Or.inl ?_
        exact (hle.resolve_left (by omega)).2
  · rcases stopper_step hs with heq | ⟨_, hcall⟩
    · exact heq.trans hstopper
    · exact absurd (hcall hstopper) (by simp)
  · rw [hmain] at h
    contradiction
  · exact (hi.latch l hl).called hs (by simp) (by simp)

theorem Inv.returnRun (hi : Inv k maxSize s) {i : ℕ} (hmain : s.main = .adding i)
    (hs : ThreadPool.step s.pool (.returnRun producer) = some p) :
    Inv k maxSize { s with pool := p, main := .adding (i + 1) } := by
  have hstopper := hi.early (by simp [hmain]) (by simp [hmain])
  refine ⟨hi.reach hs, ?_, fun _ _ => ?_, fun h => ?_, fun l hl => ?_⟩
  · obtain ⟨r, hadds, hpushed⟩ := hi.added
    rw [hmain] at hadds
    cases ThreadPool.step_effect hs with
    | returnRun h =>
      rw [h] at hadds
      cases hadds with
      | returning hle hmade =>
        refine ⟨i + 1, ?_, hpushed⟩
        simp only [Main.calls, ThreadPool.Pool.setProducer, Function.update_self]
        refine .outside (Nat.succ_le_succ hle) fun hlt => Or.inl ?_
        exact (hmade (by simp only [Main.calls] at hle ⊢; omega)).resolve_right (by simp)
    | returnCall h =>
      rw [h] at hadds
      contradiction
  · rcases stopper_step hs with heq | ⟨_, hcall⟩
    · exact heq.trans hstopper
    · exact absurd (hcall hstopper) (by simp)
  · contradiction
  · have hcoupled := hi.latch l hl
    rw [hmain] at hcoupled
    exact (hcoupled.called hs (by simp) (by simp)).adding

/-- The latch is made before the task that counts is handed over. -/
theorem Inv.construct (hi : Inv k maxSize s) (hmain : s.main = .adding k)
    (hnone : s.latch = none) :
    Inv k maxSize { s with latch := some (CountDownLatch.new (n + 1) 1) } := by
  obtain ⟨r, hadds, hpushed⟩ := hi.added
  have hlt : ¬ k < r := by
    intro hlt
    have hmade := hadds.le.2.2 hlt
    simp [hnone, hmain] at hmade
  have hnot (w : Fin n) : counts k (s.pool.workers w) = false := by
    by_contra hcounts
    have hw := executing_job hi.pool.tasksInv hpushed (by simpa using hcounts)
    have hmem := popped_pushed hi.pool.tasksInv (executing_cases hi.pool.tasksInv hw).1
    rw [hpushed] at hmem
    exact hlt (eq_job hmem rfl).2
  refine hi.onLatch rfl (fun h => h) (by simp [hmain]) (by simp [hmain]) ?_
  refine ⟨⟨[], rfl⟩, fun w _ => rfl, fun w hw => ?_, Nat.zero_le _, fun _ => ⟨fun w => ?_, ?_⟩,
    fun h => absurd h (by simp [CountDownLatch.new]), fun _ => rfl, fun h => ?_, fun h => ?_⟩
  · rw [hnot w] at hw
    contradiction
  · simp [CountDownLatch.new]
  · intro hmem
    have hpushed' := popped_pushed hi.pool.tasksInv (executed_popped hi.pool.tasksInv hmem)
    rw [hpushed] at hpushed'
    exact hlt (eq_job hpushed' rfl).2
  · simp [hmain] at h
  · simp [hmain] at h

theorem Inv.finishTask (hi : Inv k maxSize s)
    (hs : ThreadPool.step s.pool (.finishTask w) = some p)
    (hcounts : counts k (s.pool.workers w) = false) :
    Inv k maxSize { s with pool := p } := by
  obtain ⟨j, hj, hexecuted, hafter⟩ := finishTask_cases (k := k) hs
  refine hi.onPool hs (by simp) (by simp) (by simp) rfl fun l hl => ?_
  refine (hi.latch l hl).pool (fun v => ?_) ?_
  · by_cases hv : v = w
    · subst hv
      exact hafter.trans hcounts.symm
    · exact counts_step hs (by simp) (by simpa using fun h => hv h.symm)
  · rw [hexecuted, List.mem_append, List.mem_singleton]
    refine or_iff_left fun heq => ?_
    rw [hj, ← heq] at hcounts
    simp [counts, job] at hcounts

theorem Inv.effect (hn : 0 < n) (hi : Inv k maxSize s) (he : Effect k s a s') :
    Inv k maxSize s' := by
  cases he with
  | construct hmain hnone => exact hi.construct hmain hnone
  | run hmain hle hs => exact hi.run hn hmain hle hs
  | returnRun hmain hs => exact hi.returnRun hmain hs
  | @wait l l' hmain hl hs =>
    have hcoupled := hi.latch l hl
    have hreach := hcoupled.step hs
    obtain ⟨_, rfl⟩ := CountDownLatch.step_cases hs
    refine hi.onLatch (by rw [hmain]; rfl) (by simp [hmain]) (by simp [hmain]) (by simp) ?_
    exact hcoupled.move hreach (by simp) (fun _ => Or.inl rfl) (by simp)
  | @returnWait l l' hmain hl hs =>
    have hcoupled := hi.latch l hl
    have hreach := hcoupled.step hs
    obtain ⟨ht, rfl⟩ := CountDownLatch.step_cases hs
    have hopen : 0 < l.countDowns := by
      have hinside := hcoupled.inside hmain
      simpa [ht] using hinside
    refine hi.onLatch (by rw [hmain]; rfl) (by simp) (by simp [hmain]) (by simp) ?_
    exact hcoupled.move hreach (fun _ => rfl) (by simp) fun _ => hopen
  | stop hmain hs =>
    refine ⟨hi.reach hs, ?_, fun h => absurd hmain h, fun h => ?_, fun l hl => ?_⟩
    · obtain ⟨r, hadds, hpushed⟩ := hi.added
      obtain ⟨r', hadds', hpushed'⟩ := hadds.step hpushed hs (by simp) (by simp)
      exact ⟨r', hadds', hpushed'⟩
    · rw [hmain] at h
      contradiction
    · exact (hi.latch l hl).called hs (by simp) (by simp)
  | destroy hmain hstop =>
    obtain ⟨r, hadds, hpushed⟩ := hi.added
    rw [hmain] at hadds
    obtain ⟨l, hl⟩ := Option.isSome_iff_exists.mp
      ((hadds.outside_of rfl).2.2.resolve_right (by simp))
    have hcoupled := hi.latch l hl
    -- no worker is left that could be in the latch
    have hexecuted : job k ∈ s.pool.executed := by
      refine (hcoupled.pos (hcoupled.opened hmain)).resolve_left fun hret => ?_
      obtain ⟨w, hw⟩ := hret
      have hcounts := hcoupled.counts_of_inside (w := w) (by simp [hw])
      rw [hi.pool.stopInv.returned hstop w] at hcounts
      contradiction
    exact ⟨hi.pool, ⟨r, hadds.mono fun _ => Or.inr rfl, hpushed⟩, fun _ h => absurd rfl h,
      fun _ => ⟨rfl, hstop, hexecuted⟩, fun _ h => by contradiction⟩
  | @testTask w p hs hcounts =>
    obtain ⟨hbefore, hexecuted⟩ := testTask_cases (k := k) hs
    refine hi.onPool hs (by simp) (by simp) (by simp) rfl fun l hl => ?_
    refine (hi.latch l hl).pool (fun v => ?_) (by rw [hexecuted])
    by_cases hv : v = w
    · subst hv
      exact hcounts.trans hbefore.symm
    · exact counts_step hs (by simpa using fun h => hv h.symm) (by simp)
  | @callCountDown w p l l' hs hcounts hl hs' =>
    refine hi.onPool hs (by simp) (by simp) (by simp) (by rw [hl]; rfl) fun l₁ hl₁ => ?_
    obtain rfl := Option.some.inj hl₁
    refine (hi.latch l hl).callCountDown hcounts (fun v hv => ?_) (testTask_cases (k := k) hs).2 hs'
    exact counts_step hs (by simpa using fun h => hv h.symm) (by simp)
  | finishTask hs hcounts => exact hi.finishTask hs hcounts
  | @returnCountDown w p l l' hs hcounts hl hs' =>
    obtain ⟨r, _, hpushed⟩ := hi.added
    obtain ⟨j, hj, hexecuted, hafter⟩ := finishTask_cases (k := k) hs
    rw [executing_job hi.pool.tasksInv hpushed hcounts] at hj
    obtain rfl := Worker.executing.inj hj
    refine hi.onPool hs (by simp) (by simp) (by simp) (by rw [hl]; rfl) fun l₁ hl₁ => ?_
    obtain rfl := Option.some.inj hl₁
    refine (hi.latch l hl).returnCountDown hafter (fun v hv => ?_) ?_ hs'
    · exact counts_step hs (by simp) (by simpa using fun h => hv h.symm)
    · rw [hexecuted]
      exact List.mem_append_right _ (List.mem_singleton_self _)
  | @countDown w l l' hl hs =>
    obtain ⟨r, _, hpushed⟩ := hi.added
    have hcoupled := (hi.latch l hl).countDown hi.pool.tasksInv hpushed hs
    exact hi.onLatch rfl (fun h => h) (hi.not_returned hl) (hi.not_returned hl) hcoupled
  | @testCount l l' hl hs =>
    have hcoupled := hi.latch l hl
    have hreach := hcoupled.step hs
    obtain ⟨ht, rfl⟩ := CountDownLatch.step_cases hs
    have hmain := hcoupled.waiting (by rcases ht with h | h <;> simp [h])
    refine hi.onLatch rfl (fun h => h) (by simp [hmain]) (by simp [hmain]) ?_
    unfold CountDownLatch.wait at hreach ⊢
    split_ifs at hreach ⊢ with hcount
    · exact hcoupled.move hreach (by simp [hmain]) (fun _ => Or.inr (Or.inl ⟨false, rfl⟩))
        (by simp [hmain])
    · refine hcoupled.move hreach (by simp [hmain]) (fun _ => Or.inr (Or.inr ⟨rfl, ?_⟩))
        (by simp [hmain])
      rw [hcoupled.gate.counted] at hcount
      omega
  | @spuriousCount l l' hl hs =>
    have hcoupled := hi.latch l hl
    have hreach := hcoupled.step hs
    obtain ⟨ht, rfl⟩ := CountDownLatch.step_cases hs
    have hmain := hcoupled.waiting (by simp [ht])
    refine hi.onLatch rfl (fun h => h) (by simp [hmain]) (by simp [hmain]) ?_
    exact hcoupled.move hreach (by simp [hmain]) (fun _ => Or.inr (Or.inl ⟨true, rfl⟩))
      (by simp [hmain])
  | pool hinner hs =>
    refine hi.onPool hs ?_ ?_ ?_ rfl fun l hl => (hi.latch l hl).called hs ?_ ?_
    all_goals
      intros
      intro heq
      subst heq
      contradiction

theorem Inv.step (hn : 0 < n) (hi : Inv k maxSize s)
    (hs : ThreadPoolTest.step k s a = some s') : Inv k maxSize s' :=
  hi.effect hn (step_effect hs)

theorem Reachable.inv (hn : 0 < n) (h : Reachable k maxSize s) : Inv k maxSize s :=
  Runs.Reaches.invariant (fun _ _ _ hi hs => hi.step hn hs) h inv_start

end NaiveNet.ThreadPoolTest
