import NaiveNet.LogFileRolls

/-!
# Limits of age and size

With a clock that never goes back. A roll is refused only in the second of the last
one, so neither a new day nor the flush interval can be missed for longer than
`checkEveryN_` messages, and a file outgrows `rollSize_` by more than a message only
through what is written in the second it was opened in.
-/
namespace NaiveNet.LogFile

/-- The clock at the times of a call. -/
def Action.readings : Action → List ℤ
  | .append _ written checked rolled => [written, checked, rolled]
  | .rollFile now => [now]
  | .flush => []

def Action.isAppend : Action → Bool
  | .append .. => true
  | _ => false

/-- The clock does not go back. -/
def ClockForward (s : State) : Action → Prop
  | .append _ written checked rolled => s.clock ≤ written ∧ written ≤ checked ∧ checked ≤ rolled
  | .rollFile now => s.clock ≤ now
  | .flush => True

variable {s s' : State} {a : Action}

theorem period_eq {t : ℤ} (h : 0 ≤ t) : period t = t / 86400 * 86400 := by
  rw [period, Int.tdiv_eq_ediv_of_nonneg h]
  rfl

/-- What `rollFile` and the flush keep of the times. -/
structure Timed (s : State) : Prop where
  roll_pos : 0 < s.lastRoll_
  period_eq : s.startOfPeriod_ = s.lastRoll_ / 86400 * 86400
  roll_le_flush : s.lastRoll_ ≤ s.lastFlush_
  flush_le_clock : s.lastFlush_ ≤ s.clock

theorem timed_new (config : Config) {now : ℤ} (hpos : 0 < now) : Timed (new config now) := by
  rw [new, rollFile, if_pos hpos]
  exact ⟨hpos, period_eq hpos.le, le_rfl, le_rfl⟩

theorem clock_step (hc : ClockForward s a) (hs : step s a = some s') : s.clock ≤ s'.clock := by
  cases step_effect hs with
  | rollFile hr => exact hc
  | rollRefused hr => exact hc
  | flush hf => exact le_rfl
  | _ =>
    obtain ⟨hwritten, hchecked, hrolled⟩ := hc
    exact hwritten.trans (hchecked.trans hrolled)

theorem Timed.step (hi : Timed s) (hc : ClockForward s a) (hs : step s a = some s') :
    Timed s' := by
  obtain ⟨hpos, hperiod, hroll, hflush⟩ := hi
  have hclock := clock_step hc hs
  have hopen {now : ℤ} (h : s.lastRoll_ < now) : 0 < now ∧ period now = now / 86400 * 86400 :=
    ⟨hpos.trans h, LogFile.period_eq (hpos.trans h).le⟩
  cases step_effect hs with
  | sizeRoll hf hsize hr | dayRoll hf hsize hn hp hr | rollFile hr =>
    exact ⟨(hopen hr).1, (hopen hr).2, le_rfl, le_rfl⟩
  | flushed hf hsize hn hp hin =>
    obtain ⟨hwritten, hchecked, hrolled⟩ := hc
    exact ⟨hpos, hperiod, hroll.trans (hflush.trans (hwritten.trans hchecked)), hrolled⟩
  | _ => exact ⟨hpos, hperiod, hroll, hflush.trans hclock⟩

theorem config_step (hs : step s a = some s') : s'.config = s.config := by
  cases step_effect hs with
  | _ => rfl

/-- The counter stays below its limit. -/
def Counted (s : State) : Prop := 0 ≤ s.count_ ∧ s.count_ < s.config.checkEveryN_

theorem Counted.step (hi : Counted s) (hs : step s a = some s') : Counted s' := by
  obtain ⟨h0, hlt⟩ := hi
  have hreset : (0 : ℤ) ≤ 0 ∧ 0 < s.config.checkEveryN_ := ⟨le_rfl, by omega⟩
  cases step_effect hs with
  | counted hf hsize hn =>
    have hnext : 0 ≤ s.count_ + 1 := by omega
    exact ⟨hnext, hn⟩
  | dayRoll hf hsize hn hp hr | dayRefused hf hsize hn hp hr | flushed hf hsize hn hp hin
  | idle hf hsize hn hp hin => exact hreset
  | _ => exact ⟨h0, hlt⟩

theorem files_write {f : AppendFile} {clock : ℤ} {logline : List Char} (hf : s.file_ = some f) :
    s.files.length = (s.write f clock logline).files.length := by
  simp [State.files, State.write, hf]

theorem files_openFile (s : State) (now : ℤ) : s.files.length < (s.openFile now).files.length := by
  simp [State.files, State.openFile]

/-- A message is written, then a file is opened. -/
theorem files_write_openFile {f : AppendFile} {clock now : ℤ} {logline : List Char}
    (hf : s.file_ = some f) :
    s.files.length < ((s.write f clock logline).openFile now).files.length :=
  (files_write hf).trans_lt (files_openFile _ now)

/-- Files are opened and flushed, never the other way round. -/
theorem progress_step (hs : step s a = some s') :
    s.files.length ≤ s'.files.length ∧ s.flushes ≤ s'.flushes := by
  cases step_effect hs with
  | sizeRoll hf hsize hr | dayRoll hf hsize hn hp hr =>
    exact ⟨(files_write_openFile hf).le, le_rfl⟩
  | rollFile hr => exact ⟨(files_openFile s _).le, le_rfl⟩
  | rollRefused hr => exact ⟨le_rfl, le_rfl⟩
  | flush hf => exact ⟨le_rfl, Nat.le_succ _⟩
  | flushed hf hsize hn hp hin => exact ⟨(files_write hf).le, Nat.le_succ _⟩
  | sizeRefused hf hsize hr | counted hf hsize hn | dayRefused hf hsize hn hp hr
  | idle hf hsize hn hp hin => exact ⟨(files_write hf).le, le_rfl⟩

/-- The call only wrote and counted its message, if it had one. -/
def OnlyCounted (s : State) (a : Action) (s' : State) : Prop :=
  s'.startOfPeriod_ = s.startOfPeriod_ ∧ s'.lastFlush_ = s.lastFlush_ ∧ s'.config = s.config ∧
    s'.count_ = s.count_ + a.isAppend.toNat

theorem clock_le_reading (hc : ClockForward s a) {t : ℤ} (ht : t ∈ a.readings) : s.clock ≤ t := by
  cases a with
  | append logline written checked rolled =>
    obtain ⟨hwritten, hchecked, hrolled⟩ := hc
    simp only [Action.readings, List.mem_cons, List.not_mem_nil, or_false] at ht
    omega
  | rollFile now =>
    rw [List.mem_singleton.mp ht]
    exact hc
  | flush => exact absurd ht List.not_mem_nil

/-- A reading on a later day is later than the last roll. -/
theorem Timed.roll_lt (hi : Timed s) {t : ℤ} (hclock : s.clock ≤ t)
    (hlate : s.startOfPeriod_ < period t) : s.lastRoll_ < t := by
  obtain ⟨hpos, hperiod, hroll, hflush⟩ := hi
  rw [LogFile.period_eq (by omega)] at hlate
  omega

/-- On a later day, a call opens a file or counts. -/
theorem newDay_step (hi : Timed s) (hc : ClockForward s a)
    (hlate : ∀ t ∈ a.readings, s.startOfPeriod_ < period t) (hs : step s a = some s') :
    s.files.length < s'.files.length ∨ OnlyCounted s a s' := by
  have hroll (t : ℤ) (ht : t ∈ a.readings) : s.lastRoll_ < t :=
    hi.roll_lt (clock_le_reading hc ht) (hlate t ht)
  cases step_effect hs with
  | sizeRoll hf hsize hr | dayRoll hf hsize hn hp hr => exact Or.inl (files_write_openFile hf)
  | rollFile hr => exact Or.inl (files_openFile s _)
  | @sizeRefused logline written checked rolled f hf hsize hr =>
    have hlt := hroll rolled (by simp [Action.readings])
    omega
  | @dayRefused logline written checked rolled f hf hsize hn hp hr =>
    have hlt := hroll rolled (by simp [Action.readings])
    omega
  | @rollRefused now hr =>
    have hlt := hroll now (by simp [Action.readings])
    omega
  | @flushed logline written checked rolled f hf hsize hn hp hin =>
    have hlt := hlate checked (by simp [Action.readings])
    omega
  | @idle logline written checked rolled f hf hsize hn hp hin =>
    have hlt := hlate checked (by simp [Action.readings])
    omega
  | counted hf hsize hn => exact Or.inr ⟨rfl, rfl, rfl, rfl⟩
  | flush hf => exact Or.inr ⟨rfl, rfl, rfl, (add_zero _).symm⟩

/-- After the flush interval, a call opens a file, flushes or counts. -/
theorem flushDue_step (hi : Timed s) (hlate : ∀ t ∈ a.readings,
      0 ≤ s.config.flushInterval_ ∧ s.lastFlush_ + s.config.flushInterval_ < t)
    (hs : step s a = some s') :
    s.files.length + s.flushes < s'.files.length + s'.flushes ∨ OnlyCounted s a s' := by
  obtain ⟨_, _, hroll, _⟩ := hi
  obtain ⟨hfiles, hflushes⟩ := progress_step hs
  cases step_effect hs with
  | sizeRoll hf hsize hr | dayRoll hf hsize hn hp hr =>
    exact Or.inl (Nat.add_lt_add_of_lt_of_le (files_write_openFile hf) hflushes)
  | rollFile hr => exact Or.inl (Nat.add_lt_add_of_lt_of_le (files_openFile s _) hflushes)
  | @sizeRefused logline written checked rolled f hf hsize hr =>
    have hlt := hlate rolled (by simp [Action.readings])
    omega
  | @dayRefused logline written checked rolled f hf hsize hn hp hr =>
    have hlt := hlate rolled (by simp [Action.readings])
    omega
  | @rollRefused now hr =>
    have hlt := hlate now (by simp [Action.readings])
    omega
  | @idle logline written checked rolled f hf hsize hn hp hin =>
    have hlt := hlate checked (by simp [Action.readings])
    omega
  | flushed hf hsize hn hp hin =>
    exact Or.inl (Nat.add_lt_add_of_le_of_lt hfiles (Nat.lt_succ_self _))
  | flush hf => exact Or.inl (Nat.add_lt_add_of_le_of_lt hfiles (Nat.lt_succ_self _))
  | counted hf hsize hn => exact Or.inr ⟨rfl, rfl, rfl, rfl⟩

/-- Messages that a run writes without making progress are counted. -/
theorem counted_run (m : State → ℕ) (Late : State → ℤ → Prop)
    (hmono : ∀ s a s', step s a = some s' → m s ≤ m s')
    (hkeep : ∀ s a s', OnlyCounted s a s' → ∀ t, Late s t → Late s' t)
    (hstep : ∀ s a s', Timed s → ClockForward s a → (∀ t ∈ a.readings, Late s t) →
      step s a = some s' → m s < m s' ∨ OnlyCounted s a s')
    {as : List Action} (hi : Timed s) (hm : Runs.Meets ClockForward step s as)
    (hlate : ∀ a ∈ as, ∀ t ∈ a.readings, Late s t) (h : Runs.run step s as = some s') :
    m s < m s' ∨ s'.count_ = s.count_ + as.countP Action.isAppend := by
  induction as generalizing s with
  | nil =>
    obtain rfl : s = s' := by simpa using h
    exact Or.inr (add_zero _).symm
  | cons a as ih =>
    obtain ⟨t, ht, h⟩ := Option.bind_eq_some_iff.mp h
    obtain ⟨hc, hm⟩ := hm
    have hrest : m t ≤ m s' := Runs.Reaches.invariant (I := fun s' => m t ≤ m s')
      (fun s a s' hle hs => hle.trans (hmono s a s' hs)) ⟨as, h⟩ le_rfl
    obtain hless | hcount := hstep s a t hi hc (hlate a List.mem_cons_self) ht
    · exact Or.inl (hless.trans_le hrest)
    · have hlate' : ∀ b ∈ as, ∀ r ∈ b.readings, Late t r :=
        fun b hb r hr => hkeep s a t hcount r (hlate b (List.mem_cons_of_mem a hb) r hr)
      obtain hless | hsum := ih (hi.step hc ht) (hm t ht) hlate' h
      · exact Or.inl ((hmono s a t ht).trans_lt hless)
      · right
        rw [hsum, hcount.2.2.2, List.countP_cons]
        cases a.isAppend with
        | false => simp
        | true =>
          simp
          omega

/-- The invariant of the times and the counter. -/
structure Aged (config : Config) (s : State) : Prop where
  config_eq : s.config = config
  timed : Timed s
  counted : Counted s

theorem Aged.step {config : Config} (hi : Aged config s) (hc : ClockForward s a)
    (hs : step s a = some s') : Aged config s' :=
  ⟨(config_step hs).trans hi.config_eq, hi.timed.step hc hs, hi.counted.step hs⟩

theorem aged_new {config : Config} (hN : 1 ≤ config.checkEveryN_) {now : ℤ} (hpos : 0 < now) :
    Aged config (new config now) := by
  refine ⟨?_, timed_new config hpos, ?_⟩
  · rw [new, rollFile, if_pos hpos]
    rfl
  · rw [new, rollFile, if_pos hpos]
    exact ⟨le_rfl, hN⟩

/-- With a clock that does not go back, `checkEveryN_` messages of a later day do not all
go to the old file, and `checkEveryN_` messages after the flush interval do not all go by
without a flush or a new file. -/
theorem age_bounded (config : Config) (hN : 1 ≤ config.checkEveryN_)
    (hinterval : 0 ≤ config.flushInterval_) {now : ℤ} (hpos : 0 < now) {as : List Action}
    (hforward : Runs.Meets ClockForward step (new config now) as) {s : State}
    (hvisits : Runs.Visits step (new config now) as s) :
    (0 ≤ s.count_ ∧ s.count_ < config.checkEveryN_ ∧
      s.startOfPeriod_ = s.lastRoll_ / 86400 * 86400 ∧ s.lastRoll_ ≤ s.lastFlush_) ∧
    ∀ (bs : List Action) (s' : State), Runs.Meets ClockForward step s bs →
      Runs.run step s bs = some s' → config.checkEveryN_ ≤ bs.countP Action.isAppend →
      ((∀ b ∈ bs, ∀ t ∈ b.readings, s.startOfPeriod_ < t / 86400 * 86400) →
        s.files.length < s'.files.length) ∧
      ((∀ b ∈ bs, ∀ t ∈ b.readings, s.lastFlush_ + config.flushInterval_ < t) →
        s.files.length < s'.files.length ∨ s.flushes < s'.flushes) := by
  have haged : Aged config s := hforward.invariant (I := Aged config)
    (fun s a s' hi hc hs => hi.step hc hs) (aged_new hN hpos) hvisits
  obtain ⟨rfl, htimed, hcounted⟩ := haged
  refine ⟨⟨hcounted.1, hcounted.2, htimed.period_eq, htimed.roll_le_flush⟩, ?_⟩
  intro bs s' hm hrun hmany
  have haged' : Aged s.config s' := hm.invariant (I := Aged s.config)
    (fun s a s' hi hc hs => hi.step hc hs) ⟨rfl, htimed, hcounted⟩ ⟨bs, List.prefix_rfl, hrun⟩
  have hlt := haged'.counted.2
  rw [haged'.config_eq] at hlt
  have h0 := hcounted.1
  constructor
  · intro hlate
    have hday : ∀ b ∈ bs, ∀ t ∈ b.readings, s.startOfPeriod_ < period t := by
      intro b hb t ht
      have hless := hlate b hb t ht
      have hroll := htimed.roll_pos
      have hperiod := htimed.period_eq
      rw [period_eq (by omega)]
      exact hless
    obtain hmore | hcount := counted_run (fun s => s.files.length)
      (fun s t => s.startOfPeriod_ < period t) (fun s a s' hs => (progress_step hs).1)
      (fun s a s' h t ht => by rw [h.1]; exact ht)
      (fun s a s' hi hc hl hs => newDay_step hi hc hl hs) htimed hm hday hrun
    · exact hmore
    · omega
  · intro hlate
    obtain hmore | hcount := counted_run (fun s => s.files.length + s.flushes)
      (fun s t => 0 ≤ s.config.flushInterval_ ∧ s.lastFlush_ + s.config.flushInterval_ < t)
      (fun s a s' hs => Nat.add_le_add (progress_step hs).1 (progress_step hs).2)
      (fun s a s' h t ht => by rw [h.2.1, h.2.2.1]; exact ht)
      (fun s a s' hi hc hl hs => flushDue_step hi hl hs) htimed hm
      (fun b hb t ht => ⟨hinterval, hlate b hb t ht⟩) hrun
    · omega
    · omega

/-- Every second message is checked: two messages of the second day open its file. -/
theorem age_bounded_day :
    ∃ s : State, Runs.run step (new ⟨['b'], 100, 3, 2, ['h'], 7⟩ 5)
        [.append ['x'] 86400 86400 86400, .append ['y'] 86401 86401 86401] = some s ∧
      1 < s.files.length := by
  have hforward : Runs.Meets ClockForward step (new ⟨['b'], 100, 3, 2, ['h'], 7⟩ 5) [] := trivial
  obtain ⟨_, hlater⟩ := age_bounded ⟨['b'], 100, 3, 2, ['h'], 7⟩ (by decide) (by decide)
    (show (0 : ℤ) < 5 by omega) hforward ⟨[], List.prefix_rfl, rfl⟩
  have hmeets : Runs.Meets ClockForward step (new ⟨['b'], 100, 3, 2, ['h'], 7⟩ 5)
      [.append ['x'] 86400 86400 86400, .append ['y'] 86401 86401 86401] := by
    have hfirst : (5 : ℤ) ≤ 86400 ∧ (86400 : ℤ) ≤ 86400 ∧ (86400 : ℤ) ≤ 86400 := by omega
    have hsecond : (86400 : ℤ) ≤ 86401 ∧ (86401 : ℤ) ≤ 86401 ∧ (86401 : ℤ) ≤ 86401 := by omega
    refine ⟨hfirst, fun s hs => ⟨?_, fun _ _ => trivial⟩⟩
    obtain rfl := Option.some.inj hs
    exact hsecond
  exact ⟨_, rfl, (hlater _ _ hmeets rfl (by decide)).1 (by decide)⟩

end NaiveNet.LogFile

namespace NaiveNet.AppendFile

/-- The bytes of some lines. -/
def total (lines : List (ℤ × List Char)) : ℕ := (lines.map fun l => l.2.length).sum

/-- The bytes written in the second in which the file was opened. -/
def burst (f : AppendFile) : ℕ := total (f.lines.filter fun l => l.1 = f.opened)

/-- The length of the last message; `0` in an empty file. -/
def lastLength (f : AppendFile) : ℕ := (f.lines.getLast?.map fun l => l.2.length).getD 0

variable {f : AppendFile} {clock : ℤ} {logline : List Char}

theorem length_text : f.text.length = total f.lines := by
  rw [text, messages, List.length_flatten, List.map_map]
  rfl

theorem total_append (ls ms : List (ℤ × List Char)) : total (ls ++ ms) = total ls + total ms := by
  rw [total, List.map_append, List.sum_append]
  rfl

theorem burst_le_append : f.burst ≤ (f.append clock logline).burst := by
  unfold burst append
  rw [List.filter_append, total_append]
  exact Nat.le_add_right _ _

theorem lastLength_append : (f.append clock logline).lastLength = logline.length := by
  simp [lastLength, append]

/-- A file whose lines are all of its first second is one burst. -/
theorem burst_eq_total (h : ∀ l ∈ f.lines, l.1 = f.opened) : f.burst = total f.lines := by
  rw [burst, List.filter_eq_self.mpr fun l hl => decide_eq_true (h l hl)]

/-- What holds of a file for good. -/
structure Bounded (rollSize_ : ℕ) (f : AppendFile) : Prop where
  counted : f.writtenBytes_ = f.text.length
  bounded : f.writtenBytes_ ≤ max rollSize_ f.burst + f.lastLength

/-- What holds of the file that is written to. -/
structure Growing (rollSize_ : ℕ) (lastRoll_ clock : ℤ) (f : AppendFile) : Prop where
  opened_eq : f.opened = lastRoll_
  opened_le : lastRoll_ ≤ clock
  lines_within : ∀ l ∈ f.lines, f.opened ≤ l.1 ∧ l.1 ≤ clock
  counted : f.writtenBytes_ = f.text.length
  small_or_burst : f.writtenBytes_ ≤ rollSize_ ∨ f.writtenBytes_ = f.burst

namespace Growing

variable {rollSize_ : ℕ} {lastRoll_ written rolled : ℤ}

theorem le_max (h : Growing rollSize_ lastRoll_ clock f) :
    f.writtenBytes_ ≤ max rollSize_ f.burst := by
  obtain hsmall | hburst := h.small_or_burst
  · exact hsmall.trans (le_max_left _ _)
  · exact hburst.le.trans (le_max_right _ _)

theorem bounded (h : Growing rollSize_ lastRoll_ clock f) : Bounded rollSize_ f :=
  ⟨h.counted, h.le_max.trans (Nat.le_add_right _ _)⟩

theorem opened_now (filename : List Char) {now : ℤ} :
    Growing rollSize_ now now ⟨filename, 0, now, []⟩ :=
  ⟨rfl, le_rfl, fun _ hl => absurd hl List.not_mem_nil, rfl, Or.inl (Nat.zero_le _)⟩

/-- The clock moves on. -/
theorem later (h : Growing rollSize_ lastRoll_ clock f) {now : ℤ} (hnow : clock ≤ now) :
    Growing rollSize_ lastRoll_ now f :=
  ⟨h.opened_eq, h.opened_le.trans hnow,
    fun l hl => ⟨(h.lines_within l hl).1, (h.lines_within l hl).2.trans hnow⟩,
    h.counted, h.small_or_burst⟩

theorem counted_append (h : Growing rollSize_ lastRoll_ clock f) :
    (f.append written logline).writtenBytes_ = (f.append written logline).text.length := by
  have hcounted := h.counted
  rw [length_text] at hcounted ⊢
  simp only [append, total_append]
  rw [hcounted]
  rfl

/-- One message more than a growing file is bounded. -/
theorem bounded_append (h : Growing rollSize_ lastRoll_ clock f) :
    Bounded rollSize_ (f.append written logline) := by
  refine ⟨h.counted_append, ?_⟩
  rw [lastLength_append]
  have hmono : max rollSize_ f.burst ≤ max rollSize_ (f.append written logline).burst :=
    max_le_max_left _ burst_le_append
  exact Nat.add_le_add_right (h.le_max.trans hmono) _

theorem lines_within_append (h : Growing rollSize_ lastRoll_ clock f) (hwritten : clock ≤ written)
    (hrolled : written ≤ rolled) :
    ∀ l ∈ (f.append written logline).lines, f.opened ≤ l.1 ∧ l.1 ≤ rolled := by
  intro l hl
  obtain hold | hnew := List.mem_append.mp hl
  · obtain ⟨hge, hle⟩ := h.lines_within l hold
    exact ⟨hge, hle.trans (hwritten.trans hrolled)⟩
  · rw [List.mem_singleton.mp hnew, h.opened_eq]
    exact ⟨h.opened_le.trans hwritten, hrolled⟩

/-- The file is small enough to go on. -/
theorem append_small (h : Growing rollSize_ lastRoll_ clock f) (hwritten : clock ≤ written)
    (hrolled : written ≤ rolled) (hsize : f.writtenBytes_ + logline.length ≤ rollSize_) :
    Growing rollSize_ lastRoll_ rolled (f.append written logline) :=
  ⟨h.opened_eq, h.opened_le.trans (hwritten.trans hrolled),
    h.lines_within_append hwritten hrolled, h.counted_append, Or.inl hsize⟩

/-- The roll is refused: the clock still reads the first second. -/
theorem append_refused (h : Growing rollSize_ lastRoll_ clock f) (hwritten : clock ≤ written)
    (hrolled : written ≤ rolled) (hr : rolled ≤ lastRoll_) :
    Growing rollSize_ lastRoll_ rolled (f.append written logline) := by
  have hwithin : ∀ l ∈ (f.append written logline).lines, f.opened ≤ l.1 ∧ l.1 ≤ rolled :=
    h.lines_within_append hwritten hrolled
  have hopened := h.opened_eq
  have hfirst : ∀ l ∈ (f.append written logline).lines, l.1 = f.opened := by
    intro l hl
    obtain ⟨hge, hle⟩ := hwithin l hl
    omega
  have hburst : (f.append written logline).writtenBytes_ = (f.append written logline).burst := by
    rw [h.counted_append, length_text]
    exact (burst_eq_total hfirst).symm
  exact ⟨hopened, h.opened_le.trans (hwritten.trans hrolled), hwithin, h.counted_append,
    Or.inr hburst⟩

end Growing

end NaiveNet.AppendFile

namespace NaiveNet.LogFile

variable {s s' : State} {a : Action}

/-- The sizes of the files. -/
def Sized (s : State) : Prop :=
  (∀ f ∈ s.closed, f.Bounded s.config.rollSize_) ∧
    ∀ f, s.file_ = some f → f.Growing s.config.rollSize_ s.lastRoll_ s.clock

theorem closed_openFile {rollSize_ : ℕ} {closed : List AppendFile} {f : AppendFile}
    (hclosed : ∀ g ∈ closed, g.Bounded rollSize_) (hf : f.Bounded rollSize_) :
    ∀ g ∈ closed ++ (some f).toList, g.Bounded rollSize_ := by
  intro g hg
  obtain hold | hlast := List.mem_append.mp hg
  · exact hclosed g hold
  · rw [Option.toList_some, List.mem_singleton] at hlast
    rwa [hlast]

theorem Sized.step (hi : Sized s) (hc : ClockForward s a) (hs : step s a = some s') :
    Sized s' := by
  obtain ⟨hclosed, hgrowing⟩ := hi
  have hsome {t : State} {f : AppendFile} (ht : t.file_ = some f)
      (h : f.Growing t.config.rollSize_ t.lastRoll_ t.clock) :
      ∀ g, t.file_ = some g → g.Growing t.config.rollSize_ t.lastRoll_ t.clock := by
    intro g hg
    obtain rfl := Option.some.inj (ht.symm.trans hg)
    exact h
  cases step_effect hs with
  | sizeRoll hf hsize hr | dayRoll hf hsize hn hp hr =>
    exact ⟨closed_openFile hclosed (hgrowing _ hf).bounded_append, hsome rfl (.opened_now _)⟩
  | @rollFile now hr =>
    refine ⟨?_, hsome rfl (.opened_now _)⟩
    intro f hf
    obtain hold | hlast := List.mem_append.mp hf
    · exact hclosed f hold
    · exact (hgrowing f (Option.mem_toList.mp hlast)).bounded
  | rollRefused hr => exact ⟨hclosed, fun f hf => (hgrowing f hf).later hc⟩
  | flush hf => exact ⟨hclosed, hgrowing⟩
  | sizeRefused hf hsize hr =>
    obtain ⟨hwritten, hchecked, hrolled⟩ := hc
    refine ⟨hclosed, hsome rfl ?_⟩
    exact (hgrowing _ hf).append_refused hwritten (hchecked.trans hrolled) hr
  | counted hf hsize hn | dayRefused hf hsize hn hp hr | flushed hf hsize hn hp hin
  | idle hf hsize hn hp hin =>
    obtain ⟨hwritten, hchecked, hrolled⟩ := hc
    refine ⟨hclosed, hsome rfl ?_⟩
    exact (hgrowing _ hf).append_small hwritten (hchecked.trans hrolled) hsize

theorem sized_new (config : Config) {now : ℤ} (hpos : 0 < now) : Sized (new config now) := by
  rw [new, rollFile, if_pos hpos]
  refine ⟨fun f hf => absurd hf List.not_mem_nil, fun f hf => ?_⟩
  obtain rfl := Option.some.inj hf
  exact .opened_now _

/-- A file left too large by an append: its roll was refused. -/
theorem opened_of_large (hi : Sized s) {logline : List Char} {written checked rolled : ℤ}
    (hc : ClockForward s (.append logline written checked rolled))
    (hs : step s (.append logline written checked rolled) = some s') {f : AppendFile}
    (hf : s'.file_ = some f) (hlarge : s.config.rollSize_ < f.writtenBytes_) :
    f.opened = rolled := by
  obtain ⟨_, hgrowing⟩ := hi
  obtain ⟨hwritten, hchecked, hrolled⟩ := hc
  cases step_effect hs with
  | sizeRoll hg hsize hr | dayRoll hg hsize hn hp hr =>
    obtain rfl := Option.some.inj hf
    exact absurd hlarge (Nat.not_lt_zero _)
  | sizeRefused hg hsize hr =>
    have hopened := (hgrowing _ hg).opened_eq
    have hle := (hgrowing _ hg).opened_le
    obtain rfl := Option.some.inj hf
    simp only [AppendFile.append]
    omega
  | counted hg hsize hn | dayRefused hg hsize hn hp hr | flushed hg hsize hn hp hin
  | idle hg hsize hn hp hin =>
    obtain rfl := Option.some.inj hf
    exact absurd hlarge (not_lt.mpr hsize)

/-- With a clock that does not go back, a file exceeds `rollSize_` and its first second
by no more than its last message; the one left too large is still in that second. -/
theorem size_bounded (config : Config) {now : ℤ} (hpos : 0 < now) {as : List Action}
    (hforward : Runs.Meets ClockForward step (new config now) as) {s : State}
    (hvisits : Runs.Visits step (new config now) as s) :
    (∀ f ∈ s.files, f.writtenBytes_ = f.text.length ∧
      f.text.length ≤ max config.rollSize_ f.burst + f.lastLength) ∧
    ∀ logline written checked rolled s',
      ClockForward s (.append logline written checked rolled) →
      step s (.append logline written checked rolled) = some s' →
      ∀ f, s'.file_ = some f → config.rollSize_ < f.text.length → f.opened = rolled := by
  have hsized : Sized s ∧ s.config = config := hforward.invariant
    (I := fun s => Sized s ∧ s.config = config)
    (fun s a s' hi hc hs => ⟨hi.1.step hc hs, (config_step hs).trans hi.2⟩)
    ⟨sized_new config hpos, by rw [new, rollFile, if_pos hpos]; rfl⟩ hvisits
  obtain ⟨hsized, rfl⟩ := hsized
  constructor
  · intro f hf
    have hbounded : f.Bounded s.config.rollSize_ := by
      obtain hclosed | hcurrent := List.mem_append.mp hf
      · exact hsized.1 f hclosed
      · exact (hsized.2 f (Option.mem_toList.mp hcurrent)).bounded
    exact ⟨hbounded.counted, hbounded.counted ▸ hbounded.bounded⟩
  · intro logline written checked rolled s' hc hs f hf hlarge
    rw [← ((hsized.step hc hs).2 f hf).counted] at hlarge
    exact opened_of_large hsized hc hs hf hlarge

/-- Two messages in the second of the opening, both over the size: one file. -/
theorem size_bounded_burst :
    ∃ s : State, Runs.run step (new ⟨['b'], 1, 3, 1024, ['h'], 7⟩ 5)
        [.append ['x', 'y'] 5 5 5, .append ['z', 'w'] 5 5 5] = some s ∧
      ∀ f ∈ s.files, f.text.length ≤ max 1 f.burst + f.lastLength := by
  have hnow : (5 : ℤ) ≤ 5 ∧ (5 : ℤ) ≤ 5 ∧ (5 : ℤ) ≤ 5 := ⟨le_rfl, le_rfl, le_rfl⟩
  have hmeets : Runs.Meets ClockForward step (new ⟨['b'], 1, 3, 1024, ['h'], 7⟩ 5)
      [.append ['x', 'y'] 5 5 5, .append ['z', 'w'] 5 5 5] := by
    refine ⟨hnow, fun s hs => ⟨?_, fun _ _ => trivial⟩⟩
    obtain rfl := Option.some.inj hs
    exact hnow
  obtain ⟨hbound, _⟩ := size_bounded ⟨['b'], 1, 3, 1024, ['h'], 7⟩ (show (0 : ℤ) < 5 by omega)
    hmeets ⟨_, List.prefix_rfl, rfl⟩
  exact ⟨_, rfl, fun f hf => (hbound f hf).2⟩

end NaiveNet.LogFile
