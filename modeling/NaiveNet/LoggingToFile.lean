import NaiveNet.LogFileRolls
import NaiveNet.LogRecordText
import Mathlib.Algebra.Order.Group.Multiset
import Mathlib.Tactic.Abel

/-!
# Logging into a file

The macros of `Logging.h`, with `setOutput` and `setFlush` given functions that hand on to a
`LogFile`. A statement makes a logger, inserts and destroys it. The statements of the
threads interleave, and one may stand in an operand of another. The destructor of a fatal
logger calls `g_output`, `g_flush` and `abort` one by one, and the other threads go on
logging in between. Files store all they are given, as every write would be complete. What a
record was made of, and what was written when `g_flush` was last called, is history that no
step reads.
-/
namespace NaiveNet.LoggingToFile

open Logger

/-- The value of the enumerator. -/
def level : LogLevel → ℕ
  | .TRACE => 0
  | .DEBUG => 1
  | .INFO => 2
  | .WARN => 3
  | .ERROR => 4
  | .FATAL => 5

/-- From whether `NAIVENET_LOG_TRACE` and `NAIVENET_LOG_DEBUG` are set. -/
def initLogLevel (trace debug : Bool) : LogLevel :=
  if trace then .TRACE else if debug then .DEBUG else .INFO

inductive Macro
  | LOG_TRACE
  | LOG_DEBUG
  | LOG_INFO
  | LOG_WARN
  | LOG_ERROR
  | LOG_FATAL
  | LOG_SYSERR
  | LOG_SYSFATAL
  deriving DecidableEq

/-- The `if` of a macro. -/
def Macro.enabled (g_logLevel : LogLevel) : Macro → Bool
  | .LOG_TRACE => level g_logLevel ≤ level .TRACE
  | .LOG_DEBUG => level g_logLevel ≤ level .DEBUG
  | .LOG_INFO => level g_logLevel ≤ level .INFO
  | _ => true

/-- The constructor a macro calls in the function `func`. -/
def Macro.constructor (func : List Char) : Macro → Constructor
  | .LOG_TRACE => .levelFunc .TRACE (some func)
  | .LOG_DEBUG => .levelFunc .DEBUG (some func)
  | .LOG_INFO => .plain
  | .LOG_WARN => .level .WARN
  | .LOG_ERROR => .level .ERROR
  | .LOG_FATAL => .level .FATAL
  | .LOG_SYSERR => .toAbort false
  | .LOG_SYSFATAL => .toAbort true

/-- A logger in its lifetime, with all that was inserted and the `g_logLevel` it passed. -/
structure Live where
  impl_ : Impl
  ops : List Insertion
  passed : LogLevel

/-- A record, as a thread gave it to `g_output`. -/
structure Written (n : ℕ) where
  thread : Fin n
  level_ : LogLevel
  msg : List Char
  ops : List Insertion
  passed : LogLevel

/-- The record of a logger that is destroyed. -/
def Live.written {n : ℕ} (o : Live) (t : Fin n) (msg : List Char) : Written n :=
  ⟨t, o.impl_.level_, msg, o.ops ++ finishOps o.impl_.basename_ o.impl_.line_, o.passed⟩

/-- What the destructor of a fatal logger calls next. -/
inductive Fatal
  | g_flush
  | abort
  deriving DecidableEq

structure State (n : ℕ) where
  g_logLevel : LogLevel
  g_logTimeZone : TimeZone
  caches : Fin n → TimeCache
  /-- The innermost statement of a thread first. -/
  loggers : Fin n → List Live
  /-- A thread in the destructor of a fatal logger. -/
  fatal : Fin n → Option Fatal
  g_logFile : LogFile.State
  aborted : Bool
  written : List (Written n)
  flushed : List (Written n)

variable {n : ℕ}

/-- `g_logFile` is opened when the clock is at `now`. -/
def start (n : ℕ) (g_logLevel : LogLevel) (config : LogFile.Config) (now : ℤ) : State n where
  g_logLevel := g_logLevel
  g_logTimeZone := ⟨none⟩
  caches := fun _ => .zero
  loggers := fun _ => []
  fatal := fun _ => none
  g_logFile := LogFile.new config now
  aborted := false
  written := []
  flushed := []

inductive Action (n : ℕ)
  | setLogLevel (level : LogLevel)
  | setTimeZone (tz : TimeZone)
  /-- A statement is reached; the zone of the context is not used, but the global one. -/
  | log (t : Fin n) (ctx : Context) (file : SourceFile) (line : Int32) (m : Macro)
    (func : List Char)
  | insert (t : Fin n) (op : Insertion)
  /-- The destructor up to `g_output`; the clock as in `LogFile`. -/
  | destroy (t : Fin n) (written checked rolled : ℤ)
  | g_flush (t : Fin n)
  | abort (t : Fin n)

/-- The thread that an action is a part of a statement of, up to `g_output`. -/
def Action.statement : Action n → Option (Fin n)
  | .log t _ _ _ _ _ => some t
  | .insert t _ => some t
  | .destroy t _ _ _ => some t
  | _ => none

/-- The logger `o` of a statement in `rest` is destroyed, and `g_output` has returned. -/
def State.recorded (s : State n) (t : Fin n) (o : Live) (rest : List Live) (msg : List Char)
    (g_logFile : LogFile.State) : State n :=
  { s with
    loggers := Function.update s.loggers t rest
    fatal := if o.impl_.level_ = .FATAL then Function.update s.fatal t (some .g_flush) else s.fatal
    g_logFile := g_logFile
    written := s.written ++ [o.written t msg] }

/-- The statements of a thread do not go on behind a fatal record. -/
def step (format : Float → List Char) (s : State n) (a : Action n) : Option (State n) :=
  if s.aborted || a.statement.any fun t => (s.fatal t).isSome then none else
  match a with
  | .setLogLevel level => some { s with g_logLevel := level }
  | .setTimeZone tz => some { s with g_logTimeZone := tz }
  | .log t ctx file line m func =>
    if m.enabled s.g_logLevel then do
      let ctx := { ctx with g_logTimeZone := s.g_logTimeZone }
      let c := m.constructor func
      let (cache, impl_) ← new ctx (s.caches t) file line c
      return { s with
        caches := Function.update s.caches t cache
        loggers := Function.update s.loggers t
          (⟨impl_, constructorOps ctx cache c, s.g_logLevel⟩ :: s.loggers t) }
    else some s
  | .insert t op =>
    match s.loggers t with
    | [] => none
    | o :: rest => do
      let stream_ ← NaiveNet.insert format o.impl_.stream_ op
      return { s with
        loggers := Function.update s.loggers t
          ({ o with impl_ := { o.impl_ with stream_ := stream_ }, ops := o.ops ++ [op] } :: rest) }
  | .destroy t written checked rolled =>
    match s.loggers t with
    | [] => none
    | o :: rest => do
      let msg ← output o.impl_
      let g_logFile ← LogFile.step s.g_logFile (.append msg written checked rolled)
      return s.recorded t o rest msg g_logFile
  | .g_flush t =>
    if s.fatal t = some .g_flush then do
      let g_logFile ← LogFile.flush s.g_logFile
      return { s with
        fatal := Function.update s.fatal t (some .abort)
        g_logFile := g_logFile
        flushed := s.written }
    else none
  | .abort t => if s.fatal t = some .abort then some { s with aborted := true } else none

variable {format : Float → List Char} {s s' : State n} {a : Action n}

/-- All that a step can do. -/
inductive Effect (format : Float → List Char) (s : State n) : Action n → State n → Prop
  | setLogLevel {level} : Effect format s (.setLogLevel level) { s with g_logLevel := level }
  | setTimeZone {tz} : Effect format s (.setTimeZone tz) { s with g_logTimeZone := tz }
  | passOver {t ctx file line m func} (hm : m.enabled s.g_logLevel = false) :
      Effect format s (.log t ctx file line m func) s
  | make {t ctx file line m func cache impl_} (hm : m.enabled s.g_logLevel = true)
      (hnew : new { ctx with g_logTimeZone := s.g_logTimeZone } (s.caches t) file line
        (m.constructor func) = some (cache, impl_)) :
      Effect format s (.log t ctx file line m func)
        { s with
          caches := Function.update s.caches t cache
          loggers := Function.update s.loggers t
            (⟨impl_, constructorOps { ctx with g_logTimeZone := s.g_logTimeZone } cache
              (m.constructor func), s.g_logLevel⟩ :: s.loggers t) }
  | insert {t op o rest stream_} (hl : s.loggers t = o :: rest)
      (hs : NaiveNet.insert format o.impl_.stream_ op = some stream_) :
      Effect format s (.insert t op)
        { s with
          loggers := Function.update s.loggers t
            ({ o with impl_ := { o.impl_ with stream_ := stream_ }, ops := o.ops ++ [op] } ::
              rest) }
  | destroy {t written checked rolled o rest msg g_logFile} (hl : s.loggers t = o :: rest)
      (hfree : s.fatal t = none) (ho : output o.impl_ = some msg)
      (hfile : LogFile.step s.g_logFile (.append msg written checked rolled) = some g_logFile) :
      Effect format s (.destroy t written checked rolled) (s.recorded t o rest msg g_logFile)
  | g_flush {t g_logFile} (hf : s.fatal t = some .g_flush)
      (hfile : LogFile.flush s.g_logFile = some g_logFile) :
      Effect format s (.g_flush t)
        { s with
          fatal := Function.update s.fatal t (some .abort)
          g_logFile := g_logFile
          flushed := s.written }
  | abort {t} (hf : s.fatal t = some .abort) :
      Effect format s (.abort t) { s with aborted := true }

theorem step_effect (h : step format s a = some s') :
    s.aborted = false ∧ Effect format s a s' := by
  unfold step at h
  split_ifs at h with hstop
  obtain ⟨ha, hfree⟩ := Bool.or_eq_false_iff.mp (Bool.eq_false_of_not_eq_true hstop)
  refine ⟨ha, ?_⟩
  cases a with
  | setLogLevel level =>
    obtain rfl := Option.some.inj h
    exact .setLogLevel
  | setTimeZone tz =>
    obtain rfl := Option.some.inj h
    exact .setTimeZone
  | log t ctx file line m func =>
    cases hm : m.enabled s.g_logLevel with
    | false =>
      simp only [hm, Bool.false_eq_true, if_false, Option.some.injEq] at h
      obtain rfl := h
      exact .passOver hm
    | true =>
      simp only [hm, if_true, Option.bind_eq_bind, Option.bind_eq_some_iff] at h
      obtain ⟨⟨cache, impl_⟩, hnew, hlast⟩ := h
      obtain rfl := Option.some.inj hlast
      exact .make hm hnew
  | insert t op =>
    cases hl : s.loggers t with
    | nil => simp [hl] at h
    | cons o rest =>
      simp only [hl, Option.bind_eq_bind, Option.bind_eq_some_iff] at h
      obtain ⟨stream_, hs, hlast⟩ := h
      obtain rfl := Option.some.inj hlast
      exact .insert hl hs
  | destroy t written checked rolled =>
    cases hl : s.loggers t with
    | nil => simp [hl] at h
    | cons o rest =>
      simp only [hl, Option.bind_eq_bind, Option.bind_eq_some_iff] at h
      obtain ⟨msg, ho, g_logFile, hfile, hlast⟩ := h
      obtain rfl := Option.some.inj hlast
      exact .destroy hl (Option.isSome_eq_false_iff.mp hfree |> Option.isNone_iff_eq_none.mp)
        ho hfile
  | g_flush t =>
    obtain ⟨hf, h⟩ := Option.ite_none_right_eq_some.mp h
    obtain ⟨g_logFile, hfile, hlast⟩ := Option.bind_eq_some_iff.mp h
    obtain rfl := Option.some.inj hlast
    exact .g_flush hf hfile
  | abort t =>
    obtain ⟨hf, h⟩ := Option.ite_none_right_eq_some.mp h
    obtain rfl := Option.some.inj h
    exact .abort hf

/-- The level that a macro logs at. -/
def Macro.level_ : Macro → LogLevel
  | .LOG_TRACE => .TRACE
  | .LOG_DEBUG => .DEBUG
  | .LOG_INFO => .INFO
  | .LOG_WARN => .WARN
  | .LOG_ERROR => .ERROR
  | .LOG_FATAL => .FATAL
  | .LOG_SYSERR => .ERROR
  | .LOG_SYSFATAL => .FATAL

/-- No level above `WARN` turns a macro from `WARN` on off. -/
theorem Macro.level_of_enabled {m : Macro} {g_logLevel : LogLevel}
    (h : m.enabled g_logLevel = true) : min (level g_logLevel) (level .WARN) ≤ level m.level_ := by
  cases m <;> cases g_logLevel <;> first | contradiction | decide

section Level

variable {ctx : Context} {cache cache' : TimeCache} {file : SourceFile} {line : Int32}
  {impl_ : Impl}

theorem implNew_level {l : LogLevel} {savedErrno : Int32}
    (h : Impl.new ctx cache l savedErrno file line = some (cache', impl_)) : impl_.level_ = l := by
  simp only [Impl.new, Option.bind_eq_bind, Option.bind_eq_some_iff] at h
  obtain ⟨_, _, _, _, _, _, _, _, himpl⟩ := h
  obtain ⟨_, rfl⟩ := Prod.mk.inj (Option.some.inj himpl)
  rfl

theorem new_level {m : Macro} {func : List Char}
    (h : new ctx cache file line (m.constructor func) = some (cache', impl_)) :
    impl_.level_ = m.level_ := by
  have hfunc {l : LogLevel} {func : Option (List Char)}
      (h : new ctx cache file line (.levelFunc l func) = some (cache', impl_)) :
      impl_.level_ = l := by
    simp only [new, Option.bind_eq_bind, Option.bind_eq_some_iff] at h
    obtain ⟨⟨cache₀, impl₀⟩, himpl, _, _, _, _, hlast⟩ := h
    obtain ⟨_, rfl⟩ := Prod.mk.inj (Option.some.inj hlast)
    have hlevel := implNew_level himpl
    exact hlevel
  cases m with
  | LOG_TRACE => exact hfunc h
  | LOG_DEBUG => exact hfunc h
  | LOG_INFO | LOG_WARN | LOG_ERROR | LOG_FATAL | LOG_SYSERR | LOG_SYSFATAL =>
    exact implNew_level h

end Level

/-- The stream holds the fold of what was inserted, and the level was let through. -/
structure Live.Sound (format : Float → List Char) (o : Live) : Prop where
  length_lt : o.impl_.stream_.buffer_.length < 4000
  text_eq : o.impl_.stream_.buffer_.text = o.ops.foldl (Insertion.place format) []
  passed : min (level o.passed) (level .WARN) ≤ level o.impl_.level_

structure Written.Sound (format : Float → List Char) (w : Written n) : Prop where
  msg_eq : w.msg = w.ops.foldl (Insertion.place format) []
  passed : min (level w.passed) (level .WARN) ≤ level w.level_
  ends : ∃ ops, w.ops = ops ++ [.char '\n']

/-- The file holds the records. A fatal one is the last of its thread, which is in the
destructor since, and past `g_flush` it is among the records that were flushed. -/
structure Kept (format : Float → List Char) (s : State n) : Prop where
  filesValid : LogFile.FilesValid s.g_logFile
  appended : s.g_logFile.appended = s.written.map Written.msg
  loggers : ∀ t, ∀ o ∈ s.loggers t, o.Sound format
  written : ∀ w ∈ s.written, w.Sound format
  last : s.written.Pairwise fun w w' => w.level_ = .FATAL → w'.thread ≠ w.thread
  fatal : ∀ t, s.fatal t ≠ none ↔ ∃ w ∈ s.written, w.level_ = .FATAL ∧ w.thread = t
  flushed : s.flushed <+: s.written
  past : ∀ t, s.fatal t = some .abort → ∃ w ∈ s.flushed, w.level_ = .FATAL ∧ w.thread = t
  dead : s.aborted = true → ∃ w ∈ s.flushed, w.level_ = .FATAL

theorem kept_start (g_logLevel : LogLevel) (config : LogFile.Config) {now : ℤ} (hpos : 0 < now) :
    Kept format (start n g_logLevel config now) where
  filesValid := LogFile.filesValid_new config hpos
  appended := by
    show (LogFile.new config now).appended = []
    rw [LogFile.new, LogFile.rollFile, if_pos hpos]
    rfl
  loggers _ o h := absurd h List.not_mem_nil
  written w h := absurd h List.not_mem_nil
  last := List.Pairwise.nil
  fatal _ := iff_of_false (fun h => h rfl) (by rintro ⟨w, hw, _⟩; exact List.not_mem_nil hw)
  flushed := List.nil_prefix
  past _ h := by contradiction
  dead h := by contradiction

section Step

variable {t : Fin n} {o : Live} {rest : List Live}

theorem sound_insert (hformat : ∀ v, (format v).length ≤ 31) (ho : o.Sound format)
    {op : Insertion} {stream_ : LogStream}
    (hs : NaiveNet.insert format o.impl_.stream_ op = some stream_) :
    Live.Sound format
      { o with impl_ := { o.impl_ with stream_ := stream_ }, ops := o.ops ++ [op] } := by
  obtain ⟨stream', hs', hlt, htext⟩ := LogStream.insert_place hformat ho.length_lt op
  obtain rfl := Option.some.inj (hs.symm.trans hs')
  exact ⟨hlt, by rw [htext, ho.text_eq, List.foldl_append]; rfl, ho.passed⟩

/-- What is given to `g_output` is the fold of all insertions. -/
theorem sound_written (hformat : ∀ v, (format v).length ≤ 31) (ho : o.Sound format)
    {msg : List Char} (hmsg : output o.impl_ = some msg) :
    (o.written t msg).Sound format where
  msg_eq := by
    have houtput := (output_text format hformat ho.length_lt).1
    rw [Option.some.inj (hmsg.symm.trans houtput), ho.text_eq, ← List.foldl_append]
    rfl
  passed := ho.passed
  ends := by
    refine ⟨o.ops ++ [.cString (some " - ".toList), .append o.impl_.basename_.data_, .char ':',
      .int o.impl_.line_], ?_⟩
    rw [List.append_assoc]
    rfl

/-- One thread's loggers change. -/
theorem sound_update (hi : Kept format s) {os : List Live} (h : ∀ o ∈ os, o.Sound format)
    (t' : Fin n) : ∀ o ∈ Function.update s.loggers t os t', o.Sound format := by
  by_cases ht : t' = t
  · subst ht
    rwa [Function.update_self]
  · rw [Function.update_of_ne ht]
    exact hi.loggers t'

/-- A thread that has written nothing fatal gives a record to `g_output`. -/
theorem Kept.destroy (hi : Kept format s) (hfree : s.fatal t = none) {msg : List Char}
    (hw : (o.written t msg).Sound format) (hrest : ∀ o ∈ rest, o.Sound format)
    {written checked rolled : ℤ} {g_logFile : LogFile.State}
    (hfile : LogFile.step s.g_logFile (.append msg written checked rolled) = some g_logFile) :
    Kept format (s.recorded t o rest msg g_logFile) where
  filesValid := hi.filesValid.step hfile
  appended := by
    rw [State.recorded, LogFile.appended_step hfile, hi.appended, List.map_append,
      List.map_singleton]
    rfl
  loggers := sound_update hi hrest
  written := by
    rw [State.recorded, List.forall_mem_append, List.forall_mem_singleton]
    exact ⟨hi.written, hw⟩
  last := by
    have hquiet : ¬ ∃ w ∈ s.written, w.level_ = .FATAL ∧ w.thread = t :=
      fun hw => (hi.fatal t).mpr hw hfree
    rw [State.recorded, List.pairwise_append]
    refine ⟨hi.last, List.pairwise_singleton _ _, fun w hw w' hw' hlevel hthread => ?_⟩
    obtain rfl := List.mem_singleton.mp hw'
    exact hquiet ⟨w, hw, hlevel, hthread.symm⟩
  fatal t' := by
    have hold := hi.fatal t'
    simp only [State.recorded, List.mem_append, List.mem_singleton, or_and_right, exists_or,
      exists_eq_left, ← hold]
    show _ ↔ _ ∨ o.impl_.level_ = .FATAL ∧ t = t'
    by_cases ht : t' = t
    · subst ht
      split_ifs with hfatal <;> simp [hfatal, hfree]
    · have ht' : ¬ t = t' := fun h => ht h.symm
      split_ifs <;> simp [ht, ht']
  flushed := hi.flushed.trans (List.prefix_append _ _)
  past t' := by
    unfold State.recorded
    split_ifs with hfatal
    · by_cases ht : t' = t
      · subst ht
        simp
      · simpa [ht] using hi.past t'
    · exact hi.past t'
  dead := hi.dead

/-- All that was written is in the file. -/
theorem Kept.g_flush (hi : Kept format s) (hf : s.fatal t = some .g_flush)
    {g_logFile : LogFile.State} (hfile : LogFile.flush s.g_logFile = some g_logFile) :
    Kept format { s with
      fatal := Function.update s.fatal t (some .abort)
      g_logFile := g_logFile
      flushed := s.written } :=
  { hi with
    filesValid := hi.filesValid.step (a := .flush) hfile
    appended := by
      rw [LogFile.appended_step (a := .flush) hfile, hi.appended]
      exact List.append_nil _
    fatal := fun t' => by
      have hold := hi.fatal t'
      by_cases ht : t' = t
      · subst ht
        rw [← hold, hf]
        simp
      · rw [← hold]
        simp [ht]
    flushed := List.prefix_rfl
    past := fun t' h => by
      by_cases ht : t' = t
      · subst ht
        exact (hi.fatal t').mp (by rw [hf]; exact Option.some_ne_none _)
      · have hpast : s.fatal t' = some .abort := by simpa [ht] using h
        exact (hi.fatal t').mp (by rw [hpast]; exact Option.some_ne_none _)
    dead := fun h => by
      obtain ⟨w, hw, hlevel⟩ := hi.dead h
      exact ⟨w, hi.flushed.subset hw, hlevel⟩ }

theorem Kept.step (hformat : ∀ v, (format v).length ≤ 31) (hi : Kept format s)
    (hs : LoggingToFile.step format s a = some s') : Kept format s' := by
  obtain ⟨ha, he⟩ := step_effect hs
  cases he with
  | setLogLevel => exact { hi with }
  | setTimeZone => exact { hi with }
  | passOver hm => exact hi
  | @make t ctx file line m func cache impl_ hm hnew =>
    have hlevel := new_level hnew
    refine { hi with loggers := sound_update hi ?_ }
    rw [List.forall_mem_cons]
    refine ⟨⟨(new_stream hnew).1, new_text format hformat hnew, ?_⟩, hi.loggers t⟩
    rw [hlevel]
    exact Macro.level_of_enabled hm
  | @insert t op o rest stream_ hl hins =>
    have hall := hi.loggers t
    rw [hl, List.forall_mem_cons] at hall
    refine { hi with loggers := sound_update hi ?_ }
    rw [List.forall_mem_cons]
    exact ⟨sound_insert hformat hall.1 hins, hall.2⟩
  | @destroy t written checked rolled o rest msg g_logFile hl hfree ho hfile =>
    have hall := hi.loggers t
    rw [hl, List.forall_mem_cons] at hall
    exact hi.destroy hfree (sound_written hformat hall.1 ho) hall.2 hfile
  | g_flush hf hfile => exact hi.g_flush hf hfile
  | abort hf =>
    obtain ⟨w, hw, hlevel, _⟩ := hi.past _ hf
    exact { hi with dead := fun _ => ⟨w, hw, hlevel⟩ }

end Step

/-- A live logger can be destroyed, and then its record is written. -/
theorem Kept.exists_destroy (hformat : ∀ v, (format v).length ≤ 31) (hi : Kept format s)
    (ha : s.aborted = false) {t : Fin n} {o : Live} {rest : List Live} (hfree : s.fatal t = none)
    (hl : s.loggers t = o :: rest) (written checked rolled : ℤ) :
    ∃ msg s', LoggingToFile.step format s (.destroy t written checked rolled) = some s' ∧
      s'.written = s.written ++ [o.written t msg] ∧
      s'.loggers = Function.update s.loggers t rest ∧
      s'.fatal = (if o.impl_.level_ = .FATAL then Function.update s.fatal t (some .g_flush)
        else s.fatal) ∧ s'.aborted = false := by
  have ho := hi.loggers t o (by rw [hl]; exact List.mem_cons_self)
  obtain ⟨msg, houtput⟩ : ∃ msg, output o.impl_ = some msg :=
    ⟨_, (output_text format hformat ho.length_lt).1⟩
  obtain ⟨g_logFile, hfile⟩ := hi.filesValid.exists_step (.append msg written checked rolled)
  refine ⟨msg, s.recorded t o rest msg g_logFile, ?_, rfl, rfl, rfl, ha⟩
  simp [LoggingToFile.step, Action.statement, ha, hfree, hl, houtput, hfile]

/-- A logger in its lifetime can insert and can be destroyed. -/
theorem Kept.exists_step (hformat : ∀ v, (format v).length ≤ 31) (hi : Kept format s)
    (ha : s.aborted = false) {t : Fin n} (hfree : s.fatal t = none) (ht : s.loggers t ≠ []) :
    (∀ op, ∃ s', LoggingToFile.step format s (.insert t op) = some s') ∧
      ∀ written checked rolled, ∃ s',
        LoggingToFile.step format s (.destroy t written checked rolled) = some s' := by
  obtain ⟨o, rest, hl⟩ := List.exists_cons_of_ne_nil ht
  have ho := hi.loggers t o (by rw [hl]; exact List.mem_cons_self)
  constructor
  · intro op
    obtain ⟨stream_, hs, _⟩ := LogStream.insert_place hformat ho.length_lt op
    simp [LoggingToFile.step, Action.statement, ha, hfree, hl, hs]
  · intro written checked rolled
    obtain ⟨_, s', hs', _⟩ := hi.exists_destroy hformat ha hfree hl written checked rolled
    exact ⟨s', hs'⟩

theorem Kept.exists_g_flush (hi : Kept format s) (ha : s.aborted = false) {t : Fin n}
    (hf : s.fatal t = some .g_flush) :
    ∃ s', LoggingToFile.step format s (.g_flush t) = some s' := by
  obtain ⟨g_logFile, hfile⟩ := hi.filesValid.exists_step .flush
  have hfile : LogFile.flush s.g_logFile = some g_logFile := hfile
  simp [LoggingToFile.step, Action.statement, ha, hf, hfile]

/-- Behind a fatal record nothing keeps its thread from ending the process. -/
theorem Kept.exists_abort (hi : Kept format s) (ha : s.aborted = false) {t : Fin n}
    (hf : s.fatal t ≠ none) :
    (∃ s', LoggingToFile.step format s (.g_flush t) = some s') ∨
      ∃ s', LoggingToFile.step format s (.abort t) = some s' ∧ s'.aborted = true := by
  obtain ⟨next, hnext⟩ := Option.ne_none_iff_exists'.mp hf
  cases next with
  | g_flush => exact Or.inl (hi.exists_g_flush ha hnext)
  | abort =>
    right
    simp [LoggingToFile.step, Action.statement, ha, hnext]

/-- What a program that logs has come to. -/
def Reachable (format : Float → List Char) (g_logLevel : LogLevel) (config : LogFile.Config)
    (now : ℤ) (s : State n) : Prop :=
  Runs.Reaches (step format) (start n g_logLevel config now) s

theorem Reachable.kept (hformat : ∀ v, (format v).length ≤ 31) {g_logLevel : LogLevel}
    {config : LogFile.Config} {now : ℤ} (hpos : 0 < now)
    (h : Reachable format g_logLevel config now s) : Kept format s :=
  Runs.Reaches.invariant (fun _ _ _ hi hs => hi.step hformat hs) h
    (kept_start g_logLevel config hpos)

/-- The thread whose logger is destroyed. -/
def Action.destroyed : Action n → List (Fin n)
  | .destroy t _ _ _ => [t]
  | _ => []

theorem thread_step (hs : step format s a = some s') :
    s'.written.map Written.thread = s.written.map Written.thread ++ a.destroyed := by
  cases (step_effect hs).2 with
  | destroy => exact List.map_append
  | _ => exact (List.append_nil _).symm

/-- Every destructor writes one record. -/
theorem thread_run {as : List (Action n)} (h : Runs.run (step format) s as = some s') :
    s'.written.map Written.thread =
      s.written.map Written.thread ++ as.flatMap Action.destroyed := by
  rw [← Runs.trace_eq_flatMap Action.destroyed h]
  exact Runs.eq_append_trace (fun _ _ _ => thread_step) h

/-- What a step inserts for `t`: the constructor of a macro that is let through, an operand,
or the destructor. -/
def inserts (t : Fin n) (s : State n) (a : Action n) (s' : State n) : List Insertion :=
  match a with
  | .log u ctx _ _ m func =>
    if u = t ∧ m.enabled s.g_logLevel = true then
      constructorOps { ctx with g_logTimeZone := s.g_logTimeZone } (s'.caches t)
        (m.constructor func)
    else []
  | .insert u op => if u = t then [op] else []
  | .destroy u _ _ _ =>
    if u = t then (s.loggers t).head?.toList.flatMap fun o =>
      finishOps o.impl_.basename_ o.impl_.line_
    else []
  | _ => []

/-- What went into the records and the live loggers of `t`. -/
def State.inserted (s : State n) (t : Fin n) : Multiset Insertion :=
  (s.written.filter fun w => w.thread = t).flatMap Written.ops +
    ((s.loggers t).flatMap Live.ops : Multiset Insertion)

theorem inserted_step (hs : step format s a = some s') (t : Fin n) :
    s'.inserted t = s.inserted t + (inserts t s a s' : Multiset Insertion) := by
  cases (step_effect hs).2 with
  | @make u ctx file line m func cache impl_ hm hnew =>
    by_cases hu : u = t
    · subst hu
      simp only [State.inserted, inserts, hm, and_self, if_true, Function.update_self,
        List.flatMap_cons, ← Multiset.coe_add]
      abel
    · simp [State.inserted, inserts, hu, Function.update_of_ne (Ne.symm hu)]
  | @insert u op o rest stream_ hl hstream =>
    by_cases hu : u = t
    · subst hu
      simp only [State.inserted, inserts, hl, if_true, Function.update_self, List.flatMap_cons,
        ← Multiset.coe_add]
      abel
    · simp [State.inserted, inserts, hu, Function.update_of_ne (Ne.symm hu)]
  | @destroy u written checked rolled o rest msg g_logFile hl hfree ho hfile =>
    by_cases hu : u = t
    · subst hu
      simp only [State.inserted, inserts, State.recorded, Live.written, hl, if_true,
        Function.update_self, List.flatMap_cons, List.filter_append, List.filter_cons,
        List.filter_nil, decide_true, List.flatMap_append, List.flatMap_nil, List.append_nil,
        List.head?_cons, Option.toList_some, ← Multiset.coe_add]
      abel
    · simp [State.inserted, inserts, State.recorded, Live.written, hu,
        Function.update_of_ne (Ne.symm hu)]
  | passOver hm => simp [State.inserted, inserts, hm]
  | _ => simp [State.inserted, inserts]

theorem inserted_run {as : List (Action n)} {g_logLevel : LogLevel} {config : LogFile.Config}
    {now : ℤ} (h : Runs.run (step format) (start n g_logLevel config now) as = some s)
    (t : Fin n) : s.inserted t =
      (Runs.trace (step format) (inserts t) (start n g_logLevel config now) as :
        Multiset Insertion) := by
  have hrun := Runs.eq_add_trace Multiset.ofList (State.inserted · t) rfl
    (fun ops ops' => (Multiset.coe_add ops ops').symm) (fun _ _ _ hs => inserted_step hs t) h
  exact hrun.trans (zero_add _)

/-- Where every write to a file is complete: however the statements of the threads interleave
and nest, the files hold one record for every logger destroyed, in the order of the calls of
`g_output`. A record is the fold of the insertions into its own stream, and its level was let
through by the `g_logLevel` that its macro saw, which has no say from `WARN` on. What is
inserted for a thread is in one of its records or live loggers, once. A thread writes nothing
after a fatal record, and the process ends only when one was flushed with all that was written
before it. Until then every live logger of a thread without a fatal record can insert and can
be destroyed, and a thread with one can flush or abort. -/
theorem file_holds_records (format : Float → List Char) (hformat : ∀ v, (format v).length ≤ 31)
    {n : ℕ} {g_logLevel : LogLevel} {config : LogFile.Config} {now : ℤ} (hpos : 0 < now)
    {as : List (Action n)} {s : State n}
    (hrun : Runs.run (step format) (start n g_logLevel config now) as = some s) :
    s.g_logFile.files.flatMap AppendFile.messages = s.written.map Written.msg ∧
    s.written.map Written.thread = as.flatMap Action.destroyed ∧
    (∀ w ∈ s.written, w.msg = w.ops.foldl (Insertion.place format) [] ∧
      min (level w.passed) (level .WARN) ≤ level w.level_) ∧
    (∀ t, s.inserted t =
      (Runs.trace (step format) (inserts t) (start n g_logLevel config now) as :
        Multiset Insertion)) ∧
    (s.written.Pairwise fun w w' => w.level_ = .FATAL → w'.thread ≠ w.thread) ∧
    s.flushed <+: s.written ∧
    (s.aborted = true → ∃ w ∈ s.flushed, w.level_ = .FATAL) ∧
    (s.aborted = false → ∀ t,
      ((∃ w ∈ s.written, w.level_ = .FATAL ∧ w.thread = t) →
        (∃ s', step format s (.g_flush t) = some s') ∨
        ∃ s', step format s (.abort t) = some s' ∧ s'.aborted = true) ∧
      ((¬ ∃ w ∈ s.written, w.level_ = .FATAL ∧ w.thread = t) → s.loggers t ≠ [] →
        (∀ op, ∃ s', step format s (.insert t op) = some s') ∧
        ∀ written checked rolled, ∃ s',
          step format s (.destroy t written checked rolled) = some s')) := by
  have hreach : Reachable format g_logLevel config now s := ⟨as, hrun⟩
  have hi := hreach.kept hformat hpos
  refine ⟨hi.filesValid.2.conserved.trans hi.appended, thread_run hrun, fun w hw => ?_,
    inserted_run hrun, hi.last, hi.flushed, hi.dead, fun ha t => ⟨fun hw => ?_, fun hw ht => ?_⟩⟩
  · exact ⟨(hi.written w hw).msg_eq, (hi.written w hw).passed⟩
  · exact hi.exists_abort ha ((hi.fatal t).mpr hw)
  · exact hi.exists_step hformat ha (not_not.mp fun hf => hw ((hi.fatal t).mp hf)) ht

/-! ### Lines -/

/-- The lines of a text are read back from it. -/
theorem splitOn_lines {lines : List (List Char)} (h : ∀ line ∈ lines, '\n' ∉ line) :
    (lines.flatMap (· ++ ['\n'])).splitOn '\n' = lines ++ [[]] := by
  induction lines with
  | nil => rfl
  | cons line lines ih =>
    obtain ⟨hline, hlines⟩ := List.forall_mem_cons.mp h
    rw [List.flatMap_cons, List.append_assoc, List.singleton_append,
      List.splitOn_append_cons_self_of_not_mem hline, ih hlines, List.cons_append]

/-- Nothing was left out, and only the logger itself inserted a newline. -/
def Written.OneLine (format : Float → List Char) (w : Written n) : Prop :=
  Insertion.Fits format 0 w.ops ∧
    ∀ op ∈ w.ops.dropLast, op.isReset = false ∧ '\n' ∉ op.rendering format

instance (format : Float → List Char) (w : Written n) : Decidable (w.OneLine format) :=
  inferInstanceAs (Decidable (_ ∧ _))

theorem Written.Sound.line {w : Written n} (h : w.Sound format) (hline : w.OneLine format) :
    w.msg = Insertion.whole format w.ops.dropLast ++ ['\n'] ∧
      '\n' ∉ Insertion.whole format w.ops.dropLast := by
  obtain ⟨hfits, hops⟩ := hline
  obtain ⟨ops, hends⟩ := h.ends
  rw [hends, List.dropLast_concat] at hops ⊢
  have hkept : ∀ op ∈ ops ++ [.char '\n'], op.isReset = false := by
    rw [List.forall_mem_append, List.forall_mem_singleton]
    exact ⟨fun op hop => (hops op hop).1, rfl⟩
  constructor
  · rw [hends] at hfits
    have hmsg := (Insertion.foldl_place_eq_iff format hkept []).mpr hfits
    rw [h.msg_eq, hends, hmsg, Insertion.whole, List.flatMap_append]
    rfl
  · intro hmem
    obtain ⟨op, hop, hnewline⟩ := List.mem_flatMap.mp hmem
    exact (hops op hop).2 hnewline

/-- Where every write to a file is complete, unless a caller inserts a newline or more than
fits, the lines of the files, read one file after the other, are the records. -/
theorem lines_are_records (format : Float → List Char) (hformat : ∀ v, (format v).length ≤ 31)
    {n : ℕ} {g_logLevel : LogLevel} {config : LogFile.Config} {now : ℤ} (hpos : 0 < now)
    {s : State n} (h : Reachable format g_logLevel config now s)
    (hlines : ∀ w ∈ s.written, w.OneLine format) :
    (s.g_logFile.files.flatMap AppendFile.text).splitOn '\n' =
      s.written.map (fun w => Insertion.whole format w.ops.dropLast) ++ [[]] := by
  have hi := h.kept hformat hpos
  have htext : s.g_logFile.files.flatMap AppendFile.text =
      (s.written.map fun w => Insertion.whole format w.ops.dropLast).flatMap (· ++ ['\n']) := by
    have hmessages := hi.filesValid.2.conserved.trans hi.appended
    calc s.g_logFile.files.flatMap AppendFile.text
        = (s.g_logFile.files.flatMap AppendFile.messages).flatten := by
          simp only [List.flatMap, List.flatten_flatten, List.map_map]
          rfl
      _ = (s.written.map Written.msg).flatten := by rw [hmessages]
      _ = s.written.flatMap fun w => Insertion.whole format w.ops.dropLast ++ ['\n'] := by
          rw [← List.flatMap_def]
          apply List.flatMap_congr
          intro w hw
          exact ((hi.written w hw).line (hlines w hw)).1
      _ = _ := by rw [List.flatMap_map]
  rw [htext]
  apply splitOn_lines
  intro line hline
  obtain ⟨w, hw, rfl⟩ := List.mem_map.mp hline
  exact ((hi.written w hw).line (hlines w hw)).2

/-- The first second of the epoch, in a process without a time zone. -/
def firstContext : Context := { utcContext with now := 1000000 }

/-- A thread comes to a fatal statement while that of another is under way. -/
def twoStatements : List (Action 2) :=
  [.log 0 firstContext (.ofArray "a.cc".toList) 7 .LOG_WARN "main".toList,
    .insert 0 (.cString (some "n = ".toList)),
    .log 1 firstContext (.ofArray "b.cc".toList) 8 .LOG_DEBUG "run".toList,
    .log 1 firstContext (.ofArray "b.cc".toList) 9 .LOG_FATAL "run".toList]

def smallFile : LogFile.Config := ⟨['b'], 200000, 3, 1024, ['h'], 7⟩

/-- No test prints a floating point number. -/
def noFormat : Float → List Char := fun _ => []

theorem noFormat_length (v : Float) : (noFormat v).length ≤ 31 := Nat.zero_le 31

/-- The debug record is passed over, and the fatal one written before the other. -/
def twoRecords : List (Action 2) :=
  twoStatements ++ [.destroy 1 1 1 1, .destroy 0 1 1 1, .g_flush 1, .abort 1]

theorem exists_twoRecords : ∃ s : State 2,
    Runs.run (step noFormat) (start 2 (initLogLevel false false) smallFile 1) twoRecords = some s ∧
      s.aborted = true ∧ s.written.map Written.level_ = [.FATAL, .WARN] ∧
      ∀ w ∈ s.written, w.OneLine noFormat := by
  obtain ⟨s₀, h₀, hs₀⟩ := Runs.exists_of_any (step noFormat)
    (start 2 (initLogLevel false false) smallFile 1) twoStatements
    (fun s => s.aborted = false ∧ s.written.length = 0 ∧ s.fatal 0 = none ∧ s.fatal 1 = none ∧
      ((s.loggers 0).map fun o => o.impl_.level_) = [.WARN] ∧
      ((s.loggers 1).map fun o => o.impl_.level_) = [.FATAL] ∧
      ∀ t : Fin 2, ∀ o ∈ s.loggers t, Written.OneLine noFormat (o.written t []))
    (by decide)
  obtain ⟨ha, hnone, hfree, hfree', hwarn, hfatal, hline⟩ := of_decide_eq_true hs₀
  obtain ⟨o, hl, ho⟩ := List.map_eq_singleton_iff.mp hwarn
  obtain ⟨o', hl', ho'⟩ := List.map_eq_singleton_iff.mp hfatal
  have hi₀ := Reachable.kept noFormat_length (by decide) ⟨_, h₀⟩
  obtain ⟨msg', s₁, h₁, hwritten₁, hloggers₁, hfatal₁, ha₁⟩ :=
    hi₀.exists_destroy noFormat_length ha hfree' hl' 1 1 1
  have hi₁ := hi₀.step noFormat_length h₁
  rw [if_pos ho'] at hfatal₁
  obtain ⟨msg, s₂, h₂, hwritten₂, _, hfatal₂, ha₂⟩ := hi₁.exists_destroy (t := 0) noFormat_length
    ha₁ (by rw [hfatal₁]; exact hfree) (by rw [hloggers₁]; exact hl) 1 1 1
  have hi₂ := hi₁.step noFormat_length h₂
  rw [if_neg (by rw [ho]; decide), hfatal₁] at hfatal₂
  have hpending : s₂.fatal 1 = some .g_flush := by rw [hfatal₂]; rfl
  obtain ⟨s₃, h₃⟩ := hi₂.exists_g_flush ha₂ hpending
  have hwritten : s₂.written = [o'.written 1 msg', o.written 0 msg] := by
    rw [hwritten₂, hwritten₁, List.length_eq_zero_iff.mp hnone]
    rfl
  refine ⟨{ s₃ with aborted := true }, ?_, rfl, ?_, ?_⟩
  · rw [twoRecords, Runs.run_append, h₀]
    simp only [Option.bind_some, Runs.run_cons, h₁, h₂, h₃]
    cases (step_effect h₃).2
    simp [step, Action.statement, ha₂]
  · cases (step_effect h₃).2
    show s₂.written.map Written.level_ = _
    rw [hwritten]
    exact congrArg₂ (fun l l' => [l, l']) ho' ho
  · cases (step_effect h₃).2
    show ∀ w ∈ s₂.written, _
    rw [hwritten, List.forall_mem_cons, List.forall_mem_singleton]
    exact ⟨hline 1 o' (by rw [hl']; exact List.mem_cons_self),
      hline 0 o (by rw [hl]; exact List.mem_cons_self)⟩

theorem file_holds_records_two : ∃ s : State 2,
    Runs.run (step noFormat) (start 2 (initLogLevel false false) smallFile 1) twoRecords = some s ∧
      s.aborted = true ∧ s.written.map Written.level_ = [.FATAL, .WARN] ∧
      s.written.map Written.thread = [1, 0] ∧ (∃ w ∈ s.flushed, w.level_ = .FATAL) ∧
      s.g_logFile.files.flatMap AppendFile.messages = s.written.map Written.msg := by
  obtain ⟨s, hrun, ha, hlevels, _⟩ := exists_twoRecords
  obtain ⟨hfiles, hthreads, _, _, _, _, hflushed, _⟩ :=
    file_holds_records noFormat noFormat_length (by decide) hrun
  exact ⟨s, hrun, ha, hlevels, hthreads, hflushed ha, hfiles⟩

theorem lines_are_records_two : ∃ s : State 2,
    Runs.run (step noFormat) (start 2 (initLogLevel false false) smallFile 1) twoRecords = some s ∧
      ((s.g_logFile.files.flatMap AppendFile.text).splitOn '\n').length = 3 := by
  obtain ⟨s, hrun, _, hlevels, hlines⟩ := exists_twoRecords
  have hread := lines_are_records noFormat noFormat_length (by decide) ⟨_, hrun⟩ hlines
  have htwo := congrArg List.length hlevels
  rw [List.length_map] at htwo
  refine ⟨s, hrun, ?_⟩
  rw [hread, List.length_append, List.length_map, htwo]
  rfl

end NaiveNet.LoggingToFile
