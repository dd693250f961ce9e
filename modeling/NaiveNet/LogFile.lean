import NaiveNet.Numerals
import NaiveNet.Runs
import NaiveNet.UtcTime

/-!
# The rolling log file

`LogFile` as its caller sees it, one call after the other (with a mutex the calls of
several threads come one after the other too). Every reading of the clock is part of
the action, so the clock may do anything. `none` is a call without a file.

`AppendFile` stores all it is given. What a file was opened and written at, the files
closed, the messages, the flushes and the last instant are history that no step reads.
-/
namespace NaiveNet

structure AppendFile where
  filename : List Char
  writtenBytes_ : ℕ
  /-- The reading of the clock that gave the name. -/
  opened : ℤ
  /-- What was appended, each with the clock at that time. -/
  lines : List (ℤ × List Char)

namespace AppendFile

def append (f : AppendFile) (clock : ℤ) (logline : List Char) : AppendFile :=
  { f with
    writtenBytes_ := f.writtenBytes_ + logline.length
    lines := f.lines ++ [(clock, logline)] }

def messages (f : AppendFile) : List (List Char) := f.lines.map Prod.snd

/-- What is in the file. -/
def text (f : AppendFile) : List Char := f.messages.flatten

end AppendFile

namespace LogFile

/-- What does not change. -/
structure Config where
  basename_ : List Char
  rollSize_ : ℕ
  flushInterval_ : ℤ
  checkEveryN_ : ℤ
  hostname : List Char
  pid : ℤ

def kRollPerSeconds_ : ℤ := 60 * 60 * 24

/-- `strftime` of `".%Y%m%d-%H%M%S."` -/
def timebuf (tm : Tm) : List Char :=
  ['.'] ++ decimal (tm.tm_year + 1900) ++ (zeroFilled 2 (tm.tm_mon + 1) ++
    zeroFilled 2 tm.tm_mday ++ ['-'] ++ zeroFilled 2 tm.tm_hour ++ zeroFilled 2 tm.tm_min ++
    zeroFilled 2 tm.tm_sec ++ ['.'])

def getLogFileName (config : Config) (now : ℤ) : List Char :=
  config.basename_ ++ timebuf (civil now) ++ config.hostname ++ (['.'] ++ decimal config.pid) ++
    ".log".toList

structure State where
  config : Config
  count_ : ℤ
  startOfPeriod_ : ℤ
  lastRoll_ : ℤ
  lastFlush_ : ℤ
  file_ : Option AppendFile
  closed : List AppendFile
  appended : List (List Char)
  flushes : ℕ
  clock : ℤ

/-- The start of the UTC day of a reading. -/
def period (now : ℤ) : ℤ := now.tdiv kRollPerSeconds_ * kRollPerSeconds_

/-- The branch of `rollFile` that opens a file. -/
def State.openFile (s : State) (now : ℤ) : State :=
  { s with
    lastRoll_ := now
    lastFlush_ := now
    startOfPeriod_ := period now
    closed := s.closed ++ s.file_.toList
    file_ := some ⟨getLogFileName s.config now, 0, now, []⟩ }

def rollFile (s : State) (now : ℤ) : Bool × State :=
  if s.lastRoll_ < now then (true, s.openFile now) else (false, s)

/-- The constructor; its `rollFile` reads `now`. -/
def new (config : Config) (now : ℤ) : State :=
  (rollFile ⟨config, 0, 0, 0, 0, none, [], [], 0, now⟩ now).2

/-- `file_->append(logline, len)` -/
def State.write (s : State) (file_ : AppendFile) (clock : ℤ) (logline : List Char) : State :=
  { s with file_ := some (file_.append clock logline), appended := s.appended ++ [logline] }

def flush (s : State) : Option State :=
  s.file_.map fun _ => { s with flushes := s.flushes + 1 }

/-- The clock is at `written` when the message is, `append_unlocked` reads `checked` and
`rollFile` reads `rolled`, where they do. -/
def append_unlocked (s : State) (logline : List Char) (written checked rolled : ℤ) :
    Option State := do
  let file_ ← s.file_
  let s := s.write file_ written logline
  if s.config.rollSize_ < (file_.append written logline).writtenBytes_ then
    return (rollFile s rolled).2
  else
    let s := { s with count_ := s.count_ + 1 }
    if s.config.checkEveryN_ ≤ s.count_ then
      let s := { s with count_ := 0 }
      if period checked ≠ s.startOfPeriod_ then
        return (rollFile s rolled).2
      else if s.config.flushInterval_ < checked - s.lastFlush_ then
        flush { s with lastFlush_ := checked }
      else
        return s
    else
      return s

inductive Action
  | append (logline : List Char) (written checked rolled : ℤ)
  | rollFile (now : ℤ)
  | flush
  deriving DecidableEq

def step (s : State) : Action → Option State
  | .append logline written checked rolled =>
    (append_unlocked s logline written checked rolled).map fun s => { s with clock := rolled }
  | .rollFile now => some { (rollFile s now).2 with clock := now }
  | .flush => flush s

/-- The files in the order in which they were opened. -/
def State.files (s : State) : List AppendFile := s.closed ++ s.file_.toList

/-- All that a step can do, branch by branch. -/
inductive Effect (s : State) : Action → State → Prop
  | sizeRoll {logline written checked rolled f} (hf : s.file_ = some f)
      (hsize : s.config.rollSize_ < f.writtenBytes_ + logline.length)
      (hr : s.lastRoll_ < rolled) :
      Effect s (.append logline written checked rolled)
        { (s.write f written logline).openFile rolled with clock := rolled }
  | sizeRefused {logline written checked rolled f} (hf : s.file_ = some f)
      (hsize : s.config.rollSize_ < f.writtenBytes_ + logline.length)
      (hr : rolled ≤ s.lastRoll_) :
      Effect s (.append logline written checked rolled)
        { s.write f written logline with clock := rolled }
  | counted {logline written checked rolled f} (hf : s.file_ = some f)
      (hsize : f.writtenBytes_ + logline.length ≤ s.config.rollSize_)
      (hc : s.count_ + 1 < s.config.checkEveryN_) :
      Effect s (.append logline written checked rolled)
        { s.write f written logline with count_ := s.count_ + 1, clock := rolled }
  | dayRoll {logline written checked rolled f} (hf : s.file_ = some f)
      (hsize : f.writtenBytes_ + logline.length ≤ s.config.rollSize_)
      (hc : s.config.checkEveryN_ ≤ s.count_ + 1) (hp : period checked ≠ s.startOfPeriod_)
      (hr : s.lastRoll_ < rolled) :
      Effect s (.append logline written checked rolled)
        { State.openFile { s.write f written logline with count_ := 0 } rolled with
          clock := rolled }
  | dayRefused {logline written checked rolled f} (hf : s.file_ = some f)
      (hsize : f.writtenBytes_ + logline.length ≤ s.config.rollSize_)
      (hc : s.config.checkEveryN_ ≤ s.count_ + 1) (hp : period checked ≠ s.startOfPeriod_)
      (hr : rolled ≤ s.lastRoll_) :
      Effect s (.append logline written checked rolled)
        { s.write f written logline with count_ := 0, clock := rolled }
  | flushed {logline written checked rolled f} (hf : s.file_ = some f)
      (hsize : f.writtenBytes_ + logline.length ≤ s.config.rollSize_)
      (hc : s.config.checkEveryN_ ≤ s.count_ + 1) (hp : period checked = s.startOfPeriod_)
      (hi : s.config.flushInterval_ < checked - s.lastFlush_) :
      Effect s (.append logline written checked rolled)
        { s.write f written logline with
          count_ := 0
          lastFlush_ := checked
          flushes := s.flushes + 1
          clock := rolled }
  | idle {logline written checked rolled f} (hf : s.file_ = some f)
      (hsize : f.writtenBytes_ + logline.length ≤ s.config.rollSize_)
      (hc : s.config.checkEveryN_ ≤ s.count_ + 1) (hp : period checked = s.startOfPeriod_)
      (hi : checked - s.lastFlush_ ≤ s.config.flushInterval_) :
      Effect s (.append logline written checked rolled)
        { s.write f written logline with count_ := 0, clock := rolled }
  | rollFile {now} (hr : s.lastRoll_ < now) :
      Effect s (.rollFile now) { s.openFile now with clock := now }
  | rollRefused {now} (hr : now ≤ s.lastRoll_) : Effect s (.rollFile now) { s with clock := now }
  | flush {f} (hf : s.file_ = some f) : Effect s .flush { s with flushes := s.flushes + 1 }

variable {s s' : State} {a : Action}

theorem append_effect {logline : List Char} {written checked rolled : ℤ}
    (h : step s (.append logline written checked rolled) = some s') :
    Effect s (.append logline written checked rolled) s' := by
  obtain ⟨t, ht, rfl⟩ := Option.map_eq_some_iff.mp h
  unfold append_unlocked at ht
  cases hf : s.file_ with
  | none => simp [hf] at ht
  | some f =>
    simp only [hf, Option.bind_eq_bind, Option.bind_some] at ht
    split_ifs at ht with hsize hc hp hi
    · obtain rfl := Option.some.inj ht
      unfold rollFile
      split_ifs with hr
      · exact .sizeRoll hf hsize hr
      · exact .sizeRefused hf hsize (not_lt.mp hr)
    · obtain rfl := Option.some.inj ht
      unfold rollFile
      split_ifs with hr
      · exact .dayRoll hf (not_lt.mp hsize) hc hp hr
      · exact .dayRefused hf (not_lt.mp hsize) hc hp (not_lt.mp hr)
    · obtain rfl := Option.some.inj ht
      exact .flushed hf (not_lt.mp hsize) hc (not_not.mp hp) hi
    · obtain rfl := Option.some.inj ht
      exact .idle hf (not_lt.mp hsize) hc (not_not.mp hp) (not_lt.mp hi)
    · obtain rfl := Option.some.inj ht
      exact .counted hf (not_lt.mp hsize) (not_le.mp hc)

theorem step_effect (h : step s a = some s') : Effect s a s' := by
  cases a with
  | append logline written checked rolled => exact append_effect h
  | rollFile now =>
    obtain rfl := Option.some.inj h
    unfold rollFile
    split_ifs with hr
    · exact .rollFile hr
    · exact .rollRefused (not_lt.mp hr)
  | flush =>
    obtain ⟨f, hf, rfl⟩ := Option.map_eq_some_iff.mp h
    exact .flush hf

end LogFile

end NaiveNet
