import Mathlib.Data.List.TakeWhile
import NaiveNet.LocalTime
import NaiveNet.LogStream
import NaiveNet.Numerals

/-!
# Loggers

A `Logger` lives for one record: its constructor writes the header into a fresh
stream, the caller inserts, and the destructor appends the place in the source and
passes the text to `g_output`. The time text of the header is kept for each thread
together with the second it was made for. `none` is a failed assertion (or a store
outside the stream's buffer). `gmtime_r` is the calendar's broken-down time.
-/
namespace NaiveNet.Logger

def kMicroSecondsPerSecond : ℤ := 1000 * 1000

inductive LogLevel
  | TRACE
  | DEBUG
  | INFO
  | WARN
  | ERROR
  | FATAL
  deriving DecidableEq, Repr

def LogLevelName : LogLevel → List Char
  | .TRACE => "TRACE ".toList
  | .DEBUG => "DEBUG ".toList
  | .INFO => "INFO  ".toList
  | .WARN => "WARN  ".toList
  | .ERROR => "ERROR ".toList
  | .FATAL => "FATAL ".toList

/-- The position of the last `c` in a C string. -/
def strrchr (str : List Char) (c : Char) : Option ℕ :=
  let reversed := (LogStream.cStr str).reverse
  if c ∈ reversed then some (reversed.length - 1 - reversed.idxOf c) else none

/-- `data_` is the `size_` characters that the source's `data_` points to. -/
structure SourceFile where
  data_ : List Char

/-- From the `N - 1` characters of a string literal. -/
def SourceFile.ofArray (arr : List Char) : SourceFile :=
  match strrchr arr '/' with
  | some slash => ⟨arr.drop (slash + 1)⟩
  | none => ⟨arr⟩

/-- `explicit SourceFile(const char* filename)` -/
def SourceFile.ofFilename (filename : List Char) : SourceFile :=
  match strrchr filename '/' with
  | some slash => ⟨LogStream.cStr (filename.drop (slash + 1))⟩
  | none => ⟨LogStream.cStr filename⟩

/-- The thread's `t_time` and `t_lastSecond`. -/
structure TimeCache where
  t_time : List Char
  t_lastSecond : ℤ
  deriving DecidableEq

/-- Thread-local storage starts as zeros. -/
def TimeCache.zero : TimeCache := ⟨[], 0⟩

/-- What a logger finds when it is made. -/
structure Context where
  g_logTimeZone : TimeZone
  /-- `Timestamp::now()`, in microseconds. -/
  now : ℤ
  tid : ℤ
  errno : Int32
  strerror_tl : Int32 → List Char
  /-- What the stream's memory happens to hold. -/
  memory : CArray Char kSmallBuffer

/-- `s << T(str, len)` with the assertion of `T`. -/
def insertT (s : LogStream) (str : List Char) (len : ℕ) : Option LogStream :=
  if str.length = len then s.append str else none

/-- `"%4d%02d%02d %02d:%02d:%02d"` -/
def timeText (tm_time : Tm) : List Char :=
  blankFilled 4 (tm_time.tm_year + 1900) ++ zeroFilled 2 (tm_time.tm_mon + 1) ++
    zeroFilled 2 tm_time.tm_mday ++ [' '] ++ zeroFilled 2 tm_time.tm_hour ++ [':'] ++
    zeroFilled 2 tm_time.tm_min ++ [':'] ++ zeroFilled 2 tm_time.tm_sec

/-- The broken-down time that `formatTime` prints. -/
def localTm (g_logTimeZone : TimeZone) (seconds : ℤ) : Option Tm :=
  if g_logTimeZone.valid then g_logTimeZone.toLocalTime TimeZone.civilLibc seconds
  else some (civil seconds)

/-- `Fmt us(".%06d ", microseconds)`, or with a `Z` for UTC. -/
def microText (valid : Bool) (microseconds : ℤ) : List Char :=
  ['.'] ++ zeroFilled 6 microseconds ++ if valid then [' '] else ['Z', ' ']

/-- The first `if` of `formatTime`: the text is made anew only where the second differs
from the last one. -/
def updateTime (g_logTimeZone : TimeZone) (cache : TimeCache) (seconds : ℤ) :
    Option TimeCache :=
  if seconds ≠ cache.t_lastSecond then do
    let tm_time ← localTm g_logTimeZone seconds
    if (timeText tm_time).length = 17 then some ⟨timeText tm_time, seconds⟩ else none
  else some cache

def formatTime (g_logTimeZone : TimeZone) (cache : TimeCache) (time_ : ℤ) (stream_ : LogStream) :
    Option (TimeCache × LogStream) := do
  let seconds := time_.tdiv kMicroSecondsPerSecond
  let microseconds := time_.tmod kMicroSecondsPerSecond
  let cache ← updateTime g_logTimeZone cache seconds
  let us := microText g_logTimeZone.valid microseconds
  let stream_ ← insertT stream_ cache.t_time 17
  let stream_ ← insertT stream_ us (if g_logTimeZone.valid then 8 else 9)
  return (cache, stream_)

structure Impl where
  time_ : ℤ
  stream_ : LogStream
  level_ : LogLevel
  line_ : Int32
  basename_ : SourceFile

/-- The last `if` of the constructor of `Impl`. -/
def insertErrno (ctx : Context) (stream_ : LogStream) (savedErrno : Int32) : Option LogStream :=
  if savedErrno ≠ 0 then do
    let stream_ ← stream_.insertCString (some (ctx.strerror_tl savedErrno))
    let stream_ ← stream_.insertCString (some " (errno=".toList)
    let stream_ ← stream_.insertInt savedErrno
    stream_.insertCString (some ") ".toList)
  else some stream_

def Impl.new (ctx : Context) (cache : TimeCache) (level : LogLevel) (savedErrno : Int32)
    (file : SourceFile) (line : Int32) : Option (TimeCache × Impl) := do
  let (cache, stream_) ← formatTime ctx.g_logTimeZone cache ctx.now (.new ctx.memory)
  let tidString := blankFilled 5 ctx.tid ++ [' ']
  let stream_ ← insertT stream_ tidString tidString.length
  let stream_ ← insertT stream_ (LogLevelName level) 6
  let stream_ ← insertErrno ctx stream_ savedErrno
  return (cache, ⟨ctx.now, stream_, level, line, file⟩)

/-- `operator<<(LogStream&, const Logger::SourceFile&)` -/
def insertSourceFile (s : LogStream) (v : SourceFile) : Option LogStream := s.append v.data_

/-- `stream_ << " - " << basename_ << ':' << line_ << '\n'` -/
def Impl.finish (impl : Impl) : Option Impl := do
  let stream_ ← impl.stream_.insertCString (some " - ".toList)
  let stream_ ← insertSourceFile stream_ impl.basename_
  let stream_ ← stream_.insertChar ':'
  let stream_ ← stream_.insertInt impl.line_
  let stream_ ← stream_.insertChar '\n'
  return { impl with stream_ := stream_ }

/-- The constructors of `Logger`, after the place in the source. -/
inductive Constructor
  | plain
  | levelFunc (level : LogLevel) (func : Option (List Char))
  | level (level : LogLevel)
  | toAbort (toAbort : Bool)

def new (ctx : Context) (cache : TimeCache) (file : SourceFile) (line : Int32) :
    Constructor → Option (TimeCache × Impl)
  | .plain => Impl.new ctx cache .INFO 0 file line
  | .levelFunc level func => do
    let (cache, impl_) ← Impl.new ctx cache level 0 file line
    let stream_ ← impl_.stream_.insertCString func
    let stream_ ← stream_.insertChar ' '
    return (cache, { impl_ with stream_ := stream_ })
  | .level level => Impl.new ctx cache level 0 file line
  | .toAbort toAbort =>
    Impl.new ctx cache (if toAbort then .FATAL else .ERROR) ctx.errno file line

/-- What `~Logger` passes to `g_output`. -/
def output (impl_ : Impl) : Option (List Char) :=
  impl_.finish.map fun impl_ => impl_.stream_.buffer_.text

end NaiveNet.Logger
