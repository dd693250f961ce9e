import NaiveNet.LogRecord
import NaiveNet.NumeralReading

/-!
# The cached time text

The threads of a process log and any of them may set the time zone. A thread makes
its time text anew when the second differs from that of its last record, but
`setTimeZone` leaves the threads' texts alone: a record in the same second as the
thread's last one shows the time in the zone of the latter. It is right as long as
both zones have the same offset from UTC in that second.
-/
namespace NaiveNet.Logger

/-- A record and what it was made from. -/
structure Record where
  /-- The zone in force. -/
  zone : TimeZone
  /-- The record's timestamp, in microseconds. -/
  now : ℤ
  /-- What the constructor has written. -/
  header : List Char

/-- `time_.microSecondsSinceEpoch() / Timestamp::kMicroSecondsPerSecond` -/
def secondOf (now : ℤ) : ℤ := now.tdiv kMicroSecondsPerSecond

/-- The global zone and the thread-local texts. `madeIn` and `records` record the
history and are read by no step. -/
structure Process (n : ℕ) where
  g_logTimeZone : TimeZone
  caches : Fin n → TimeCache
  /-- The zone in force when the thread's text was made. -/
  madeIn : Fin n → TimeZone
  records : List Record

variable {n : ℕ}

/-- Nobody has logged, the zone is the invalid one. -/
def Process.start (n : ℕ) : Process n where
  g_logTimeZone := ⟨none⟩
  caches := fun _ => .zero
  madeIn := fun _ => ⟨none⟩
  records := []

inductive Action (n : ℕ)
  /-- A logger is made; the zone of the context is not used, but the global one. -/
  | log (t : Fin n) (ctx : Context) (file : SourceFile) (line : Int32) (c : Constructor)
  | setTimeZone (tz : TimeZone)

def step (s : Process n) : Action n → Option (Process n)
  | .log t ctx file line c => do
    let (cache, impl_) ← new { ctx with g_logTimeZone := s.g_logTimeZone } (s.caches t) file line c
    return { s with
      caches := Function.update s.caches t cache
      madeIn := if secondOf ctx.now = (s.caches t).t_lastSecond then s.madeIn
        else Function.update s.madeIn t s.g_logTimeZone
      records := s.records ++ [⟨s.g_logTimeZone, ctx.now, impl_.stream_.buffer_.text⟩] }
  | .setTimeZone tz => some { s with g_logTimeZone := tz }

/-- The time text made afresh. -/
def freshText (tz : TimeZone) (seconds : ℤ) : Option (List Char) :=
  (localTm tz seconds).map timeText

/-- The offset from UTC that a zone has in a second. -/
def utcOffset (tz : TimeZone) (seconds : ℤ) : Option ℤ :=
  match tz.data_ with
  | some data => (findLocaltime data ⟨seconds, 0, 0⟩ ⟨true⟩).map Localtime.gmtOffset
  | none => some 0

/-- Another second than the thread's last, or the zone in force has the same offset in it
as the zone the thread's text was made in. -/
def UpToDate (s : Process n) : Action n → Prop
  | .log t ctx _ _ _ => secondOf ctx.now = (s.caches t).t_lastSecond →
      utcOffset s.g_logTimeZone (secondOf ctx.now) = utcOffset (s.madeIn t) (secondOf ctx.now)
  | .setTimeZone _ => True

/-- The fields that are printed are those of the calendar. -/
theorem freshText_eq (tz : TimeZone) (seconds : ℤ) :
    freshText tz seconds =
      (utcOffset tz seconds).map fun offset => timeText (civil (seconds + offset)) := by
  obtain ⟨data_⟩ := tz
  cases data_ with
  | none => simp [freshText, localTm, TimeZone.valid, utcOffset]
  | some data =>
    simp only [freshText, localTm, TimeZone.valid, Option.isSome_some, if_true, utcOffset,
      TimeZone.toLocalTime, Option.bind_eq_bind, Option.bind_some]
    cases findLocaltime data ⟨seconds, 0, 0⟩ ⟨true⟩ <;> rfl

/-- A time text is 17 characters in the years 0 to 9999. -/
theorem length_timeText {x : ℤ} (h0 : 0 ≤ (civil x).tm_year + 1900)
    (h : (civil x).tm_year + 1900 ≤ 9999) : (timeText (civil x)).length = 17 := by
  obtain ⟨hmon, hmday, hhour, hmin, hsec⟩ := civil_fields x
  have hyear : (blankFilled 4 ((civil x).tm_year + 1900)).length = 4 :=
    length_blankFilled (by omega) h0 (by omega)
  simp only [timeText, List.length_append, List.length_singleton, hyear, length_twoDigits hmon,
    length_twoDigits hmday, length_twoDigits hhour, length_twoDigits hmin, length_twoDigits hsec]

/-- A time text tells the instant: no two instants have the same text of 17 characters. -/
theorem timeText_inj {x y : ℤ} (hlen : (timeText (civil x)).length = 17)
    (h : timeText (civil x) = timeText (civil y)) : x = y := by
  obtain ⟨hxmon, hxmday, hxhour, hxmin, hxsec⟩ := civil_fields x
  obtain ⟨hymon, hymday, hyhour, hymin, hysec⟩ := civil_fields y
  have hlen' := h ▸ hlen
  simp only [timeText, List.length_append, List.length_singleton, length_twoDigits hxmon,
    length_twoDigits hxmday, length_twoDigits hxhour, length_twoDigits hxmin,
    length_twoDigits hxsec] at hlen
  simp only [timeText, List.length_append, List.length_singleton, length_twoDigits hymon,
    length_twoDigits hymday, length_twoDigits hyhour, length_twoDigits hymin,
    length_twoDigits hysec] at hlen'
  -- The years take what the other fields leave of the 17 characters.
  simp only [timeText, List.append_assoc, List.singleton_append] at h
  obtain ⟨hyear, h⟩ := List.append_inj h (by omega)
  obtain ⟨hmon, h⟩ := twoDigits_append_inj hxmon hymon h
  obtain ⟨hmday, h⟩ := twoDigits_append_inj hxmday hymday h
  obtain ⟨hhour, h⟩ := twoDigits_append_inj hxhour hyhour (List.cons.inj h).2
  obtain ⟨hmin, h⟩ := twoDigits_append_inj hxmin hymin (List.cons.inj h).2
  have hsec := zeroFilled_inj hxsec.1 hysec.1 (List.cons.inj h).2
  have hyear := blankFilled_injective 4 hyear
  exact civil_inj (by omega) (by omega) hmday hhour hmin hsec

/-- In one second two zones show the same time exactly when they have the same offset. -/
theorem freshText_eq_iff {tz made : TimeZone} {seconds : ℤ} {text : List Char}
    (hmade : freshText made seconds = some text) (hlen : text.length = 17) :
    freshText tz seconds = some text ↔ utcOffset tz seconds = utcOffset made seconds := by
  rw [freshText_eq] at hmade ⊢
  obtain ⟨offset, hoffset, rfl⟩ := Option.map_eq_some_iff.mp hmade
  rw [hoffset]
  constructor
  · intro h
    obtain ⟨shown, hshown, htext⟩ := Option.map_eq_some_iff.mp h
    have hsame := timeText_inj (by rw [htext, hlen]) htext
    rw [hshown, show shown = offset by omega]
  · intro h
    rw [h, Option.map_some]

theorem length_microText (valid : Bool) {microseconds : ℤ} (h0 : 0 ≤ microseconds)
    (h : microseconds < 1000000) :
    (microText valid microseconds).length = if valid then 8 else 9 := by
  have hsix : (zeroFilled 6 microseconds).length = 6 := length_zeroFilled (by omega) h0 (by omega)
  cases valid <;> simp [microText, hsix]

/-- All that the first `if` of `formatTime` can do. -/
theorem updateTime_cases {tz : TimeZone} {cache cache' : TimeCache} {seconds : ℤ}
    (h : updateTime tz cache seconds = some cache') :
    seconds = cache.t_lastSecond ∧ cache' = cache ∨
      seconds ≠ cache.t_lastSecond ∧ cache'.t_lastSecond = seconds ∧
        freshText tz seconds = some cache'.t_time := by
  unfold updateTime at h
  split_ifs at h with hsame
  · simp only [Option.bind_eq_bind, Option.bind_eq_some_iff, Option.ite_none_right_eq_some,
      Option.some.injEq] at h
    obtain ⟨tm_time, htm, _, rfl⟩ := h
    exact Or.inr ⟨hsame, rfl, by rw [freshText, htm, Option.map_some]⟩
  · exact Or.inl ⟨not_not.mp hsame, (Option.some.inj h).symm⟩

/-- A record's header begins with the thread's text. -/
theorem new_header {ctx : Context} {cache cache' : TimeCache} {file : SourceFile} {line : Int32}
    {c : Constructor} {impl_ : Impl} (h : new ctx cache file line c = some (cache', impl_)) :
    updateTime ctx.g_logTimeZone cache (secondOf ctx.now) = some cache' ∧
      cache'.t_time.length = 17 ∧ impl_.stream_.buffer_.text.take 17 = cache'.t_time := by
  obtain ⟨stream_, htime, hext, _⟩ := new_extends h
  obtain ⟨hlen, hlt, rest, hrest⟩ := formatTime_stream htime
  obtain ⟨_, rest', hrest'⟩ := hext hlt
  refine ⟨?_, hlen, ?_⟩
  · simp only [formatTime, Option.bind_eq_bind, Option.bind_eq_some_iff] at htime
    obtain ⟨cache₀, hupdate, _, _, _, _, hlast⟩ := htime
    obtain ⟨rfl, _⟩ := Prod.mk.inj (Option.some.inj hlast)
    exact hupdate
  · rw [hrest', hrest, List.append_assoc, ← hlen, List.take_left]

variable {s s' : Process n}

/-- What a record does to the process. -/
theorem log_effect {t : Fin n} {ctx : Context} {file : SourceFile} {line : Int32} {c : Constructor}
    (h : step s (.log t ctx file line c) = some s') :
    ∃ cache header, updateTime s.g_logTimeZone (s.caches t) (secondOf ctx.now) = some cache ∧
      cache.t_time.length = 17 ∧ header.take 17 = cache.t_time ∧
      s' = { s with
        caches := Function.update s.caches t cache
        madeIn := if secondOf ctx.now = (s.caches t).t_lastSecond then s.madeIn
          else Function.update s.madeIn t s.g_logTimeZone
        records := s.records ++ [⟨s.g_logTimeZone, ctx.now, header⟩] } := by
  simp only [step, Option.bind_eq_bind, Option.bind_eq_some_iff] at h
  obtain ⟨⟨cache, impl_⟩, hnew, hs'⟩ := h
  obtain ⟨hupdate, hlen, htake⟩ := new_header hnew
  exact ⟨cache, _, hupdate, hlen, htake, (Option.some.inj hs').symm⟩

/-- A thread's text is that of its last second in the zone it was made in. -/
def CachesValid (s : Process n) : Prop :=
  ∀ t, s.caches t = .zero ∨ (s.caches t).t_time.length = 17 ∧
    freshText (s.madeIn t) (s.caches t).t_lastSecond = some (s.caches t).t_time

theorem CachesValid.step (hi : CachesValid s) {a : Action n} (hs : step s a = some s') :
    CachesValid s' := by
  cases a with
  | setTimeZone tz =>
    obtain rfl := Option.some.inj hs
    exact hi
  | log t ctx file line c =>
    obtain ⟨cache, header, hupdate, hlen, _, rfl⟩ := log_effect hs
    intro t'
    by_cases ht : t' = t
    · subst ht
      obtain ⟨hsame, rfl⟩ | ⟨hother, hsecond, hfresh⟩ := updateTime_cases hupdate
      · simpa [hsame] using hi t'
      · right
        simp [hother, hlen, hsecond, hfresh]
    · have hkeep := hi t'
      split_ifs <;> simpa [ht] using hkeep

/-- The text that a record begins with is its own exactly when the record is up to date. -/
theorem freshText_iff_upToDate (hi : CachesValid s) {t : Fin n} {ctx : Context}
    {cache : TimeCache}
    (hupdate : updateTime s.g_logTimeZone (s.caches t) (secondOf ctx.now) = some cache)
    (hlen : cache.t_time.length = 17) :
    freshText s.g_logTimeZone (secondOf ctx.now) = some cache.t_time ↔
      (secondOf ctx.now = (s.caches t).t_lastSecond →
        utcOffset s.g_logTimeZone (secondOf ctx.now) =
          utcOffset (s.madeIn t) (secondOf ctx.now)) := by
  obtain ⟨hsame, rfl⟩ | ⟨hother, _, hfresh⟩ := updateTime_cases hupdate
  · obtain hzero | ⟨_, hmade⟩ := hi t
    · rw [hzero] at hlen
      contradiction
    · rw [hsame, freshText_eq_iff hmade hlen]
      exact ⟨fun h _ => h, fun h => h rfl⟩
  · exact iff_of_true hfresh fun hsame => absurd hsame hother

/-- Every record shows its own time in the zone in force. -/
def RecordsRight (s : Process n) : Prop :=
  ∀ r ∈ s.records, (r.header.take 17).length = 17 ∧
    freshText r.zone (secondOf r.now) = some (r.header.take 17)

/-- A record stays as it was made. -/
theorem recordsRight_step (hcaches : CachesValid s) {a : Action n} (hs : step s a = some s') :
    RecordsRight s' ↔ RecordsRight s ∧ UpToDate s a := by
  cases a with
  | setTimeZone tz =>
    obtain rfl := Option.some.inj hs
    exact (and_iff_left trivial).symm
  | log t ctx file line c =>
    obtain ⟨cache, header, hupdate, hlen, htake, rfl⟩ := log_effect hs
    simp only [RecordsRight, UpToDate, List.forall_mem_append, List.forall_mem_singleton, htake,
      hlen, true_and, freshText_iff_upToDate hcaches hupdate hlen]

/-- The zone in force and the time when the step makes a record. -/
def logs (s : Process n) (a : Action n) (_ : Process n) : List (TimeZone × ℤ) :=
  match a with
  | .log _ ctx _ _ _ => [(s.g_logTimeZone, ctx.now)]
  | .setTimeZone _ => []

/-- Every call makes a record. -/
theorem records_step {a : Action n} (hs : step s a = some s') :
    s'.records.map (fun r => (r.zone, r.now)) =
      s.records.map (fun r => (r.zone, r.now)) ++ logs s a s' := by
  cases a with
  | setTimeZone tz =>
    obtain rfl := Option.some.inj hs
    exact (List.append_nil _).symm
  | log t ctx file line c =>
    obtain ⟨cache, header, _, _, _, rfl⟩ := log_effect hs
    exact List.map_append

theorem records_run {as : List (Action n)} (h : Runs.run step s as = some s') :
    s'.records.map (fun r => (r.zone, r.now)) =
      s.records.map (fun r => (r.zone, r.now)) ++ Runs.trace step logs s as :=
  Runs.eq_append_trace (fun _ _ _ => records_step) h

section Enabled

variable {stream_ : LogStream}

theorem exists_insertT (h : stream_.buffer_.length < 4000) {str : List Char} {len : ℕ}
    (hlen : str.length = len) :
    ∃ s', insertT stream_ str len = some s' ∧ s'.buffer_.length < 4000 := by
  obtain ⟨s', hs', hlt, _⟩ := append_fit h str
  exact ⟨s', by rw [insertT, if_pos hlen, hs'], hlt⟩

theorem exists_insertCString (h : stream_.buffer_.length < 4000) (str : Option (List Char)) :
    ∃ s', stream_.insertCString str = some s' ∧ s'.buffer_.length < 4000 := by
  cases str with
  | none =>
    obtain ⟨s', hs', hlt, _⟩ := append_fit h "(null)".toList
    exact ⟨s', hs', hlt⟩
  | some str =>
    obtain ⟨s', hs', hlt, _⟩ := append_fit h (LogStream.cStr str)
    exact ⟨s', hs', hlt⟩

theorem exists_insertErrno (ctx : Context) (h : stream_.buffer_.length < 4000)
    (savedErrno : Int32) :
    ∃ s', insertErrno ctx stream_ savedErrno = some s' ∧ s'.buffer_.length < 4000 := by
  unfold insertErrno
  split_ifs with herrno
  · obtain ⟨s₁, hs₁, h₁⟩ := exists_insertCString h (some (ctx.strerror_tl savedErrno))
    obtain ⟨s₂, hs₂, h₂⟩ := exists_insertCString h₁ (some " (errno=".toList)
    obtain ⟨s₃, hs₃, h₃, _⟩ := insertInt_fit h₂ savedErrno
    obtain ⟨s₄, hs₄, h₄⟩ := exists_insertCString h₃ (some ") ".toList)
    refine ⟨s₄, ?_, h₄⟩
    simp only [hs₁, hs₂, hs₃, hs₄, Option.bind_eq_bind, Option.bind_some]
  · exact ⟨stream_, rfl, h⟩

theorem exists_formatTime {tz : TimeZone} {cache cache' : TimeCache} {now : ℤ}
    (data_ : CArray Char kSmallBuffer)
    (hupdate : updateTime tz cache (secondOf now) = some cache')
    (hlen : cache'.t_time.length = 17) (h0 : 0 ≤ now) :
    ∃ stream_, formatTime tz cache now (.new data_) = some (cache', stream_) ∧
      stream_.buffer_.length < 4000 := by
  have hmicro : (microText tz.valid (now.tmod kMicroSecondsPerSecond)).length =
      if tz.valid then 8 else 9 :=
    length_microText _ (Int.tmod_nonneg _ h0) (Int.tmod_lt_of_pos _ (by decide))
  obtain ⟨s₁, hs₁, h₁⟩ := @exists_insertT (.new data_) (Nat.succ_pos 3999) _ _ hlen
  obtain ⟨s₂, hs₂, h₂⟩ := exists_insertT h₁ hmicro
  unfold secondOf at hupdate
  refine ⟨s₂, ?_, h₂⟩
  simp only [formatTime, hupdate, hs₁, hs₂, Option.bind_eq_bind, Option.bind_some]
  rfl

theorem LogLevelName_length (level : LogLevel) : (LogLevelName level).length = 6 := by
  cases level <;> rfl

theorem exists_implNew {ctx : Context} {cache cache' : TimeCache}
    (hupdate : updateTime ctx.g_logTimeZone cache (secondOf ctx.now) = some cache')
    (hlen : cache'.t_time.length = 17) (h0 : 0 ≤ ctx.now) (level : LogLevel) (savedErrno : Int32)
    (file : SourceFile) (line : Int32) :
    ∃ impl_, Impl.new ctx cache level savedErrno file line = some (cache', impl_) ∧
      impl_.stream_.buffer_.length < 4000 := by
  obtain ⟨s₁, hs₁, h₁⟩ := exists_formatTime ctx.memory hupdate hlen h0
  obtain ⟨s₂, hs₂, h₂⟩ := exists_insertT h₁ (rfl : (blankFilled 5 ctx.tid ++ [' ']).length = _)
  obtain ⟨s₃, hs₃, h₃⟩ := exists_insertT h₂ (LogLevelName_length level)
  obtain ⟨s₄, hs₄, h₄⟩ := exists_insertErrno ctx h₃ savedErrno
  refine ⟨⟨ctx.now, s₄, level, line, file⟩, ?_, h₄⟩
  simp only [Impl.new, hs₁, hs₂, hs₃, hs₄, Option.bind_eq_bind, Option.bind_some]
  rfl

theorem exists_new {ctx : Context} {cache cache' : TimeCache}
    (hupdate : updateTime ctx.g_logTimeZone cache (secondOf ctx.now) = some cache')
    (hlen : cache'.t_time.length = 17) (h0 : 0 ≤ ctx.now) (file : SourceFile) (line : Int32)
    (c : Constructor) : ∃ impl_, new ctx cache file line c = some (cache', impl_) := by
  have himpl := exists_implNew hupdate hlen h0
  cases c with
  | plain => exact (himpl _ _ file line).imp fun _ h => h.1
  | level level => exact (himpl _ _ file line).imp fun _ h => h.1
  | toAbort toAbort => exact (himpl _ _ file line).imp fun _ h => h.1
  | levelFunc level func =>
    obtain ⟨impl_, hnew, hlt⟩ := himpl level 0 file line
    obtain ⟨s₁, hs₁, h₁⟩ := exists_insertCString hlt func
    obtain ⟨s₂, hs₂, _⟩ := append_fit h₁ [' ']
    refine ⟨{ impl_ with stream_ := s₂ }, ?_⟩
    simp only [new, hnew, hs₁, LogStream.insertChar, hs₂, Option.bind_eq_bind, Option.bind_some]
    rfl

/-- The invalid zone, which means UTC, or a well-formed one. -/
def ZoneWellFormed (tz : TimeZone) : Prop := ∀ data, tz.data_ = some data → data.WellFormed

theorem exists_utcOffset {tz : TimeZone} (h : ZoneWellFormed tz) (seconds : ℤ) :
    ∃ offset, utcOffset tz seconds = some offset := by
  obtain ⟨data_⟩ := tz
  cases data_ with
  | none => exact ⟨0, rfl⟩
  | some data =>
    have hdata := h data rfl
    obtain ⟨localtime, hduring⟩ := hdata.exists_during (hdata.period_le (t := seconds))
    have hfind := hdata.findLocaltime_gmt (t := seconds)
    rw [hduring] at hfind
    exact ⟨localtime.gmtOffset, by simp only [utcOffset, hfind, Option.map_some]⟩

/-- A record of a year with at most four digits fails no assertion. -/
theorem exists_log (hi : CachesValid s) (t : Fin n) (ctx : Context) (file : SourceFile)
    (line : Int32) (c : Constructor) (hnow : 1000000 ≤ ctx.now)
    (hzone : ZoneWellFormed s.g_logTimeZone)
    (hyear : ∀ offset, utcOffset s.g_logTimeZone (secondOf ctx.now) = some offset →
      0 ≤ (civil (secondOf ctx.now + offset)).tm_year + 1900 ∧
        (civil (secondOf ctx.now + offset)).tm_year + 1900 ≤ 9999) :
    ∃ s', step s (.log t ctx file line c) = some s' := by
  have hpos : 1 ≤ secondOf ctx.now := by
    rw [secondOf, Int.tdiv_eq_ediv_of_nonneg (by omega), kMicroSecondsPerSecond]
    omega
  obtain ⟨offset, hoffset⟩ := exists_utcOffset hzone (secondOf ctx.now)
  obtain ⟨cache, hupdate, hlen⟩ : ∃ cache, updateTime s.g_logTimeZone (s.caches t)
      (secondOf ctx.now) = some cache ∧ cache.t_time.length = 17 := by
    by_cases hsame : secondOf ctx.now = (s.caches t).t_lastSecond
    · refine ⟨s.caches t, if_neg (not_not.mpr hsame), ?_⟩
      obtain hzero | ⟨hlen, _⟩ := hi t
      · rw [hzero] at hsame
        have hlast : TimeCache.zero.t_lastSecond = 0 := rfl
        omega
      · exact hlen
    · have hfresh := freshText_eq s.g_logTimeZone (secondOf ctx.now)
      rw [hoffset, Option.map_some, freshText, Option.map_eq_some_iff] at hfresh
      obtain ⟨tm_time, htm, htext⟩ := hfresh
      have hlen := length_timeText (hyear offset hoffset).1 (hyear offset hoffset).2
      rw [← htext] at hlen
      refine ⟨⟨timeText tm_time, secondOf ctx.now⟩, ?_, hlen⟩
      rw [updateTime, if_pos hsame, htm, Option.bind_eq_bind, Option.bind_some, if_pos hlen]
  obtain ⟨impl_, hnew⟩ := @exists_new { ctx with g_logTimeZone := s.g_logTimeZone } _ _ hupdate hlen
    (show 0 ≤ ctx.now by omega) file line c
  exact ⟨_, by rw [step, hnew]; rfl⟩

end Enabled

/-- In a run every record shows its own time in the zone in force exactly when every thread's
text was up to date where it was shown; there is a record for every call, and every record
with a local year of at most four digits is made. -/
theorem cached_time_right {n : ℕ} {as : List (Action n)} {s : Process n}
    (hrun : Runs.run step (Process.start n) as = some s) :
    ((∀ r ∈ s.records, (r.header.take 17).length = 17 ∧
      freshText r.zone (secondOf r.now) = some (r.header.take 17)) ↔
        Runs.Meets UpToDate step (Process.start n) as) ∧
    s.records.map (fun r => (r.zone, r.now)) = Runs.trace step logs (Process.start n) as ∧
    ∀ (t : Fin n) (ctx : Context) (file : SourceFile) (line : Int32) (c : Constructor),
      1000000 ≤ ctx.now → ZoneWellFormed s.g_logTimeZone →
      (∀ offset, utcOffset s.g_logTimeZone (secondOf ctx.now) = some offset →
        0 ≤ (civil (secondOf ctx.now + offset)).tm_year + 1900 ∧
          (civil (secondOf ctx.now + offset)).tm_year + 1900 ≤ 9999) →
      ∃ s', step s (.log t ctx file line c) = some s' := by
  have hstart : CachesValid (Process.start n) := fun t => Or.inl rfl
  have hright : RecordsRight (Process.start n) := fun r hr => absurd hr List.not_mem_nil
  have hcaches : CachesValid s :=
    Runs.Reaches.invariant (fun s a s' hi hs => hi.step hs) ⟨as, hrun⟩ hstart
  have hiff := Runs.run_iff_meets (C := UpToDate) (J := CachesValid) (I := RecordsRight)
    (fun s a s' hi hs => hi.step hs) (fun s a s' hi hs => recordsRight_step hi hs) hstart hrun
  exact ⟨hiff.trans (and_iff_right hright), records_run hrun, fun t ctx file line c =>
    exists_log hcaches t ctx file line c⟩

/-- A logger made one second after the epoch. -/
def firstSecond (t : Fin 1) : Action 1 :=
  .log t { utcContext with now := 1000000 } (.ofFilename "a.cc".toList) 7 .plain

/-- The second record is made in another zone of the same offset, and shows the text that the
thread has from its first one. -/
theorem cached_time_right_same_offset : ∃ s : Process 1,
    Runs.run step (.start 1) [firstSecond 0, .setTimeZone (.ofOffset 0 []), firstSecond 0] =
        some s ∧
      s.records.map Record.zone = [⟨none⟩, .ofOffset 0 []] ∧ s.madeIn 0 = ⟨none⟩ ∧
      ∀ r ∈ s.records, freshText r.zone (secondOf r.now) = some (r.header.take 17) := by
  obtain ⟨s, hrun, hkept⟩ := Runs.exists_of_any step (.start 1)
    [firstSecond 0, .setTimeZone (.ofOffset 0 []), firstSecond 0]
    (fun s => s.records.map Record.zone = [⟨none⟩, .ofOffset 0 []] ∧ s.madeIn 0 = ⟨none⟩)
    (by decide)
  have hmeets : Runs.Meets UpToDate step (.start 1)
      [firstSecond 0, .setTimeZone (.ofOffset 0 []), firstSecond 0] := by
    refine ⟨fun hsame => absurd hsame (by decide), fun s₁ hs₁ => ⟨trivial, fun s₂ hs₂ =>
      ⟨fun _ => ?_, fun _ _ => trivial⟩⟩⟩
    obtain rfl := Option.some.inj hs₂
    obtain ⟨_, _, _, _, _, rfl⟩ := log_effect hs₁
    rfl
  have hright := (cached_time_right hrun).1.mpr hmeets
  obtain ⟨hzones, hmade⟩ := of_decide_eq_true hkept
  exact ⟨s, hrun, hzones, hmade, fun r hr => (hright r hr).2⟩

/-- One second, two zones: the second record still shows the time in the first. -/
theorem stale_time_shown : ¬ ∀ (n : ℕ) (as : List (Action n)) (s : Process n),
    Runs.run step (.start n) as = some s →
      ∀ r ∈ s.records, freshText r.zone (secondOf r.now) = some (r.header.take 17) := by
  intro hevery
  obtain ⟨s, hrun, hstale⟩ := Runs.exists_of_any step (.start 1)
    [firstSecond 0, .setTimeZone (.ofOffset 3600 []), firstSecond 0]
    (fun s => s.records.any fun r => freshText r.zone (secondOf r.now) ≠ some (r.header.take 17))
    (by decide)
  obtain ⟨r, hr, hne⟩ := List.any_eq_true.mp hstale
  exact of_decide_eq_true hne (hevery 1 _ s hrun r hr)

end NaiveNet.Logger
