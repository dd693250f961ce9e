import NaiveNet.LogStreamText
import NaiveNet.Logging

/-!
# How a record ends

The destructor appends `" - "`, the source file, `':'`, the line and `'\n'` one by
one, each through a buffer that drops what does not fit. A shorter piece may still
fit after a longer one was dropped, so the newline is lost only where the pieces
before it end exactly one character before the end of the buffer.
-/
namespace NaiveNet.Logger

/-- A text behind another, in a buffer that keeps one cell free. -/
def fit (t xs : List Char) : List Char := if t.length + xs.length < 4000 then t ++ xs else t

theorem length_fit (t xs : List Char) :
    (fit t xs).length = if t.length + xs.length < 4000 then t.length + xs.length else t.length := by
  unfold fit
  split_ifs <;> simp

/-- A number, which asks for 32 cells. -/
def fitNumber (t : List Char) (v : ℤ) : List Char :=
  if t.length ≤ 3968 then t ++ decimal v else t

/-- The text of a record, from the text of the stream. -/
def finishText (t base : List Char) (line : ℤ) : List Char :=
  fit (fitNumber (fit (fit (fit t " - ".toList) base) [':']) line) ['\n']

variable {s : LogStream}

/-- On texts, `append` is `fit`. -/
theorem append_fit (h : s.buffer_.length < 4000) (data : List Char) :
    ∃ s', s.append data = some s' ∧ s'.buffer_.length < 4000 ∧
      s'.buffer_.text = fit s.buffer_.text data := by
  have havail := s.avail_eq
  have hcur : s.buffer_.length = s.buffer_.cur_ := rfl
  refine ⟨_, LogStream.append_eq h data, LogStream.appended_length_lt h (by simp) _, ?_⟩
  rw [LogStream.text_appended, fit, FixedBuffer.length_text]
  by_cases hfull : s.buffer_.avail ≤ data.length
  · rw [if_pos (decide_eq_true hfull), if_neg (by omega)]
  · rw [if_neg (by simpa using hfull), if_pos (by omega)]

theorem natAbs_toInt_lt (v : Int32) : v.toInt.natAbs < 10 ^ 10 := by
  have hlo := v.le_toInt
  have hhi := v.toInt_lt
  omega

theorem insertInt_fit (h : s.buffer_.length < 4000) (v : Int32) :
    ∃ s', s.insertInt v = some s' ∧ s'.buffer_.length < 4000 ∧
      s'.buffer_.text = fitNumber s.buffer_.text v.toInt := by
  have havail := s.avail_eq
  have hcur : s.buffer_.length = s.buffer_.cur_ := rfl
  have habs := natAbs_toInt_lt v
  have hlen := length_decimal_le (by omega) habs
  refine ⟨_, LogStream.formatInteger_eq (by omega),
    LogStream.appended_length_lt h (fun hskip => ?_) _, ?_⟩
  · have hroom := of_decide_eq_false hskip
    omega
  · rw [LogStream.text_appended, fitNumber, FixedBuffer.length_text]
    by_cases hfull : s.buffer_.avail < 32
    · rw [if_pos (decide_eq_true hfull), if_neg (by omega)]
    · rw [if_neg (by simpa using hfull), if_pos (by omega)]

theorem output_eq {impl_ : Impl} (h : impl_.stream_.buffer_.length < 4000) :
    output impl_ = some (finishText impl_.stream_.buffer_.text impl_.basename_.data_
      impl_.line_.toInt) := by
  obtain ⟨s₁, hs₁, h₁, ht₁⟩ := append_fit h " - ".toList
  obtain ⟨s₂, hs₂, h₂, ht₂⟩ := append_fit h₁ impl_.basename_.data_
  obtain ⟨s₃, hs₃, h₃, ht₃⟩ := append_fit h₂ [':']
  obtain ⟨s₄, hs₄, h₄, ht₄⟩ := insertInt_fit h₃ impl_.line_
  obtain ⟨s₅, hs₅, h₅, ht₅⟩ := append_fit h₄ ['\n']
  have hfirst : impl_.stream_.insertCString (some " - ".toList) = some s₁ := hs₁
  rw [finishText, ← ht₁, ← ht₂, ← ht₃, ← ht₄, ← ht₅]
  simp only [output, Impl.finish, insertSourceFile, LogStream.insertChar, hfirst, hs₂, hs₃, hs₄,
    hs₅, Option.bind_eq_bind, Option.bind_some]
  rfl

/-- The length after `" - "`. -/
def separated (length : ℕ) : ℕ := if length + 3 < 4000 then length + 3 else length

/-- The pieces before the newline do not end at the last cell of the buffer. -/
def NewlineFits (length size : ℕ) : Prop :=
  separated length < 3998 ∧ separated length + size ≠ 3998 ∧ separated length + size ≠ 3999

instance (length size : ℕ) : Decidable (NewlineFits length size) :=
  inferInstanceAs (Decidable (_ ∧ _))

/-- The last character is that of the piece, unless it is empty or dropped. -/
theorem getLast?_fit (t xs : List Char) :
    (fit t xs).getLast? =
      if t.length + xs.length < 4000 ∧ xs ≠ [] then xs.getLast? else t.getLast? := by
  unfold fit
  by_cases hroom : t.length + xs.length < 4000
  · rw [if_pos hroom, List.getLast?_append]
    cases xs with
    | nil => simp
    | cons x xs => simp only [hroom, List.getLast?_cons, ne_eq, reduceCtorEq, not_false_eq_true,
        and_self, if_true, Option.some_or]
  · rw [if_neg hroom, if_neg (fun h => hroom h.1)]

/-- The text before the line number. -/
def placeText (t base : List Char) : List Char := fit (fit (fit t " - ".toList) base) [':']

theorem length_placeText {t base : List Char} (ht : t.length < 4000) :
    (placeText t base).length < 4000 ∧
      ((placeText t base).length = 3999 ↔ ¬ NewlineFits t.length base.length) := by
  have hdash : " - ".toList.length = 3 := rfl
  have hcolon : [':'].length = 1 := rfl
  unfold placeText NewlineFits separated
  simp only [length_fit, hdash, hcolon]
  split_ifs <;> omega

/-- A text that ends at the last cell ends with the last piece that was not dropped. -/
theorem getLast?_placeText {t base : List Char} (ht : t.length < 4000)
    (hfull : (placeText t base).length = 3999) :
    (placeText t base).getLast? = some '\n' ↔
      t.length = 3999 ∧ t.getLast? = some '\n' ∨
        separated t.length + base.length = 3999 ∧ base.getLast? = some '\n' := by
  have hdash : " - ".toList.length = 3 := rfl
  have hcolon : [':'].length = 1 := rfl
  have hnil : base.length = 0 → base = [] := List.length_eq_zero_iff.mp
  have hpos : base ≠ [] → 0 < base.length := List.length_pos_iff.mpr
  have hsep : (fit t " - ".toList).length = separated t.length := length_fit t _
  have hsize : separated t.length = if t.length + 3 < 4000 then t.length + 3 else t.length := rfl
  have hbody := length_fit (fit t " - ".toList) base
  rw [hsep] at hbody
  unfold placeText at hfull ⊢
  rw [length_fit, hcolon] at hfull
  rw [getLast?_fit, hcolon]
  by_cases hfits : (fit (fit t " - ".toList) base).length + 1 < 4000
  · -- The colon is the last character.
    rw [if_pos hfits] at hfull
    rw [if_pos ⟨hfits, List.cons_ne_nil _ _⟩]
    have hleft : t.length ≠ 3999 := by
      split_ifs at hbody hsize <;> omega
    have hright : separated t.length + base.length ≠ 3999 := by
      split_ifs at hbody <;> omega
    simp [hleft, hright]
  rw [if_neg hfits] at hfull
  rw [if_neg fun h => hfits h.1, getLast?_fit, hsep]
  by_cases hbase : separated t.length + base.length < 4000 ∧ base ≠ []
  · -- So is the source file's last one.
    rw [if_pos hbase.1] at hbody
    have hone := hpos hbase.2
    have hleft : t.length ≠ 3999 := by
      split_ifs at hsize <;> omega
    have hlen : separated t.length + base.length = 3999 := by omega
    rw [if_pos hbase]
    simp [hleft, hlen]
  have hbody' : separated t.length = 3999 := by
    by_cases hempty : base = []
    · have hzero : base.length = 0 := by
        rw [hempty]
        rfl
      split_ifs at hbody <;> omega
    · rw [if_neg fun h => hbase ⟨h, hempty⟩] at hbody
      omega
  have hright : ¬ (separated t.length + base.length = 3999 ∧ base.getLast? = some '\n') := by
    rintro ⟨hlen, hlast⟩
    rw [hnil (by omega)] at hlast
    contradiction
  rw [if_neg hbase, getLast?_fit, hdash]
  by_cases hroom : t.length + 3 < 4000
  · -- The blank of `" - "`.
    have hleft : t.length ≠ 3999 := by omega
    rw [if_pos ⟨hroom, List.cons_ne_nil _ _⟩]
    simp [hleft, hright]
  · rw [if_neg fun h => hroom h.1]
    rw [if_neg hroom] at hsize
    have hlen : t.length = 3999 := by omega
    exact ⟨fun h => Or.inl ⟨hlen, h⟩, fun h => (h.resolve_right hright).2⟩

/-- The newline fits, or the last character that does is one: of the text so far, if that
fills the buffer, or of the name of the source file. -/
def NewlineKept (t base : List Char) : Prop :=
  NewlineFits t.length base.length ∨ t.length = 3999 ∧ t.getLast? = some '\n' ∨
    separated t.length + base.length = 3999 ∧ base.getLast? = some '\n'

/-- How a record ends, from the text of the stream. -/
theorem getLast?_finishText {t base : List Char} (ht : t.length < 4000) {line : ℤ}
    (hline : line.natAbs < 10 ^ 10) :
    (finishText t base line).getLast? = some '\n' ↔ NewlineKept t base := by
  obtain ⟨hlt, hlen⟩ := @length_placeText t base ht
  have hnewline : ['\n'].length = 1 := rfl
  have hdecimal := length_decimal_le (by omega) hline
  have htext : finishText t base line = fit (fitNumber (placeText t base) line) ['\n'] := rfl
  unfold NewlineKept
  rw [htext, getLast?_fit, hnewline]
  by_cases hfits : NewlineFits t.length base.length
  · have hroom : (fitNumber (placeText t base) line).length + 1 < 4000 := by
      have hne : (placeText t base).length ≠ 3999 := fun h => hlen.mp h hfits
      unfold fitNumber
      split_ifs
      · rw [List.length_append]
        omega
      · omega
    rw [if_pos ⟨hroom, List.cons_ne_nil _ _⟩]
    simp [hfits]
  · have hfull := hlen.mpr hfits
    have hnumber : fitNumber (placeText t base) line = placeText t base :=
      if_neg (by omega)
    rw [hnumber, if_neg (by omega), getLast?_placeText ht hfull]
    simp [hfits]

/-- `s'` is `s` with something appended, and not full. -/
structure Extends (s s' : LogStream) : Prop where
  length_lt : s'.buffer_.length < 4000
  text_eq : ∃ rest, s'.buffer_.text = s.buffer_.text ++ rest

theorem Extends.trans {s₁ s₂ s₃ : LogStream} (h₁ : Extends s₁ s₂) (h₂ : Extends s₂ s₃) :
    Extends s₁ s₃ := by
  obtain ⟨_, rest₁, ht₁⟩ := h₁
  obtain ⟨hlt, rest₂, ht₂⟩ := h₂
  exact ⟨hlt, rest₁ ++ rest₂, by rw [ht₂, ht₁, List.append_assoc]⟩

theorem exists_fit (t xs : List Char) : ∃ rest, fit t xs = t ++ rest := by
  unfold fit
  split_ifs
  · exact ⟨xs, rfl⟩
  · exact ⟨[], (List.append_nil t).symm⟩

variable {s' : LogStream}

theorem append_extends (h : s.buffer_.length < 4000) {data : List Char}
    (hs : s.append data = some s') : Extends s s' := by
  obtain ⟨s'', hs'', hlt, htext⟩ := append_fit h data
  obtain rfl := Option.some.inj (hs.symm.trans hs'')
  obtain ⟨rest, hrest⟩ := exists_fit s.buffer_.text data
  exact ⟨hlt, rest, htext.trans hrest⟩

theorem insertInt_extends (h : s.buffer_.length < 4000) {v : Int32}
    (hs : s.insertInt v = some s') : Extends s s' := by
  obtain ⟨s'', hs'', hlt, htext⟩ := insertInt_fit h v
  obtain rfl := Option.some.inj (hs.symm.trans hs'')
  refine ⟨hlt, ?_⟩
  unfold fitNumber at htext
  split_ifs at htext
  · exact ⟨_, htext⟩
  · exact ⟨[], by rw [htext, List.append_nil]⟩

theorem insertCString_extends (h : s.buffer_.length < 4000) {str : Option (List Char)}
    (hs : s.insertCString str = some s') : Extends s s' := by
  cases str with
  | none => exact append_extends h hs
  | some str => exact append_extends h hs

theorem insertT_extends (h : s.buffer_.length < 4000) {str : List Char} {len : ℕ}
    (hs : insertT s str len = some s') : Extends s s' := by
  simp only [insertT, Option.ite_none_right_eq_some] at hs
  exact append_extends h hs.2

theorem insertErrno_extends {ctx : Context} {savedErrno : Int32} {s₀ : LogStream}
    (h : Extends s₀ s) (hs : insertErrno ctx s savedErrno = some s') : Extends s₀ s' := by
  unfold insertErrno at hs
  split_ifs at hs
  · simp only [Option.bind_eq_bind, Option.bind_eq_some_iff] at hs
    obtain ⟨s₁, hs₁, s₂, hs₂, s₃, hs₃, hs₄⟩ := hs
    have h₁ := h.trans (insertCString_extends h.length_lt hs₁)
    have h₂ := h₁.trans (insertCString_extends h₁.length_lt hs₂)
    have h₃ := h₂.trans (insertInt_extends h₂.length_lt hs₃)
    exact h₃.trans (insertCString_extends h₃.length_lt hs₄)
  · obtain rfl := Option.some.inj hs
    exact h

/-- What the constructor of `Impl` appends to the time. -/
theorem Impl.new_extends {ctx : Context} {cache cache' : TimeCache} {level : LogLevel}
    {savedErrno : Int32} {file : SourceFile} {line : Int32} {impl_ : Impl}
    (h : Impl.new ctx cache level savedErrno file line = some (cache', impl_)) :
    ∃ stream_, formatTime ctx.g_logTimeZone cache ctx.now (.new ctx.memory) =
        some (cache', stream_) ∧
      (stream_.buffer_.length < 4000 → Extends stream_ impl_.stream_) ∧
      impl_.basename_ = file ∧ impl_.line_ = line := by
  simp only [Impl.new, Option.bind_eq_bind, Option.bind_eq_some_iff] at h
  obtain ⟨⟨cache₀, stream_⟩, htime, s₁, hs₁, s₂, hs₂, s₃, hs₃, himpl⟩ := h
  obtain ⟨rfl, rfl⟩ := Prod.mk.inj (Option.some.inj himpl)
  refine ⟨stream_, htime, fun hlt => ?_, rfl, rfl⟩
  have h₁ := insertT_extends hlt hs₁
  have h₂ := h₁.trans (insertT_extends h₁.length_lt hs₂)
  exact insertErrno_extends h₂ hs₃

/-- Every constructor begins with the time. -/
theorem new_extends {ctx : Context} {cache cache' : TimeCache} {file : SourceFile} {line : Int32}
    {c : Constructor} {impl_ : Impl} (h : new ctx cache file line c = some (cache', impl_)) :
    ∃ stream_, formatTime ctx.g_logTimeZone cache ctx.now (.new ctx.memory) =
        some (cache', stream_) ∧
      (stream_.buffer_.length < 4000 → Extends stream_ impl_.stream_) ∧
      impl_.basename_ = file ∧ impl_.line_ = line := by
  cases c with
  | plain => exact Impl.new_extends h
  | level level => exact Impl.new_extends h
  | toAbort toAbort => exact Impl.new_extends h
  | levelFunc level func =>
    simp only [new, Option.bind_eq_bind, Option.bind_eq_some_iff] at h
    obtain ⟨⟨cache₀, impl₀⟩, himpl, s₁, hs₁, s₂, hs₂, hlast⟩ := h
    obtain ⟨rfl, rfl⟩ := Prod.mk.inj (Option.some.inj hlast)
    obtain ⟨stream_, htime, hext, hfile, hline⟩ := Impl.new_extends himpl
    refine ⟨stream_, htime, fun hlt => ?_, hfile, hline⟩
    have h₀ := hext hlt
    have h₁ := h₀.trans (insertCString_extends h₀.length_lt hs₁)
    exact h₁.trans (append_extends h₁.length_lt hs₂)

/-- The header begins with the time text and what follows the seconds. -/
theorem formatTime_stream {tz : TimeZone} {cache cache' : TimeCache} {time_ : ℤ}
    {data_ : CArray Char kSmallBuffer} {stream_ : LogStream}
    (h : formatTime tz cache time_ (.new data_) = some (cache', stream_)) :
    cache'.t_time.length = 17 ∧ stream_.buffer_.length < 4000 ∧
      ∃ rest, stream_.buffer_.text = cache'.t_time ++ rest := by
  simp only [formatTime, Option.bind_eq_bind, Option.bind_eq_some_iff] at h
  obtain ⟨cache₀, _, s₁, hs₁, s₂, hs₂, hlast⟩ := h
  obtain ⟨rfl, rfl⟩ := Prod.mk.inj (Option.some.inj hlast)
  have hnew : (LogStream.new data_).buffer_.length < 4000 := Nat.succ_pos 3999
  obtain ⟨hlen, hs₁⟩ : cache₀.t_time.length = 17 ∧
      (LogStream.new data_).append cache₀.t_time = some s₁ := by
    simpa only [insertT, Option.ite_none_right_eq_some] using hs₁
  obtain ⟨s₁', hs₁', hlt, htext⟩ := append_fit hnew cache₀.t_time
  obtain rfl := Option.some.inj (hs₁.symm.trans hs₁')
  obtain ⟨hlt₂, rest, hrest⟩ := insertT_extends hlt hs₂
  have hempty : (LogStream.new data_).buffer_.text = [] := rfl
  have hfit : fit [] cache₀.t_time = cache₀.t_time :=
    if_pos (by rw [hlen]; decide)
  exact ⟨hlen, hlt₂, rest, by rw [hrest, htext, hempty, hfit]⟩

theorem new_stream {ctx : Context} {cache cache' : TimeCache} {file : SourceFile} {line : Int32}
    {c : Constructor} {impl_ : Impl} (h : new ctx cache file line c = some (cache', impl_)) :
    impl_.stream_.buffer_.length < 4000 ∧ impl_.basename_ = file := by
  obtain ⟨stream_, htime, hext, hfile, _⟩ := new_extends h
  exact ⟨(hext (formatTime_stream htime).2.1).length_lt, hfile⟩

theorem output_newline_iff {impl_ : Impl} (h : impl_.stream_.buffer_.length < 4000) :
    ∃ record, output impl_ = some record ∧
      (record.getLast? = some '\n' ↔
        NewlineKept impl_.stream_.buffer_.text impl_.basename_.data_) := by
  refine ⟨_, output_eq h, getLast?_finishText ?_ (natAbs_toInt_lt _)⟩
  rwa [FixedBuffer.length_text]

/-- Exactly when a record ends with a newline, whatever logger made it and whatever the
caller inserted. -/
theorem newline_terminated_iff (format : Float → List Char)
    (hformat : ∀ v, (format v).length ≤ 31) {ctx : Context} {cache cache' : TimeCache}
    {file : SourceFile} {line : Int32} {c : Constructor} {impl_ : Impl}
    (hnew : new ctx cache file line c = some (cache', impl_)) (ops : List Insertion) :
    ∃ s record, Runs.run (insert format) impl_.stream_ ops = some s ∧
      output { impl_ with stream_ := s } = some record ∧
      (record.getLast? = some '\n' ↔ NewlineKept s.buffer_.text file.data_) := by
  obtain ⟨hlt, rfl⟩ := new_stream hnew
  obtain ⟨s, hrun, hs⟩ := Runs.exists_run (I := fun s : LogStream => s.buffer_.length < 4000)
    (fun s op hs => LogStream.insert_length_lt hformat hs op) impl_.stream_ hlt ops
  obtain ⟨record, hrecord, hiff⟩ := @output_newline_iff { impl_ with stream_ := s } hs
  exact ⟨s, record, hrun, hrecord, hiff⟩

/-- A thread in a process without a time zone. -/
def utcContext : Context where
  g_logTimeZone := ⟨none⟩
  now := 1704067200000000
  tid := 1
  errno := 0
  strerror_tl := fun _ => []
  memory := ⟨fun _ => nul⟩

def newYearCache : TimeCache := ⟨"20240101 00:00:00".toList, 1704067200⟩

/-- Its header is 38 characters. -/
theorem exists_logger : ∃ cache' impl_,
    new utcContext newYearCache (.ofFilename "a.cc".toList) 7 .plain = some (cache', impl_) ∧
      impl_.stream_.buffer_.length = 38 := by
  have hsome : (new utcContext newYearCache (.ofFilename "a.cc".toList) 7 .plain).any
      (fun made => made.2.stream_.buffer_.length = 38) = true := by decide
  obtain ⟨⟨cache', impl_⟩, hnew, hlen⟩ := Option.any_eq_true _ _ |>.mp hsome
  exact ⟨cache', impl_, hnew, of_decide_eq_true hlen⟩

theorem newline_terminated_iff_short :
    ∃ cache' impl_ s record,
      new utcContext newYearCache (.ofFilename "a.cc".toList) 7 .plain = some (cache', impl_) ∧
      Runs.run (insert fun _ => []) impl_.stream_ [.char 'x'] = some s ∧
      output { impl_ with stream_ := s } = some record ∧ record.getLast? = some '\n' := by
  obtain ⟨cache', impl_, hnew, hlen⟩ := exists_logger
  obtain ⟨s, record, hrun, hrecord, hiff⟩ :=
    newline_terminated_iff (fun _ => []) (fun _ => Nat.zero_le 31) hnew [.char 'x']
  refine ⟨cache', impl_, s, record, hnew, hrun, hrecord, hiff.mpr (Or.inl ?_)⟩
  obtain ⟨s', hs', _, htext⟩ := @append_fit impl_.stream_ (by omega) ['x']
  have hrun' : Runs.run (insert fun _ => []) impl_.stream_ [.char 'x'] = some s' := by
    rw [Runs.run_cons, insert, LogStream.insertChar, hs']
    rfl
  obtain rfl := Option.some.inj (hrun.symm.trans hrun')
  rw [htext, length_fit, FixedBuffer.length_text, hlen]
  decide

/-- A text that fills the stream to the last usable cell leaves no room for the rest. -/
theorem newline_dropped : ¬ ∀ (format : Float → List Char) (_ : ∀ v, (format v).length ≤ 31)
    (ctx : Context) (cache cache' : TimeCache) (file : SourceFile) (line : Int32)
    (c : Constructor) (impl_ : Impl), new ctx cache file line c = some (cache', impl_) →
      ∀ (ops : List Insertion) (s : LogStream) (record : List Char),
        Runs.run (insert format) impl_.stream_ ops = some s →
        output { impl_ with stream_ := s } = some record → record.getLast? = some '\n' := by
  intro hevery
  obtain ⟨cache', impl_, hnew, hlen⟩ := exists_logger
  obtain ⟨filler, hsize, hfiller⟩ : ∃ filler : List Char,
      filler.length = 3961 ∧ filler.getLast? = some 'x' :=
    ⟨List.replicate 3961 'x', List.length_replicate, List.getLast?_replicate⟩
  obtain ⟨s, hs, hlt, htext⟩ := @append_fit impl_.stream_ (by omega) filler
  have hrun : Runs.run (insert fun _ => []) impl_.stream_ [.string filler] = some s := by
    rw [Runs.run_cons, insert, LogStream.insertString, hs]
    rfl
  have hfull : s.buffer_.text.length = 3999 := by
    rw [htext, length_fit, FixedBuffer.length_text, hlen, hsize]
    rfl
  have hlast : s.buffer_.text.getLast? = some 'x' := by
    rw [htext, getLast?_fit, FixedBuffer.length_text, hlen, hsize,
      if_pos ⟨by omega, List.ne_nil_of_length_pos (by omega)⟩, hfiller]
  obtain ⟨record, hrecord, hiff⟩ := @output_newline_iff { impl_ with stream_ := s } hlt
  have hkept := hiff.mp (hevery (fun _ => []) (fun _ => Nat.zero_le 31) _ _ _ _ _ _ _ hnew _ _ _
    hrun hrecord)
  have hfile : impl_.basename_ = .ofFilename "a.cc".toList := (new_stream hnew).2
  simp only [NewlineKept, hfull, hlast, hfile] at hkept
  revert hkept
  decide

end NaiveNet.Logger
