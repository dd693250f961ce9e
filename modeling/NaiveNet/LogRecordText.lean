import NaiveNet.LogTime

/-!
# The text of a record

Constructor, caller and destructor of a `Logger` only insert into its stream, so a record
is one fold of insertions over a text that grows to at most 3999 characters. Each takes
its place or is left out as a whole; the record says everything exactly if each of them
fits behind all those before it.
-/
namespace NaiveNet

namespace Insertion

variable (format : Float → List Char)

/-- The text after an insertion. -/
def place (t : List Char) : Insertion → List Char
  | .resetBuffer => []
  | op => if op.skipped format (4000 - t.length) then t else t ++ op.rendering format

def isReset : Insertion → Bool
  | .resetBuffer => true
  | _ => false

theorem place_eq {op : Insertion} (h : op.isReset = false) (t : List Char) :
    op.place format t =
      if op.skipped format (4000 - t.length) then t else t ++ op.rendering format := by
  cases op <;> first | contradiction | rfl

/-- Every insertion finds room behind the text so far, or has nothing to say. -/
def Fits : ℕ → List Insertion → Prop
  | _, [] => True
  | length, op :: ops => (op.rendering format = [] ∨
      op.skipped format (4000 - length) = false) ∧
        Fits (length + (op.rendering format).length) ops

instance decidableFits (length : ℕ) (ops : List Insertion) : Decidable (Fits format length ops) :=
  match ops with
  | [] => .isTrue trivial
  | op :: ops =>
    have := decidableFits (length + (op.rendering format).length) ops
    inferInstanceAs (Decidable (_ ∧ _))

/-- The text that the insertions stand for together. -/
def whole (ops : List Insertion) : List Char :=
  ops.flatMap (rendering format)

theorem length_place_le {op : Insertion} (h : op.isReset = false) (t : List Char) :
    (op.place format t).length ≤ t.length + (op.rendering format).length := by
  rw [place_eq format h]
  split_ifs
  · exact Nat.le_add_right _ _
  · exact List.length_append.le

theorem length_foldl_place_le {ops : List Insertion} (h : ∀ op ∈ ops, op.isReset = false)
    (t : List Char) :
    (ops.foldl (place format) t).length ≤ t.length + (whole format ops).length := by
  induction ops generalizing t with
  | nil => exact Nat.le_add_right _ _
  | cons op ops ih =>
    obtain ⟨hop, hops⟩ := List.forall_mem_cons.mp h
    have hrest := ih hops (op.place format t)
    have hfirst := length_place_le format hop t
    rw [List.foldl_cons, whole, List.flatMap_cons, List.length_append]
    unfold whole at hrest
    omega

/-- Without `resetBuffer` the text is complete exactly if every insertion fits. -/
theorem foldl_place_eq_iff {ops : List Insertion} (h : ∀ op ∈ ops, op.isReset = false)
    (t : List Char) :
    ops.foldl (place format) t = t ++ whole format ops ↔ Fits format t.length ops := by
  induction ops generalizing t with
  | nil => simp [whole, Fits]
  | cons op ops ih =>
    obtain ⟨hop, hops⟩ := List.forall_mem_cons.mp h
    have hwhole : whole format (op :: ops) = op.rendering format ++ whole format ops := rfl
    rw [List.foldl_cons, hwhole, Fits, ← List.append_assoc, ← List.length_append]
    by_cases hplaced : op.rendering format = [] ∨ op.skipped format (4000 - t.length) = false
    · have hplace : op.place format t = t ++ op.rendering format := by
        rw [place_eq format hop]
        split_ifs with hskip
        · rw [hplaced.resolve_right (by simp [hskip]), List.append_nil]
        · rfl
      rw [hplace, ih hops, and_iff_right hplaced]
    · -- a piece left out cannot be made up for
      have hplace : op.place format t = t := by
        rw [place_eq format hop, if_pos]
        simpa using (not_or.mp hplaced).2
      have hpos := List.length_pos_iff.mpr (not_or.mp hplaced).1
      have hle := length_foldl_place_le format hops t
      rw [hplace]
      constructor
      · intro heq
        rw [heq, List.length_append, List.length_append] at hle
        omega
      · intro hfits
        exact absurd hfits.1 hplaced

/-- Text of at most 3968 characters fits: a number asks for no more than 32. -/
theorem fits_of_length_le {ops : List Insertion} {length : ℕ}
    (h : length + (whole format ops).length ≤ 3968) : Fits format length ops := by
  induction ops generalizing length with
  | nil => trivial
  | cons op ops ih =>
    rw [whole, List.flatMap_cons, List.length_append] at h
    refine ⟨Or.inr ?_, ih (by unfold whole; omega)⟩
    unfold skipped
    split_ifs
    · exact decide_eq_false (by omega)
    · exact decide_eq_false (by omega)

end Insertion

namespace LogStream

variable {format : Float → List Char} {s : LogStream}

theorem insert_place (hformat : ∀ v, (format v).length ≤ 31) (h : s.buffer_.length < 4000)
    (op : Insertion) :
    ∃ s', insert format s op = some s' ∧ s'.buffer_.length < 4000 ∧
      s'.buffer_.text = op.place format s.buffer_.text := by
  cases hop : op.isReset with
  | true =>
    obtain rfl : op = .resetBuffer := by cases op <;> first | contradiction | rfl
    exact ⟨s.resetBuffer, rfl, Nat.succ_pos 3999, rfl⟩
  | false =>
    have hne : op ≠ .resetBuffer := by
      intro heq
      rw [heq] at hop
      contradiction
    refine ⟨_, insert_eq hformat h hne, length_appended_lt hformat h hne, ?_⟩
    rw [text_appended, Insertion.place_eq format hop, FixedBuffer.length_text]
    rfl

/-- On texts a run of insertions is a fold. -/
theorem run_place (hformat : ∀ v, (format v).length ≤ 31) (h : s.buffer_.length < 4000)
    (ops : List Insertion) :
    ∃ s', Runs.run (insert format) s ops = some s' ∧ s'.buffer_.length < 4000 ∧
      s'.buffer_.text = ops.foldl (Insertion.place format) s.buffer_.text := by
  induction ops generalizing s with
  | nil => exact ⟨s, rfl, h, rfl⟩
  | cons op ops ih =>
    obtain ⟨s₁, hs₁, h₁, htext⟩ := insert_place hformat h op
    obtain ⟨s₂, hs₂, h₂, hrest⟩ := ih h₁
    refine ⟨s₂, ?_, h₂, ?_⟩
    · rw [Runs.run_cons, hs₁, Option.bind_some, hs₂]
    · rw [hrest, htext, List.foldl_cons]

end LogStream

namespace Logger

variable (format : Float → List Char) {ctx : Context} {cache cache' : TimeCache}
  {file : SourceFile} {line : Int32} {impl_ : Impl}

/-- What `formatTime` inserts, from the text of the second. -/
def timeOps (ctx : Context) (cache : TimeCache) : List Insertion :=
  [.append cache.t_time, .append (microText ctx.g_logTimeZone.valid
    (ctx.now.tmod kMicroSecondsPerSecond))]

def errnoOps (ctx : Context) (savedErrno : Int32) : List Insertion :=
  if savedErrno ≠ 0 then
    [.cString (some (ctx.strerror_tl savedErrno)), .cString (some " (errno=".toList),
      .int savedErrno, .cString (some ") ".toList)]
  else []

/-- What the constructor of `Impl` inserts. -/
def implOps (ctx : Context) (cache : TimeCache) (level : LogLevel) (savedErrno : Int32) :
    List Insertion :=
  timeOps ctx cache ++ [.append (blankFilled 5 ctx.tid ++ [' ']), .append (LogLevelName level)] ++
    errnoOps ctx savedErrno

/-- What a constructor inserts. -/
def constructorOps (ctx : Context) (cache : TimeCache) : Constructor → List Insertion
  | .plain => implOps ctx cache .INFO 0
  | .levelFunc level func => implOps ctx cache level 0 ++ [.cString func, .char ' ']
  | .level level => implOps ctx cache level 0
  | .toAbort toAbort => implOps ctx cache (if toAbort then .FATAL else .ERROR) ctx.errno

/-- What the destructor inserts. -/
def finishOps (file : SourceFile) (line : Int32) : List Insertion :=
  [.cString (some " - ".toList), .append file.data_, .char ':', .int line, .char '\n']

/-- All that goes into a record. -/
def recordOps (ctx : Context) (cache : TimeCache) (c : Constructor) (ops : List Insertion)
    (file : SourceFile) (line : Int32) : List Insertion :=
  constructorOps ctx cache c ++ ops ++ finishOps file line

variable {s s' : LogStream}

theorem formatTime_run {data_ : CArray Char kSmallBuffer}
    (h : formatTime ctx.g_logTimeZone cache ctx.now (.new data_) = some (cache', s)) :
    Runs.run (insert format) (.new data_) (timeOps ctx cache') = some s := by
  simp only [formatTime, Option.bind_eq_bind, Option.bind_eq_some_iff, insertT,
    Option.ite_none_right_eq_some] at h
  obtain ⟨cache₀, _, s₁, ⟨_, hs₁⟩, s₂, ⟨_, hs₂⟩, hlast⟩ := h
  obtain ⟨rfl, rfl⟩ := Prod.mk.inj (Option.some.inj hlast)
  simp only [timeOps, Runs.run_cons, insert, hs₁, Option.bind_some, hs₂, Runs.run_nil]

theorem insertErrno_run {savedErrno : Int32} (h : insertErrno ctx s savedErrno = some s') :
    Runs.run (insert format) s (errnoOps ctx savedErrno) = some s' := by
  unfold insertErrno at h
  unfold errnoOps
  split_ifs at h with hsaved
  · simp only [Option.bind_eq_bind, Option.bind_eq_some_iff] at h
    obtain ⟨s₁, hs₁, s₂, hs₂, s₃, hs₃, hs₄⟩ := h
    rw [if_pos hsaved]
    simp only [Runs.run_cons, insert, hs₁, hs₂, hs₃, hs₄, Option.bind_some, Runs.run_nil]
  · rw [if_neg hsaved]
    exact h

theorem Impl.new_run {level : LogLevel} {savedErrno : Int32}
    (h : Impl.new ctx cache level savedErrno file line = some (cache', impl_)) :
    Runs.run (insert format) (.new ctx.memory) (implOps ctx cache' level savedErrno) =
      some impl_.stream_ ∧ impl_.basename_ = file ∧ impl_.line_ = line := by
  simp only [Impl.new, Option.bind_eq_bind, Option.bind_eq_some_iff, insertT,
    Option.ite_none_right_eq_some] at h
  obtain ⟨⟨cache₀, stream_⟩, htime, s₁, ⟨_, hs₁⟩, s₂, ⟨_, hs₂⟩, s₃, hs₃, himpl⟩ := h
  obtain ⟨rfl, rfl⟩ := Prod.mk.inj (Option.some.inj himpl)
  refine ⟨?_, rfl, rfl⟩
  rw [implOps, Runs.run_append, Runs.run_append, formatTime_run format htime, Option.bind_some]
  simp only [Runs.run_cons, insert, hs₁, Option.bind_some, hs₂, Runs.run_nil]
  exact insertErrno_run format hs₃

/-- A constructor is a run of insertions into the fresh stream. -/
theorem new_run {c : Constructor} (h : new ctx cache file line c = some (cache', impl_)) :
    Runs.run (insert format) (.new ctx.memory) (constructorOps ctx cache' c) = some impl_.stream_ ∧
      impl_.basename_ = file ∧ impl_.line_ = line := by
  cases c with
  | plain => exact Impl.new_run format h
  | level level => exact Impl.new_run format h
  | toAbort toAbort => exact Impl.new_run format h
  | levelFunc level func =>
    simp only [new, Option.bind_eq_bind, Option.bind_eq_some_iff] at h
    obtain ⟨⟨cache₀, impl₀⟩, himpl, s₁, hs₁, s₂, hs₂, hlast⟩ := h
    obtain ⟨rfl, rfl⟩ := Prod.mk.inj (Option.some.inj hlast)
    obtain ⟨hrun, hfile, hline⟩ := Impl.new_run format himpl
    refine ⟨?_, hfile, hline⟩
    rw [constructorOps, Runs.run_append, hrun, Option.bind_some]
    simp only [Runs.run_cons, insert, hs₁, hs₂, Option.bind_some, Runs.run_nil]

/-- And the destructor a run on the stream as the caller leaves it. -/
theorem finish_run {impl' : Impl} (h : impl_.finish = some impl') :
    Runs.run (insert format) impl_.stream_ (finishOps impl_.basename_ impl_.line_) =
      some impl'.stream_ := by
  simp only [Impl.finish, insertSourceFile, Option.bind_eq_bind, Option.bind_eq_some_iff] at h
  obtain ⟨s₁, hs₁, s₂, hs₂, s₃, hs₃, s₄, hs₄, s₅, hs₅, hlast⟩ := h
  obtain rfl := Option.some.inj hlast
  simp only [finishOps, Runs.run_cons, insert, hs₁, hs₂, hs₃, hs₄, hs₅, Option.bind_some,
    Runs.run_nil]

/-- On texts a constructor is a fold from nothing. -/
theorem new_text (hformat : ∀ v, (format v).length ≤ 31) {c : Constructor}
    (h : new ctx cache file line c = some (cache', impl_)) :
    impl_.stream_.buffer_.text =
      (constructorOps ctx cache' c).foldl (Insertion.place format) [] := by
  obtain ⟨s, hs, _, htext⟩ := @LogStream.run_place format (.new ctx.memory) hformat
    (Nat.succ_pos 3999) (constructorOps ctx cache' c)
  rw [(new_run format h).1] at hs
  rw [Option.some.inj hs, htext]
  rfl

/-- And the destructor a fold from the text it finds. -/
theorem output_text (hformat : ∀ v, (format v).length ≤ 31)
    (h : impl_.stream_.buffer_.length < 4000) :
    output impl_ = some ((finishOps impl_.basename_ impl_.line_).foldl (Insertion.place format)
      impl_.stream_.buffer_.text) ∧
    ((finishOps impl_.basename_ impl_.line_).foldl (Insertion.place format)
      impl_.stream_.buffer_.text).length < 4000 := by
  obtain ⟨s, hs, hlt, htext⟩ :=
    LogStream.run_place hformat h (finishOps impl_.basename_ impl_.line_)
  obtain ⟨impl', himpl', _⟩ := Option.map_eq_some_iff.mp (output_eq h)
  rw [finish_run format himpl'] at hs
  rw [output, himpl', Option.map_some, ← htext, Option.some.inj hs]
  exact ⟨rfl, by rwa [FixedBuffer.length_text]⟩

theorem implOps_keep (level : LogLevel) (savedErrno : Int32) :
    ∀ op ∈ implOps ctx cache level savedErrno, op.isReset = false := by
  unfold implOps timeOps errnoOps
  split_ifs <;> simp [Insertion.isReset]

theorem constructorOps_keep (c : Constructor) :
    ∀ op ∈ constructorOps ctx cache c, op.isReset = false := by
  cases c with
  | plain => exact implOps_keep .INFO 0
  | level level => exact implOps_keep level 0
  | toAbort toAbort => exact implOps_keep _ ctx.errno
  | levelFunc level func =>
    rw [constructorOps, List.forall_mem_append]
    exact ⟨implOps_keep level 0, by simp [Insertion.isReset]⟩

/-- A logger never resets its stream. -/
theorem recordOps_keep {c : Constructor} {ops : List Insertion}
    (h : ∀ op ∈ ops, op.isReset = false) :
    ∀ op ∈ recordOps ctx cache c ops file line, op.isReset = false := by
  rw [recordOps, List.forall_mem_append, List.forall_mem_append]
  exact ⟨⟨constructorOps_keep c, h⟩, by simp [finishOps, Insertion.isReset]⟩

/-- A record is the fold of all that its logger and the caller insert. Unless the caller
resets the stream it is complete exactly if each insertion fits behind the ones before,
and always if it has at most 3968 characters. -/
theorem record_text (format : Float → List Char) (hformat : ∀ v, (format v).length ≤ 31)
    {ctx : Context} {cache cache' : TimeCache} {file : SourceFile} {line : Int32}
    {c : Constructor} {impl_ : Impl} (hnew : new ctx cache file line c = some (cache', impl_))
    (ops : List Insertion) :
    ∃ s record, Runs.run (insert format) impl_.stream_ ops = some s ∧
      output { impl_ with stream_ := s } = some record ∧ record.length < 4000 ∧
      record = (recordOps ctx cache' c ops file line).foldl (Insertion.place format) [] ∧
      ((∀ op ∈ ops, op.isReset = false) →
        (record = Insertion.whole format (recordOps ctx cache' c ops file line) ↔
          Insertion.Fits format 0 (recordOps ctx cache' c ops file line)) ∧
        ((Insertion.whole format (recordOps ctx cache' c ops file line)).length ≤ 3968 →
          record = Insertion.whole format (recordOps ctx cache' c ops file line))) := by
  obtain ⟨_, hfile, hline⟩ := new_run format hnew
  obtain ⟨s, hops, hlt, htext⟩ := LogStream.run_place hformat (new_stream hnew).1 ops
  obtain ⟨houtput, hlen⟩ := @output_text format { impl_ with stream_ := s } hformat hlt
  have hrecord : (finishOps impl_.basename_ impl_.line_).foldl (Insertion.place format)
      s.buffer_.text =
      (recordOps ctx cache' c ops file line).foldl (Insertion.place format) [] := by
    rw [hfile, hline, htext, new_text format hformat hnew, recordOps, List.foldl_append,
      List.foldl_append]
  refine ⟨s, _, hops, houtput, hlen, hrecord, fun hreset => ?_⟩
  have hwhole : (finishOps impl_.basename_ impl_.line_).foldl (Insertion.place format)
      s.buffer_.text = Insertion.whole format (recordOps ctx cache' c ops file line) ↔
      Insertion.Fits format 0 (recordOps ctx cache' c ops file line) := by
    rw [hrecord]
    exact Insertion.foldl_place_eq_iff format (recordOps_keep hreset) []
  exact ⟨hwhole, fun hlen => hwhole.mpr (Insertion.fits_of_length_le format (by omega))⟩

/-- A warning with a number, in the second of the thread's last record. -/
theorem record_text_warning :
    ∃ cache' impl_ s record,
      new utcContext newYearCache (.ofFilename "src/a.cc".toList) 7 (.level .WARN) =
        some (cache', impl_) ∧
      Runs.run (insert fun _ => []) impl_.stream_ [.cString (some "n = ".toList), .int (-42)] =
        some s ∧
      output { impl_ with stream_ := s } = some record ∧
      record = "20240101 00:00:00.000000Z     1 WARN  n = -42 - a.cc:7\n".toList := by
  have hsome : (new utcContext newYearCache (.ofFilename "src/a.cc".toList) 7
      (.level .WARN)).any (fun made => made.1 = newYearCache) = true := by decide
  obtain ⟨⟨cache', impl_⟩, hnew, hcache⟩ := Option.any_eq_true _ _ |>.mp hsome
  obtain rfl := of_decide_eq_true hcache
  obtain ⟨s, record, hrun, houtput, _, _, hwhole⟩ := record_text (fun _ => [])
    (fun _ => Nat.zero_le 31) hnew [.cString (some "n = ".toList), .int (-42)]
  have hrecord := (hwhole (by simp [Insertion.isReset])).2 (by decide)
  exact ⟨_, impl_, s, record, hnew, hrun, houtput, hrecord.trans (by decide)⟩

end Logger

end NaiveNet
