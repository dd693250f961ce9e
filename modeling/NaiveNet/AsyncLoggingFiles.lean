import NaiveNet.AsyncLoggingMessages
import NaiveNet.LogFileRolls

/-!
# Asynchronous logging into files

`threadFunc` and its `LogFile output` together: what the back end writes goes through
`LogFile::append`, which may roll to a new file after any of its calls, whatever the clock
says. Each half of a run is a run of its own model, so what holds there holds here; the
results below are about both. `output` is constructed after `latch_` is counted down, and
`LogFile::append` is asked for whole buffers and for notices, never for a part of one.
The files are those of `LogFile`, which store all they are given: every write is complete.
-/
namespace NaiveNet.AsyncLogging

/-- What the constructor is given, and what `LogFile` asks the system for. -/
structure Config where
  basename_ : List Char
  rollSize_ : ℕ
  hostname : List Char
  pid : ℤ

/-- `LogFile output(basename_, rollSize_, false)` -/
def Config.output (config : Config) : LogFile.Config where
  basename_ := config.basename_
  rollSize_ := config.rollSize_
  flushInterval_ := 3
  checkEveryN_ := 1024
  hostname := config.hostname
  pid := config.pid

/-- The readings of the clock in one call of `LogFile`: any, but after the epoch. -/
structure Clock where
  written : ℤ
  checked : ℤ
  rolled : ℤ
  rolled_pos : 0 < rolled

/-- What a statement of the back end asks of `output`. -/
inductive FileCall
  | nothing
  | construct
  | append (w : Written)
  | flush

/-- `buf` of a notice has no terminator inside, so `strlen(buf)` is its length. -/
def fileCall (s : State) : Action → FileCall
  | .threadFunc time =>
    match s.backEnd with
    | .latched => .construct
    | .swapped =>
      if 25 < s.buffersToWrite.length then
        .append (.notice (notice time (s.buffersToWrite.length - 2)))
      else .nothing
    | .writing i =>
      match s.buffersToWrite[i]? with
      | some b => .append (.buffer b)
      | none => .nothing
    | .clearing => .flush
    | .left => .flush
    | _ => .nothing
  | _ => .nothing

/-- The outer `none` is a call without an object. -/
def FileCall.perform (config : LogFile.Config) (k : Clock) (output : Option LogFile.State) :
    FileCall → Option (Option LogFile.State)
  | .nothing => some output
  | .construct => some (some (LogFile.new config k.rolled))
  | .append w => do
    let f ← output
    (LogFile.step f (.append w.text k.written k.checked k.rolled)).map some
  | .flush => do
    let f ← output
    (LogFile.step f .flush).map some

/-- The front ends, the back end and its file. -/
structure System where
  logging : State
  output : Option LogFile.State

namespace System

/-- Before `start`. -/
def new : System := ⟨AsyncLogging.new, none⟩

def step (config : Config) (s : System) (a : Action × Clock) : Option System := do
  let logging ← AsyncLogging.step s.logging a.1
  let output ← (fileCall s.logging a.1).perform config.output a.2 s.output
  return ⟨logging, output⟩

def Reachable (config : Config) (s : System) : Prop := Runs.Reaches (step config) new s

/-- The files, in the order in which they were opened. -/
def files (s : System) : List AppendFile := (s.output.map LogFile.State.files).getD []

end System

/-- What a call adds to `output`. -/
def FileCall.written : FileCall → List Written
  | .append w => [w]
  | _ => []

/-- The back end has not come to the construction of `output`. -/
def BackEnd.early : BackEnd → Bool
  | .notStarted | .starting | .latched => true
  | _ => false

variable {s s' : State} {a : Action}

/-- What the model of the back end writes is what `output.append` is asked for. -/
theorem output_step (he : Effect s a s') : s'.output = s.output ++ (fileCall s a).written := by
  have hkeep {p : BackEnd} (h : s.backEnd = p)
      (hp : ∀ time, (fileCall { s with backEnd := p } (.threadFunc time)).written = [])
      (time : List Char) : s.output = s.output ++ (fileCall s (.threadFunc time)).written := by
    have hcall := hp time
    rw [← h] at hcall
    exact (List.append_nil _).symm.trans (congrArg _ hcall.symm)
  cases he with
  | append | appendNext | appendNew | start | stop | join => exact (List.append_nil _).symm
  | @dropMessages time h hsize => simp [fileCall, h, hsize, FileCall.written]
  | keepMessages h hne hsize =>
    simp [fileCall, h, Nat.not_lt.mpr hsize, FileCall.written]
  | write h hb => simp [fileCall, h, hb, FileCall.written]
  | written h hle => simp [fileCall, h, List.getElem?_eq_none hle, FileCall.written]
  | swap h hb hn | swapBoth h hb hn =>
    obtain ⟨h, _⟩ | h := h
    · exact hkeep h (fun _ => rfl) _
    · exact hkeep h (fun _ => rfl) _
  | begin h _ | makeBuffers h | enter h _ | leave h _ | wait h _ _ | resize h | keep1 h _
  | refill1 h _ _ | keep2 h _ | refill2 h _ _ | clear h | exit h => exact hkeep h (fun _ => rfl) _

/-- The file is there once the back end is past its construction. -/
def OutputReady (s : System) : Prop :=
  match s.output with
  | none => s.logging.backEnd.early = true ∧ s.logging.output = []
  | some f => s.logging.backEnd.early = false ∧ LogFile.FilesValid f ∧
      f.appended = s.logging.output.map Written.text

/-- The invariant of the two together. -/
structure Joint (config : Config) (s : System) : Prop where
  reachable : AsyncLogging.Reachable s.logging
  ready : OutputReady s
  refines : ∀ f, s.output = some f →
    ∃ now > 0, Runs.Reaches LogFile.step (LogFile.new config.output now) f

/-- Before the file is there, a statement constructs it or leaves it alone. -/
theorem early_step (he : Effect s a s') (hearly : s.backEnd.early = true) :
    fileCall s a = .construct ∧ s'.backEnd.early = false ∨
      fileCall s a = .nothing ∧ s'.backEnd.early = true := by
  have hlate {p : BackEnd} (h : s.backEnd = p) (hp : p.early = false) {c : Prop} : c := by
    rw [h, hp] at hearly
    contradiction
  cases he with
  | append | appendNext | appendNew | stop | join => exact Or.inr ⟨rfl, hearly⟩
  | start h => exact Or.inr ⟨rfl, rfl⟩
  | begin h _ => exact Or.inr ⟨by simp [fileCall, h], rfl⟩
  | makeBuffers h => exact Or.inl ⟨by simp [fileCall, h], rfl⟩
  | swap h hb hn | swapBoth h hb hn =>
    obtain ⟨h, _⟩ | h := h
    · exact hlate h rfl
    · exact hlate h rfl
  | enter h _ | leave h _ | wait h _ _ | dropMessages h _ | keepMessages h _ _ | write h _
  | written h _ | resize h | keep1 h _ | refill1 h _ _ | keep2 h _ | refill2 h _ _ | clear h
  | exit h => exact hlate h rfl

/-- Once the file is there, it is not constructed again. -/
theorem late_step (he : Effect s a s') (hlate : s.backEnd.early = false) :
    fileCall s a ≠ .construct ∧ s'.backEnd.early = false := by
  have hearly {p : BackEnd} (h : s.backEnd = p) (hp : p.early = true) {c : Prop} : c := by
    rw [h, hp] at hlate
    contradiction
  cases he with
  | append | appendNext | appendNew | stop | join => exact ⟨FileCall.noConfusion, hlate⟩
  | start h | begin h _ | makeBuffers h => exact hearly h rfl
  | dropMessages h hsize => exact ⟨by simp [fileCall, h, hsize], rfl⟩
  | keepMessages h hne hsize => exact ⟨by simp [fileCall, h, Nat.not_lt.mpr hsize], rfl⟩
  | write h hb => exact ⟨by simp [fileCall, h, hb], rfl⟩
  | written h hle => exact ⟨by simp [fileCall, h, List.getElem?_eq_none hle], rfl⟩
  | swap h hb hn | swapBoth h hb hn =>
    obtain ⟨h, _⟩ | h := h
    · exact ⟨by simp [fileCall, h], rfl⟩
    · exact ⟨by simp [fileCall, h], rfl⟩
  | enter h _ | leave h _ | wait h _ _ | resize h | keep1 h _ | refill1 h _ _ | keep2 h _
  | refill2 h _ _ | clear h | exit h => exact ⟨by simp [fileCall, h], rfl⟩

/-- With a file, a call succeeds and stores what it is given. -/
theorem FileCall.exists_perform (config : LogFile.Config) (k : Clock) {f : LogFile.State}
    (hvalid : LogFile.FilesValid f) {c : FileCall} (hc : c ≠ .construct) :
    ∃ f', c.perform config k (some f) = some (some f') ∧ LogFile.FilesValid f' ∧
      f'.appended = f.appended ++ c.written.map Written.text ∧
      Runs.Reaches LogFile.step f f' := by
  have hcall (b : LogFile.Action) : ∃ f', LogFile.step f b = some f' ∧
      LogFile.FilesValid f' ∧ f'.appended = f.appended ++ b.messages ∧
      Runs.Reaches LogFile.step f f' := by
    obtain ⟨f', hf'⟩ := hvalid.exists_step b
    exact ⟨f', hf', hvalid.step hf', LogFile.appended_step hf', [b], by simp [hf']⟩
  cases c with
  | nothing => exact ⟨f, rfl, hvalid, (List.append_nil _).symm, [], rfl⟩
  | construct => exact absurd rfl hc
  | append w =>
    obtain ⟨f', hf', hrest⟩ := hcall (.append w.text k.written k.checked k.rolled)
    exact ⟨f', by simp [perform, hf'], hrest⟩
  | flush =>
    obtain ⟨f', hf', hrest⟩ := hcall .flush
    exact ⟨f', by simp [perform, hf'], hrest⟩

theorem joint_new (config : Config) : Joint config System.new :=
  ⟨⟨[], rfl⟩, ⟨rfl, rfl⟩, by intro f hf; contradiction⟩

/-- The file stops nobody: what the front ends and the back end can do, they can do with it,
and all that was said stays true. -/
theorem Joint.exists_step {config : Config} {s : System} (hi : Joint config s)
    (a : Action × Clock) {t : State} (ht : AsyncLogging.step s.logging a.1 = some t) :
    ∃ s', s.step config a = some s' ∧ s'.logging = t ∧ Joint config s' := by
  have he := hi.reachable.supplied.step_effect ht
  have hreach : AsyncLogging.Reachable t := hi.reachable.trans ⟨[a.1], by simp [ht]⟩
  have houtput := output_step he
  have hready := hi.ready
  unfold OutputReady at hready
  cases hf : s.output with
  | none =>
    rw [hf] at hready
    obtain ⟨hearly, hnil⟩ := hready
    rw [hnil, List.nil_append] at houtput
    obtain ⟨hcall, hlate⟩ | ⟨hcall, hearly⟩ := early_step he hearly
    · refine ⟨⟨t, some (LogFile.new config.output a.2.rolled)⟩, ?_, rfl, hreach, ?_, ?_⟩
      · simp [System.step, ht, hcall, FileCall.perform]
      · refine ⟨hlate, LogFile.filesValid_new config.output a.2.rolled_pos, ?_⟩
        have hnew : (LogFile.new config.output a.2.rolled).appended = [] := by
          rw [LogFile.new, LogFile.rollFile]
          split_ifs <;> rfl
        rw [houtput, hcall, hnew]
        rfl
      · intro f hf
        obtain rfl := Option.some.inj hf
        exact ⟨a.2.rolled, a.2.rolled_pos, [], rfl⟩
    · refine ⟨⟨t, none⟩, ?_, rfl, hreach, ⟨hearly, ?_⟩, by intro g hg; contradiction⟩
      · simp [System.step, ht, hcall, hf, FileCall.perform]
      · rw [houtput, hcall]
        rfl
  | some f =>
    rw [hf] at hready
    obtain ⟨hlate, hvalid, happended⟩ := hready
    obtain ⟨hcall, hlate⟩ := late_step he hlate
    obtain ⟨f', hperform, hvalid', happended', hreaches⟩ :=
      FileCall.exists_perform config.output a.2 hvalid hcall
    refine ⟨⟨t, some f'⟩, ?_, rfl, hreach, ⟨hlate, hvalid', ?_⟩, ?_⟩
    · simp [System.step, ht, hf, hperform]
    · rw [happended', happended, houtput, List.map_append]
    · intro g hg
      obtain rfl := Option.some.inj hg
      obtain ⟨now, hpos, hfrom⟩ := hi.refines f hf
      exact ⟨now, hpos, hfrom.trans hreaches⟩

theorem Joint.step {config : Config} {s s' : System} {a : Action × Clock}
    (hi : Joint config s) (hs : s.step config a = some s') : Joint config s' := by
  obtain ⟨t, ht, _⟩ := Option.bind_eq_some_iff.mp hs
  obtain ⟨r, hr, _, hjoint⟩ := hi.exists_step a ht
  obtain rfl := Option.some.inj (hr.symm.trans hs)
  exact hjoint

/-- The front ends and the back end do not see the file. -/
theorem System.run_logging {config : Config} {s s' : System} {as : List (Action × Clock)}
    (h : Runs.run (System.step config) s as = some s') :
    Runs.run AsyncLogging.step s.logging (as.map Prod.fst) = some s'.logging := by
  refine Runs.run_map (fun s a s' hs => ?_) h
  obtain ⟨t, ht, hs⟩ := Option.bind_eq_some_iff.mp hs
  obtain ⟨output, _, hs⟩ := Option.bind_eq_some_iff.mp hs
  obtain rfl := Option.some.inj hs
  exact ht

theorem System.Reachable.joint {config : Config} {s : System} (h : s.Reachable config) :
    Joint config s :=
  h.invariant (fun _ _ _ => Joint.step) (joint_new config)

/-- What a reader of the files finds: a notice, or a message with its number. -/
inductive Record
  | notice (buf : List Char)
  | message (m : Message)

def Record.text : Record → List Char
  | .notice buf => buf
  | .message m => m.1

def Record.message? : Record → Option Message
  | .notice _ => none
  | .message m => some m

def Written.records : Written → List Record
  | .notice buf => [.notice buf]
  | .buffer b => b.messages.map .message

theorem Written.text_records (w : Written) : w.records.flatMap Record.text = w.text := by
  cases w with
  | notice buf => exact List.append_nil _
  | buffer b =>
    rw [records, List.flatMap_map, text, b.text_eq]
    rfl

theorem Written.message_records (w : Written) :
    w.records.filterMap Record.message? = w.messages := by
  cases w with
  | notice buf => rfl
  | buffer b => simp [records, messages, List.filterMap_map, Function.comp_def, Record.message?]

/-- Lists that joined are the image of a list are the images of its pieces. -/
theorem exists_pieces {α β : Type*} {f : α → β} {xss : List (List β)} {ys : List α}
    (h : xss.flatten = ys.map f) :
    ∃ parts : List (List α), parts.flatten = ys ∧ xss = parts.map (List.map f) := by
  induction xss generalizing ys with
  | nil =>
    obtain rfl : ys = [] := by simpa using h
    exact ⟨[], rfl, rfl⟩
  | cons xs xss ih =>
    rw [List.flatten_cons] at h
    obtain ⟨zs, ws, rfl, rfl, hrest⟩ := List.append_eq_map_iff.mp h
    obtain ⟨parts, rfl, rfl⟩ := ih hrest.symm
    exact ⟨zs :: parts, rfl, rfl⟩

/-- Files that were given the texts of `output` consist of its records. -/
theorem exists_parts {files : List AppendFile} {output : List Written}
    (h : files.flatMap AppendFile.messages = output.map Written.text) :
    ∃ parts : List (List Record),
      files.map AppendFile.text = parts.map (List.flatMap Record.text) ∧
      parts.flatten.filterMap Record.message? = output.flatMap Written.messages := by
  have hmessages : (files.map AppendFile.messages).flatten = output.map Written.text := h
  obtain ⟨pieces, rfl, hpieces⟩ := exists_pieces hmessages
  refine ⟨pieces.map (List.flatMap Written.records), ?_, ?_⟩
  · have htext : files.map AppendFile.text =
        (files.map AppendFile.messages).map List.flatten := by
      rw [List.map_map]
      rfl
    rw [htext, hpieces, List.map_map, List.map_map]
    refine List.map_congr_left fun piece _ => ?_
    simp only [Function.comp_apply, List.flatMap_assoc, Written.text_records]
    rfl
  · have hrecords : (pieces.map (List.flatMap Written.records)).flatten =
        pieces.flatten.flatMap Written.records := by
      rw [List.flatten_eq_flatMap, List.flatMap_map, List.flatten_eq_flatMap, List.flatMap_assoc]
      rfl
    rw [hrecords, List.filterMap_flatMap]
    simp only [Written.message_records]

/-- Where every write to a file is complete, the files hold the log. A file consists of whole
records, the messages in the files and those still in memory are in this order those of the
calls of `append`, but for the ones that no buffer holds or that were dropped, and the files are
opened at later and later seconds under different names. The file is a run of `LogFile`, and it
stops neither the front ends nor the back end. -/
theorem files_hold_messages {config : Config} {as : List (Action × Clock)} {s : System}
    (h : Runs.run (System.step config) System.new as = some s) :
    (∃ parts : List (List Record),
      s.files.map AppendFile.text = parts.map (List.flatMap Record.text) ∧
      parts.flatten.filterMap Record.message? ++
        s.logging.waiting.flatMap Buffer.messages =
          (((as.map Prod.fst).flatMap Action.messages).zipIdx.filter fun m =>
            m.1.length < kLargeBuffer ∧
              m.2 ∉ lost (Runs.trace AsyncLogging.step oversize new (as.map Prod.fst)))) ∧
    (s.files.map AppendFile.opened).Pairwise (· < ·) ∧
    (s.files.map AppendFile.filename).Nodup ∧
    (∀ f, s.output = some f →
      ∃ now > 0, Runs.Reaches LogFile.step (LogFile.new config.output now) f) ∧
    ∀ (a : Action) (t : State), AsyncLogging.step s.logging a = some t → ∀ k,
      ∃ s', s.step config (a, k) = some s' ∧ s'.logging = t := by
  have hi := System.Reachable.joint ⟨as, h⟩
  have hlogging := System.run_logging h
  have hkept := hi.reachable.conserved.messages_eq
  rw [State.kept, State.lost, appended_run hlogging, oversized_run hlogging] at hkept
  have hready := hi.ready
  have hstep (a : Action) (t : State) (ht : AsyncLogging.step s.logging a = some t) (k : Clock) :
      ∃ s', s.step config (a, k) = some s' ∧ s'.logging = t := by
    obtain ⟨s', hs', hlogging, _⟩ := hi.exists_step (a, k) ht
    exact ⟨s', hs', hlogging⟩
  unfold OutputReady at hready
  cases hf : s.output with
  | none =>
    rw [hf] at hready
    have hnone : s.files = [] := by simp [System.files, hf]
    rw [State.messages, State.written, hready.2] at hkept
    rw [hnone]
    exact ⟨⟨[], rfl, hkept⟩, List.Pairwise.nil, List.nodup_nil, by intro g hg; contradiction,
      hstep⟩
  | some f =>
    rw [hf] at hready
    obtain ⟨_, hvalid, happended⟩ := hready
    have hfiles : s.files = f.files := by simp [System.files, hf]
    obtain ⟨parts, htext, hmessages⟩ := exists_parts (hvalid.2.conserved.trans happended)
    rw [hfiles]
    refine ⟨⟨parts, htext, ?_⟩, hvalid.2.increasing, hvalid.2.names_nodup,
      fun g hg => hi.refines g (hf.trans hg), hstep⟩
    rw [hmessages]
    exact hkept

/-- Every write rolls: the first message is in the first file, the second still in memory. -/
theorem files_hold_messages_two :
    ∃ as, ∃ s : System, Runs.run (System.step ⟨['b'], 0, ['h'], 7⟩) System.new as = some s ∧
      (as.map Prod.fst).flatMap Action.messages = [['x'], ['y']] ∧ s.files.length = 2 ∧
      (s.files.map AppendFile.filename).Nodup ∧
      ∃ parts : List (List Record),
        s.files.map AppendFile.text = parts.map (List.flatMap Record.text) ∧
        parts.flatten.filterMap Record.message? ++ s.logging.waiting.flatMap Buffer.messages =
          [(['x'], 0), (['y'], 1)] := by
  let k (now : ℕ) : Clock := ⟨now, now, now + 1, by omega⟩
  obtain ⟨s, hrun, hs⟩ := Runs.exists_of_any (System.step ⟨['b'], 0, ['h'], 7⟩) System.new
    [(.start, k 4), (.threadFunc [], k 4), (.threadFunc [], k 4), (.threadFunc [], k 4),
      (.threadFunc [], k 4), (.append ['x'] ⟨fun _ => nul⟩, k 4), (.threadFunc [], k 4),
      (.threadFunc [], k 4), (.append ['y'] ⟨fun _ => nul⟩, k 4), (.threadFunc [], k 5)]
    (fun s => s.logging.oversized.length = 0 ∧ s.files.length = 2) (by decide)
  obtain ⟨hover, hlength⟩ := of_decide_eq_true hs
  obtain ⟨⟨parts, htext, hmessages⟩, _, hnames, _⟩ := files_hold_messages hrun
  refine ⟨_, s, hrun, rfl, hlength, hnames, parts, htext, ?_⟩
  rw [hmessages, ← oversized_run (System.run_logging hrun), List.length_eq_zero_iff.mp hover]
  decide

end NaiveNet.AsyncLogging
