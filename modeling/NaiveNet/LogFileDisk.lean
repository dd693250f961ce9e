import NaiveNet.AppendFile
import NaiveNet.LogFileRolls
import Mathlib.Data.List.Forall2

/-!
# The rolling log file on streams that fall short

`LogFile` over `FileUtil::AppendFile`, whose writes may take less than they are given, and
over another stream with every file. The model in which a file stores all it is given says
when this one rolls and what its files are called, because `append` counts what it was
asked to write and not what was written. What is in a file is between that file and its
stream: it is a run of `FileUtil::AppendFile` on the messages of the ideal file.
-/
namespace NaiveNet.LogFile.Disk

open FileUtil
open FileUtil.AppendFile (shortStream fullStream)

/-- The file, what it was opened with and what it was asked to append. -/
structure File where
  filename : List Char
  opened : ℤ
  stream : Stream
  file : FileUtil.AppendFile
  given : List Logline

def File.append (f : File) (m : Logline) : File :=
  { f with file := FileUtil.AppendFile.append f.stream f.file m, given := f.given ++ [m] }

def File.writtenBytes (f : File) : ℕ := f.file.writtenBytes_.toNat

structure State where
  config : Config
  count_ : ℤ
  startOfPeriod_ : ℤ
  lastRoll_ : ℤ
  lastFlush_ : ℤ
  file_ : Option File
  closed : List File

/-- The branch of `rollFile` that opens a file, on `stream`. -/
def State.openFile (s : State) (now : ℤ) (stream : Stream) : State :=
  { s with
    lastRoll_ := now
    lastFlush_ := now
    startOfPeriod_ := period now
    closed := s.closed ++ s.file_.toList
    file_ := some ⟨getLogFileName s.config now, now, stream, .new, []⟩ }

def rollFile (s : State) (now : ℤ) (stream : Stream) : Bool × State :=
  if s.lastRoll_ < now then (true, s.openFile now stream) else (false, s)

def new (config : Config) (now : ℤ) (stream : Stream) : State :=
  (rollFile ⟨config, 0, 0, 0, 0, none, []⟩ now stream).2

def flush (s : State) : Option State := s.file_.map fun _ => s

/-- A call, its readings of the clock and the stream of the file it may open. -/
inductive Action
  | append (m : Logline) (written checked rolled : ℤ) (stream : Stream)
  | rollFile (now : ℤ) (stream : Stream)
  | flush

def append_unlocked (s : State) (m : Logline) (checked rolled : ℤ) (stream : Stream) :
    Option State := do
  let file_ ← s.file_
  let s := { s with file_ := some (file_.append m) }
  if s.config.rollSize_ < (file_.append m).writtenBytes then
    return (rollFile s rolled stream).2
  else
    let s := { s with count_ := s.count_ + 1 }
    if s.config.checkEveryN_ ≤ s.count_ then
      let s := { s with count_ := 0 }
      if period checked ≠ s.startOfPeriod_ then
        return (rollFile s rolled stream).2
      else if s.config.flushInterval_ < checked - s.lastFlush_ then
        flush { s with lastFlush_ := checked }
      else
        return s
    else
      return s

def step (s : State) : Action → Option State
  | .append m _ checked rolled stream => append_unlocked s m checked rolled stream
  | .rollFile now stream => some (rollFile s now stream).2
  | .flush => flush s

def State.files (s : State) : List File := s.closed ++ s.file_.toList

/-- Bytes as characters. -/
def chars (bytes : List UInt8) : List Char := bytes.map fun b => Char.ofNat b.toNat

def text (m : Logline) : List Char := chars m.bytes

/-- The same call of the ideal log file. -/
def Action.ideal : Action → LogFile.Action
  | .append m written checked rolled _ => .append (text m) written checked rolled
  | .rollFile now _ => .rollFile now
  | .flush => .flush

def Action.bytes : Action → ℕ
  | .append m _ _ _ _ => m.len
  | _ => 0

/-- A file on a stream, and the ideal file it stands for. -/
structure File.Refines (f : File) (g : NaiveNet.AppendFile) : Prop where
  filename_eq : f.filename = g.filename
  opened_eq : f.opened = g.opened
  written_eq : f.writtenBytes = g.writtenBytes_
  messages_eq : g.messages = f.given.map text
  run : Runs.run (FileUtil.AppendFile.step f.stream) .new f.given = some f.file

/-- The two log files agree on all but what the streams have taken. -/
structure Refines (s : State) (t : LogFile.State) : Prop where
  config_eq : s.config = t.config
  count_eq : s.count_ = t.count_
  startOfPeriod_eq : s.startOfPeriod_ = t.startOfPeriod_
  lastRoll_eq : s.lastRoll_ = t.lastRoll_
  lastFlush_eq : s.lastFlush_ = t.lastFlush_
  file_rel : Option.Rel File.Refines s.file_ t.file_
  closed_rel : List.Forall₂ File.Refines s.closed t.closed

theorem length_text (m : Logline) : (text m).length = m.len := List.length_map _

/-- A message is counted in full, however much of it the stream takes. -/
theorem writtenBytes_append_of_lt {f : File} {m : Logline}
    (hroom : f.writtenBytes + m.len < 2 ^ 64) :
    (f.append m).writtenBytes = f.writtenBytes + m.len := by
  obtain ⟨_, _, _, _, _, hbytes⟩ := FileUtil.AppendFile.append_effect f.stream f.file m
  have hlen : (UInt64.ofNat m.len).toNat = m.len := UInt64.toNat_ofNat_of_lt' m.length_lt
  show (FileUtil.AppendFile.append f.stream f.file m).writtenBytes_.toNat = _
  rw [hbytes, UInt64.toNat_add, hlen]
  exact Nat.mod_eq_of_lt hroom

theorem File.Refines.append {f : File} {g : NaiveNet.AppendFile} (h : f.Refines g) {m : Logline}
    (hroom : f.writtenBytes + m.len < 2 ^ 64) (clock : ℤ) :
    (f.append m).Refines (g.append clock (text m)) := by
  refine ⟨h.filename_eq, h.opened_eq, ?_, ?_, ?_⟩
  · show (f.append m).writtenBytes = g.writtenBytes_ + (text m).length
    rw [writtenBytes_append_of_lt hroom, length_text, h.written_eq]
  · show (g.lines ++ [(clock, text m)]).map Prod.snd = (f.given ++ [m]).map text
    rw [List.map_append, List.map_append, ← h.messages_eq]
    rfl
  · show Runs.run (FileUtil.AppendFile.step f.stream) .new (f.given ++ [m]) = _
    rw [Runs.run_append, h.run]
    rfl

theorem refines_opened (filename : List Char) (now : ℤ) (stream : Stream) :
    File.Refines ⟨filename, now, stream, .new, []⟩ ⟨filename, 0, now, []⟩ :=
  ⟨rfl, rfl, rfl, rfl, rfl⟩

namespace Refines

variable {s : State} {t : LogFile.State}

theorem files_rel (h : Refines s t) : List.Forall₂ File.Refines s.files t.files := by
  have hfile : List.Forall₂ File.Refines s.file_.toList t.file_.toList := by
    have hrel := h.file_rel
    generalize s.file_ = x at hrel ⊢
    generalize t.file_ = y at hrel ⊢
    cases hrel with
    | none => exact List.Forall₂.nil
    | some hfg => exact List.Forall₂.cons hfg List.Forall₂.nil
  exact List.rel_append h.closed_rel hfile

theorem openFile (h : Refines s t) (now : ℤ) (stream : Stream) :
    Refines (s.openFile now stream) (t.openFile now) := by
  refine ⟨h.config_eq, h.count_eq, rfl, rfl, rfl, ?_, h.files_rel⟩
  show Option.Rel File.Refines (some ⟨getLogFileName s.config now, _, _, _, _⟩)
    (some ⟨getLogFileName t.config now, _, _, _⟩)
  rw [h.config_eq]
  exact Option.Rel.some (refines_opened _ now stream)

theorem rollFile (h : Refines s t) (now : ℤ) (stream : Stream) :
    Refines (Disk.rollFile s now stream).2 (LogFile.rollFile t now).2 := by
  unfold Disk.rollFile LogFile.rollFile
  rw [h.lastRoll_eq]
  split_ifs
  · exact h.openFile now stream
  · exact h

/-- The current file takes the message, or as much of it as its stream does. -/
theorem write (h : Refines s t) {f : File} {g : NaiveNet.AppendFile} (hf : s.file_ = some f)
    (hg : t.file_ = some g) {m : Logline} (hroom : f.writtenBytes + m.len < 2 ^ 64) (clock : ℤ) :
    Refines { s with file_ := some (f.append m) } (t.write g clock (text m)) := by
  have hfg : f.Refines g := by
    have hrel := h.file_rel
    rw [hf, hg] at hrel
    cases hrel with
    | some hfg => exact hfg
  exact { h with file_rel := Option.Rel.some (hfg.append hroom clock) }

theorem append_unlocked (h : Refines s t) {s' : State} {m : Logline} {checked rolled : ℤ}
    {stream : Stream} (hroom : ∀ f, s.file_ = some f → f.writtenBytes + m.len < 2 ^ 64)
    (hs : Disk.append_unlocked s m checked rolled stream = some s') (written : ℤ) :
    ∃ t', LogFile.append_unlocked t (text m) written checked rolled = some t' ∧
      Refines s' t' := by
  obtain ⟨f, hf, hs⟩ := Option.bind_eq_some_iff.mp hs
  obtain ⟨g, hg⟩ : ∃ g, t.file_ = some g := by
    have hrel := h.file_rel
    rw [hf] at hrel
    generalize t.file_ = y at hrel ⊢
    cases hrel with
    | some hfg => exact ⟨_, rfl⟩
  have hwrite := h.write hf hg (hroom f hf) written
  have hbytes : (f.append m).writtenBytes = (g.append written (text m)).writtenBytes_ := by
    have hrel := hwrite.file_rel
    cases hrel with
    | some hfg => exact hfg.written_eq
  have hsize : s.config.rollSize_ < (f.append m).writtenBytes ↔
      t.config.rollSize_ < (g.append written (text m)).writtenBytes_ := by
    rw [h.config_eq, hbytes]
  have hcheck : s.config.checkEveryN_ ≤ s.count_ + 1 ↔ t.config.checkEveryN_ ≤ t.count_ + 1 := by
    rw [h.config_eq, h.count_eq]
  have hperiod : period checked ≠ s.startOfPeriod_ ↔ period checked ≠ t.startOfPeriod_ := by
    rw [h.startOfPeriod_eq]
  have hinterval : s.config.flushInterval_ < checked - s.lastFlush_ ↔
      t.config.flushInterval_ < checked - t.lastFlush_ := by
    rw [h.config_eq, h.lastFlush_eq]
  have hcounted (count : ℤ) : Refines { s with file_ := some (f.append m), count_ := count }
      { t.write g written (text m) with count_ := count } := { hwrite with count_eq := rfl }
  unfold LogFile.append_unlocked
  simp only [hg, Option.bind_eq_bind, Option.bind_some, LogFile.State.write]
  dsimp only at hs
  split_ifs at hs with h1 h2 h3 h4
  · obtain rfl := Option.some.inj hs
    exact ⟨_, if_pos (hsize.mp h1), hwrite.rollFile rolled stream⟩
  · obtain rfl := Option.some.inj hs
    exact ⟨_, (if_neg (hsize.not.mp h1)).trans ((if_pos (hcheck.mp h2)).trans
      (if_pos (hperiod.mp h3))), (hcounted 0).rollFile rolled stream⟩
  · obtain rfl := Option.some.inj hs
    exact ⟨_, (if_neg (hsize.not.mp h1)).trans ((if_pos (hcheck.mp h2)).trans
      ((if_neg (hperiod.not.mp h3)).trans (if_pos (hinterval.mp h4)))),
      { hcounted 0 with lastFlush_eq := rfl }⟩
  · obtain rfl := Option.some.inj hs
    exact ⟨_, (if_neg (hsize.not.mp h1)).trans ((if_pos (hcheck.mp h2)).trans
      ((if_neg (hperiod.not.mp h3)).trans (if_neg (hinterval.not.mp h4)))), hcounted 0⟩
  · obtain rfl := Option.some.inj hs
    refine ⟨_, (if_neg (hsize.not.mp h1)).trans (if_neg (hcheck.not.mp h2)), ?_⟩
    rw [h.count_eq]
    exact hcounted (t.count_ + 1)

end Refines

variable {s s' : State} {a : Action}

/-- There is a file, and it has counted no more than that. -/
def Within (s : State) (bytes : ℕ) : Prop := ∃ f, s.file_ = some f ∧ f.writtenBytes ≤ bytes

theorem Within.rollFile {bytes : ℕ} (h : Within s bytes) (now : ℤ) (stream : Stream) :
    Within (Disk.rollFile s now stream).2 bytes := by
  unfold Disk.rollFile
  split_ifs
  · exact ⟨_, rfl, Nat.zero_le _⟩
  · exact h

/-- A call can be made where there is a file, and there is one afterwards. -/
theorem Within.step {bytes : ℕ} (h : Within s bytes) (hroom : bytes + a.bytes < 2 ^ 64) :
    ∃ s', Disk.step s a = some s' ∧ Within s' (bytes + a.bytes) := by
  obtain ⟨f, hf, hle⟩ := h
  cases a with
  | append m written checked rolled stream =>
    have hroom : bytes + m.len < 2 ^ 64 := hroom
    have hwritten : Within { s with file_ := some (f.append m) } (bytes + m.len) :=
      ⟨_, rfl, by rw [writtenBytes_append_of_lt (by omega)]; omega⟩
    unfold Disk.step append_unlocked
    simp only [hf, Option.bind_eq_bind, Option.bind_some]
    split_ifs
    · exact ⟨_, rfl, hwritten.rollFile rolled stream⟩
    · exact ⟨_, rfl, Within.rollFile (s := { s with file_ := some (f.append m), count_ := 0 })
        hwritten rolled stream⟩
    · exact ⟨_, rfl, hwritten⟩
    · exact ⟨_, rfl, hwritten⟩
    · exact ⟨_, rfl, hwritten⟩
  | rollFile now stream => exact ⟨_, rfl, Within.rollFile ⟨f, hf, hle⟩ now stream⟩
  | flush => exact ⟨s, by rw [Disk.step, flush, hf]; rfl, f, hf, hle⟩

theorem Refines.step {t : LogFile.State} (h : Refines s t) {bytes : ℕ} (hw : Within s bytes)
    (hroom : bytes + a.bytes < 2 ^ 64) (hs : Disk.step s a = some s') :
    ∃ t', LogFile.step t a.ideal = some t' ∧ Refines s' t' := by
  obtain ⟨f, hf, hle⟩ := hw
  cases a with
  | append m written checked rolled stream =>
    have hroom : bytes + m.len < 2 ^ 64 := hroom
    obtain ⟨t', ht', hrefines⟩ := h.append_unlocked (fun g hg => by
      obtain rfl := Option.some.inj (hf.symm.trans hg)
      omega) hs written
    exact ⟨{ t' with clock := rolled }, by rw [Action.ideal, LogFile.step, ht']; rfl,
      { hrefines with }⟩
  | rollFile now stream =>
    obtain rfl := Option.some.inj hs
    exact ⟨_, rfl, { h.rollFile now stream with }⟩
  | flush =>
    obtain ⟨_, _, rfl⟩ := Option.map_eq_some_iff.mp hs
    have hrel := h.file_rel
    rw [hf] at hrel
    cases ht : t.file_ with
    | none =>
      rw [ht] at hrel
      contradiction
    | some g =>
      refine ⟨_, by rw [Action.ideal, LogFile.step, LogFile.flush, ht]; rfl, ?_⟩
      exact { h with file_rel := by rwa [hf, ← ht] }

/-- Runs of the two go together. -/
theorem Refines.run {t : LogFile.State} (h : Refines s t) {bytes : ℕ} (hw : Within s bytes)
    (as : List Action) (hroom : bytes + (as.map Action.bytes).sum < 2 ^ 64) :
    ∃ s' t', Runs.run Disk.step s as = some s' ∧
      Runs.run LogFile.step t (as.map Action.ideal) = some t' ∧ Refines s' t' := by
  induction as generalizing s t bytes with
  | nil => exact ⟨s, t, rfl, rfl, h⟩
  | cons a as ih =>
    rw [List.map_cons, List.sum_cons] at hroom
    obtain ⟨r, hr, hwr⟩ := hw.step (a := a) (by omega)
    obtain ⟨u, hu, hru⟩ := h.step hw (by omega) hr
    obtain ⟨s', t', hs', ht', hrefines⟩ := ih hru hwr (by omega)
    exact ⟨s', t', by rw [Runs.run_cons, hr, Option.bind_some, hs'],
      by rw [List.map_cons, Runs.run_cons, hu, Option.bind_some, ht'], hrefines⟩

/-! ### The contents -/

/-- The writes of this `append` take the whole message. -/
def Whole (out : Stream) (f : FileUtil.AppendFile) (m : Logline) : Prop :=
  FileUtil.AppendFile.Taken out m.len (f.writes + 1) (out.fwrite.amount f.writes m.len)

theorem length_accepted_run {out : Stream} {f f' : FileUtil.AppendFile} {ms : List Logline}
    (hrun : Runs.run (FileUtil.AppendFile.step out) f ms = some f') :
    f'.accepted.length ≤ f.accepted.length + (ms.map Logline.len).sum := by
  induction ms generalizing f with
  | nil =>
    obtain rfl : f = f' := by simpa using hrun
    exact Nat.le_add_right _ _
  | cons m ms ih =>
    obtain ⟨n, hn, _, haccepted, _⟩ := FileUtil.AppendFile.append_effect out f m
    have hrest := ih hrun
    rw [haccepted, List.length_append, List.length_take] at hrest
    rw [List.map_cons, List.sum_cons]
    omega

/-- A file holds all it was given exactly when every message was taken whole. -/
theorem accepted_run_iff {out : Stream} {f f' : FileUtil.AppendFile} {ms : List Logline}
    (hrun : Runs.run (FileUtil.AppendFile.step out) f ms = some f') :
    f'.accepted = f.accepted ++ ms.flatMap Logline.bytes ↔
      Runs.Meets (Whole out) (FileUtil.AppendFile.step out) f ms := by
  induction ms generalizing f with
  | nil =>
    obtain rfl : f = f' := by simpa using hrun
    simp [Runs.Meets]
  | cons m ms ih =>
    obtain ⟨n, hn, hwhole, haccepted, _⟩ := FileUtil.AppendFile.append_effect out f m
    have hrun : Runs.run (FileUtil.AppendFile.step out) (FileUtil.AppendFile.append out f m) ms =
      some f' := hrun
    have hmeets : Runs.Meets (Whole out) (FileUtil.AppendFile.step out) f (m :: ms) ↔
        Whole out f m ∧ Runs.Meets (Whole out) (FileUtil.AppendFile.step out)
          (FileUtil.AppendFile.append out f m) ms := by
      refine and_congr_right fun _ => ⟨fun h => h _ rfl, fun h s' hs' => ?_⟩
      obtain rfl := Option.some.inj hs'
      exact h
    rw [hmeets, ← ih hrun]
    have hlen : m.bytes.length = m.len := rfl
    constructor
    · intro hall
      -- a message cut short is missing from the length
      have hle := length_accepted_run hrun
      have hn' : n = m.len := by
        rw [hall, haccepted] at hle
        simp only [List.length_append, List.flatMap_cons, List.length_take] at hle
        have hsum : (ms.flatMap Logline.bytes).length = (ms.map Logline.len).sum := by
          rw [List.length_flatMap]
          rfl
        omega
      refine ⟨hwhole.mp hn', ?_⟩
      rw [hall, haccepted, hn', ← hlen, List.take_length, List.flatMap_cons, List.append_assoc]
    · rintro ⟨htaken, hrest⟩
      rw [hrest, haccepted, hwhole.mpr htaken, ← hlen, List.take_length, List.flatMap_cons,
        List.append_assoc]

/-- What the file took of a message: as much of its beginning as the file grew by. -/
def taken (f : FileUtil.AppendFile) (m : Logline) (f' : FileUtil.AppendFile) : List UInt8 :=
  m.bytes.take (f'.accepted.length - f.accepted.length)

theorem accepted_step {out : Stream} {f f' : FileUtil.AppendFile} {m : Logline}
    (hs : FileUtil.AppendFile.step out f m = some f') :
    f'.accepted = f.accepted ++ taken f m f' := by
  obtain rfl := Option.some.inj hs
  obtain ⟨n, hn, _, haccepted, _⟩ := FileUtil.AppendFile.append_effect out f m
  have hn : n ≤ m.bytes.length := hn
  rw [taken, haccepted, List.length_append, List.length_take, Nat.add_sub_cancel_left,
    Nat.min_eq_left hn]

theorem accepted_run {out : Stream} {f f' : FileUtil.AppendFile} {ms : List Logline}
    (hrun : Runs.run (FileUtil.AppendFile.step out) f ms = some f') :
    f'.accepted = f.accepted ++ Runs.trace (FileUtil.AppendFile.step out) taken f ms :=
  Runs.eq_append_trace (fun _ _ _ => accepted_step) hrun

theorem toNat_ofNat_byte (b : UInt8) : (Char.ofNat b.toNat).toNat = b.toNat := by
  have hlt := b.toNat_lt
  have hvalid : b.toNat.isValidChar := Or.inl (by omega)
  rw [Char.ofNat, dif_pos hvalid]
  rfl

theorem chars_injective : Function.Injective chars := by
  refine List.map_injective_iff.mpr fun a b h => ?_
  have hcode := congrArg Char.toNat h
  rw [toNat_ofNat_byte, toNat_ofNat_byte] at hcode
  exact UInt8.toNat_inj.mp hcode

/-- A file has the name, the time and the count of the ideal one, and it was asked to append
the same messages. It holds what its own stream has taken of them, each message from its
beginning, and the text of the ideal file exactly if its stream took every message whole. -/
structure File.Stores (f : File) (g : NaiveNet.AppendFile) : Prop where
  filename_eq : f.filename = g.filename
  opened_eq : f.opened = g.opened
  written_eq : f.writtenBytes = g.writtenBytes_
  messages_eq : g.messages = f.given.map text
  run : Runs.run (FileUtil.AppendFile.step f.stream) .new f.given = some f.file
  content : f.file.accepted =
    Runs.trace (FileUtil.AppendFile.step f.stream) taken .new f.given
  text_iff : chars f.file.accepted = g.text ↔
    Runs.Meets (Whole f.stream) (FileUtil.AppendFile.step f.stream) .new f.given

theorem File.Refines.text_eq {f : File} {g : NaiveNet.AppendFile} (h : f.Refines g) :
    g.text = chars (f.given.flatMap Logline.bytes) := by
  rw [AppendFile.text, h.messages_eq, chars, List.map_flatMap, ← List.flatMap_def]
  rfl

theorem File.Refines.stores {f : File} {g : NaiveNet.AppendFile} (h : f.Refines g) :
    f.Stores g where
  filename_eq := h.filename_eq
  opened_eq := h.opened_eq
  written_eq := h.written_eq
  messages_eq := h.messages_eq
  run := h.run
  content := accepted_run h.run
  text_iff := by
    rw [h.text_eq, chars_injective.eq_iff]
    exact accepted_run_iff h.run

/-- Short and failed writes do not disturb the rolling. Whatever the streams take, the calls
go through, and the log opens the same files under the same names as one whose files store all
they are given. A file holds of its messages what its own stream has taken, and the whole text
exactly if that is all. -/
theorem disk_refines (config : Config) {now : ℤ} (hpos : 0 < now) (stream : Stream)
    (as : List Action) (hbytes : (as.map Action.bytes).sum < 2 ^ 64) :
    ∃ s t, Runs.run step (new config now stream) as = some s ∧
      Runs.run LogFile.step (LogFile.new config now) (as.map Action.ideal) = some t ∧
      s.lastRoll_ = t.lastRoll_ ∧ s.count_ = t.count_ ∧
      List.Forall₂ File.Stores s.files t.files := by
  have hfirst : Refines (new config now stream) (LogFile.new config now) :=
    Refines.rollFile (s := ⟨config, 0, 0, 0, 0, none, []⟩)
      (t := ⟨config, 0, 0, 0, 0, none, [], [], 0, now⟩)
      ⟨rfl, rfl, rfl, rfl, rfl, Option.Rel.none, List.Forall₂.nil⟩ now stream
  have hwithin : Within (new config now stream) 0 := by
    rw [new, rollFile, if_pos hpos]
    exact ⟨_, rfl, Nat.zero_le _⟩
  obtain ⟨s, t, hs, ht, hrefines⟩ := hfirst.run hwithin as (by omega)
  exact ⟨s, t, hs, ht, hrefines.lastRoll_eq, hrefines.count_eq,
    hrefines.files_rel.imp fun f g hfg => hfg.stores⟩

/-- The first write takes six of ten bytes: the file has these, and it is rolled all the same. -/
theorem disk_refines_short :
    ∃ (s : State) (t : LogFile.State),
      Runs.run step (new ⟨['b'], 8, 3, 1024, ['h'], 7⟩ 5 (shortStream 6))
        [.append ⟨List.replicate 10 0, by decide⟩ 6 6 6 fullStream] = some s ∧
      Runs.run LogFile.step (LogFile.new ⟨['b'], 8, 3, 1024, ['h'], 7⟩ 5)
        [.append (List.replicate 10 (Char.ofNat 0)) 6 6 6] = some t ∧
      s.files.map (fun f => f.file.accepted.length) = [6, 0] ∧
      t.files.map (fun f => f.text.length) = [10, 0] ∧
      List.Forall₂ File.Stores s.files t.files := by
  obtain ⟨s, t, hs, ht, _, _, hfiles⟩ := disk_refines ⟨['b'], 8, 3, 1024, ['h'], 7⟩
    (show (0 : ℤ) < 5 by omega) (shortStream 6)
    [.append ⟨List.replicate 10 0, by decide⟩ 6 6 6 fullStream] (by decide)
  refine ⟨s, t, hs, ht, ?_, ?_, hfiles⟩
  · have hshort : (Runs.run step (new ⟨['b'], 8, 3, 1024, ['h'], 7⟩ 5 (shortStream 6))
        [.append ⟨List.replicate 10 0, by decide⟩ 6 6 6 fullStream]).map
          (fun s => s.files.map fun f => f.file.accepted.length) = some [6, 0] := by
      decide +kernel
    rw [hs] at hshort
    exact Option.some.inj hshort
  · obtain rfl := Option.some.inj ht
    decide

end NaiveNet.LogFile.Disk
