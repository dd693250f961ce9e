import NaiveNet.LogFile
import NaiveNet.NumeralReading

/-!
# The files of a rolling log

Whatever the clock does, a file is opened only at a later second than the one before.
A name can be read back to its second, so no name is used twice, and the files in the
order of opening hold the messages in the order of the calls.
-/
namespace NaiveNet.LogFile

/-- The year has as many digits as it needs, so the fields are found from the end. -/
theorem timebuf_civil_inj {x y : ℤ} (h : timebuf (civil x) = timebuf (civil y)) : x = y := by
  obtain ⟨hxmon, hxmday, hxhour, hxmin, hxsec⟩ := civil_fields x
  obtain ⟨hymon, hymday, hyhour, hymin, hysec⟩ := civil_fields y
  unfold timebuf at h
  obtain ⟨hyear, hfields⟩ := List.append_inj' h (by
    simp only [List.length_append, length_twoDigits hxmon, length_twoDigits hxmday,
      length_twoDigits hxhour, length_twoDigits hxmin, length_twoDigits hxsec,
      length_twoDigits hymon, length_twoDigits hymday, length_twoDigits hyhour,
      length_twoDigits hymin, length_twoDigits hysec])
  simp only [List.append_assoc] at hfields
  have hyear' := decimal_injective (List.append_cancel_left hyear)
  obtain ⟨hmon, hfields⟩ := twoDigits_append_inj hxmon hymon hfields
  obtain ⟨hmday, hfields⟩ := twoDigits_append_inj hxmday hymday hfields
  obtain ⟨hhour, hfields⟩ := twoDigits_append_inj hxhour hyhour (List.append_cancel_left hfields)
  obtain ⟨hmin, hfields⟩ := twoDigits_append_inj hxmin hymin hfields
  obtain ⟨hsec, _⟩ := twoDigits_append_inj hxsec hysec hfields
  exact civil_inj (by omega) (by omega) hmday hhour hmin hsec

theorem getLogFileName_injective (config : Config) :
    Function.Injective (getLogFileName config) := by
  intro x y h
  unfold getLogFileName at h
  have hname := List.append_cancel_right (List.append_cancel_right (List.append_cancel_right h))
  exact timebuf_civil_inj (List.append_cancel_left hname)

/-- The files opened so far, the last one at `last`. -/
structure Rolled (config : Config) (last : ℤ) (files : List AppendFile)
    (appended : List (List Char)) : Prop where
  opened_le : ∀ f ∈ files, f.opened ≤ last
  increasing : (files.map AppendFile.opened).Pairwise (· < ·)
  named : ∀ f ∈ files, f.filename = getLogFileName config f.opened
  conserved : files.flatMap AppendFile.messages = appended

namespace Rolled

variable {config : Config} {last now clock : ℤ} {files closed : List AppendFile}
  {appended : List (List Char)} {f : AppendFile} {logline : List Char}

/-- A message goes to the last file. -/
theorem append (h : Rolled config last (closed ++ [f]) appended) :
    Rolled config last (closed ++ [f.append clock logline]) (appended ++ [logline]) := by
  have hmem {P : AppendFile → Prop} (hold : ∀ g ∈ closed ++ [f], P g)
      (hnew : P f → P (f.append clock logline)) :
      ∀ g ∈ closed ++ [f.append clock logline], P g := by
    intro g hg
    obtain hclosed | hlast := List.mem_append.mp hg
    · exact hold g (List.mem_append_left _ hclosed)
    · rw [List.mem_singleton.mp hlast]
      exact hnew (hold f (List.mem_append_right _ (List.mem_singleton_self f)))
  refine ⟨hmem h.opened_le id, ?_, hmem h.named id, ?_⟩
  · simpa [AppendFile.append] using h.increasing
  · rw [← h.conserved]
    simp [AppendFile.messages, AppendFile.append]

/-- A file is opened at a later second. -/
theorem openFile (h : Rolled config last files appended) (hr : last < now) :
    Rolled config now (files ++ [⟨getLogFileName config now, 0, now, []⟩]) appended := by
  have hmem {P : AppendFile → Prop} (hold : ∀ g ∈ files, P g)
      (hnew : P ⟨getLogFileName config now, 0, now, []⟩) :
      ∀ g ∈ files ++ [⟨getLogFileName config now, 0, now, []⟩], P g := by
    intro g hg
    obtain hclosed | hlast := List.mem_append.mp hg
    · exact hold g hclosed
    · rwa [List.mem_singleton.mp hlast]
  have hbefore : ∀ g ∈ files, g.opened < now := fun g hg => (h.opened_le g hg).trans_lt hr
  refine ⟨hmem (fun g hg => (hbefore g hg).le) le_rfl, ?_, hmem h.named rfl, ?_⟩
  · rw [List.map_append, List.pairwise_append]
    refine ⟨h.increasing, List.pairwise_singleton _ _, fun x hx y hy => ?_⟩
    obtain ⟨g, hg, rfl⟩ := List.mem_map.mp hx
    rw [List.mem_singleton.mp hy]
    exact hbefore g hg
  · rw [List.flatMap_append, h.conserved]
    exact List.append_nil _

/-- No two files have one name. -/
theorem names_nodup (h : Rolled config last files appended) :
    (files.map AppendFile.filename).Nodup := by
  have hpairs := List.pairwise_map.mp h.increasing
  rw [List.Nodup, List.pairwise_map]
  refine hpairs.imp_of_mem fun {f g} hf hg hlt hname => ?_
  rw [h.named f hf, h.named g hg] at hname
  exact hlt.ne (getLogFileName_injective config hname)

end Rolled

variable {s s' : State} {a : Action}

/-- There is a file, and the files are those of the messages so far. -/
def FilesValid (s : State) : Prop :=
  (∃ f, s.file_ = some f) ∧ Rolled s.config s.lastRoll_ s.files s.appended

theorem FilesValid.write (hi : FilesValid s) {f : AppendFile} (hf : s.file_ = some f) {clock : ℤ}
    {logline : List Char} : FilesValid (s.write f clock logline) := by
  obtain ⟨_, hrolled⟩ := hi
  rw [State.files, hf] at hrolled
  exact ⟨⟨_, rfl⟩, hrolled.append⟩

theorem FilesValid.openFile (hi : FilesValid s) {now : ℤ} (hr : s.lastRoll_ < now) :
    FilesValid (s.openFile now) := ⟨⟨_, rfl⟩, hi.2.openFile hr⟩

theorem FilesValid.step (hi : FilesValid s) (hs : step s a = some s') : FilesValid s' := by
  cases step_effect hs with
  | sizeRoll hf hsize hr => exact (hi.write hf).openFile hr
  | dayRoll hf hsize hc hp hr =>
    exact @FilesValid.openFile { s.write _ _ _ with count_ := 0 } (hi.write hf) _ hr
  | sizeRefused hf hsize hr | counted hf hsize hc | dayRefused hf hsize hc hp hr
  | flushed hf hsize hc hp hin | idle hf hsize hc hp hin => exact hi.write hf
  | rollFile hr => exact hi.openFile hr
  | rollRefused hr | flush hf => exact hi

/-- With a file, every call can be made. -/
theorem FilesValid.exists_step (hi : FilesValid s) (a : Action) :
    ∃ s', LogFile.step s a = some s' := by
  obtain ⟨⟨f, hf⟩, _⟩ := hi
  cases a with
  | append logline written checked rolled =>
    have happend : ∃ t, append_unlocked s logline written checked rolled = some t := by
      unfold append_unlocked
      simp only [hf, Option.bind_eq_bind, Option.bind_some]
      split_ifs
      · exact ⟨_, rfl⟩
      · exact ⟨_, rfl⟩
      · exact ⟨_, rfl⟩
      · exact ⟨_, rfl⟩
      · exact ⟨_, rfl⟩
    obtain ⟨t, ht⟩ := happend
    exact ⟨_, by rw [LogFile.step, ht]; rfl⟩
  | rollFile now => exact ⟨_, rfl⟩
  | flush => exact ⟨_, by rw [LogFile.step, flush, hf]; rfl⟩

theorem filesValid_new (config : Config) {now : ℤ} (hpos : 0 < now) :
    FilesValid (new config now) := by
  have hopen : new config now =
      State.openFile ⟨config, 0, 0, 0, 0, none, [], [], 0, now⟩ now := by
    rw [new, rollFile, if_pos hpos]
  rw [hopen]
  refine ⟨⟨_, rfl⟩, ?_, List.pairwise_singleton _ _, ?_, rfl⟩
  · exact fun f hf => (congrArg AppendFile.opened (List.mem_singleton.mp hf)).le
  · exact fun f hf => by rw [List.mem_singleton.mp hf]; rfl

/-- The messages of a call. -/
def Action.messages : Action → List (List Char)
  | .append logline _ _ _ => [logline]
  | _ => []

theorem appended_step (hs : step s a = some s') : s'.appended = s.appended ++ a.messages := by
  cases step_effect hs with
  | rollFile hr | rollRefused hr => exact (List.append_nil _).symm
  | flush hf => exact (List.append_nil _).symm
  | _ => rfl

theorem appended_run {as : List Action} (h : Runs.run step s as = some s') :
    s'.appended = s.appended ++ as.flatMap Action.messages := by
  rw [← Runs.trace_eq_flatMap Action.messages h]
  exact Runs.eq_append_trace (fun _ _ _ => appended_step) h

/-- Whatever the clock does, the files are opened at later and later seconds under
different names, and together they hold every message once and in order. -/
theorem rolling_keeps_messages (config : Config) {now : ℤ} (hpos : 0 < now) (as : List Action) :
    ∃ s, Runs.run step (new config now) as = some s ∧
      (s.files.map AppendFile.opened).Pairwise (· < ·) ∧
      (s.files.map AppendFile.filename).Nodup ∧
      s.files.flatMap AppendFile.messages = as.flatMap Action.messages ∧
      s.files.flatMap AppendFile.text = (as.flatMap Action.messages).flatten := by
  obtain ⟨s, hrun, hvalid⟩ := Runs.exists_run (I := FilesValid)
    (fun s a hs => (hs.exists_step a).imp fun s' hs' => ⟨hs', hs.step hs'⟩)
    (new config now) (filesValid_new config hpos) as
  have hnew : (new config now).appended = [] := by
    unfold new rollFile
    split_ifs <;> rfl
  have hconserved : s.files.flatMap AppendFile.messages = as.flatMap Action.messages := by
    rw [hvalid.2.conserved, appended_run hrun, hnew, List.nil_append]
  refine ⟨s, hrun, hvalid.2.increasing, hvalid.2.names_nodup, hconserved, ?_⟩
  rw [← hconserved]
  simp only [List.flatMap, List.flatten_flatten, List.map_map]
  rfl

/-- The clock steps back: the roll is refused, and the one after it names a new file. -/
theorem rolling_keeps_messages_back :
    ∃ s : State, Runs.run step (new ⟨['b'], 1, 3, 1024, ['h'], 7⟩ 5)
        [.append ['x', 'y'] 4 4 4, .append ['z'] 6 6 6] = some s ∧
      s.files.length = 2 ∧ (s.files.map AppendFile.filename).Nodup ∧
      s.files.flatMap AppendFile.messages = [['x', 'y'], ['z']] := by
  obtain ⟨s, hrun, _, hnames, hmessages, _⟩ :=
    rolling_keeps_messages ⟨['b'], 1, 3, 1024, ['h'], 7⟩ (show (0 : ℤ) < 5 by omega)
      [.append ['x', 'y'] 4 4 4, .append ['z'] 6 6 6]
  refine ⟨s, hrun, ?_, hnames, hmessages⟩
  obtain rfl := Option.some.inj hrun
  decide

end NaiveNet.LogFile
