import NaiveNet.AsyncLogging

/-!
# The buffers of asynchronous logging

The back end needs two buffers to give away and hands out at most two. It keeps the
second one where the front end has not used its `nextBuffer_`; where the front end has,
there was something in `buffers_`, so at least two buffers are written and come back.
-/
namespace NaiveNet.AsyncLogging

/-- There is a buffer, and it is empty. -/
def Fresh (buffer : Option Buffer) : Prop := ∃ b, buffer = some b ∧ b.messages = []

theorem fresh_zeroed : Fresh (some .zeroed) := ⟨_, rfl, rfl⟩

theorem fresh_reset (b : Buffer) : Fresh (some b.reset) := ⟨_, rfl, rfl⟩

theorem Fresh.length_eq_zero {buffer : Option Buffer} (h : Fresh buffer) :
    ∃ b, buffer = some b ∧ b.length = 0 := by
  obtain ⟨b, hb, hempty⟩ := h
  exact ⟨b, hb, Buffer.length_eq_zero hempty⟩

/-- The buffers the back end has, at each of its statements. -/
def Stocked (newBuffer1 newBuffer2 : Option Buffer) (buffersToWrite : List Buffer) :
    BackEnd → Prop
  | .notStarted | .starting | .latched => buffersToWrite = []
  | .head | .entering | .waiting =>
    Fresh newBuffer1 ∧ Fresh newBuffer2 ∧ buffersToWrite = []
  | .swapped | .writing _ | .resizing | .refilling1 =>
    newBuffer1 = none ∧ buffersToWrite ≠ [] ∧
      (newBuffer2 = none ∧ 2 ≤ buffersToWrite.length ∨ Fresh newBuffer2)
  | .refilling2 =>
    Fresh newBuffer1 ∧ (newBuffer2 = none ∧ buffersToWrite ≠ [] ∨ Fresh newBuffer2)
  | .clearing => Fresh newBuffer1 ∧ Fresh newBuffer2
  | .left | .exited => True

/-- The invariant of the buffers. -/
structure Supplied (s : State) : Prop where
  not_failed : s.failed = false
  running : s.backEnd = .starting → s.running_ = true
  current : ∃ b, s.currentBuffer_ = some b
  next_empty : ∀ b, s.nextBuffer_ = some b → b.messages = []
  next_or : s.nextBuffer_ = none → s.buffers_ ≠ []
  stocked : Stocked s.newBuffer1 s.newBuffer2 s.buffersToWrite s.backEnd

variable {s s' : State} {a : Action}

theorem supplied_new : Supplied new := by
  refine ⟨rfl, fun h => (nomatch h), ⟨_, rfl⟩, fun b hb => ?_, fun h => (nomatch h), rfl⟩
  obtain rfl := Option.some.inj hb
  rfl

namespace Supplied

/-- What the back end has at the swap: it is at its head still. -/
theorem stocked_swap (hi : Supplied s)
    (h : s.backEnd = .entering ∧ s.ready = true ∧ s.buffers_ ≠ [] ∨ s.backEnd = .waiting) :
    Fresh s.newBuffer1 ∧ Fresh s.newBuffer2 ∧ s.buffersToWrite = [] := by
  have hstocked := hi.stocked
  obtain ⟨hp, _⟩ | hp := h
  · rw [hp] at hstocked
    exact hstocked
  · rw [hp] at hstocked
    exact hstocked

/-- A statement of the back end after which the front end has what it had. -/
theorem backEnd_step (hi : Supplied s) {t : State} (hfailed : t.failed = s.failed)
    (hcurrent : t.currentBuffer_ = s.currentBuffer_) (hnext : t.nextBuffer_ = s.nextBuffer_)
    (hbuffers : t.buffers_ = s.buffers_) (hrunning : t.backEnd ≠ .starting)
    (hstocked : Stocked t.newBuffer1 t.newBuffer2 t.buffersToWrite t.backEnd) : Supplied t := by
  refine ⟨?_, fun h => absurd h hrunning, ?_, ?_, ?_, hstocked⟩
  · rw [hfailed]
    exact hi.not_failed
  · rw [hcurrent]
    exact hi.current
  · rw [hnext]
    exact hi.next_empty
  · rw [hnext, hbuffers]
    exact hi.next_or

theorem effect (hi : Supplied s) (he : Effect s a s') : Supplied s' := by
  have hstocked := hi.stocked
  have hpushed (b : Buffer) : s.buffers_ ++ [b] ≠ [] := by simp
  cases he with
  | append hb hroom ha =>
    exact ⟨hi.not_failed, hi.running, ⟨_, rfl⟩, hi.next_empty, hi.next_or, hstocked⟩
  | appendNext hb hfull hn ha =>
    exact ⟨hi.not_failed, hi.running, ⟨_, rfl⟩, fun _ h => (nomatch h), fun _ => hpushed _,
      hstocked⟩
  | appendNew hb hfull hn ha =>
    exact ⟨hi.not_failed, hi.running, ⟨_, rfl⟩, hi.next_empty, fun _ => hpushed _, hstocked⟩
  | start h =>
    rw [h] at hstocked
    exact ⟨hi.not_failed, fun _ => rfl, hi.current, hi.next_empty, hi.next_or, hstocked⟩
  | stop hs h =>
    exact ⟨hi.not_failed, fun hp => absurd hp h.2, hi.current, hi.next_empty, hi.next_or, hstocked⟩
  | join hs h =>
    exact ⟨hi.not_failed, hi.running, hi.current, hi.next_empty, hi.next_or, hstocked⟩
  | swap h hb hn =>
    obtain ⟨⟨c, hc, hempty⟩, hfresh2, hnil⟩ := hi.stocked_swap h
    refine ⟨hi.not_failed, fun h => (nomatch h), ⟨c, hc⟩, hi.next_empty, ?_, rfl, hpushed _,
      Or.inr hfresh2⟩
    exact fun hnone => nomatch hn.symm.trans hnone
  | swapBoth h hb hn =>
    obtain ⟨⟨c, hc, hempty⟩, ⟨d, hd, hempty2⟩, hnil⟩ := hi.stocked_swap h
    refine ⟨hi.not_failed, fun h => (nomatch h), ⟨c, hc⟩, fun e he => ?_, ?_, rfl, hpushed _,
      Or.inl ⟨rfl, ?_⟩⟩
    · obtain rfl := Option.some.inj (hd.symm.trans he)
      exact hempty2
    · exact fun hnone => nomatch hd.symm.trans hnone
    · have hlen := List.length_pos_of_ne_nil (hi.next_or hn)
      show 2 ≤ (s.buffers_ ++ [_]).length
      rw [List.length_append, List.length_singleton]
      omega
  | begin h hr =>
    rw [h] at hstocked
    exact hi.backEnd_step rfl rfl rfl rfl BackEnd.noConfusion hstocked
  | makeBuffers h =>
    rw [h] at hstocked
    exact hi.backEnd_step rfl rfl rfl rfl BackEnd.noConfusion ⟨fresh_zeroed, fresh_zeroed, hstocked⟩
  | enter h hr | wait h hready hq =>
    rw [h] at hstocked
    exact hi.backEnd_step rfl rfl rfl rfl BackEnd.noConfusion hstocked
  | leave h hr | exit h => exact hi.backEnd_step rfl rfl rfl rfl BackEnd.noConfusion trivial
  | dropMessages h hsize =>
    rw [h] at hstocked
    obtain ⟨hnone, hne, hsecond⟩ := hstocked
    have hlen : (s.buffersToWrite.take 2).length = 2 := List.length_take_of_le (by omega)
    have hpos : 0 < (s.buffersToWrite.take 2).length := by omega
    exact hi.backEnd_step rfl rfl rfl rfl BackEnd.noConfusion
      ⟨hnone, List.ne_nil_of_length_pos hpos, hsecond.imp (fun hn => ⟨hn.1, hlen.ge⟩) id⟩
  | keepMessages h hne hsize | write h hb | written h hle =>
    rw [h] at hstocked
    exact hi.backEnd_step rfl rfl rfl rfl BackEnd.noConfusion hstocked
  | resize h =>
    rw [h] at hstocked
    obtain ⟨hnone, hne, hsecond⟩ := hstocked
    have hpos := List.length_pos_of_ne_nil hne
    refine hi.backEnd_step rfl rfl rfl rfl BackEnd.noConfusion ⟨hnone, ?_, ?_⟩
    · exact List.ne_nil_of_length_pos (by rw [List.length_take]; omega)
    · refine hsecond.imp (fun hn => ⟨hn.1, ?_⟩) id
      rw [List.length_take]
      omega
  | keep1 h hb =>
    rw [h] at hstocked
    exact nomatch hb.symm.trans hstocked.1
  | refill1 h hb hbs =>
    rw [h, hbs] at hstocked
    obtain ⟨hnone, hne, hsecond⟩ := hstocked
    refine hi.backEnd_step rfl rfl rfl rfl BackEnd.noConfusion ⟨fresh_reset _, ?_⟩
    refine hsecond.imp (fun hn => ⟨hn.1, ?_⟩) id
    have hlen := hn.2
    rw [List.length_append, List.length_singleton] at hlen
    exact List.ne_nil_of_length_pos (Nat.le_of_succ_le_succ hlen)
  | keep2 h hb =>
    rw [h] at hstocked
    obtain ⟨hfresh1, ⟨hnone, _⟩ | hfresh2⟩ := hstocked
    · exact nomatch hb.symm.trans hnone
    · exact hi.backEnd_step rfl rfl rfl rfl BackEnd.noConfusion ⟨hfresh1, hfresh2⟩
  | refill2 h hb hbs =>
    rw [h] at hstocked
    exact hi.backEnd_step rfl rfl rfl rfl BackEnd.noConfusion ⟨hstocked.1, fresh_reset _⟩
  | clear h =>
    rw [h] at hstocked
    exact hi.backEnd_step rfl rfl rfl rfl BackEnd.noConfusion ⟨hstocked.1, hstocked.2, rfl⟩

theorem exists_append (hi : Supplied s) (logline : List Char)
    (memory : CArray Char kLargeBuffer) : ∃ s', append s logline memory = some s' := by
  have hstore (t : State) (b : Buffer) : ∃ s', t.store b logline = some s' := by
    obtain ⟨b', hb'⟩ := b.exists_append (logline, t.appended.length)
    exact ⟨_, by rw [State.store, hb']; rfl⟩
  obtain ⟨b, hb⟩ := hi.current
  unfold append
  simp only [hb, Option.bind_eq_bind, Option.bind_some]
  split
  next => exact hstore _ _
  next =>
    split
    next => exact hstore _ _
    next => exact hstore _ _

theorem exists_swap (hi : Supplied s) : ∃ s', swap s = some s' := by
  obtain ⟨b, hb⟩ := hi.current
  unfold swap
  simp only [hb, Option.bind_eq_bind, Option.bind_some]
  split
  next => exact ⟨_, rfl⟩
  next => exact ⟨_, rfl⟩

/-- The assertions at the head of an iteration hold. -/
theorem ready (hi : Supplied s) (h : s.backEnd = .entering) : s.ready = true := by
  have hstocked := hi.stocked
  rw [h] at hstocked
  obtain ⟨hfresh1, hfresh2, hnil⟩ := hstocked
  obtain ⟨b, hb, hb0⟩ := hfresh1.length_eq_zero
  obtain ⟨c, hc, hc0⟩ := hfresh2.length_eq_zero
  simp [State.ready, hb, hc, hb0, hc0, hnil]

theorem exists_recycle {buffersToWrite : List Buffer} (h : buffersToWrite ≠ []) :
    ∃ r, recycle buffersToWrite = some r := by
  rw [recycle, List.getLast?_eq_some_getLast h]
  exact ⟨_, rfl⟩

/-- No statement of the back end fails. -/
theorem exists_threadFunc (hi : Supplied s) (time : List Char) :
    ∃ s', threadFunc s time = some s' := by
  have hstocked := hi.stocked
  unfold threadFunc
  split
  next hp => exact ⟨_, rfl⟩
  next hp => exact ⟨_, if_pos (hi.running hp)⟩
  next hp => exact ⟨_, rfl⟩
  next hp => exact ⟨_, rfl⟩
  next hp =>
    rw [if_pos (hi.ready hp)]
    split
    next => exact ⟨_, rfl⟩
    next => exact hi.exists_swap
  next hp => exact hi.exists_swap
  next hp =>
    rw [hp] at hstocked
    have hne : ¬ s.buffersToWrite.isEmpty = true := fun hnil =>
      hstocked.2.1 (List.isEmpty_iff.mp hnil)
    rw [dropMessages, if_neg hne]
    split
    next => exact ⟨_, rfl⟩
    next => exact ⟨_, rfl⟩
  next i hp =>
    split
    next => exact ⟨_, rfl⟩
    next => exact ⟨_, rfl⟩
  next hp => exact ⟨_, rfl⟩
  next hp =>
    rw [hp] at hstocked
    split
    next => exact ⟨_, rfl⟩
    next =>
      obtain ⟨r, hr⟩ := exists_recycle hstocked.2.1
      rw [hr]
      exact ⟨_, rfl⟩
  next hp =>
    rw [hp] at hstocked
    obtain ⟨_, ⟨hnone, hne⟩ | ⟨c, hc, _⟩⟩ := hstocked
    · obtain ⟨r, hr⟩ := exists_recycle hne
      rw [hnone, hr]
      exact ⟨_, rfl⟩
    · rw [hc]
      exact ⟨_, rfl⟩
  next hp => exact ⟨_, rfl⟩
  next hp => exact ⟨_, rfl⟩
  next hp => exact ⟨_, rfl⟩

theorem exists_perform (hi : Supplied s) (a : Action) : ∃ s', perform s a = some s' := by
  cases a with
  | append logline memory => exact hi.exists_append logline memory
  | start => exact ⟨_, rfl⟩
  | threadFunc time => exact hi.exists_threadFunc time
  | stop => exact ⟨_, rfl⟩
  | join => exact ⟨_, rfl⟩

/-- With buffers enough, every step is what the code does. -/
theorem step_effect (hi : Supplied s) (hs : step s a = some s') : Effect s a s' := by
  obtain ⟨henabled, _, hperform | ⟨hnone, _⟩⟩ := step_cases hs
  · exact perform_effect henabled hperform
  · obtain ⟨t, ht⟩ := hi.exists_perform a
    exact nomatch ht.symm.trans hnone

theorem step (hi : Supplied s) (hs : step s a = some s') : Supplied s' :=
  hi.effect (hi.step_effect hs)

end Supplied

theorem Reachable.supplied (h : Reachable s) : Supplied s :=
  h.invariant (fun _ _ _ hi hs => hi.step hs) supplied_new

/-- Nothing fails: the back end has two empty buffers at the head of every iteration,
something to write after the swap and a buffer to recycle where it needs one, and the
front end always has a current buffer. -/
theorem buffers_suffice (h : Reachable s) :
    s.failed = false ∧
    (s.backEnd = .head ∨ s.backEnd = .entering →
      (∃ b, s.newBuffer1 = some b ∧ b.length = 0) ∧
      (∃ b, s.newBuffer2 = some b ∧ b.length = 0) ∧ s.buffersToWrite = []) ∧
    (s.backEnd = .swapped → s.buffersToWrite ≠ []) ∧
    (s.backEnd = .refilling1 → s.newBuffer1 = none → s.buffersToWrite ≠ []) ∧
    (s.backEnd = .refilling2 → s.newBuffer2 = none → s.buffersToWrite ≠ []) ∧
    (∃ b, s.currentBuffer_ = some b) ∧ (s.nextBuffer_ = none → s.buffers_ ≠ []) := by
  have hi := h.supplied
  have hstocked := hi.stocked
  refine ⟨hi.not_failed, ?_, ?_, ?_, ?_, hi.current, hi.next_or⟩
  · intro hp
    have hhead : Fresh s.newBuffer1 ∧ Fresh s.newBuffer2 ∧ s.buffersToWrite = [] := by
      obtain hp | hp := hp
      · rw [hp] at hstocked
        exact hstocked
      · rw [hp] at hstocked
        exact hstocked
    exact ⟨hhead.1.length_eq_zero, hhead.2.1.length_eq_zero, hhead.2.2⟩
  · intro hp
    rw [hp] at hstocked
    exact hstocked.2.1
  · intro hp _
    rw [hp] at hstocked
    exact hstocked.2.1
  · intro hp hnone
    rw [hp] at hstocked
    obtain ⟨_, ⟨_, hne⟩ | ⟨b, hb, _⟩⟩ := hstocked
    · exact hne
    · exact nomatch hb.symm.trans hnone

/-- A first iteration that finds one message: one buffer is recycled. -/
theorem buffers_suffice_first :
    ∃ s : State, Reachable s ∧ s.backEnd = .refilling1 ∧ s.newBuffer1.isNone = true ∧
      s.buffersToWrite ≠ [] := by
  obtain ⟨s, hr, hs⟩ := Runs.exists_of_any step new
    [.start, .threadFunc [], .threadFunc [], .append ['x'] ⟨fun _ => nul⟩, .threadFunc [],
      .threadFunc [], .threadFunc [], .threadFunc [], .threadFunc [], .threadFunc [],
      .threadFunc []]
    (fun s => s.backEnd = .refilling1 ∧ s.newBuffer1.isNone = true) (by decide)
  obtain ⟨hp, hnone⟩ := of_decide_eq_true hs
  exact ⟨s, ⟨_, hr⟩, hp, hnone,
    (buffers_suffice ⟨_, hr⟩).2.2.2.1 hp (Option.isNone_iff_eq_none.mp hnone)⟩

end NaiveNet.AsyncLogging
