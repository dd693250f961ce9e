import Mathlib.Data.List.Nodup
import NaiveNet.AsyncLoggingBuffers

/-!
# The messages of asynchronous logging

A message is in the output, in a buffer that is about to be written, in `buffers_` or in
`currentBuffer_`; read in this order, these are the messages as they were appended. A
message too long for an empty buffer is never there, and too large a batch loses all but
its first two buffers.
-/
namespace NaiveNet.AsyncLogging

/-- The buffers the back end has not written yet. -/
def unwritten (buffersToWrite : List Buffer) : BackEnd → List Buffer
  | .swapped => buffersToWrite
  | .writing i => buffersToWrite.drop i
  | _ => []

/-- What large batches lose. -/
def lost (oversized : List (List Buffer)) : List ℕ :=
  oversized.flatMap fun batch => ((batch.drop 2).flatMap Buffer.messages).map Prod.snd

theorem lost_append (oversized : List (List Buffer)) (batch : List Buffer) :
    lost (oversized ++ [batch]) =
      lost oversized ++ ((batch.drop 2).flatMap Buffer.messages).map Prod.snd := by
  rw [lost, List.flatMap_append, List.flatMap_singleton]
  rfl

namespace State

/-- The buffers of the front end. -/
def pending (s : State) : List Buffer := s.buffers_ ++ s.currentBuffer_.toList

/-- The buffers that are still to be written, in order. -/
def waiting (s : State) : List Buffer := unwritten s.buffersToWrite s.backEnd ++ s.pending

def written (s : State) : List Message := s.output.flatMap Written.messages

/-- Where the messages are. -/
def messages (s : State) : List Message := s.written ++ s.waiting.flatMap Buffer.messages

def lost (s : State) : List ℕ := AsyncLogging.lost s.oversized

/-- The messages that should be somewhere. -/
def kept (s : State) : List Message :=
  s.appended.zipIdx.filter fun m => m.1.length < kLargeBuffer ∧ m.2 ∉ s.lost

end State

/-- The output without the notices. -/
def Written.logged : Written → List Char
  | .notice _ => []
  | .buffer b => b.text

theorem Written.logged_eq (w : Written) : w.logged = w.messages.flatMap Prod.fst := by
  cases w with
  | notice buf => rfl
  | buffer b => exact b.text_eq

/-- Where the places are distinct, all that is in the middle can be told apart. -/
theorem filter_not_mem_of_nodup {α β : Type} [DecidableEq β] {f : α → β} {xs ys zs : List α}
    (h : ((xs ++ (ys ++ zs)).map f).Nodup) :
    (xs ++ (ys ++ zs)).filter (fun x => f x ∉ ys.map f) = xs ++ zs := by
  rw [List.map_append, List.map_append] at h
  have hxs : List.Disjoint (xs.map f) (ys.map f) :=
    (List.disjoint_append_right.mp (List.disjoint_of_nodup_append h)).1
  have hzs : List.Disjoint (ys.map f) (zs.map f) := List.disjoint_of_nodup_append h.of_append_right
  have hkeepx : xs.filter (fun x => f x ∉ ys.map f) = xs :=
    List.filter_eq_self.mpr fun x hx => decide_eq_true fun hmem => hxs (List.mem_map_of_mem hx) hmem
  have hkeepz : zs.filter (fun x => f x ∉ ys.map f) = zs :=
    List.filter_eq_self.mpr fun z hz => decide_eq_true fun hmem => hzs hmem (List.mem_map_of_mem hz)
  have hdrop : ys.filter (fun x => f x ∉ ys.map f) = [] :=
    List.filter_eq_nil_iff.mpr fun y hy => by simpa using ⟨y, hy, rfl⟩
  rw [List.filter_append, List.filter_append, hkeepx, hkeepz, hdrop, List.nil_append]

/-- Nothing is lost but what may be. -/
structure Conserved (s : State) : Prop where
  messages_eq : s.messages = s.kept
  lost_lt : ∀ i ∈ s.lost, i < s.appended.length
  large : ∀ batch ∈ s.oversized, 25 < batch.length

variable {s s' : State} {a : Action} {logline : List Char}

theorem lt_of_mem_kept {m : Message} (h : m ∈ s.kept) : m.2 < s.appended.length := by
  have hlt := List.snd_lt_of_mem_zipIdx (List.mem_of_mem_filter h)
  simpa using hlt

/-- No number is given twice. -/
theorem kept_nodup (s : State) : (s.kept.map Prod.snd).Nodup := by
  have hall : (s.appended.zipIdx.map Prod.snd).Nodup := by
    rw [List.zipIdx_map_snd]
    exact List.nodup_range'
  exact (List.filter_sublist.map Prod.snd).nodup hall

namespace Buffer

variable {b b' : Buffer} {m : Message}

theorem messages_append_of_lt (hroom : m.1.length < b.avail) (ha : b.append m = some b') :
    m.1.length < kLargeBuffer ∧ b'.messages = b.messages ++ [m] := by
  have havail := b.avail_eq
  refine ⟨by omega, ?_⟩
  rw [messages_append ha, if_pos hroom]

/-- An empty buffer takes all but what is too long for any. -/
theorem messages_append_empty (hempty : b.messages = []) (ha : b.append m = some b') :
    b'.messages = if m.1.length < kLargeBuffer then [m] else [] := by
  have havail := b.avail_eq
  rw [length_eq_zero hempty] at havail
  rw [messages_append ha, hempty, List.nil_append, havail]
  simp

end Buffer

/-- What a call of `append` does to the messages: its own comes last, unless it is too long. -/
structure Appended (s : State) (logline : List Char) (s' : State) : Prop where
  pending_eq : s'.pending.flatMap Buffer.messages = s.pending.flatMap Buffer.messages ++
    if logline.length < kLargeBuffer then [(logline, s.appended.length)] else []
  appended_eq : s'.appended = s.appended ++ [logline]
  output_eq : s'.output = s.output
  oversized_eq : s'.oversized = s.oversized
  unwritten_eq : unwritten s'.buffersToWrite s'.backEnd = unwritten s.buffersToWrite s.backEnd

/-- The full buffer is pushed, and an empty one takes the message. -/
theorem pending_pushed {b c' : Buffer} {n : ℕ} (hb : s.currentBuffer_ = some b)
    (hc : c'.messages = if logline.length < kLargeBuffer then [(logline, n)] else []) :
    (s.buffers_ ++ [b] ++ [c']).flatMap Buffer.messages = s.pending.flatMap Buffer.messages ++
      if logline.length < kLargeBuffer then [(logline, n)] else [] := by
  rw [State.pending, hb, Option.toList_some, List.flatMap_append, List.flatMap_singleton, hc]

theorem Supplied.appended (hsup : Supplied s) {memory : CArray Char kLargeBuffer}
    (he : Effect s (.append logline memory) s') : Appended s logline s' := by
  cases he with
  | append hb hroom ha =>
    obtain ⟨hshort, hmessages⟩ := Buffer.messages_append_of_lt hroom ha
    refine ⟨?_, rfl, rfl, rfl, rfl⟩
    show (s.buffers_ ++ [_]).flatMap Buffer.messages = _
    rw [State.pending, hb, Option.toList_some, List.flatMap_append, List.flatMap_append,
      List.flatMap_singleton, List.flatMap_singleton, hmessages, if_pos hshort, List.append_assoc]
  | appendNext hb hfull hn ha =>
    have hempty := hsup.next_empty _ hn
    exact ⟨pending_pushed hb (Buffer.messages_append_empty hempty ha), rfl, rfl, rfl, rfl⟩
  | appendNew hb hfull hn ha =>
    exact ⟨pending_pushed hb (Buffer.messages_append_empty rfl ha), rfl, rfl, rfl, rfl⟩

namespace Appended

theorem messages_eq (h : Appended s logline s') : s'.messages = s.messages ++
    if logline.length < kLargeBuffer then [(logline, s.appended.length)] else [] := by
  rw [State.messages, State.messages, State.waiting, State.waiting, h.unwritten_eq,
    List.flatMap_append, List.flatMap_append, h.pending_eq, State.written, State.written,
    h.output_eq]
  simp only [List.append_assoc]

theorem lost_eq (h : Appended s logline s') : s'.lost = s.lost := by
  rw [State.lost, State.lost, h.oversized_eq]

theorem kept_eq (h : Appended s logline s') (hlt : ∀ i ∈ s.lost, i < s.appended.length) :
    s'.kept = s.kept ++
      if logline.length < kLargeBuffer then [(logline, s.appended.length)] else [] := by
  have hnew : s.appended.length ∉ s.lost := fun hmem => (hlt _ hmem).false
  rw [State.kept, h.lost_eq, h.appended_eq, List.zipIdx_append, List.filter_append,
    List.zipIdx_singleton, Nat.zero_add]
  congr 1
  rw [List.filter_singleton]
  by_cases hshort : logline.length < kLargeBuffer
  · simp [hshort, hnew]
  · simp [hshort]

end Appended

namespace Conserved

theorem append (hi : Conserved s) (h : Appended s logline s') : Conserved s' := by
  refine ⟨?_, fun i hmem => ?_, fun batch hmem => hi.large batch (h.oversized_eq ▸ hmem)⟩
  · rw [h.messages_eq, hi.messages_eq, h.kept_eq hi.lost_lt]
  · have hlt := hi.lost_lt i (h.lost_eq ▸ hmem)
    rw [h.appended_eq, List.length_append]
    exact Nat.lt_add_right _ hlt

/-- A step that moves buffers at most. -/
theorem moved {t : State} (hi : Conserved s) (hmessages : t.messages = s.messages)
    (happended : t.appended = s.appended) (hover : t.oversized = s.oversized) : Conserved t := by
  have hlost : t.lost = s.lost := by
    unfold State.lost
    rw [hover]
  refine ⟨?_, fun i hmem => ?_, fun batch hmem => hi.large batch (hover ▸ hmem)⟩
  · rw [hmessages, hi.messages_eq, State.kept, State.kept, hlost, happended]
  · rw [happended]
    exact hi.lost_lt i (hlost ▸ hmem)

/-- A step of the back end that writes nothing and takes nothing. -/
theorem quiet {t : State} (hi : Conserved s) (houtput : t.output = s.output)
    (hbuffers : t.buffers_ = s.buffers_) (hcurrent : t.currentBuffer_ = s.currentBuffer_)
    (hunwritten : unwritten t.buffersToWrite t.backEnd = unwritten s.buffersToWrite s.backEnd)
    (happended : t.appended = s.appended) (hover : t.oversized = s.oversized) : Conserved t := by
  refine hi.moved ?_ happended hover
  rw [State.messages, State.messages, State.written, State.written, State.waiting, State.waiting,
    State.pending, State.pending, houtput, hunwritten, hbuffers, hcurrent]

/-- Too large a batch loses what is behind its first two buffers. -/
theorem dropMessages (hi : Conserved s) (h : s.backEnd = .swapped)
    (hsize : 25 < s.buffersToWrite.length) (buf : List Char) : Conserved { s with
      output := s.output ++ [.notice buf]
      buffersToWrite := s.buffersToWrite.take 2
      oversized := s.oversized ++ [s.buffersToWrite]
      backEnd := .writing 0 } := by
  let first : List Message := s.written ++ (s.buffersToWrite.take 2).flatMap Buffer.messages
  let dropped : List Message := (s.buffersToWrite.drop 2).flatMap Buffer.messages
  let last : List Message := s.pending.flatMap Buffer.messages
  have hbefore : s.messages = first ++ (dropped ++ last) := by
    have hbatch : s.buffersToWrite.flatMap Buffer.messages =
        (s.buffersToWrite.take 2).flatMap Buffer.messages ++ dropped := by
      rw [← List.flatMap_append, List.take_append_drop]
    rw [State.messages, State.waiting, h]
    show s.written ++ (s.buffersToWrite ++ s.pending).flatMap Buffer.messages = _
    rw [List.flatMap_append, hbatch]
    simp only [first, last, List.append_assoc]
  have hkept := hi.messages_eq
  rw [hbefore] at hkept
  have hnodup : ((first ++ (dropped ++ last)).map Prod.snd).Nodup := hkept ▸ kept_nodup s
  refine ⟨?_, fun i hmem => ?_, fun batch hmem => ?_⟩
  · show (s.output ++ [Written.notice buf]).flatMap Written.messages ++
        ((s.buffersToWrite.take 2).drop 0 ++ s.pending).flatMap Buffer.messages =
      s.appended.zipIdx.filter fun m => m.1.length < kLargeBuffer ∧
        m.2 ∉ lost (s.oversized ++ [s.buffersToWrite])
    have hafter : (s.output ++ [Written.notice buf]).flatMap Written.messages ++
        ((s.buffersToWrite.take 2).drop 0 ++ s.pending).flatMap Buffer.messages =
        first ++ last := by
      rw [List.drop_zero, List.flatMap_append, List.flatMap_append, List.flatMap_singleton,
        Written.messages, List.append_nil, ← List.append_assoc]
      rfl
    rw [hafter, ← filter_not_mem_of_nodup hnodup, hkept, State.kept, List.filter_filter]
    refine List.filter_congr fun m _ => ?_
    rw [lost_append, Bool.eq_iff_iff]
    simp only [List.mem_append, Bool.and_eq_true, decide_eq_true_eq, not_or]
    exact ⟨fun ⟨hd, hshort, hlost⟩ => ⟨hshort, hlost, hd⟩,
      fun ⟨hshort, hlost, hd⟩ => ⟨hd, hshort, hlost⟩⟩
  · have hparts : i ∈ lost (s.oversized ++ [s.buffersToWrite]) := hmem
    rw [lost_append] at hparts
    obtain hold | hnew := List.mem_append.mp hparts
    · exact hi.lost_lt i hold
    · obtain ⟨m, hm, rfl⟩ := List.mem_map.mp hnew
      have hmem : m ∈ s.kept := hkept ▸ List.mem_append_right _ (List.mem_append_left _ hm)
      show m.2 < s.appended.length
      exact lt_of_mem_kept hmem
  · obtain hold | hnew := List.mem_append.mp hmem
    · exact hi.large batch hold
    · rw [List.mem_singleton.mp hnew]
      exact hsize

/-- The swap hands the buffers over in their order. -/
theorem messages_swapped (hsup : Supplied s) {b : Buffer} (hb : s.currentBuffer_ = some b)
    (h : s.backEnd = .entering ∧ s.ready = true ∧ s.buffers_ ≠ [] ∨ s.backEnd = .waiting) :
    (s.swapped b).messages = s.messages := by
  obtain ⟨⟨c, hc, hempty⟩, _, hnil⟩ := hsup.stocked_swap h
  have hnone : unwritten s.buffersToWrite s.backEnd = [] := by
    obtain ⟨hp, _⟩ | hp := h
    · rw [hp]
      rfl
    · rw [hp]
      rfl
  have hpending : s.pending = s.buffers_ ++ [b] := by rw [State.pending, hb, Option.toList_some]
  have hafter : (s.swapped b).waiting = s.buffers_ ++ [b] ++ [c] := by
    show s.buffers_ ++ [b] ++ (s.buffersToWrite ++ s.newBuffer1.toList) = _
    rw [hnil, hc, List.nil_append, Option.toList_some]
  rw [State.messages, State.messages, hafter, State.waiting, hnone, hpending, List.nil_append,
    List.flatMap_append, List.flatMap_singleton, hempty, List.append_nil]
  rfl

theorem messages_write {i : ℕ} {b : Buffer} (h : s.backEnd = .writing i)
    (hb : s.buffersToWrite[i]? = some b) :
    State.messages { s with output := s.output ++ [.buffer b], backEnd := .writing (i + 1) } =
      s.messages := by
  obtain ⟨hlt, rfl⟩ := List.getElem?_eq_some_iff.mp hb
  have hbefore : s.messages = s.written ++
      (s.buffersToWrite.drop i ++ s.pending).flatMap Buffer.messages := by
    rw [State.messages, State.waiting, h]
    rfl
  rw [hbefore, List.drop_eq_getElem_cons hlt, List.cons_append,
    List.flatMap_cons, ← List.append_assoc]
  show (s.output ++ [Written.buffer _]).flatMap Written.messages ++
    (s.buffersToWrite.drop (i + 1) ++ s.pending).flatMap Buffer.messages = _
  rw [List.flatMap_append, List.flatMap_singleton]
  rfl

theorem effect (hi : Conserved s) (hsup : Supplied s) (he : Effect s a s') : Conserved s' := by
  have hidle {bs cs : List Buffer} {p q : BackEnd} (hp : unwritten bs p = [])
      (hq : unwritten cs q = []) : unwritten cs q = unwritten bs p := hq.trans hp.symm
  have hstep := he
  cases he with
  | append hb hroom ha => exact hi.append (hsup.appended hstep)
  | appendNext hb hfull hn ha => exact hi.append (hsup.appended hstep)
  | appendNew hb hfull hn ha => exact hi.append (hsup.appended hstep)
  | swap h hb hn => exact hi.moved (messages_swapped hsup hb h) rfl rfl
  | swapBoth h hb hn => exact hi.moved (messages_swapped hsup hb h) rfl rfl
  | dropMessages h hsize => exact hi.dropMessages h hsize _
  | write h hb => exact hi.moved (messages_write h hb) rfl rfl
  | keepMessages h hne hsize =>
    refine hi.quiet rfl rfl rfl ?_ rfl rfl
    rw [h]
    rfl
  | written h hle =>
    refine hi.quiet rfl rfl rfl ?_ rfl rfl
    rw [h]
    exact (List.drop_eq_nil_of_le hle).symm
  | stop hs h => exact hi.quiet rfl rfl rfl rfl rfl rfl
  | join hs h => exact hi.quiet rfl rfl rfl rfl rfl rfl
  | start h | begin h hr | makeBuffers h | enter h hr | leave h hr | wait h hready hq | resize h
  | keep1 h hb | refill1 h hb hbs | keep2 h hb | refill2 h hb hbs | clear h | exit h =>
    exact hi.quiet rfl rfl rfl (hidle (by rw [h]; rfl) rfl) rfl rfl

end Conserved

theorem conserved_new : Conserved new :=
  ⟨rfl, fun _ h => absurd h List.not_mem_nil, fun _ h => absurd h List.not_mem_nil⟩

theorem Reachable.conserved (h : Reachable s) : Conserved s := by
  have hboth : Supplied s ∧ Conserved s := h.invariant (I := fun s => Supplied s ∧ Conserved s)
    (fun s a s' hi hs => ⟨hi.1.step hs, hi.2.effect hi.1 (hi.1.step_effect hs)⟩)
    ⟨supplied_new, conserved_new⟩
  exact hboth.2

/-! ### The calls of a run -/

/-- What `append` is called with. -/
def Action.messages : Action → List (List Char)
  | .append logline _ => [logline]
  | _ => []

/-- A batch of more than 25 buffers, at the statement that looks at it. -/
def oversize (s : State) (a : Action) (_ : State) : List (List Buffer) :=
  match a, s.backEnd with
  | .threadFunc _, .swapped =>
    if 25 < s.buffersToWrite.length then [s.buffersToWrite] else []
  | _, _ => []

theorem appended_eq (he : Effect s a s') :
    s'.appended = s.appended ++ a.messages := by
  cases he with
  | append | appendNext | appendNew => rfl
  | _ => exact (List.append_nil _).symm

theorem oversized_eq (he : Effect s a s') : s'.oversized = s.oversized ++ oversize s a s' := by
  cases he with
  | dropMessages h hsize => simp [oversize, h, hsize]
  | keepMessages h hne hsize => simp [oversize, h, not_lt.mpr hsize]
  | swap h hb hn | swapBoth h hb hn =>
    rcases h with ⟨h, _⟩ | h <;> simp [oversize, h, State.swapped]
  | begin h | makeBuffers h | enter h | leave h | wait h | write h | written h | resize h
  | keep1 h | refill1 h | keep2 h | refill2 h | clear h | exit h => simp [oversize, h]
  | _ => simp [oversize, State.stored]

theorem appended_run {as : List Action} (h : Runs.run step new as = some s) :
    s.appended = as.flatMap Action.messages := by
  rw [← Runs.trace_eq_flatMap Action.messages h]
  exact Runs.eq_append_trace_of_invariant (fun _ _ _ => Supplied.step)
    (fun _ _ _ hsup hs => appended_eq (hsup.step_effect hs)) supplied_new h

theorem oversized_run {as : List Action} (h : Runs.run step new as = some s) :
    s.oversized = Runs.trace step oversize new as :=
  Runs.eq_append_trace_of_invariant (fun _ _ _ => Supplied.step)
    (fun _ _ _ hsup hs => oversized_eq (hsup.step_effect hs)) supplied_new h

/-- In every run the output, the buffers still to be written, `buffers_` and
`currentBuffer_` hold the messages in the order of the calls, each whole and once, but for
those too long for any buffer and those behind the first two buffers of a batch of more
than 25. -/
theorem messages_conserved {as : List Action} (h : Runs.run step new as = some s) :
    s.written ++ (unwritten s.buffersToWrite s.backEnd ++ s.buffers_ ++
        s.currentBuffer_.toList).flatMap Buffer.messages =
      ((as.flatMap Action.messages).zipIdx.filter fun m =>
        m.1.length < kLargeBuffer ∧ m.2 ∉ lost (Runs.trace step oversize new as)) ∧
    s.output.flatMap Written.logged ++ (unwritten s.buffersToWrite s.backEnd ++ s.buffers_ ++
        s.currentBuffer_.toList).flatMap Buffer.text =
      ((as.flatMap Action.messages).zipIdx.filter fun m =>
        m.1.length < kLargeBuffer ∧ m.2 ∉ lost (Runs.trace step oversize new as)).flatMap
          Prod.fst ∧
    ∀ batch ∈ Runs.trace step oversize new as, 25 < batch.length := by
  have hreach : Reachable s := ⟨as, h⟩
  have hi := hreach.conserved
  have hmessages := hi.messages_eq
  have hlarge := hi.large
  rw [State.messages, State.waiting, State.pending, ← List.append_assoc, State.kept, State.lost,
    appended_run h, oversized_run h] at hmessages
  rw [oversized_run h] at hlarge
  have houtput : s.written.flatMap Prod.fst = s.output.flatMap Written.logged := by
    rw [State.written, List.flatMap_assoc]
    exact List.flatMap_congr fun w _ => w.logged_eq.symm
  have hbuffers (bs : List Buffer) :
      (bs.flatMap Buffer.messages).flatMap Prod.fst = bs.flatMap Buffer.text := by
    rw [List.flatMap_assoc]
    exact List.flatMap_congr fun b _ => b.text_eq.symm
  have htext := congrArg (List.flatMap Prod.fst) hmessages
  rw [List.flatMap_append, houtput, hbuffers] at htext
  exact ⟨hmessages, htext, hlarge⟩

/-- One message about to be written, one appended after the swap. -/
theorem messages_conserved_two :
    ∃ (as : List Action) (s : State), Runs.run step new as = some s ∧
      as.flatMap Action.messages = [['x'], ['y']] ∧ s.backEnd = .swapped ∧
      s.written ++ (unwritten s.buffersToWrite s.backEnd ++ s.buffers_ ++
        s.currentBuffer_.toList).flatMap Buffer.messages = [(['x'], 0), (['y'], 1)] := by
  obtain ⟨s, hr, hs⟩ := Runs.exists_of_any step new
    [.start, .threadFunc [], .threadFunc [], .append ['x'] ⟨fun _ => nul⟩, .threadFunc [],
      .threadFunc [], .threadFunc [], .append ['y'] ⟨fun _ => nul⟩]
    (fun s => s.backEnd = .swapped ∧ s.oversized.length = 0) (by decide)
  obtain ⟨hp, hover⟩ := of_decide_eq_true hs
  refine ⟨_, s, hr, rfl, hp, ?_⟩
  rw [(messages_conserved hr).1, ← oversized_run hr, List.length_eq_zero_iff.mp hover]
  decide

end NaiveNet.AsyncLogging
