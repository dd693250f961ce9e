import NaiveNet.LogStream
import NaiveNet.Numerals

/-!
# Asynchronous logging

`AsyncLogging` between its front ends, which call `append` from any number of threads,
and the one back end that runs `threadFunc`. A step is one critical section of `mutex_`
(from acquiring it to releasing it or to the wait) or one statement of the back end
outside the lock, where it reads `running_`. `waitForSeconds` may end at any time,
notified or not, so `notify` changes nothing that can happen.

A failed assertion, a null pointer or a `pop_back` of nothing is a failure, after which
nothing happens. Every buffer knows which messages it holds; what was appended and which
batches were too large is history that no step reads.
-/
namespace NaiveNet.AsyncLogging

/-- A message and its place in the order in which the calls of `append` got the lock. -/
abbrev Message := List Char × ℕ

/-- The text of the buffer is that of the messages. -/
structure Holds (data : FixedBuffer kLargeBuffer) (messages : List Message) : Prop where
  length_lt : data.length < kLargeBuffer
  text_eq : data.text = messages.flatMap Prod.fst

theorem holds_empty (data : FixedBuffer kLargeBuffer) : Holds data.reset [] :=
  ⟨show 0 < 4000 * 1000 by omega, rfl⟩

theorem kLargeBuffer_lt : kLargeBuffer < 2 ^ 31 := show 4000 * 1000 < 2 ^ 31 by omega

/-- `FixedBuffer::append` stores a message whole or not at all. -/
theorem Holds.append {data data' : FixedBuffer kLargeBuffer} {messages : List Message}
    (h : Holds data messages) {m : Message} (ha : data.append m.1 = some data') :
    Holds data' (messages ++ if m.1.length < data.avail then [m] else []) := by
  have havail : data.avail = kLargeBuffer - data.length := rfl
  have hlt := h.length_lt
  by_cases hroom : data.length + m.1.length < kLargeBuffer
  · rw [FixedBuffer.append_of_lt kLargeBuffer_lt hroom] at ha
    obtain rfl := Option.some.inj ha
    rw [if_pos (by omega)]
    refine ⟨hroom, ?_⟩
    rw [FixedBuffer.text_put, h.text_eq, List.flatMap_append, List.flatMap_singleton]
  · rw [FixedBuffer.append_of_le hlt.le (not_lt.mp hroom)] at ha
    obtain rfl := Option.some.inj ha
    rw [if_neg (by omega), List.append_nil]
    exact h

/-- A `FixedBuffer<kLargeBuffer>` and what it holds. -/
structure Buffer where
  data : FixedBuffer kLargeBuffer
  messages : List Message
  holds : Holds data messages

namespace Buffer

/-- `new Buffer`; `memory` is what was there before. -/
def new (memory : CArray Char kLargeBuffer) : Buffer := ⟨.new memory, [], holds_empty ⟨memory, 0⟩⟩

/-- `new Buffer` and `bzero()` -/
def zeroed : Buffer := new ⟨fun _ => nul⟩

def length (b : Buffer) : ℕ := b.data.length

def avail (b : Buffer) : ℤ := b.data.avail

def text (b : Buffer) : List Char := b.data.text

def append (b : Buffer) (m : Message) : Option Buffer :=
  match h : b.data.append m.1 with
  | some data => some ⟨data, _, b.holds.append h⟩
  | none => none

def reset (b : Buffer) : Buffer := ⟨b.data.reset, [], holds_empty b.data⟩

variable {b b' : Buffer} {m : Message}

theorem avail_eq : b.avail = kLargeBuffer - b.length := rfl

theorem text_eq (b : Buffer) : b.text = b.messages.flatMap Prod.fst := b.holds.text_eq

/-- A buffer without messages has length zero. -/
theorem length_eq_zero (h : b.messages = []) : b.length = 0 := by
  have htext := b.text_eq
  rw [h] at htext
  exact (FixedBuffer.length_text b.data).symm.trans (congrArg List.length htext)

theorem exists_append (b : Buffer) (m : Message) : ∃ b', b.append m = some b' := by
  obtain ⟨data, hdata⟩ := FixedBuffer.exists_append kLargeBuffer_lt b.holds.length_lt.le m.1
  unfold append
  split
  next data' h => exact ⟨_, rfl⟩
  next h => rw [hdata] at h; contradiction

theorem messages_append (h : b.append m = some b') :
    b'.messages = b.messages ++ if m.1.length < b.avail then [m] else [] := by
  unfold append at h
  split at h
  next data hdata => obtain rfl := Option.some.inj h; rfl
  next => contradiction

end Buffer

/-- Where the back end stands in `threadFunc`. -/
inductive BackEnd
  | notStarted
  /-- Created, about to count down `latch_`. -/
  | starting
  | latched
  /-- About to read `running_`. -/
  | head
  /-- About to lock `mutex_`. -/
  | entering
  | waiting
  /-- The lock is released, `buffersToWrite` not yet looked at. -/
  | swapped
  | writing (i : ℕ)
  | resizing
  | refilling1
  | refilling2
  | clearing
  /-- Out of the loop. -/
  | left
  | exited
  deriving DecidableEq, Repr

/-- Where the one call of `stop` stands. -/
inductive Stopper
  | notCalled
  | joining
  | returned
  deriving DecidableEq, Repr

/-- What `output.append` was given. -/
inductive Written
  | notice (buf : List Char)
  | buffer (b : Buffer)

def Written.text : Written → List Char
  | .notice buf => buf
  | .buffer b => b.text

def Written.messages : Written → List Message
  | .notice _ => []
  | .buffer b => b.messages

structure State where
  running_ : Bool
  currentBuffer_ : Option Buffer
  nextBuffer_ : Option Buffer
  buffers_ : List Buffer
  backEnd : BackEnd
  newBuffer1 : Option Buffer
  newBuffer2 : Option Buffer
  buffersToWrite : List Buffer
  output : List Written
  stopper : Stopper
  failed : Bool
  appended : List (List Char)
  /-- The batches of more than 25 buffers, as they were swapped. -/
  oversized : List (List Buffer)

/-- The constructor. -/
def new : State where
  running_ := false
  currentBuffer_ := some .zeroed
  nextBuffer_ := some .zeroed
  buffers_ := []
  backEnd := .notStarted
  newBuffer1 := none
  newBuffer2 := none
  buffersToWrite := []
  output := []
  stopper := .notCalled
  failed := false
  appended := []
  oversized := []

/-- `currentBuffer_->append(logline, len)`, where `currentBuffer_` is `b`. -/
def State.store (s : State) (b : Buffer) (logline : List Char) : Option State :=
  (b.append (logline, s.appended.length)).map fun b =>
    { s with currentBuffer_ := some b, appended := s.appended ++ [logline] }

def append (s : State) (logline : List Char) (memory : CArray Char kLargeBuffer) :
    Option State := do
  let currentBuffer_ ← s.currentBuffer_
  if logline.length < currentBuffer_.avail then
    s.store currentBuffer_ logline
  else
    let s := { s with buffers_ := s.buffers_ ++ [currentBuffer_] }
    match s.nextBuffer_ with
    | some nextBuffer_ => State.store { s with nextBuffer_ := none } nextBuffer_ logline
    | none => s.store (.new memory) logline

/-- The assertions at the head of an iteration. -/
def State.ready (s : State) : Bool :=
  s.newBuffer1.any (·.length = 0) && s.newBuffer2.any (·.length = 0) && s.buffersToWrite.isEmpty

/-- The critical section of the back end after the wait. -/
def swap (s : State) : Option State := do
  let currentBuffer_ ← s.currentBuffer_
  let buffers_ := s.buffers_ ++ [currentBuffer_]
  let s := { s with
    currentBuffer_ := s.newBuffer1
    newBuffer1 := none
    buffersToWrite := buffers_
    buffers_ := s.buffersToWrite
    backEnd := .swapped }
  match s.nextBuffer_ with
  | some _ => return s
  | none => return { s with nextBuffer_ := s.newBuffer2, newBuffer2 := none }

/-- `snprintf` to `buf[256]`; `time` is the formatted time. -/
def notice (time : List Char) (n : ℕ) : List Char :=
  ("Dropped log messages at ".toList ++ time ++ ", ".toList ++ decimal n ++
    " larger buffers\n".toList).take 255

/-- Looks at what was swapped, and drops what is too much. -/
def dropMessages (s : State) (time : List Char) : Option State :=
  if s.buffersToWrite.isEmpty then none
  else if 25 < s.buffersToWrite.length then
    some { s with
      output := s.output ++ [.notice (notice time (s.buffersToWrite.length - 2))]
      buffersToWrite := s.buffersToWrite.take 2
      oversized := s.oversized ++ [s.buffersToWrite]
      backEnd := .writing 0 }
  else some { s with backEnd := .writing 0 }

/-- `buffersToWrite.pop_back()`, after the assertion that there is one, and `reset()`. -/
def recycle (buffersToWrite : List Buffer) : Option (Buffer × List Buffer) :=
  buffersToWrite.getLast?.map fun b => (b.reset, buffersToWrite.dropLast)

/-- One statement of the back end; `none` where it fails. -/
def threadFunc (s : State) (time : List Char) : Option State :=
  match s.backEnd with
  | .notStarted => some s
  | .starting => if s.running_ then some { s with backEnd := .latched } else none
  | .latched =>
    some { s with newBuffer1 := some .zeroed, newBuffer2 := some .zeroed, backEnd := .head }
  | .head => some { s with backEnd := if s.running_ then .entering else .left }
  | .entering =>
    if s.ready then
      if s.buffers_.isEmpty then some { s with backEnd := .waiting } else swap s
    else none
  | .waiting => swap s
  | .swapped => dropMessages s time
  | .writing i =>
    match s.buffersToWrite[i]? with
    | some b => some { s with output := s.output ++ [.buffer b], backEnd := .writing (i + 1) }
    | none => some { s with backEnd := .resizing }
  | .resizing =>
    some { s with
      buffersToWrite := if 2 < s.buffersToWrite.length then s.buffersToWrite.take 2
        else s.buffersToWrite
      backEnd := .refilling1 }
  | .refilling1 =>
    match s.newBuffer1 with
    | some _ => some { s with backEnd := .refilling2 }
    | none => (recycle s.buffersToWrite).map fun r =>
        { s with newBuffer1 := some r.1, buffersToWrite := r.2, backEnd := .refilling2 }
  | .refilling2 =>
    match s.newBuffer2 with
    | some _ => some { s with backEnd := .clearing }
    | none => (recycle s.buffersToWrite).map fun r =>
        { s with newBuffer2 := some r.1, buffersToWrite := r.2, backEnd := .clearing }
  | .clearing => some { s with buffersToWrite := [], backEnd := .head }
  | .left => some { s with backEnd := .exited }
  | .exited => some s

/-- What can happen next. `stop` is called after `start` has returned. -/
inductive Action
  | append (logline : List Char) (memory : CArray Char kLargeBuffer)
  | start
  | threadFunc (time : List Char)
  | stop
  | join

def enabled (s : State) : Action → Bool
  | .append _ _ => true
  | .start => s.backEnd = .notStarted
  | .threadFunc _ => s.backEnd ≠ .notStarted ∧ s.backEnd ≠ .exited
  | .stop => s.stopper = .notCalled ∧ s.backEnd ≠ .notStarted ∧ s.backEnd ≠ .starting
  | .join => s.stopper = .joining ∧ s.backEnd = .exited

/-- The effect of an action that can happen; `none` is a failure. -/
def perform (s : State) : Action → Option State
  | .append logline memory => append s logline memory
  | .start => some { s with running_ := true, backEnd := .starting }
  | .threadFunc time => threadFunc s time
  | .stop => some { s with running_ := false, stopper := .joining }
  | .join => some { s with stopper := .returned }

def step (s : State) (a : Action) : Option State :=
  if !s.failed && enabled s a then some ((perform s a).getD { s with failed := true }) else none

def Reachable (s : State) : Prop := Runs.Reaches step new s

/-- Every step is what the code does, or a failure of it. -/
theorem step_cases {s s' : State} {a : Action} (h : step s a = some s') :
    enabled s a = true ∧ s.failed = false ∧
      (perform s a = some s' ∨ perform s a = none ∧ s' = { s with failed := true }) := by
  unfold step at h
  split at h
  next hc =>
    rw [Bool.and_eq_true, Bool.not_eq_true'] at hc
    obtain ⟨hfailed, henabled⟩ := hc
    refine ⟨henabled, hfailed, ?_⟩
    obtain rfl := Option.some.inj h
    cases perform s a with
    | none => exact Or.inr ⟨rfl, rfl⟩
    | some t => exact Or.inl rfl
  next => contradiction

/-- The state after `currentBuffer_->append` has left `b`. -/
def State.stored (s : State) (b : Buffer) (logline : List Char) : State :=
  { s with currentBuffer_ := some b, appended := s.appended ++ [logline] }

/-- The state after a swap of `b` and what was in `buffers_`. -/
def State.swapped (s : State) (b : Buffer) : State :=
  { s with
    currentBuffer_ := s.newBuffer1
    newBuffer1 := none
    buffersToWrite := s.buffers_ ++ [b]
    buffers_ := s.buffersToWrite
    backEnd := .swapped }

/-- All that a step can do without a failure, branch by branch. -/
inductive Effect (s : State) : Action → State → Prop
  | append {logline memory b b'} (hb : s.currentBuffer_ = some b)
      (hroom : logline.length < b.avail) (ha : b.append (logline, s.appended.length) = some b') :
      Effect s (.append logline memory) (s.stored b' logline)
  | appendNext {logline memory b c c'} (hb : s.currentBuffer_ = some b)
      (hfull : b.avail ≤ logline.length) (hn : s.nextBuffer_ = some c)
      (ha : c.append (logline, s.appended.length) = some c') :
      Effect s (.append logline memory)
        (State.stored { s with buffers_ := s.buffers_ ++ [b], nextBuffer_ := none } c' logline)
  | appendNew {logline memory b c'} (hb : s.currentBuffer_ = some b)
      (hfull : b.avail ≤ logline.length) (hn : s.nextBuffer_ = none)
      (ha : (Buffer.new memory).append (logline, s.appended.length) = some c') :
      Effect s (.append logline memory)
        (State.stored { s with buffers_ := s.buffers_ ++ [b] } c' logline)
  | start (h : s.backEnd = .notStarted) :
      Effect s .start { s with running_ := true, backEnd := .starting }
  | begin {time} (h : s.backEnd = .starting) (hr : s.running_ = true) :
      Effect s (.threadFunc time) { s with backEnd := .latched }
  | makeBuffers {time} (h : s.backEnd = .latched) :
      Effect s (.threadFunc time)
        { s with newBuffer1 := some .zeroed, newBuffer2 := some .zeroed, backEnd := .head }
  | enter {time} (h : s.backEnd = .head) (hr : s.running_ = true) :
      Effect s (.threadFunc time) { s with backEnd := .entering }
  | leave {time} (h : s.backEnd = .head) (hr : s.running_ = false) :
      Effect s (.threadFunc time) { s with backEnd := .left }
  | wait {time} (h : s.backEnd = .entering) (hready : s.ready = true) (hq : s.buffers_ = []) :
      Effect s (.threadFunc time) { s with backEnd := .waiting }
  | swap {time b c} (h : s.backEnd = .entering ∧ s.ready = true ∧ s.buffers_ ≠ [] ∨
        s.backEnd = .waiting) (hb : s.currentBuffer_ = some b) (hn : s.nextBuffer_ = some c) :
      Effect s (.threadFunc time) (s.swapped b)
  | swapBoth {time b} (h : s.backEnd = .entering ∧ s.ready = true ∧ s.buffers_ ≠ [] ∨
        s.backEnd = .waiting) (hb : s.currentBuffer_ = some b) (hn : s.nextBuffer_ = none) :
      Effect s (.threadFunc time)
        { s.swapped b with nextBuffer_ := s.newBuffer2, newBuffer2 := none }
  | dropMessages {time} (h : s.backEnd = .swapped) (hsize : 25 < s.buffersToWrite.length) :
      Effect s (.threadFunc time) { s with
        output := s.output ++ [.notice (notice time (s.buffersToWrite.length - 2))]
        buffersToWrite := s.buffersToWrite.take 2
        oversized := s.oversized ++ [s.buffersToWrite]
        backEnd := .writing 0 }
  | keepMessages {time} (h : s.backEnd = .swapped) (hne : s.buffersToWrite ≠ [])
      (hsize : s.buffersToWrite.length ≤ 25) :
      Effect s (.threadFunc time) { s with backEnd := .writing 0 }
  | write {time i b} (h : s.backEnd = .writing i) (hb : s.buffersToWrite[i]? = some b) :
      Effect s (.threadFunc time)
        { s with output := s.output ++ [.buffer b], backEnd := .writing (i + 1) }
  | written {time i} (h : s.backEnd = .writing i) (hi : s.buffersToWrite.length ≤ i) :
      Effect s (.threadFunc time) { s with backEnd := .resizing }
  | resize {time} (h : s.backEnd = .resizing) :
      Effect s (.threadFunc time)
        { s with buffersToWrite := s.buffersToWrite.take 2, backEnd := .refilling1 }
  | keep1 {time b} (h : s.backEnd = .refilling1) (hb : s.newBuffer1 = some b) :
      Effect s (.threadFunc time) { s with backEnd := .refilling2 }
  | refill1 {time b bs} (h : s.backEnd = .refilling1) (hb : s.newBuffer1 = none)
      (hbs : s.buffersToWrite = bs ++ [b]) :
      Effect s (.threadFunc time)
        { s with newBuffer1 := some b.reset, buffersToWrite := bs, backEnd := .refilling2 }
  | keep2 {time b} (h : s.backEnd = .refilling2) (hb : s.newBuffer2 = some b) :
      Effect s (.threadFunc time) { s with backEnd := .clearing }
  | refill2 {time b bs} (h : s.backEnd = .refilling2) (hb : s.newBuffer2 = none)
      (hbs : s.buffersToWrite = bs ++ [b]) :
      Effect s (.threadFunc time)
        { s with newBuffer2 := some b.reset, buffersToWrite := bs, backEnd := .clearing }
  | clear {time} (h : s.backEnd = .clearing) :
      Effect s (.threadFunc time) { s with buffersToWrite := [], backEnd := .head }
  | exit {time} (h : s.backEnd = .left) :
      Effect s (.threadFunc time) { s with backEnd := .exited }
  | stop (hs : s.stopper = .notCalled) (h : s.backEnd ≠ .notStarted ∧ s.backEnd ≠ .starting) :
      Effect s .stop { s with running_ := false, stopper := .joining }
  | join (hs : s.stopper = .joining) (h : s.backEnd = .exited) :
      Effect s .join { s with stopper := .returned }

variable {s s' : State} {logline : List Char} {memory : CArray Char kLargeBuffer}
  {time : List Char}

theorem store_eq_some {b : Buffer} (h : s.store b logline = some s') :
    ∃ b', b.append (logline, s.appended.length) = some b' ∧ s' = s.stored b' logline := by
  obtain ⟨b', hb', rfl⟩ := Option.map_eq_some_iff.mp h
  exact ⟨b', hb', rfl⟩

theorem append_effect (h : append s logline memory = some s') :
    Effect s (.append logline memory) s' := by
  unfold append at h
  obtain ⟨b, hb, h⟩ := Option.bind_eq_some_iff.mp h
  split at h
  next hroom =>
    obtain ⟨b', ha, rfl⟩ := store_eq_some h
    exact .append hb hroom ha
  next hfull =>
    dsimp only at h
    split at h
    next c hn =>
      obtain ⟨c', ha, rfl⟩ := store_eq_some h
      exact .appendNext hb (not_lt.mp hfull) hn ha
    next hn =>
      obtain ⟨c', ha, rfl⟩ := store_eq_some h
      exact .appendNew hb (not_lt.mp hfull) hn ha

theorem swap_effect (hp : s.backEnd = .entering ∧ s.ready = true ∧ s.buffers_ ≠ [] ∨
      s.backEnd = .waiting) (h : swap s = some s') : Effect s (.threadFunc time) s' := by
  unfold swap at h
  obtain ⟨b, hb, h⟩ := Option.bind_eq_some_iff.mp h
  dsimp only at h
  split at h
  next c hn =>
    obtain rfl := Option.some.inj h
    exact .swap hp hb hn
  next hn =>
    obtain rfl := Option.some.inj h
    exact .swapBoth hp hb hn

theorem recycle_eq_some {buffersToWrite : List Buffer} {r : Buffer × List Buffer}
    (h : recycle buffersToWrite = some r) :
    ∃ b, buffersToWrite = r.2 ++ [b] ∧ r.1 = b.reset := by
  obtain ⟨b, hb, rfl⟩ := Option.map_eq_some_iff.mp h
  exact ⟨b, (List.dropLast_append_getLast? b hb).symm, rfl⟩

theorem dropMessages_effect (hp : s.backEnd = .swapped) (h : dropMessages s time = some s') :
    Effect s (.threadFunc time) s' := by
  unfold dropMessages at h
  split_ifs at h with hempty hsize
  · obtain rfl := Option.some.inj h
    exact .dropMessages hp hsize
  · obtain rfl := Option.some.inj h
    exact .keepMessages hp (fun hnil => hempty (by rw [hnil]; rfl)) (not_lt.mp hsize)

theorem threadFunc_effect (henabled : enabled s (.threadFunc time) = true)
    (h : threadFunc s time = some s') : Effect s (.threadFunc time) s' := by
  obtain ⟨hstarted, hexited⟩ := of_decide_eq_true henabled
  unfold threadFunc at h
  split at h
  next hp => exact absurd hp hstarted
  next hp =>
    split_ifs at h with hr
    obtain rfl := Option.some.inj h
    exact .begin hp hr
  next hp =>
    obtain rfl := Option.some.inj h
    exact .makeBuffers hp
  next hp =>
    obtain rfl := Option.some.inj h
    split_ifs with hr
    · exact .enter hp hr
    · exact .leave hp (eq_false_of_ne_true hr)
  next hp =>
    split_ifs at h with hready hq
    · obtain rfl := Option.some.inj h
      exact .wait hp hready (List.isEmpty_iff.mp hq)
    · exact swap_effect (Or.inl ⟨hp, hready, fun hnil => hq (List.isEmpty_iff.mpr hnil)⟩) h
  next hp => exact swap_effect (Or.inr hp) h
  next hp => exact dropMessages_effect hp h
  next i hp =>
    split at h
    next b hb =>
      obtain rfl := Option.some.inj h
      exact .write hp hb
    next hb =>
      obtain rfl := Option.some.inj h
      exact .written hp (List.getElem?_eq_none_iff.mp hb)
  next hp =>
    obtain rfl := Option.some.inj h
    split_ifs with hsize
    · exact .resize hp
    · have hresize : Effect s (.threadFunc time) _ := .resize hp
      rwa [List.take_of_length_le (not_lt.mp hsize)] at hresize
  next hp =>
    split at h
    next b hb =>
      obtain rfl := Option.some.inj h
      exact .keep1 hp hb
    next hb =>
      obtain ⟨r, hr, rfl⟩ := Option.map_eq_some_iff.mp h
      obtain ⟨b, hbs, hreset⟩ := recycle_eq_some hr
      rw [hreset]
      exact .refill1 hp hb hbs
  next hp =>
    split at h
    next b hb =>
      obtain rfl := Option.some.inj h
      exact .keep2 hp hb
    next hb =>
      obtain ⟨r, hr, rfl⟩ := Option.map_eq_some_iff.mp h
      obtain ⟨b, hbs, hreset⟩ := recycle_eq_some hr
      rw [hreset]
      exact .refill2 hp hb hbs
  next hp =>
    obtain rfl := Option.some.inj h
    exact .clear hp
  next hp =>
    obtain rfl := Option.some.inj h
    exact .exit hp
  next hp => exact absurd hp hexited

theorem perform_effect {a : Action} (henabled : enabled s a = true)
    (h : perform s a = some s') : Effect s a s' := by
  cases a with
  | append logline memory => exact append_effect h
  | start =>
    obtain rfl := Option.some.inj h
    exact .start (of_decide_eq_true henabled)
  | threadFunc time => exact threadFunc_effect henabled h
  | stop =>
    obtain rfl := Option.some.inj h
    obtain ⟨hs, hp⟩ := of_decide_eq_true henabled
    exact .stop hs hp
  | join =>
    obtain rfl := Option.some.inj h
    obtain ⟨hs, hp⟩ := of_decide_eq_true henabled
    exact .join hs hp

end NaiveNet.AsyncLogging
