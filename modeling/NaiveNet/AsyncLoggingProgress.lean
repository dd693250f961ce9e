import NaiveNet.AsyncLoggingBuffers
import NaiveNet.Potential

/-!
# The end of asynchronous logging

After `stop` the back end still finishes the iteration it is in. How long that takes does
not depend on how much was logged: a batch of more than 25 buffers is cut down to two
before it is written. What the front ends append meanwhile is for an iteration that
never comes, so they cannot keep `stop` from returning.
-/
namespace NaiveNet.AsyncLogging

variable {s s' : State} {a : Action}

/-- A statement of the back end, or the join. -/
def Action.ofStopping : Action → Bool
  | .threadFunc _ => true
  | .join => true
  | _ => false

/-- A batch that is written has at most 25 buffers. -/
def Batched (s : State) : Prop := ∀ i, s.backEnd = .writing i → s.buffersToWrite.length ≤ 25

theorem Batched.step (hi : Batched s) (he : Effect s a s') : Batched s' := by
  cases he with
  | dropMessages h hsize =>
    intro i _
    show (s.buffersToWrite.take 2).length ≤ 25
    rw [List.length_take]
    omega
  | keepMessages h hne hsize => exact fun _ _ => hsize
  | @write time i b h hb => exact fun _ _ => hi i h
  | append | appendNext | appendNew | stop | join => exact hi
  | _ => exact fun _ hp => nomatch hp

/-- `stop` is called once the back end has counted down `latch_`. -/
def StopStarted (s : State) : Prop := s.stopper ≠ .notCalled →
  s.running_ = false ∧ s.backEnd ≠ .notStarted ∧ s.backEnd ≠ .starting

theorem StopStarted.step (hi : StopStarted s) (he : Effect s a s') : StopStarted s' := by
  cases he with
  | append | appendNext | appendNew => exact hi
  | start h => exact fun hs => absurd h (hi hs).2.1
  | stop hs h => exact fun _ => ⟨rfl, h⟩
  | join hs h => exact fun _ => hi (by rw [hs]; exact Stopper.noConfusion)
  | _ => exact fun hs => ⟨(hi hs).1, BackEnd.noConfusion, BackEnd.noConfusion⟩

/-- `stop` has been called, and the back end is on its way out. -/
structure Leaving (s : State) : Prop where
  supplied : Supplied s
  batched : Batched s
  stopStarted : StopStarted s
  called : s.stopper ≠ .notCalled

theorem called_step (hc : s.stopper ≠ .notCalled) (he : Effect s a s') :
    s'.stopper ≠ .notCalled := by
  cases he with
  | stop | join => exact Stopper.noConfusion
  | _ => exact hc

theorem Leaving.step (hi : Leaving s) (hs : AsyncLogging.step s a = some s') : Leaving s' := by
  have he := hi.supplied.step_effect hs
  exact ⟨hi.supplied.effect he, hi.batched.step he, hi.stopStarted.step he,
    called_step hi.called he⟩

theorem Reachable.leaving (h : Reachable s) (hc : s.stopper ≠ .notCalled) : Leaving s := by
  have hall : Supplied s ∧ Batched s ∧ StopStarted s := by
    refine h.invariant (I := fun s => Supplied s ∧ Batched s ∧ StopStarted s)
      (fun s a s' hi hs => ?_) ⟨supplied_new, fun _ hp => (nomatch hp), fun hs => absurd rfl hs⟩
    have he := hi.1.step_effect hs
    exact ⟨hi.1.effect he, hi.2.1.step he, hi.2.2.step he⟩
  exact ⟨hall.1, hall.2.1, hall.2.2, hc⟩

/-- The statements the back end has still to make, once `running_` is cleared. -/
def BackEnd.distance (buffers : ℕ) : BackEnd → ℕ
  | .notStarted => 0
  | .starting => 4
  | .latched => 3
  | .head => 2
  | .entering => 36
  | .waiting => 35
  | .swapped => 34
  | .writing i => 7 + (buffers - i)
  | .resizing => 6
  | .refilling1 => 5
  | .refilling2 => 4
  | .clearing => 3
  | .left => 1
  | .exited => 0

def Stopper.distance : Stopper → ℕ
  | .notCalled => 2
  | .joining => 1
  | .returned => 0

/-- What the return of `stop` waits for. -/
def remaining (s : State) : ℕ := s.backEnd.distance s.buffersToWrite.length + s.stopper.distance

theorem Leaving.remaining_step (hi : Leaving s) (he : Effect s a s') :
    remaining s' + a.ofStopping.toNat ≤ remaining s := by
  obtain ⟨hr, hstarted⟩ := hi.stopStarted hi.called
  have hmove {p q : BackEnd} {bs : List Buffer} (hp : s.backEnd = p)
      (hlt : q.distance bs.length + 1 ≤ p.distance s.buffersToWrite.length) :
      q.distance bs.length + s.stopper.distance + 1 ≤ remaining s := by
    rw [remaining, hp]
    omega
  cases he with
  | append | appendNext | appendNew => exact le_rfl
  | start h => exact absurd h hstarted.1
  | begin h _ => exact absurd h hstarted.2
  | makeBuffers h => exact hmove h le_rfl
  | enter h hr' => exact nomatch hr.symm.trans hr'
  | leave h _ => exact hmove h le_rfl
  | wait h hready hq => exact hmove h le_rfl
  | swap h hb hn | swapBoth h hb hn =>
    obtain ⟨h, _⟩ | h := h
    · exact hmove h (Nat.le_succ _)
    · exact hmove h le_rfl
  | dropMessages h hsize =>
    refine hmove h ?_
    simp only [BackEnd.distance, List.length_take]
    omega
  | keepMessages h hne hsize =>
    refine hmove h ?_
    simp only [BackEnd.distance]
    omega
  | write h hb =>
    obtain ⟨hlt, _⟩ := List.getElem?_eq_some_iff.mp hb
    refine hmove h ?_
    simp only [BackEnd.distance]
    omega
  | written h hle =>
    refine hmove h ?_
    simp only [BackEnd.distance]
    omega
  | resize h => exact hmove h le_rfl
  | keep1 h hb | refill1 h hb hbs => exact hmove h le_rfl
  | keep2 h hb | refill2 h hb hbs => exact hmove h le_rfl
  | clear h => exact hmove h le_rfl
  | exit h => exact hmove h le_rfl
  | stop hs h => exact absurd hs hi.called
  | join hs h =>
    rw [remaining, remaining, hs]
    exact le_rfl

theorem descends_remaining : Runs.Descends step Leaving Action.ofStopping remaining where
  keep _ _ _ hi hs := hi.step hs
  lower s a s' hi hs hk := by
    have hle := hi.remaining_step (hi.supplied.step_effect hs)
    rw [hk, Bool.toNat_true] at hle
    omega
  hold s a s' hi hs hk := by
    have hle := hi.remaining_step (hi.supplied.step_effect hs)
    rw [hk, Bool.toNat_false] at hle
    omega

/-- What `stop` waits for can happen: a statement of the back end, or the join. -/
theorem Leaving.exists_step (hi : Leaving s) (hret : s.stopper ≠ .returned) :
    ∃ a s', a.ofStopping = true ∧ AsyncLogging.step s a = some s' := by
  have hable {a : Action} (henabled : enabled s a = true) :
      ∃ s', AsyncLogging.step s a = some s' := by
    refine ⟨_, if_pos ?_⟩
    rw [hi.supplied.not_failed, henabled]
    rfl
  obtain ⟨_, hstarted, _⟩ := hi.stopStarted hi.called
  by_cases hexited : s.backEnd = .exited
  · have hjoining : s.stopper = .joining := by
      cases hs : s.stopper with
      | notCalled => exact absurd hs hi.called
      | joining => rfl
      | returned => exact absurd hs hret
    obtain ⟨s', hs⟩ := hable (a := .join) (decide_eq_true ⟨hjoining, hexited⟩)
    exact ⟨.join, s', rfl, hs⟩
  · obtain ⟨s', hs⟩ := hable (a := .threadFunc []) (decide_eq_true ⟨hstarted, hexited⟩)
    exact ⟨.threadFunc [], s', rfl, hs⟩

/-- `stop` returns: once it is called, the back end makes at most 36 statements more,
however many buffers wait and whatever is appended meanwhile. While `stop` has not returned,
a statement or the join can happen, so it returns in every infinite run that does not
starve them for ever. -/
theorem back_end_exits (h : Reachable s) (hc : s.stopper ≠ .notCalled) :
    (∀ as s', Runs.run step s as = some s' → as.countP Action.ofStopping ≤ 37 ∧
      (s'.stopper ≠ .returned → ∃ a s'', a.ofStopping = true ∧ step s' a = some s'')) ∧
    ∀ e : Runs.Execution step, e.state 0 = s → e.Fair Action.ofStopping →
      ∃ i, (e.state i).stopper = .returned := by
  have hi := h.leaving hc
  refine ⟨fun as s' hrun => ⟨?_, ?_⟩, fun e he hfair => ?_⟩
  · have hcount := descends_remaining.countP_le hi hrun
    have hback : s.backEnd.distance s.buffersToWrite.length ≤ 36 := by
      cases hp : s.backEnd with
      | writing i =>
        have hbatch := hi.batched i hp
        simp only [BackEnd.distance]
        omega
      | _ => simp [BackEnd.distance]
    have hstop : s.stopper.distance ≤ 1 := by
      cases hs : s.stopper with
      | notCalled => exact absurd hs hc
      | _ => simp [Stopper.distance]
    unfold remaining at hcount
    omega
  · have hi' : Leaving s' := Runs.Reaches.invariant (fun _ _ _ => Leaving.step) ⟨as, hrun⟩ hi
    exact hi'.exists_step
  · exact descends_remaining.eventually (fun t ht => ht.exists_step) e (he ▸ hi) hfair

/-- `stop` is called while the back end waits for something to write. -/
theorem back_end_exits_waiting :
    ∃ s : State, s.backEnd = .waiting ∧ s.stopper = .joining ∧
      ∀ as s', Runs.run step s as = some s' → as.countP Action.ofStopping ≤ 37 ∧
        (s'.stopper ≠ .returned → ∃ a s'', a.ofStopping = true ∧ step s' a = some s'') := by
  obtain ⟨s, hrun, hs⟩ := Runs.exists_of_any step new
    (.start :: List.replicate 4 (.threadFunc []) ++ [.stop])
    (fun s => s.backEnd = .waiting ∧ s.stopper = .joining) (by decide)
  obtain ⟨hp, hstop⟩ := of_decide_eq_true hs
  exact ⟨s, hp, hstop, (back_end_exits ⟨_, hrun⟩ (by rw [hstop]; exact Stopper.noConfusion)).1⟩

end NaiveNet.AsyncLogging
