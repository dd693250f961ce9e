import NaiveNet.AsyncLoggingMessages

/-!
# Stopping asynchronous logging

After `stop` has cleared `running_` the back end swaps at most once more, and only if it
has already tested `running_` in this iteration. What is in the buffers of the front end
at any other time of the call stays there.
-/
namespace NaiveNet.AsyncLogging

/-- The back end is about to swap, or there is nothing to swap. -/
def InTime (s : State) : Prop :=
  s.backEnd = .entering ∨ s.backEnd = .waiting ∨ s.pending.flatMap Buffer.messages = []

/-- The first `k` messages will be swapped if they have not been. -/
def Safe (k : ℕ) (s : State) : Prop :=
  s.backEnd = .entering ∨ s.backEnd = .waiting ∨
    ∀ m ∈ s.pending.flatMap Buffer.messages, k ≤ m.2

/-- `stop` has cleared `running_`, with `k` messages appended. -/
structure Stopping (k : ℕ) (s : State) : Prop where
  not_running : s.running_ = false
  started : s.backEnd ≠ .notStarted
  le_appended : k ≤ s.appended.length

variable {s s' : State} {a : Action} {k : ℕ}

/-- A swap leaves an empty buffer to the front end. -/
theorem safe_swapped (hsup : Supplied s) (b : Buffer)
    (h : s.backEnd = .entering ∧ s.ready = true ∧ s.buffers_ ≠ [] ∨ s.backEnd = .waiting) :
    Safe k (s.swapped b) := by
  obtain ⟨⟨c, hc, hempty⟩, _, hnil⟩ := hsup.stocked_swap h
  have hpending : (s.swapped b).pending.flatMap Buffer.messages = [] := by
    show (s.buffersToWrite ++ s.newBuffer1.toList).flatMap Buffer.messages = []
    rw [hnil, hc, List.nil_append, Option.toList_some, List.flatMap_singleton, hempty]
  refine Or.inr (Or.inr fun m hm => ?_)
  rw [hpending] at hm
  exact absurd hm List.not_mem_nil

/-- A step of the back end that is not at the lock, before or after. -/
theorem safe_congr {t : State} (hs : s.backEnd ≠ .entering ∧ s.backEnd ≠ .waiting)
    (ht : t.backEnd ≠ .entering ∧ t.backEnd ≠ .waiting) (hpending : t.pending = s.pending) :
    Safe k t ↔ Safe k s := by
  have hdrop {u : State} (hu : u.backEnd ≠ .entering ∧ u.backEnd ≠ .waiting) :
      Safe k u ↔ ∀ m ∈ u.pending.flatMap Buffer.messages, k ≤ m.2 := by
    rw [Safe, or_iff_right hu.1, or_iff_right hu.2]
  rw [hdrop hs, hdrop ht, hpending]

/-- A message that comes later does not count. -/
theorem safe_append {logline : List Char} (hk : k ≤ s.appended.length)
    (hbackEnd : s'.backEnd = s.backEnd) (h : Appended s logline s') : Safe k s' ↔ Safe k s := by
  rw [Safe, Safe, hbackEnd, h.pending_eq]
  refine or_congr_right (or_congr_right ⟨fun hall m hm => ?_, fun hall m hm => ?_⟩)
  · exact hall m (List.mem_append_left _ hm)
  · obtain hold | hnew := List.mem_append.mp hm
    · exact hall m hold
    · split_ifs at hnew
      · rw [List.mem_singleton.mp hnew]
        exact hk
      · exact absurd hnew List.not_mem_nil

/-- Once `running_` is cleared, no step makes a message safe or unsafe. -/
theorem safe_step (hsup : Supplied s) (hstop : Stopping k s) (he : Effect s a s') :
    Safe k s' ↔ Safe k s := by
  have hstep := he
  cases he with
  | append hb hroom ha => exact safe_append hstop.le_appended rfl (hsup.appended hstep)
  | appendNext hb hfull hn ha => exact safe_append hstop.le_appended rfl (hsup.appended hstep)
  | appendNew hb hfull hn ha => exact safe_append hstop.le_appended rfl (hsup.appended hstep)
  | start h => exact absurd h hstop.started
  | stop hs h => exact Iff.rfl
  | join hs h => exact Iff.rfl
  | enter h hr => exact nomatch hstop.not_running.symm.trans hr
  | wait h hready hq => exact iff_of_true (Or.inr (Or.inl rfl)) (Or.inl h)
  | @swap time b c h hb hn => exact iff_of_true (safe_swapped hsup b h) (h.imp And.left Or.inl)
  | @swapBoth time b h hb hn => exact iff_of_true (safe_swapped hsup b h) (h.imp And.left Or.inl)
  | begin h hr | makeBuffers h | leave h hr | dropMessages h hsize | keepMessages h hne hsize
  | write h hb | written h hle | resize h | keep1 h hb | refill1 h hb hbs | keep2 h hb
  | refill2 h hb hbs | clear h | exit h =>
    refine safe_congr ?_ ⟨BackEnd.noConfusion, BackEnd.noConfusion⟩ rfl
    rw [h]
    exact ⟨BackEnd.noConfusion, BackEnd.noConfusion⟩

/-- Messages are only added, and at the end. -/
theorem appended_grows (he : Effect s a s') : s.appended <+: s'.appended := by
  cases he with
  | append hb hroom ha => exact List.prefix_append _ _
  | appendNext hb hfull hn ha => exact List.prefix_append _ _
  | appendNew hb hfull hn ha => exact List.prefix_append _ _
  | _ => exact List.prefix_rfl

theorem Stopping.step (h : Stopping k s) (he : Effect s a s') : Stopping k s' := by
  have hk : k ≤ s'.appended.length := h.le_appended.trans (appended_grows he).length_le
  cases he with
  | start hp => exact absurd hp h.started
  | append | appendNext | appendNew | join => exact ⟨h.not_running, h.started, hk⟩
  | stop hs hp => exact ⟨rfl, h.started, hk⟩
  | _ => exact ⟨h.not_running, BackEnd.noConfusion, hk⟩

/-- `stop` returns when the back end has left. -/
def Joined (s : State) : Prop := s.stopper = .returned → s.backEnd = .exited

theorem Joined.step (hi : Joined s) (he : Effect s a s') : Joined s' := by
  have hother {p : BackEnd} (h : s.backEnd = p) (hp : p ≠ .exited) : s.stopper ≠ .returned :=
    fun hr => hp (h.symm.trans (hi hr))
  cases he with
  | append | appendNext | appendNew => exact hi
  | stop hs h => exact fun hr => nomatch hr
  | join hs h => exact fun _ => h
  | exit h => exact fun _ => rfl
  | swap h hb hn | swapBoth h hb hn =>
    obtain ⟨h, _⟩ | h := h
    · exact fun hr => absurd hr (hother h BackEnd.noConfusion)
    · exact fun hr => absurd hr (hother h BackEnd.noConfusion)
  | start h | begin h hr | makeBuffers h | enter h hr | leave h hr | wait h hready hq
  | dropMessages h hsize | keepMessages h hne hsize | write h hb | written h hle | resize h
  | keep1 h hb | refill1 h hb hbs | keep2 h hb | refill2 h hb hbs | clear h =>
    exact fun hr => absurd hr (hother h BackEnd.noConfusion)

theorem Reachable.joined (h : Reachable s) : Joined s := by
  have hboth : Supplied s ∧ Joined s := h.invariant (I := fun s => Supplied s ∧ Joined s)
    (fun s a s' hi hs => ⟨hi.1.step hs, hi.2.step (hi.1.step_effect hs)⟩)
    ⟨supplied_new, fun h => nomatch h⟩
  exact hboth.2

/-- What the messages of a run from `t` are, safe or not, they stay. -/
theorem safe_run {t : State} {bs : List Action} (hsup : Supplied t) (hstop : Stopping k t)
    (hrun : Runs.run step t bs = some s') :
    (Safe k s' ↔ Safe k t) ∧ t.appended <+: s'.appended := by
  have hreaches : Runs.Reaches step t s' := ⟨bs, hrun⟩
  have hall : Supplied s' ∧ Stopping k s' ∧ (Safe k s' ↔ Safe k t) ∧ t.appended <+: s'.appended :=
    hreaches.invariant (I := fun s => Supplied s ∧ Stopping k s ∧
      (Safe k s ↔ Safe k t) ∧ t.appended <+: s.appended)
      (fun s a s' hi hs => by
        obtain ⟨hsup, hstop, hsafe, hpre⟩ := hi
        have he := hsup.step_effect hs
        exact ⟨hsup.effect he, hstop.step he, (safe_step hsup hstop he).trans hsafe,
          hpre.trans (appended_grows he)⟩)
      ⟨hsup, hstop, Iff.rfl, List.prefix_rfl⟩
  exact hall.2.2

/-- All that was appended before some message has a number below it. -/
theorem mem_zipIdx_prefix_iff {xs ys : List (List Char)} (h : xs <+: ys) {m : Message} :
    m ∈ xs.zipIdx ↔ m ∈ ys.zipIdx ∧ m.2 < xs.length := by
  obtain ⟨zs, rfl⟩ := h
  rw [List.mem_zipIdx_iff_getElem?, List.mem_zipIdx_iff_getElem?]
  constructor
  · intro hm
    have hlt : m.2 < xs.length := (List.getElem?_eq_some_iff.mp hm).1
    exact ⟨by rwa [List.getElem?_append_left hlt], hlt⟩
  · intro hm
    rw [← List.getElem?_append_left hm.2]
    exact hm.1

/-- In the end, a message is written or it is with the front end. -/
theorem written_iff_safe (hconserved : Conserved s') (hexited : s'.backEnd = .exited)
    (hshort : ∀ logline ∈ s'.appended, logline.length < kLargeBuffer) (hover : s'.oversized = [])
    {xs : List (List Char)} (hpre : xs <+: s'.appended) :
    (∀ m ∈ xs.zipIdx, m ∈ s'.written) ↔ Safe xs.length s' := by
  have hkept : s'.kept = s'.appended.zipIdx := by
    refine List.filter_eq_self.mpr fun m hm => decide_eq_true ⟨?_, ?_⟩
    · exact hshort m.1 (List.fst_mem_of_mem_zipIdx hm)
    · rw [State.lost, hover]
      exact List.not_mem_nil
  have hall := hconserved.messages_eq
  rw [State.messages, State.waiting, hexited, hkept] at hall
  have hnodup : (s'.written ++ s'.pending.flatMap Buffer.messages).Nodup := by
    have hnumbers := kept_nodup s'
    rw [hkept, ← hall] at hnumbers
    exact hnumbers.of_map _
  have hsafe : Safe xs.length s' ↔ ∀ m ∈ s'.pending.flatMap Buffer.messages, xs.length ≤ m.2 := by
    rw [Safe, hexited]
    simp
  rw [hsafe]
  constructor
  · intro hwritten m hm
    refine not_lt.mp fun hlt => ?_
    have hmem : m ∈ s'.appended.zipIdx := hall ▸ List.mem_append_right _ hm
    exact List.disjoint_of_nodup_append hnodup
      (hwritten m ((mem_zipIdx_prefix_iff hpre).mpr ⟨hmem, hlt⟩)) hm
  · intro hpending m hm
    obtain ⟨hmem, hlt⟩ := (mem_zipIdx_prefix_iff hpre).mp hm
    rw [← hall] at hmem
    obtain hwritten | hlast := List.mem_append.mp hmem
    · exact hwritten
    · exact absurd hlt (not_lt.mpr (hpending m hlast))

theorem safe_iff_inTime (hconserved : Conserved s) : Safe s.appended.length s ↔ InTime s := by
  refine or_congr_right (or_congr_right ⟨fun hall => ?_, fun hnil m hm => ?_⟩)
  · refine List.eq_nil_iff_forall_not_mem.mpr fun m hm => ?_
    have hmem : m ∈ s.messages := List.mem_append_right _ (by
      rw [State.waiting, List.flatMap_append]
      exact List.mem_append_right _ hm)
    rw [hconserved.messages_eq] at hmem
    exact absurd (lt_of_mem_kept hmem) (not_lt.mpr (hall m hm))
  · rw [hnil] at hm
    exact absurd hm List.not_mem_nil

/-- When `stop` has returned, all that was appended before it is written if and only if it
caught the back end before a swap or with nothing to swap. -/
theorem stop_loses_nothing_iff {as bs : List Action} {s t s' : State}
    (hrun : Runs.run step new as = some s) (hstop : step s .stop = some t)
    (hrest : Runs.run step t bs = some s') (hreturned : s'.stopper = .returned)
    (hshort : ∀ logline ∈ s'.appended, logline.length < kLargeBuffer)
    (hbatches : s'.oversized = []) :
    (∀ m ∈ s.appended.zipIdx, m ∈ s'.written) ↔ InTime s := by
  have hreach : Reachable s := ⟨as, hrun⟩
  have hreach' : Reachable s' := by
    have hreacht : Runs.Reaches step s t := ⟨[.stop], by rw [Runs.run_cons, hstop]; rfl⟩
    exact (hreach.trans hreacht).trans ⟨bs, hrest⟩
  have hsup := hreach.supplied
  have hstep : t = { s with running_ := false, stopper := .joining } ∧
      s.backEnd ≠ .notStarted := by
    cases hsup.step_effect hstop with
    | stop hs h => exact ⟨rfl, h.1⟩
  obtain ⟨ht, hstarted⟩ := hstep
  have hsupt := hsup.step hstop
  subst ht
  obtain ⟨hsafe, hpre⟩ := safe_run hsupt ⟨rfl, hstarted, le_rfl⟩ hrest
  rw [written_iff_safe hreach'.conserved (hreach'.joined hreturned) hshort hbatches hpre,
    ← safe_iff_inTime hreach.conserved]
  exact hsafe

/-- A message appended while the back end waits is written by the `stop` that wakes it. -/
theorem stop_loses_nothing_iff_waiting :
    ∃ s t s' : State, Reachable s ∧ s.backEnd = .waiting ∧ s.appended = [['x']] ∧
      s.written = [] ∧ step s .stop = some t ∧ Runs.Reaches step t s' ∧ s'.stopper = .returned ∧
      (['x'], 0) ∈ s'.written := by
  let finish : List Action := List.replicate 10 (.threadFunc []) ++ [.join]
  obtain ⟨s, hrun, hs⟩ := Runs.exists_of_any step new
    (.start :: List.replicate 4 (.threadFunc []) ++ [.append ['x'] ⟨fun _ => nul⟩])
    (fun s => decide (s.backEnd = .waiting ∧ s.appended = [['x']] ∧ s.written = []) &&
      (step s .stop).any fun t => (Runs.run step t finish).any fun s' =>
        s'.stopper = .returned ∧ s'.appended = [['x']] ∧ s'.oversized.length = 0) (by decide)
  obtain ⟨hs, hstop⟩ := (Bool.and_eq_true _ _).mp hs
  obtain ⟨hwaiting, happended, hempty⟩ := of_decide_eq_true hs
  obtain ⟨t, hstop, hrest⟩ := (Option.any_eq_true _ _).mp hstop
  obtain ⟨s', hrest, hs'⟩ := (Option.any_eq_true _ _).mp hrest
  obtain ⟨hreturned, happended', hover⟩ := of_decide_eq_true hs'
  have hshort : ∀ logline ∈ s'.appended, logline.length < kLargeBuffer := by
    rw [happended']
    decide
  have hwritten := (stop_loses_nothing_iff hrun hstop hrest hreturned hshort
    (List.length_eq_zero_iff.mp hover)).mpr (Or.inr (Or.inl hwaiting))
  refine ⟨s, t, s', ⟨_, hrun⟩, hwaiting, happended, hempty, hstop, ⟨_, hrest⟩, hreturned,
    hwritten _ ?_⟩
  rw [happended]
  decide

/-- A message appended while the back end writes stays in `currentBuffer_`. -/
theorem stop_loses_message :
    ¬ ∀ (as bs : List Action) (s t s' : State), Runs.run step new as = some s →
      step s .stop = some t → Runs.run step t bs = some s' → s'.stopper = .returned →
      (∀ logline ∈ s'.appended, logline.length < kLargeBuffer) → s'.oversized = [] →
      ∀ m ∈ s.appended.zipIdx, m ∈ s'.written := by
  intro hevery
  let finish : List Action := List.replicate 8 (.threadFunc []) ++ [.join]
  obtain ⟨s, hrun, hs⟩ := Runs.exists_of_any step new
    (.start :: List.replicate 6 (.threadFunc []) ++ [.append ['x'] ⟨fun _ => nul⟩])
    (fun s => decide (s.appended = [['x']]) &&
      (step s .stop).any fun t => (Runs.run step t finish).any fun s' =>
        s'.stopper = .returned ∧ s'.appended = [['x']] ∧ s'.oversized.length = 0 ∧
          s'.written = []) (by decide)
  obtain ⟨happended, hstop⟩ := (Bool.and_eq_true _ _).mp hs
  obtain ⟨t, hstop, hrest⟩ := (Option.any_eq_true _ _).mp hstop
  obtain ⟨s', hrest, hs'⟩ := (Option.any_eq_true _ _).mp hrest
  obtain ⟨hreturned, happended', hover, hwritten⟩ := of_decide_eq_true hs'
  have hshort : ∀ logline ∈ s'.appended, logline.length < kLargeBuffer := by
    rw [happended']
    decide
  have hmem := hevery _ _ s t s' hrun hstop hrest hreturned hshort
    (List.length_eq_zero_iff.mp hover) (['x'], 0) (by rw [of_decide_eq_true happended]; decide)
  rw [hwritten] at hmem
  exact List.not_mem_nil hmem

end NaiveNet.AsyncLogging
