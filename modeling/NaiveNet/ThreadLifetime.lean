import NaiveNet.NumeralReading
import NaiveNet.Thread
import Mathlib.Data.List.Nodup

/-!
# The lifetime of threads

Whatever the order of the calls and of the new threads' statements, everything `start`
acquires is given back once: the `pthread_t` by a join or a detach, `ThreadData` by the
thread or by `start` itself, and the `pid_t` by the last of its references, which may be
the one the thread holds for the moment of its store.
-/
namespace NaiveNet.Thread

namespace Object

/-- The thread is there and still needs `data`. -/
def active (o : Object) : Bool := o.stage.any (· ≠ .ended)

/-- The thread has a reference to the `pid_t`. -/
def holding (o : Object) : Bool := o.stage = some .storing || o.stage = some .resetting

/-- The thread has come past its store to the `pid_t`. -/
def written (o : Object) : Bool :=
  o.stage.any fun x => x ≠ .begin ∧ x ≠ .locking ∧ x ≠ .storing

/-- What should have become of the `pthread_t`. -/
def due (o : Object) : Handle :=
  if o.stage = none then .absent
  else if o.joined_ && !o.joining then .joined
  else if o.destroyed && !o.joined_ then .detached
  else .joinable

/-- The invariant of an object and its thread. -/
structure Sound (o : Object) : Prop where
  strong_eq : o.tid_.strong = (!o.destroyed).toNat + o.holding.toNat
  live_iff : o.data = .live ↔ o.active = true
  handle_eq : o.handle = o.due
  started_eq : o.started_ = o.stage.isSome
  joined_started : o.joined_ = true → o.started_ = true
  joining : o.joining = true → o.joined_ = true ∧ o.destroyed = false
  joined_ended : o.joined_ = true → o.joining = false → o.stage = some .ended
  named : o.name_ ≠ []
  pointer : o.t_threadName = .name_ → o.stage = some .running
  cached_iff : o.t_cachedTid = 0 ↔ o.stage = none ∨ o.stage = some .begin
  stored : o.destroyed = false →
    o.tid_.value = if o.written then o.t_cachedTid else 0
  begun_eq : o.begun =
    (o.stage = some .running || o.stage = some .deleting || o.stage = some .ended).toNat
  calls_eq : o.calls = (o.stage = some .deleting || o.stage = some .ended).toNat

theorem defaultName_ne_nil (name : List Char) (num : ℤ) : defaultName name num ≠ [] := by
  unfold defaultName
  split_ifs with h
  · simp
  · exact fun hnil => h (List.isEmpty_iff.mpr hnil)

theorem sound_new (name : List Char) (num : ℤ) : (Object.new name num).Sound := by
  constructor <;> simp [Object.new, SharedCell.new, holding, active, due, written,
    defaultName_ne_nil]

variable {o : Object}

theorem Sound.not_joined (h : o.Sound) (hs : o.started_ = false) : o.joined_ = false := by
  by_contra hj
  have hstarted := h.joined_started (eq_true_of_ne_false hj)
  rw [hs] at hstarted
  contradiction

theorem Sound.not_joining (h : o.Sound) (hj : o.joined_ = false) : o.joining = false := by
  by_contra hjoining
  have hjoined := (h.joining (eq_true_of_ne_false hjoining)).1
  rw [hj] at hjoined
  contradiction

theorem Sound.stage_eq_none (h : o.Sound) (hs : o.started_ = false) : o.stage = none := by
  have heq := h.started_eq
  rw [hs] at heq
  simpa using heq.symm

theorem Sound.start (h : o.Sound) (hd : o.destroyed = false) (hs : o.started_ = false)
    (created : Bool) : (o.start created).Sound := by
  have hstage := h.stage_eq_none hs
  have hjoined := h.not_joined hs
  have hjoining := h.not_joining hjoined
  cases created with
  | false =>
    exact { h with
      live_iff := by simp [Object.start, active, hstage]
      started_eq := by simp [Object.start, hstage]
      joined_started := fun hj => absurd hj (by simp [Object.start, hjoined]) }
  | true =>
    exact { h with
      strong_eq := by simp [Object.start, h.strong_eq, holding, hstage]
      live_iff := by simp [Object.start, active]
      handle_eq := by simp [Object.start, due, hjoined, hd]
      started_eq := by simp [Object.start]
      joined_started := fun _ => rfl
      joined_ended := fun hj => absurd hj (by simp [Object.start, hjoined])
      pointer := fun hp => absurd (h.pointer hp) (by simp [hstage])
      cached_iff := by simp [Object.start, h.cached_iff.mpr (Or.inl hstage)]
      stored := fun hd' => by
        have hvalue := h.stored hd
        simpa [Object.start, written, hstage] using hvalue
      begun_eq := by simp [Object.start, h.begun_eq, hstage]
      calls_eq := by simp [Object.start, h.calls_eq, hstage] }

theorem Sound.join (h : o.Sound) (hd : o.destroyed = false) (hs : o.started_ = true)
    (hj : o.joined_ = false) : Sound { o with joined_ := true, joining := true } :=
  { h with
    handle_eq := by simp [h.handle_eq, due, hd, hj]
    joined_started := fun _ => hs
    joining := fun _ => ⟨rfl, hd⟩
    joined_ended := fun _ hn => absurd hn (by simp) }

theorem Sound.returnJoin (h : o.Sound) (hj : o.joining = true) (hs : o.stage = some .ended) :
    ∃ o', o.returnJoin = some o' ∧ o'.Sound := by
  obtain ⟨hjoined, hd⟩ := h.joining hj
  have hhandle : o.handle = .joinable := by
    rw [h.handle_eq]
    simp [due, hs, hj, hd]
  exact ⟨_, if_pos hhandle, { h with
    handle_eq := by simp [due, hs, hjoined]
    joining := fun hn => absurd hn (by simp)
    joined_ended := fun _ _ => hs }⟩

/-- The handle of a thread that nobody joined is given up with the object. -/
theorem Sound.detach (h : o.Sound) (hd : o.destroyed = false) (hj : o.joining = false) :
    o.detach = some (due { o with destroyed := true }) := by
  have hhandle := h.handle_eq
  have hstarted := h.started_eq
  unfold Object.detach
  cases hs : o.stage with
  | none =>
    rw [hs] at hstarted
    simp [hhandle, hstarted, due, hs]
  | some x =>
    rw [hs] at hstarted
    cases hjo : o.joined_ with
    | true => simp [hhandle, due, hs, hjo, hj]
    | false => simp [hhandle, hstarted, due, hs, hjo, hd]

theorem Sound.destroy (h : o.Sound) (hd : o.destroyed = false) (hj : o.joining = false) :
    ∃ o', o.destroy = some o' ∧ o'.Sound := by
  have hstrong := h.strong_eq
  have hrelease := SharedCell.release_of_pos (c := o.tid_) (by simp [hstrong, hd])
  refine ⟨_, by rw [Object.destroy, h.detach hd hj, hrelease]; rfl, ?_⟩
  exact { h with
    strong_eq := by simp [hstrong, hd, holding]
    handle_eq := rfl
    joining := fun hn => absurd hn (by simp [hj])
    stored := fun hn => absurd hn (by simp) }

/-- A statement of the thread that leaves it with `data`. -/
theorem Sound.move (h : o.Sound) {x y : Stage} (hx : o.stage = some x) (hne : x ≠ .ended)
    (hbegin : y ≠ .begin) (hend : y ≠ .ended) {tid_ : SharedCell ℤ} {t_cachedTid : ℤ}
    {t_threadName : CString} {begun calls : ℕ}
    (hstrong : tid_.strong = (!o.destroyed).toNat + (y = .storing || y = .resetting).toNat)
    (hpointer : t_threadName = .name_ → y = .running) (hcached : t_cachedTid ≠ 0)
    (hstored : o.destroyed = false → tid_.value =
      if y = .locking ∨ y = .storing then 0 else t_cachedTid)
    (hbegun : begun = (decide (y = .running) || decide (y = .deleting)).toNat)
    (hcalls : calls = (decide (y = .deleting)).toNat) :
    Sound { o with
      tid_ := tid_, t_cachedTid := t_cachedTid, t_threadName := t_threadName
      begun := begun, calls := calls, stage := some y } where
  strong_eq := by simpa [holding] using hstrong
  live_iff := by simp [h.live_iff, active, hx, hne, hend]
  handle_eq := by simp [h.handle_eq, due, hx]
  started_eq := by simp [h.started_eq, hx]
  joined_started := h.joined_started
  joining := h.joining
  joined_ended hj hn := by
    have hended := h.joined_ended hj hn
    rw [hx] at hended
    exact absurd (Option.some.inj hended) hne
  named := h.named
  pointer hp := congrArg some (hpointer hp)
  cached_iff := by simp [hcached, hbegin]
  stored hd := by
    rw [hstored hd]
    by_cases h1 : y = .locking
    · simp [h1, written]
    · by_cases h2 : y = .storing
      · simp [h2, written]
      · simp [h1, h2, hbegin, written]
  begun_eq := by simpa [hend] using hbegun
  calls_eq := by simpa [hend] using hcalls

/-- The `pid_t` while the thread stands outside the moment of its store. -/
theorem Sound.strong_of_not_holding (h : o.Sound) (hn : o.holding = false) :
    o.tid_.strong = (!o.destroyed).toNat := by
  rw [h.strong_eq, hn]
  rfl

theorem Sound.cached_ne_zero (h : o.Sound) {x : Stage} (hx : o.stage = some x)
    (hne : x ≠ .begin) : o.t_cachedTid ≠ 0 := by
  intro hzero
  have hcases := h.cached_iff.mp hzero
  simp [hx, hne] at hcases

theorem Sound.run (h : o.Sound) (ha : o.active = true) {tid : ℤ} (htid : 0 < tid) :
    ∃ o', o.run tid = some o' ∧ o'.Sound := by
  obtain ⟨x, hx, hne⟩ := (Option.any_eq_true _ _).mp ha
  have hne : x ≠ .ended := of_decide_eq_true hne
  have hlive := h.live_iff.mpr ha
  have hcached := h.cached_ne_zero hx
  have hvalue := h.stored
  have hbegun := h.begun_eq
  have hcalls := h.calls_eq
  have hpointer := h.pointer
  have hstrong := h.strong_eq
  rw [Object.run, hx, Option.bind_eq_bind, Option.bind_some, if_pos hlive]
  unfold statement
  cases x with
  | begin =>
    have hzero : o.t_cachedTid = 0 := h.cached_iff.mpr (Or.inr hx)
    refine ⟨_, rfl, h.move hx hne (y := .locking) Stage.noConfusion Stage.noConfusion
      ?_ ?_ ?_ ?_ ?_ ?_⟩
    · simpa [holding, hx] using hstrong
    · intro hp
      simpa [hx] using hpointer hp
    · simp only [hzero, if_true]
      omega
    · intro hd
      simpa [written, hx] using hvalue hd
    · simpa [hx] using hbegun
    · simpa [hx] using hcalls
  | locking =>
    have hcached := hcached Stage.noConfusion
    obtain hd | hd := (Bool.eq_false_or_eq_true o.destroyed).symm
    · have hlock := SharedCell.lock_of_pos (c := o.tid_) (by simp [hstrong, hd])
      rw [hlock]
      refine ⟨_, rfl, h.move hx hne (y := .storing) Stage.noConfusion Stage.noConfusion
        ?_ ?_ hcached ?_ ?_ ?_⟩
      · simp [hstrong, holding, hx]
      · intro hp
        simpa [hx] using hpointer hp
      · intro hd
        simpa [written, hx] using hvalue hd
      · simpa [hx] using hbegun
      · simpa [hx] using hcalls
    · -- the object is gone, and nobody will ask for the `pid_t`
      have hlock := SharedCell.lock_of_eq_zero (c := o.tid_) (by simp [hstrong, hd, holding, hx])
      rw [hlock]
      refine ⟨_, rfl, h.move hx hne (y := .naming) Stage.noConfusion Stage.noConfusion
        ?_ ?_ hcached ?_ ?_ ?_⟩
      · simpa [holding, hx] using hstrong
      · intro hp
        simpa [hx] using hpointer hp
      · intro hn
        rw [hd] at hn
        contradiction
      · simpa [hx] using hbegun
      · simpa [hx] using hcalls
  | storing =>
    have hcached := hcached Stage.noConfusion
    have hstore := SharedCell.store_of_pos (c := o.tid_) (by simp [hstrong, holding, hx])
      o.t_cachedTid
    rw [hstore]
    refine ⟨_, rfl, h.move hx hne (y := .resetting) Stage.noConfusion Stage.noConfusion
      ?_ ?_ hcached ?_ ?_ ?_⟩
    · simpa [holding, hx] using hstrong
    · intro hp
      simpa [hx] using hpointer hp
    · intro _
      simp
    · simpa [hx] using hbegun
    · simpa [hx] using hcalls
  | resetting =>
    have hcached := hcached Stage.noConfusion
    have hrelease := SharedCell.release_of_pos (c := o.tid_) (by simp [hstrong, holding, hx])
    rw [hrelease]
    refine ⟨_, rfl, h.move hx hne (y := .naming) Stage.noConfusion Stage.noConfusion
      ?_ ?_ hcached ?_ ?_ ?_⟩
    · simp [hstrong, holding, hx]
    · intro hp
      simpa [hx] using hpointer hp
    · intro hd
      simpa [written, hx] using hvalue hd
    · simpa [hx] using hbegun
    · simpa [hx] using hcalls
  | naming =>
    have hcached := hcached Stage.noConfusion
    refine ⟨_, rfl, h.move hx hne (y := .running) Stage.noConfusion Stage.noConfusion
      ?_ (fun _ => rfl) hcached ?_ ?_ ?_⟩
    · simpa [holding, hx] using hstrong
    · intro hd
      simpa [written, hx] using hvalue hd
    · simpa [hx] using hbegun
    · simpa [hx] using hcalls
  | running =>
    have hcached := hcached Stage.noConfusion
    refine ⟨_, rfl, h.move hx hne (y := .deleting) Stage.noConfusion Stage.noConfusion
      ?_ (fun hp => nomatch hp) hcached ?_ ?_ ?_⟩
    · simpa [holding, hx] using hstrong
    · intro hd
      simpa [written, hx] using hvalue hd
    · simp [hbegun, hx]
    · simp [hcalls, hx]
  | deleting =>
    refine ⟨_, rfl, ?_⟩
    exact { h with
      strong_eq := by simp [hstrong, holding, hx]
      live_iff := by simp [active]
      handle_eq := by simp [h.handle_eq, due, hx]
      started_eq := by simp [h.started_eq, hx]
      joined_ended := fun _ _ => rfl
      pointer := fun hp => absurd (hpointer hp) (by simp [hx])
      cached_iff := by simp [hcached Stage.noConfusion]
      stored := fun hd => by simpa [written, hx] using hvalue hd
      begun_eq := by simp [hbegun, hx]
      calls_eq := by simp [hcalls, hx] }
  | ended => exact absurd rfl hne

/-- What the thread has written stays its id. -/
theorem Sound.written_perform (h : o.Sound) {o' : Object} {c : Call} (hc : o.enabled c = true)
    (hp : o.perform c = some o') (hw : o.written = true) :
    o'.written = true ∧ o'.t_cachedTid = o.t_cachedTid := by
  cases c with
  | start created =>
    obtain ⟨_, hs⟩ := (Bool.and_eq_true _ _).mp hc
    simp [written, h.stage_eq_none (by simpa using hs)] at hw
  | join | throw =>
    obtain rfl := Option.some.inj hp
    exact ⟨hw, rfl⟩
  | returnJoin =>
    obtain ⟨_, hp⟩ := Option.ite_none_right_eq_some.mp hp
    obtain rfl := Option.some.inj hp
    exact ⟨hw, rfl⟩
  | destroy =>
    obtain ⟨handle, _, hp⟩ := Option.bind_eq_some_iff.mp hp
    obtain ⟨tid_, _, hp⟩ := Option.bind_eq_some_iff.mp hp
    obtain rfl := Option.some.inj hp
    exact ⟨hw, rfl⟩
  | run tid =>
    obtain ⟨x, hx, hp⟩ := Option.bind_eq_some_iff.mp hp
    obtain ⟨_, hp⟩ := Option.ite_none_right_eq_some.mp hp
    cases x with
    | begin | locking | storing => simp [written, hx] at hw
    | resetting =>
      obtain ⟨tid_, _, rfl⟩ := Option.map_eq_some_iff.mp hp
      exact ⟨rfl, rfl⟩
    | ended => contradiction
    | _ =>
      obtain rfl := Option.some.inj hp
      exact ⟨rfl, rfl⟩

/-- A call that can happen does not fail. -/
theorem Sound.perform (h : o.Sound) {c : Call} (hc : o.enabled c = true) :
    ∃ o', o.perform c = some o' ∧ o'.Sound := by
  cases c with
  | start created =>
    obtain ⟨hd, hs⟩ := (Bool.and_eq_true _ _).mp hc
    exact ⟨_, rfl, h.start (by simpa using hd) (by simpa using hs) created⟩
  | join =>
    obtain ⟨hds, hj⟩ := (Bool.and_eq_true _ _).mp hc
    obtain ⟨hd, hs⟩ := (Bool.and_eq_true _ _).mp hds
    exact ⟨_, rfl, h.join (by simpa using hd) hs (by simpa using hj)⟩
  | returnJoin =>
    obtain ⟨hj, hs⟩ := (Bool.and_eq_true _ _).mp hc
    exact h.returnJoin hj (of_decide_eq_true hs)
  | destroy =>
    obtain ⟨hd, hj⟩ := (Bool.and_eq_true _ _).mp hc
    exact h.destroy (by simpa using hd) (by simpa using hj)
  | run tid =>
    obtain ⟨ha, htid⟩ := (Bool.and_eq_true _ _).mp hc
    exact h.run ha (of_decide_eq_true htid)
  | throw => exact ⟨_, rfl, { h with pointer := fun hp => nomatch hp }⟩

end Object

variable {s s' : Process} {a : Action}

/-- Nothing has failed, and every object is as it should be. -/
structure ProcessSound (s : Process) : Prop where
  not_failed : s.failed = false
  sound : ∀ o ∈ s.objects, o.Sound

theorem ProcessSound.step (hi : ProcessSound s) (hs : Thread.step s a = some s') :
    ProcessSound s' := by
  cases step_effect hs with
  | construct =>
    refine ⟨hi.not_failed, fun o ho => ?_⟩
    rcases List.mem_append.mp ho with ho | ho
    · exact hi.sound o ho
    · rw [List.mem_singleton.mp ho]
      exact Object.sound_new _ _
  | call ho hc hp =>
    obtain ⟨o', hperform, hsound⟩ := (hi.sound _ (List.mem_of_getElem? ho)).perform hc
    obtain rfl := Option.some.inj (hp.symm.trans hperform)
    refine ⟨hi.not_failed, fun p hp => ?_⟩
    rcases List.mem_or_eq_of_mem_set hp with hp | rfl
    · exact hi.sound p hp
    · exact hsound
  | fail ho hc hp =>
    obtain ⟨o', hperform, _⟩ := (hi.sound _ (List.mem_of_getElem? ho)).perform hc
    rw [hp] at hperform
    contradiction

theorem Reachable.processSound (h : Reachable s) : ProcessSound s :=
  h.invariant (fun _ _ _ => ProcessSound.step) ⟨rfl, by simp [Process.new]⟩

/-- Nothing is used after it is gone, given back twice or kept for ever. In every order of
calls and statements nothing fails; an object that is destroyed has had its thread joined or
detached, or never had one; when the thread has ended too, the `pid_t` is freed and
`ThreadData` deleted; a live object has its `pid_t`, and `t_threadName` points into
`ThreadData` only while that is there. -/
theorem thread_resources (h : Reachable s) : s.failed = false ∧ ∀ o ∈ s.objects,
    (o.destroyed = true → o.handle ≠ .joinable) ∧
    (o.destroyed = true → o.stage = none ∨ o.stage = some .ended →
      o.tid_.freed = true ∧ o.data ≠ .live) ∧
    (o.destroyed = false → o.tid_.freed = false) ∧
    (o.t_threadName = .name_ → o.data = .live) := by
  have hi := h.processSound
  refine ⟨hi.not_failed, fun o ho => ?_⟩
  have hsound := hi.sound o ho
  refine ⟨fun hd => ?_, fun hd hend => ⟨?_, fun hlive => ?_⟩, fun hd => ?_, fun hp => ?_⟩
  · have hjoining : o.joining = false := by
      by_contra hj
      have halive := (hsound.joining (eq_true_of_ne_false hj)).2
      rw [hd] at halive
      contradiction
    rw [hsound.handle_eq, Object.due, hd, hjoining]
    cases o.stage <;> cases o.joined_ <;> simp
  · have hnot : o.holding = false := by
      rcases hend with hs | hs <;> simp [Object.holding, hs]
    rw [SharedCell.freed, hsound.strong_of_not_holding hnot, hd]
    rfl
  · have hactive := hsound.live_iff.mp hlive
    rcases hend with hs | hs <;> simp [Object.active, hs] at hactive
  · rw [SharedCell.freed, hsound.strong_eq, hd]
    simp
  · exact hsound.live_iff.mpr (by simp [Object.active, hsound.pointer hp])

/-- The object has the thread's id, and keeps it. -/
theorem ProcessSound.written_step (hi : ProcessSound s) (hs : Thread.step s a = some s') {i : ℕ}
    {id : ℤ} (hw : ∃ o, s.objects[i]? = some o ∧ o.written = true ∧ o.t_cachedTid = id) :
    ∃ o, s'.objects[i]? = some o ∧ o.written = true ∧ o.t_cachedTid = id := by
  obtain ⟨o, ho, hwritten, rfl⟩ := hw
  cases step_effect hs with
  | construct =>
    have hlt := (List.getElem?_eq_some_iff.mp ho).1
    exact ⟨o, (List.getElem?_append_left hlt).trans ho, hwritten, rfl⟩
  | @call j c p p' hp hc hperform =>
    have hlt := (List.getElem?_eq_some_iff.mp ho).1
    by_cases hij : j = i
    · subst hij
      obtain rfl := Option.some.inj (hp.symm.trans ho)
      obtain ⟨hwritten', hid⟩ := (hi.sound _ (List.mem_of_getElem? hp)).written_perform hc hperform
        hwritten
      exact ⟨p', List.getElem?_set_self hlt, hwritten', hid⟩
    · exact ⟨o, (List.getElem?_set_ne hij).trans ho, hwritten, rfl⟩
  | fail => exact ⟨o, ho, hwritten, rfl⟩

/-- What the owner of an object sees. A call of `func_` begins at most once; `tid()` is zero until
the thread has written its own, and that from then on, as long as there is the object; and when
`join` has returned, the thread has ended, `func_` has returned once and `tid()` is the
thread's. -/
theorem joined_thread (h : Reachable s) {i : ℕ} {o : Object} (ho : s.objects[i]? = some o) :
    o.begun ≤ 1 ∧
    (o.destroyed = false → o.tid_.value = if o.written then o.t_cachedTid else 0) ∧
    (o.destroyed = false → o.written = true → o.t_cachedTid ≠ 0 ∧
      ∀ s' o', Runs.Reaches step s s' → s'.objects[i]? = some o' → o'.destroyed = false →
        o'.tid_.value = o.tid_.value) ∧
    (o.joined_ = true → o.joining = false → o.stage = some .ended ∧ o.begun = 1 ∧ o.calls = 1 ∧
      o.data ≠ .live ∧ o.handle = .joined ∧ o.t_cachedTid ≠ 0 ∧
      (o.destroyed = false → o.tid_.value = o.t_cachedTid)) := by
  have hsound := h.processSound.sound o (List.mem_of_getElem? ho)
  refine ⟨?_, hsound.stored, fun hd hw => ⟨fun hzero => ?_, fun s' o' hs' ho' hd' => ?_⟩,
    fun hj hn => ?_⟩
  · rw [hsound.begun_eq]
    exact Bool.toNat_le _
  · have hcases := hsound.cached_iff.mp hzero
    rcases hcases with hs | hs <;> simp [Object.written, hs] at hw
  · have hkept : ProcessSound s' ∧
        ∃ p, s'.objects[i]? = some p ∧ p.written = true ∧ p.t_cachedTid = o.t_cachedTid :=
      hs'.invariant (I := fun s => ProcessSound s ∧
          ∃ p, s.objects[i]? = some p ∧ p.written = true ∧ p.t_cachedTid = o.t_cachedTid)
        (fun _ _ _ hi hs => ⟨hi.1.step hs, hi.1.written_step hs hi.2⟩)
        ⟨h.processSound, o, ho, hw, rfl⟩
    obtain ⟨hsound', p, hp, hw', hid⟩ := hkept
    obtain rfl := Option.some.inj (hp.symm.trans ho')
    rw [hsound.stored hd, if_pos hw, (hsound'.sound p (List.mem_of_getElem? hp)).stored hd',
      if_pos hw', hid]
  · have hs := hsound.joined_ended hj hn
    refine ⟨hs, ?_, ?_, fun hlive => ?_, ?_, hsound.cached_ne_zero hs Stage.noConfusion,
      fun hd => ?_⟩
    · rw [hsound.begun_eq, hs]
      rfl
    · rw [hsound.calls_eq, hs]
      rfl
    · have hactive := hsound.live_iff.mp hlive
      simp [Object.active, hs] at hactive
    · rw [hsound.handle_eq, Object.due, hs, hj, hn]
      rfl
    · rw [hsound.stored hd, Object.written, hs]
      rfl

/-- An object is destroyed while its thread is at the store: the thread frees the `pid_t`. -/
theorem thread_resources_detached :
    ∃ s : Process, Reachable s ∧ s.failed = false ∧
      ∃ o ∈ s.objects, o.destroyed = true ∧ o.handle = .detached ∧ o.stage = some .ended ∧
        o.tid_.freed = true := by
  obtain ⟨s, hrun, hs⟩ := Runs.exists_of_any step .new
    (.construct [] :: .call 0 (.start true) :: .call 0 (.run 7) :: .call 0 (.run 7) ::
      .call 0 .destroy :: List.replicate 5 (.call 0 (.run 7)))
    (fun s => s.objects.any fun o =>
      o.destroyed = true ∧ o.handle = .detached ∧ o.stage = some .ended) (by decide)
  obtain ⟨o, ho, hall⟩ := List.any_eq_true.mp hs
  obtain ⟨hd, hhandle, hended⟩ := of_decide_eq_true hall
  obtain ⟨hfailed, hobjects⟩ := thread_resources ⟨_, hrun⟩
  exact ⟨s, ⟨_, hrun⟩, hfailed, o, ho, hd, hhandle, hended,
    ((hobjects o ho).2.1 hd (Or.inr hended)).1⟩

/-- A thread that was joined, and its id. -/
theorem joined_thread_seven :
    ∃ s : Process, Reachable s ∧ ∃ o, s.objects[0]? = some o ∧ o.joined_ = true ∧
      o.t_cachedTid = 7 ∧ o.begun = 1 ∧ o.calls = 1 ∧ o.tid_.value = o.t_cachedTid := by
  obtain ⟨s, hrun, hs⟩ := Runs.exists_of_any step .new
    (.construct ['w'] :: .call 0 (.start true) :: .call 0 .join ::
      List.replicate 7 (.call 0 (.run 7)) ++ [.call 0 .returnJoin])
    (fun s => s.objects[0]?.any fun o => o.destroyed = false ∧ o.joined_ = true ∧
      o.joining = false ∧ o.t_cachedTid = 7) (by decide)
  obtain ⟨o, ho, hall⟩ := (Option.any_eq_true _ _).mp hs
  obtain ⟨hd, hj, hn, htid⟩ := of_decide_eq_true hall
  obtain ⟨_, _, _, hjoined⟩ := joined_thread ⟨_, hrun⟩ ho
  obtain ⟨_, hbegun, hcalls, _, _, _, hvalue⟩ := hjoined hj hn
  exact ⟨s, ⟨_, hrun⟩, o, ho, hj, htid, hbegun, hcalls, hvalue hd⟩

/-! ### Names -/

/-- The name that a constructor is given. -/
def Action.given : Action → List (List Char)
  | .construct name => [name]
  | .call _ _ => []

theorem name_perform {o o' : Object} {c : Call} (h : o.perform c = some o') :
    o'.name_ = o.name_ := by
  cases c with
  | start created =>
    obtain rfl := Option.some.inj h
    cases created <;> rfl
  | join | throw =>
    obtain rfl := Option.some.inj h
    rfl
  | returnJoin =>
    obtain ⟨_, h⟩ := Option.ite_none_right_eq_some.mp h
    obtain rfl := Option.some.inj h
    rfl
  | destroy =>
    obtain ⟨handle, _, h⟩ := Option.bind_eq_some_iff.mp h
    obtain ⟨tid_, _, h⟩ := Option.bind_eq_some_iff.mp h
    obtain rfl := Option.some.inj h
    rfl
  | run tid =>
    obtain ⟨x, _, h⟩ := Option.bind_eq_some_iff.mp h
    obtain ⟨_, h⟩ := Option.ite_none_right_eq_some.mp h
    cases x with
    | locking =>
      simp only [Object.statement] at h
      split at h <;> obtain rfl := Option.some.inj h <;> rfl
    | storing | resetting =>
      obtain ⟨tid_, _, rfl⟩ := Option.map_eq_some_iff.mp h
      rfl
    | ended => contradiction
    | _ =>
      obtain rfl := Option.some.inj h
      rfl

theorem names_step (hs : step s a = some s') :
    (s'.objects.map Object.name_ = s.objects.map Object.name_ ++
      a.given.map fun name => defaultName name (s.numCreated_ + 1).toInt) ∧
    s'.numCreated_ = s.numCreated_ + Int32.ofNat a.given.length := by
  cases step_effect hs with
  | construct => simp [Action.given, construct, Object.new]
  | call ho hc hp =>
    obtain ⟨hlt, rfl⟩ := List.getElem?_eq_some_iff.mp ho
    refine ⟨?_, (Int32.add_zero _).symm⟩
    rw [List.map_set, name_perform hp, Action.given, List.map_nil, List.append_nil,
      ← List.getElem_map Object.name_ (h := by simpa using hlt), List.set_getElem_self]
  | fail ho hc hp => exact ⟨(List.append_nil _).symm, (Int32.add_zero _).symm⟩

theorem names_run {as : List Action} (h : Runs.run step s as = some s') :
    s'.objects.map Object.name_ = s.objects.map Object.name_ ++
      (as.flatMap Action.given).mapIdx fun i name =>
        defaultName name (s.numCreated_ + Int32.ofNat (i + 1)).toInt := by
  induction as generalizing s with
  | nil =>
    obtain rfl : s = s' := by simpa using h
    simp
  | cons a as ih =>
    obtain ⟨t, ht, h⟩ := Option.bind_eq_some_iff.mp h
    obtain ⟨hnames, hcount⟩ := names_step ht
    rw [ih h, hnames, hcount, List.flatMap_cons, List.mapIdx_append, List.append_assoc]
    cases a with
    | construct name =>
      have hshift (i : ℕ) : s.numCreated_ + Int32.ofNat 1 + Int32.ofNat (i + 1) =
          s.numCreated_ + Int32.ofNat (i + 1 + 1) := by
        rw [Int32.add_assoc, ← Int32.ofNat_add, Nat.add_comm 1]
      simp only [Action.given, List.map_cons, List.map_nil, List.mapIdx_cons, List.mapIdx_nil,
        List.length_singleton, hshift]
      rfl
    | call i c => simp [Action.given]

theorem int32_ofNat_eq_iff (m n : ℕ) :
    Int32.ofNat m = Int32.ofNat n ↔ m % 2 ^ 32 = n % 2 ^ 32 := by
  rw [← Int32.toInt_inj, Int32.toInt_ofNat', Int32.toInt_ofNat', Int32.size,
    Int.bmod_eq_bmod_iff_bmod_sub_eq_zero, ← Int.dvd_iff_bmod_eq_zero]
  omega

/-- An object keeps the name it was given, or has its place among all objects in its name, as
far as an `int32_t` counts. Two objects without a given name have the same one exactly if
their places are a multiple of `2 ^ 32` apart. -/
theorem default_names {as : List Action} (hrun : Runs.run step .new as = some s) :
    (s.objects.map Object.name_ = (as.flatMap Action.given).mapIdx fun i name =>
      defaultName name (Int32.ofNat (i + 1)).toInt) ∧
    ∀ (i j : ℕ) (o p : Object), s.objects[i]? = some o → s.objects[j]? = some p →
      (as.flatMap Action.given)[i]? = some [] → (as.flatMap Action.given)[j]? = some [] →
      (o.name_ = p.name_ ↔ i % 2 ^ 32 = j % 2 ^ 32) := by
  have hnames := names_run hrun
  simp only [Process.new, List.map_nil, List.nil_append, Int32.zero_add] at hnames
  have hname {i : ℕ} {o : Object} (ho : s.objects[i]? = some o)
      (hi : (as.flatMap Action.given)[i]? = some []) :
      o.name_ = "Thread".toList ++ decimal (Int32.ofNat (i + 1)).toInt := by
    have heq := congrArg (·[i]?) hnames
    simp only [List.getElem?_map, ho, List.getElem?_mapIdx, hi, Option.map_some] at heq
    exact Option.some.inj heq
  refine ⟨hnames, fun i j o p ho hp hi hj => ?_⟩
  rw [hname ho hi, hname hp hj, List.append_cancel_left_eq, decimal_injective.eq_iff,
    Int32.toInt_inj, int32_ofNat_eq_iff]
  omega

/-- The second object of three has a name of its own. -/
theorem default_names_three :
    ∃ s : Process, Runs.run step .new
        [.construct [], .construct "worker".toList, .construct []] = some s ∧
      s.objects.map Object.name_ =
        ["Thread1".toList, "worker".toList, "Thread3".toList] := by
  obtain ⟨s, hrun, _⟩ := Runs.exists_of_any step .new
    [.construct [], .construct "worker".toList, .construct []] (fun _ => true) (by decide)
  refine ⟨s, hrun, (default_names hrun).1.trans ?_⟩
  decide

end NaiveNet.Thread
