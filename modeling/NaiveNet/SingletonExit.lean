import NaiveNet.Singleton

/-!
# The end of the singletons

`exit` calls each `destroy` that was registered, the latest first. The object of a type is
deleted once, and not before those whose constructors were given it.
-/
namespace NaiveNet.Singleton

variable {n : ℕ} {no_destroy : ℕ → Bool} {s s' : State n} {a : Action n}

/-- `atexit` is behind. -/
def Once.registered : Once n → Bool
  | .running _ .registered | .done => true
  | _ => false

theorem Once.set_of_registered {ponce_ : Once n} (h : ponce_.registered = true) :
    ponce_.set = true := by
  cases ponce_ with
  | fresh => contradiction
  | done => rfl
  | running t init =>
    cases init with
    | registered => rfl
    | _ => contradiction

/-- The objects that are registered are still to be destroyed, or are destroyed. -/
structure Handled (no_destroy : ℕ → Bool) (s : State n) : Prop where
  valued : Valued s
  registered : ∀ type, type ∈ s.handlers ∨ (∃ obj ∈ s.deleted, s.value_ type = some obj) ↔
    no_destroy type = false ∧ (s.ponce_ type).registered = true
  nodup : s.handlers.Nodup
  alive : ∀ type ∈ s.handlers, ∀ obj ∈ s.deleted, s.value_ type ≠ some obj
  deleted : s.deleted.Nodup
  exiting : ∀ obj ∈ s.deleted, s.exiting = true ∧ ∃ type, s.value_ type = some obj

theorem handled_start : Handled no_destroy (start n) where
  valued := valued_start
  registered type := by simp [start, Once.registered]
  nodup := List.nodup_nil
  alive _ h := absurd h List.not_mem_nil
  deleted := List.nodup_nil
  exiting _ h := absurd h List.not_mem_nil

section Handlers

variable {t : Fin n} {type obj : ℕ} {rest : List Call}

/-- A step that touches neither the objects nor the handlers. -/
theorem Handled.keep (hi : Handled no_destroy s) (hvalued : Valued s')
    (hvalue : s'.value_ = s.value_) (hhandlers : s'.handlers = s.handlers)
    (hdeleted : s'.deleted = s.deleted) (hexit : s.exiting = true → s'.exiting = true)
    (hregistered : ∀ type, (s'.ponce_ type).registered = (s.ponce_ type).registered) :
    Handled no_destroy s' := by
  refine ⟨hvalued, fun type => ?_, ?_, ?_, ?_, ?_⟩
  · rw [hvalue, hhandlers, hdeleted, hregistered]
    exact hi.registered type
  · rw [hhandlers]
    exact hi.nodup
  · rw [hvalue, hhandlers, hdeleted]
    exact hi.alive
  · rw [hdeleted]
    exact hi.deleted
  · rw [hvalue, hdeleted]
    exact fun obj hobj => (hi.exiting obj hobj).imp_left hexit

theorem registered_setOnce {ponce_ : Once n}
    (h : ponce_.registered = (s.ponce_ type).registered) (type' : ℕ) :
    ((setOnce s type ponce_).ponce_ type').registered = (s.ponce_ type').registered := by
  simp only [setOnce, Function.update_apply]
  split_ifs with htype
  · rw [h, htype]
  · rfl

theorem Handled.construct (hi : Handled no_destroy s)
    (hp : s.ponce_ type = .running t .constructing) :
    Handled no_destroy { setOnce s type (.running t .made) with
      value_ := Function.update s.value_ type (some s.made.length)
      made := s.made ++ [type] } := by
  have hnot : type ∉ s.handlers := by
    intro hmem
    have hregistered := ((hi.registered type).mp (Or.inl hmem)).2
    rw [hp] at hregistered
    contradiction
  -- the object is new, and so it is not among the deleted ones
  have hvalue {type' obj : ℕ} (hobj : obj ∈ s.deleted) :
      Function.update s.value_ type (some s.made.length) type' = some obj ↔
        s.value_ type' = some obj := by
    rw [Function.update_apply]
    split_ifs with htype
    · subst htype
      rw [hi.valued.unset hp]
      obtain ⟨_, type'', hold⟩ := hi.exiting obj hobj
      have hlt := (List.getElem?_eq_some_iff.mp ((hi.valued.made type'' obj).mp hold)).1
      simp only [Option.some.injEq, reduceCtorEq, iff_false]
      omega
    · rfl
  refine ⟨hi.valued.construct hp, fun type' => ?_, hi.nodup, fun type' hmem obj hobj => ?_,
    hi.deleted, fun obj hobj => ?_⟩
  · have hset : Once.registered (.running t .made : Once n) = (s.ponce_ type).registered := by
      rw [hp]
      rfl
    have hsame := registered_setOnce hset type'
    dsimp only
    rw [hsame, ← hi.registered type']
    refine or_congr Iff.rfl (exists_congr fun obj => and_congr_right fun hobj => hvalue hobj)
  · exact fun h => hi.alive type' hmem obj hobj ((hvalue hobj).mp h)
  · obtain ⟨hexit, type', hold⟩ := hi.exiting obj hobj
    exact ⟨hexit, type', (hvalue hobj).mpr hold⟩

theorem Handled.register (hi : Handled no_destroy s) (hp : s.ponce_ type = .running t .made) :
    Handled no_destroy { setOnce s type (.running t .registered) with
      handlers := if no_destroy type then s.handlers else type :: s.handlers } := by
  have hstep := hi.valued.setOnce type (.running t .registered) (by simp [hp]) (by rw [hp]; rfl)
  have hnot : ¬ (type ∈ s.handlers ∨ ∃ obj ∈ s.deleted, s.value_ type = some obj) := by
    rw [hi.registered, hp]
    simp [Once.registered]
  have hothers {type' : ℕ} (h : type' ≠ type) :
      (setOnce s type (.running t .registered)).ponce_ type' = s.ponce_ type' :=
    Function.update_of_ne h ..
  have hself : (setOnce s type (.running t .registered)).ponce_ type = .running t .registered :=
    Function.update_self ..
  refine ⟨⟨hstep.set, hstep.made, hstep.returned⟩, fun type' => ?_, ?_,
    fun type' hmem obj hobj => ?_, hi.deleted, hi.exiting⟩
  · have hold := hi.registered type'
    dsimp only
    by_cases htype : type' = type
    · subst htype
      rw [hself]
      cases hno : no_destroy type' with
      | true =>
        rw [hno] at hold
        simpa [Once.registered, setOnce] using hold
      | false => simp [Once.registered]
    · rw [hothers htype, ← hold]
      split_ifs
      · rfl
      · simp [htype, setOnce]
  · dsimp only
    split_ifs
    · exact hi.nodup
    · exact List.nodup_cons.mpr ⟨fun hmem => hnot (Or.inl hmem), hi.nodup⟩
  · dsimp only at hmem
    split_ifs at hmem
    · exact hi.alive type' hmem obj hobj
    · rcases List.mem_cons.mp hmem with rfl | hmem
      · exact fun hvalue => hnot (Or.inr ⟨obj, hobj, hvalue⟩)
      · exact hi.alive type' hmem obj hobj

theorem Handled.destroy (hi : Handled no_destroy s) {rest : List ℕ} (hexit : s.exiting = true)
    (hhandlers : s.handlers = type :: rest) (hobj : s.value_ type = some obj) :
    Handled no_destroy { s with handlers := rest, deleted := s.deleted ++ [obj] } := by
  have hnodup := hi.nodup
  rw [hhandlers] at hnodup
  obtain ⟨hnot, hrest⟩ := List.nodup_cons.mp hnodup
  have hmade := (hi.valued.made type obj).mp hobj
  have hunique {type' : ℕ} (h : s.value_ type' = some obj) : type' = type := by
    have hmade' := (hi.valued.made type' obj).mp h
    exact Option.some.inj (hmade'.symm.trans hmade)
  refine ⟨⟨hi.valued.set, hi.valued.made, hi.valued.returned⟩, fun type' => ?_, hrest,
    fun type' hmem obj' hobj' => ?_, ?_, fun obj' hobj' => ?_⟩
  · have hiff : s.value_ type' = some obj ↔ type' = type := ⟨hunique, fun h => h ▸ hobj⟩
    rw [← hi.registered type', hhandlers]
    simp only [List.mem_cons, List.mem_append, List.not_mem_nil, or_false, or_and_right, exists_or,
      exists_eq_left, hiff]
    rw [or_comm (b := type' = type), ← or_assoc, or_comm (b := type' = type)]
  · rcases List.mem_append.mp hobj' with hold | hnew
    · exact hi.alive type' (by rw [hhandlers]; exact List.mem_cons_of_mem _ hmem) obj' hold
    · obtain rfl := List.mem_singleton.mp hnew
      exact fun hvalue => hnot (hunique hvalue ▸ hmem)
  · refine List.nodup_append.mpr ⟨hi.deleted, List.nodup_singleton obj, fun x hx y hy heq => ?_⟩
    obtain rfl := List.mem_singleton.mp hy
    have hmem : type ∈ s.handlers := by
      rw [hhandlers]
      exact List.mem_cons_self
    exact hi.alive type hmem x hx (heq ▸ hobj)
  · rcases List.mem_append.mp hobj' with hold | hnew
    · exact hi.exiting obj' hold
    · obtain rfl := List.mem_singleton.mp hnew
      exact ⟨hexit, type, hobj⟩

end Handlers

theorem Handled.effect (hi : Handled no_destroy s) (he : Effect no_destroy s a s') :
    Handled no_destroy s' := by
  have hvalued := hi.valued.effect he
  cases he with
  | call _ => exact hi.keep hvalued rfl rfl rfl (fun h => h) fun _ => rfl
  | begin _ hp =>
    exact hi.keep hvalued rfl rfl rfl (fun h => h) (registered_setOnce (by rw [hp]; rfl))
  | pass _ _ _ => exact hi.keep hvalued rfl rfl rfl (fun h => h) fun _ => rfl
  | construct _ hp => exact hi.construct hp
  | register _ hp => exact hi.register hp
  | finish _ hp _ =>
    exact hi.keep hvalued rfl rfl rfl (fun h => h) (registered_setOnce (by rw [hp]; rfl))
  | exit => exact hi.keep hvalued rfl rfl rfl (fun _ => rfl) fun _ => rfl
  | destroy hexit hhandlers hobj => exact hi.destroy hexit hhandlers hobj

/-- What is destroyed next was used by no constructor of an object that is destroyed later. -/
structure Ordered (s : State n) : Prop where
  uses : ∀ p ∈ s.uses, s.ponce_ p.2 = .done
  order : s.handlers.Pairwise fun type user => (user, type) ∉ s.uses

theorem ordered_start : Ordered (start n) where
  uses _ h := absurd h List.not_mem_nil
  order := List.Pairwise.nil

section Order

variable {t : Fin n} {type obj : ℕ} {rest : List Call}

theorem Ordered.setOnce (hi : Ordered s) (type : ℕ) (hp : s.ponce_ type ≠ .done) (ponce_ : Once n) :
    Ordered (setOnce s type ponce_) where
  uses p hmem := by
    have hdone := hi.uses p hmem
    have hne : p.2 ≠ type := by
      intro heq
      exact hp (heq ▸ hdone)
    exact (Function.update_of_ne hne ..).trans hdone
  order := hi.order

/-- A constructor that is given an object is not yet behind its own `atexit`. -/
theorem Ordered.yieldObject (hi : Ordered s) (hdone : s.ponce_ type = .done)
    (hcaller : ∀ user, caller rest = some user → user ∉ s.handlers) :
    Ordered (yieldObject s t type obj rest) where
  uses p hp := by
    rcases List.mem_append.mp hp with hold | hnew
    · exact hi.uses p hold
    · obtain ⟨user, _, rfl⟩ := Option.map_eq_some_iff.mp (Option.mem_toList.mp hnew)
      exact hdone
  order := by
    refine hi.order.imp_of_mem fun {type' user} _ huser hnot hmem => ?_
    rcases List.mem_append.mp hmem with hold | hnew
    · exact hnot hold
    · obtain ⟨user', hcall, heq⟩ := Option.map_eq_some_iff.mp (Option.mem_toList.mp hnew)
      obtain ⟨rfl, _⟩ := Prod.mk.inj heq
      exact hcaller user' hcall huser

theorem caller_cases {user : ℕ} (h : caller rest = some user) :
    ∃ rest', rest = .init user :: rest' := by
  unfold caller at h
  split at h
  · obtain rfl := Option.some.inj h
    exact ⟨_, rfl⟩
  · contradiction

/-- The call was made by a constructor. -/
theorem Stacked.constructing_of_caller (hi : Stacked s) {c : Call} (hcalls : s.calls t = c :: rest)
    {user : ℕ} (h : caller rest = some user) : s.ponce_ user = .running t .constructing := by
  obtain ⟨rest', rfl⟩ := caller_cases h
  obtain ⟨type', heq, hp⟩ := hi.below t (.init user) (by rw [hcalls]; exact List.mem_cons_self)
  obtain rfl := Call.init.inj heq
  exact hp

theorem Handled.not_mem (hi : Handled no_destroy s)
    (hp : (s.ponce_ type).registered = false) : type ∉ s.handlers := by
  intro hmem
  rw [((hi.registered type).mp (Or.inl hmem)).2] at hp
  contradiction

end Order

theorem Ordered.effect (hi : Ordered s) (hstacked : Stacked s) (hhandled : Handled no_destroy s)
    (he : Effect no_destroy s a s') : Ordered s' := by
  have hcaller {t : Fin n} {c : Call} {rest : List Call} (hcalls : s.calls t = c :: rest) (user : ℕ)
      (h : caller rest = some user) : user ∉ s.handlers := by
    apply hhandled.not_mem
    rw [hstacked.constructing_of_caller hcalls h]
    rfl
  cases he with
  | call _ | exit => exact ⟨hi.uses, hi.order⟩
  | @begin t type rest _ hp =>
    have hstep := hi.setOnce type (by simp [hp]) (.running t .constructing)
    exact ⟨hstep.uses, hstep.order⟩
  | pass hcalls hp _ => exact hi.yieldObject hp (hcaller hcalls)
  | @construct t type rest _ hp =>
    have hstep := hi.setOnce type (by simp [hp]) (.running t .made)
    exact ⟨hstep.uses, hstep.order⟩
  | @register t type rest _ hp =>
    have hstep := hi.setOnce type (by simp [hp]) (.running t .registered)
    refine ⟨hstep.uses, ?_⟩
    dsimp only
    split_ifs
    · exact hi.order
    · refine List.pairwise_cons.mpr ⟨fun user _ hmem => ?_, hi.order⟩
      -- nobody was given an object that is still being made
      have hdone := hi.uses _ hmem
      rw [hp] at hdone
      contradiction
  | @finish t type rest obj hcalls hp _ =>
    have hstep := hi.setOnce type (by simp [hp]) .done
    exact hstep.yieldObject (Function.update_self ..) (hcaller hcalls)
  | destroy _ hhandlers _ =>
    refine ⟨hi.uses, ?_⟩
    have horder := hi.order
    rw [hhandlers] at horder
    exact (List.pairwise_cons.mp horder).2

/-- What holds at `exit`. -/
structure AtExit (no_destroy : ℕ → Bool) (s : State n) : Prop where
  stacked : Stacked s
  handled : Handled no_destroy s
  ordered : Ordered s

theorem AtExit.step (hi : AtExit no_destroy s) (hs : step no_destroy s a = some s') :
    AtExit no_destroy s' where
  stacked := hi.stacked.effect (step_effect hs)
  handled := hi.handled.effect (step_effect hs)
  ordered := hi.ordered.effect hi.stacked hi.handled (step_effect hs)

theorem Reachable.atExit (h : Reachable no_destroy s) : AtExit no_destroy s :=
  Runs.Reaches.invariant (fun _ _ _ hi hs => hi.step hs) h
    ⟨stacked_start, handled_start, ordered_start⟩

/-- At `exit` the next `destroy` can run. It deletes an object that is not deleted, and no
constructor of one that is still to be deleted was given it. In the end everything that was
made is deleted, but for the types that have `no_destroy`. -/
theorem destroy_once (h : Reachable no_destroy s) :
    s.deleted.Nodup ∧
      (∀ obj ∈ s.deleted, s.exiting = true ∧
        ∃ type, s.made[obj]? = some type ∧ no_destroy type = false) ∧
      (∀ type rest, s.exiting = true → s.handlers = type :: rest →
        ∃ obj s', step no_destroy s .destroy = some s' ∧ s'.handlers = rest ∧
          s'.deleted = s.deleted ++ [obj] ∧ s.made[obj]? = some type ∧ obj ∉ s.deleted ∧
          ∀ user ∈ rest, (user, type) ∉ s.uses) ∧
      (s.handlers = [] → ∀ type, no_destroy type = false → s.ponce_ type = .done →
        ∃ obj ∈ s.deleted, s.made[obj]? = some type) := by
  obtain ⟨_, hi, hordered⟩ := h.atExit
  refine ⟨hi.deleted, fun obj hobj => ?_, fun type rest hexit hhandlers => ?_,
    fun hempty type hno hdone => ?_⟩
  · obtain ⟨hexit, type, hvalue⟩ := hi.exiting obj hobj
    have hregistered := (hi.registered type).mp (Or.inr ⟨obj, hobj, hvalue⟩)
    exact ⟨hexit, type, (hi.valued.made type obj).mp hvalue, hregistered.1⟩
  · have hmem : type ∈ s.handlers := by
      rw [hhandlers]
      exact List.mem_cons_self
    have hset := hi.valued.set type
    rw [Once.set_of_registered ((hi.registered type).mp (Or.inl hmem)).2] at hset
    obtain ⟨obj, hobj⟩ := Option.isSome_iff_exists.mp hset
    have horder := hordered.order
    rw [hhandlers] at horder
    refine ⟨obj, { s with handlers := rest, deleted := s.deleted ++ [obj] }, ?_, rfl, rfl,
      (hi.valued.made type obj).mp hobj, fun hdeleted => hi.alive type hmem obj hdeleted hobj,
      (List.pairwise_cons.mp horder).1⟩
    simp [step, hexit, hhandlers, hobj]
  · have hregistered := (hi.registered type).mpr ⟨hno, by rw [hdone]; rfl⟩
    rw [hempty] at hregistered
    obtain ⟨obj, hobj, hvalue⟩ := hregistered.resolve_left List.not_mem_nil
    exact ⟨obj, hobj, (hi.valued.made type obj).mp hvalue⟩

/-- Type 0 uses type 1, and type 2 has `no_destroy`. -/
theorem destroy_once_nested : ∃ s : State 1, Reachable (· == 2) s ∧ s.made = [1, 0, 2] ∧
    s.uses = [(0, 1)] ∧ s.exiting = true ∧ s.handlers = [1] ∧ s.deleted = [1] ∧ s.deleted.Nodup ∧
    ∃ obj s', step (· == 2) s .destroy = some s' ∧ s'.handlers = [] ∧
      s'.deleted = s.deleted ++ [obj] := by
  obtain ⟨s, hrun, hs⟩ := Runs.exists_of_any (step (· == 2)) (start 1)
    [.call 0 0, .once 0, .call 0 1, .once 0, .construct 0, .register 0, .finish 0, .construct 0,
      .register 0, .finish 0, .call 0 2, .once 0, .construct 0, .register 0, .finish 0, .exit,
      .destroy]
    (fun s => s.made = [1, 0, 2] ∧ s.uses = [(0, 1)] ∧ s.exiting = true ∧ s.handlers = [1] ∧
      s.deleted = [1]) (by decide)
  obtain ⟨hmade, huses, hexit, hhandlers, hdeleted⟩ := of_decide_eq_true hs
  have h : Reachable (· == 2) s := ⟨_, hrun⟩
  obtain ⟨hnodup, _, hnext, _⟩ := destroy_once h
  obtain ⟨obj, s', hstep, hrest, hgone, _⟩ := hnext 1 [] hexit hhandlers
  exact ⟨s, h, hmade, huses, hexit, hhandlers, hdeleted, hnodup, obj, s', hstep, hrest, hgone⟩

end NaiveNet.Singleton
