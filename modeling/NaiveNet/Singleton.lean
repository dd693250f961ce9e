import NaiveNet.Runs
import Mathlib.Data.Fintype.Basic

/-!
# One object for a type

The `Singleton`s of a process. `instance` makes its object once, whichever threads call it,
and registers `destroy` unless the type has `no_destroy`. A constructor may call `instance`
of other types, a destructor does not; `exit` calls what was registered, the latest first.
The thread that runs an `init_routine` is in `pthread_once`, and the others wait there until
it is done. What would return a null reference has no result.
-/
namespace NaiveNet.Singleton

/-- How far `init` is. -/
inductive Init
  /-- In `new T()`. -/
  | constructing
  /-- `value_` is set. -/
  | made
  /-- `destroy` is registered, if it is to be. -/
  | registered
  deriving DecidableEq

/-- `pthread_once_t`, with the thread that runs `init`. -/
inductive Once (n : ℕ)
  | fresh
  | running (t : Fin n) (init : Init)
  | done
  deriving DecidableEq

/-- A call of `instance` that has not returned. -/
inductive Call
  /-- It has not got through `pthread_once`. -/
  | once (type : ℕ)
  /-- It runs `init`. -/
  | init (type : ℕ)
  deriving DecidableEq

def Call.type : Call → ℕ
  | .once type => type
  | .init type => type

/-- The calls of a thread are the innermost first. An object is its number in the order of
construction. What was made, deleted and returned, and which constructor was given an
object of which type, is history. -/
structure State (n : ℕ) where
  ponce_ : ℕ → Once n
  value_ : ℕ → Option ℕ
  calls : Fin n → List Call
  /-- The types whose `destroy` is registered, the latest first. -/
  handlers : List ℕ
  exiting : Bool
  made : List ℕ
  deleted : List ℕ
  returned : List (ℕ × ℕ)
  uses : List (ℕ × ℕ)

variable {n : ℕ}

def start (n : ℕ) : State n where
  ponce_ _ := .fresh
  value_ _ := none
  calls _ := []
  handlers := []
  exiting := false
  made := []
  deleted := []
  returned := []
  uses := []

inductive Action (n : ℕ)
  | call (t : Fin n) (type : ℕ)
  /-- `pthread_once` tests `ponce_`. -/
  | once (t : Fin n)
  | construct (t : Fin n)
  | register (t : Fin n)
  | finish (t : Fin n)
  | exit
  /-- `exit` calls the next `destroy`. -/
  | destroy

def setCalls (s : State n) (t : Fin n) (calls : List Call) : State n :=
  { s with calls := Function.update s.calls t calls }

def setOnce (s : State n) (type : ℕ) (ponce_ : Once n) : State n :=
  { s with ponce_ := Function.update s.ponce_ type ponce_ }

/-- The type whose constructor made the innermost call. -/
def caller : List Call → Option ℕ
  | .init type :: _ => some type
  | _ => none

/-- The call yields the object, to the constructor if one made the call. -/
def yieldObject (s : State n) (t : Fin n) (type obj : ℕ) (rest : List Call) : State n :=
  { setCalls s t rest with
    returned := s.returned ++ [(type, obj)]
    uses := s.uses ++ ((caller rest).map fun user => (user, type)).toList }

/-- `return *value_;` -/
def leave (s : State n) (t : Fin n) (type : ℕ) (rest : List Call) : Option (State n) :=
  (s.value_ type).map fun obj => yieldObject s t type obj rest

/-- `no_destroy` is `detail::has_no_destroy<T>::value`. -/
def step (no_destroy : ℕ → Bool) (s : State n) : Action n → Option (State n)
  | .call t type =>
    match s.calls t with
    | [] => some (setCalls s t [.once type])
    | .init user :: rest =>
      if s.ponce_ user = .running t .constructing then
        some (setCalls s t (.once type :: .init user :: rest))
      else none
    | _ => none
  | .once t =>
    match s.calls t with
    | .once type :: rest =>
      match s.ponce_ type with
      | .fresh => some (setCalls (setOnce s type (.running t .constructing)) t (.init type :: rest))
      | .running _ _ => none
      | .done => leave s t type rest
    | _ => none
  | .construct t =>
    match s.calls t with
    | .init type :: _ =>
      if s.ponce_ type = .running t .constructing then
        some { setOnce s type (.running t .made) with
          value_ := Function.update s.value_ type (some s.made.length)
          made := s.made ++ [type] }
      else none
    | _ => none
  | .register t =>
    match s.calls t with
    | .init type :: _ =>
      if s.ponce_ type = .running t .made then
        some { setOnce s type (.running t .registered) with
          handlers := if no_destroy type then s.handlers else type :: s.handlers }
      else none
    | _ => none
  | .finish t =>
    match s.calls t with
    | .init type :: rest =>
      if s.ponce_ type = .running t .registered then leave (setOnce s type .done) t type rest
      else none
    | _ => none
  | .exit => some { s with exiting := true }
  | .destroy =>
    match s.exiting, s.handlers with
    | true, type :: rest =>
      (s.value_ type).map fun obj => { s with handlers := rest, deleted := s.deleted ++ [obj] }
    | _, _ => none

def Reachable (no_destroy : ℕ → Bool) (s : State n) : Prop :=
  Runs.Reaches (step no_destroy) (start n) s

variable {no_destroy : ℕ → Bool} {s s' : State n} {a : Action n}

/-- All that a step can do. -/
inductive Effect (no_destroy : ℕ → Bool) (s : State n) : Action n → State n → Prop
  | call {t type} (hcalls : ∀ c rest, s.calls t = c :: rest →
        ∃ user, c = .init user ∧ s.ponce_ user = .running t .constructing) :
      Effect no_destroy s (.call t type) (setCalls s t (.once type :: s.calls t))
  | begin {t type rest} (hcalls : s.calls t = .once type :: rest) (hp : s.ponce_ type = .fresh) :
      Effect no_destroy s (.once t)
        (setCalls (setOnce s type (.running t .constructing)) t (.init type :: rest))
  | pass {t type rest obj} (hcalls : s.calls t = .once type :: rest) (hp : s.ponce_ type = .done)
      (hobj : s.value_ type = some obj) :
      Effect no_destroy s (.once t) (yieldObject s t type obj rest)
  | construct {t type rest} (hcalls : s.calls t = .init type :: rest)
      (hp : s.ponce_ type = .running t .constructing) :
      Effect no_destroy s (.construct t) { setOnce s type (.running t .made) with
        value_ := Function.update s.value_ type (some s.made.length)
        made := s.made ++ [type] }
  | register {t type rest} (hcalls : s.calls t = .init type :: rest)
      (hp : s.ponce_ type = .running t .made) :
      Effect no_destroy s (.register t) { setOnce s type (.running t .registered) with
        handlers := if no_destroy type then s.handlers else type :: s.handlers }
  | finish {t type rest obj} (hcalls : s.calls t = .init type :: rest)
      (hp : s.ponce_ type = .running t .registered) (hobj : s.value_ type = some obj) :
      Effect no_destroy s (.finish t) (yieldObject (setOnce s type .done) t type obj rest)
  | exit : Effect no_destroy s .exit { s with exiting := true }
  | destroy {type rest obj} (hexit : s.exiting = true) (hhandlers : s.handlers = type :: rest)
      (hobj : s.value_ type = some obj) :
      Effect no_destroy s .destroy { s with handlers := rest, deleted := s.deleted ++ [obj] }

theorem step_effect (h : step no_destroy s a = some s') : Effect no_destroy s a s' := by
  cases a with
  | call t type =>
    simp only [step] at h
    split at h
    · next hcalls =>
      obtain rfl := Option.some.inj h
      rw [← hcalls]
      exact .call fun c rest h => by simp [hcalls] at h
    · next user rest hcalls =>
      rw [Option.ite_none_right_eq_some] at h
      obtain ⟨hp, h⟩ := h
      obtain rfl := Option.some.inj h
      rw [← hcalls]
      refine .call fun c rest' hc => ?_
      rw [hcalls] at hc
      exact ⟨user, (List.cons.inj hc).1.symm, hp⟩
    · contradiction
  | once t =>
    simp only [step] at h
    split at h
    · next type rest hcalls =>
      split at h
      · next hp =>
        obtain rfl := Option.some.inj h
        exact .begin hcalls hp
      · contradiction
      · next hp =>
        obtain ⟨obj, hobj, rfl⟩ := Option.map_eq_some_iff.mp h
        exact .pass hcalls hp hobj
    · contradiction
  | construct t =>
    simp only [step] at h
    split at h
    · next type rest hcalls =>
      rw [Option.ite_none_right_eq_some] at h
      obtain rfl := Option.some.inj h.2
      exact .construct hcalls h.1
    · contradiction
  | register t =>
    simp only [step] at h
    split at h
    · next type rest hcalls =>
      rw [Option.ite_none_right_eq_some] at h
      obtain rfl := Option.some.inj h.2
      exact .register hcalls h.1
    · contradiction
  | finish t =>
    simp only [step] at h
    split at h
    · next type rest hcalls =>
      rw [Option.ite_none_right_eq_some] at h
      obtain ⟨obj, hobj, rfl⟩ := Option.map_eq_some_iff.mp h.2
      exact .finish hcalls h.1 hobj
    · contradiction
  | exit =>
    obtain rfl := Option.some.inj h
    exact .exit
  | destroy =>
    simp only [step] at h
    split at h
    · next type rest hexit hhandlers =>
      obtain ⟨obj, hobj, rfl⟩ := Option.map_eq_some_iff.mp h
      exact .destroy hexit hhandlers hobj
    · contradiction

/-! ### The calls of a thread -/

/-- A type is being made by the thread that has called for it, and all but the innermost
call of a thread wait in a constructor. -/
structure Stacked (s : State n) : Prop where
  active : ∀ t type, .init type ∈ s.calls t ↔ ∃ init, s.ponce_ type = .running t init
  nodup : ∀ t, (s.calls t).Nodup
  below : ∀ t, ∀ c ∈ (s.calls t).tail,
    ∃ type, c = .init type ∧ s.ponce_ type = .running t .constructing

theorem stacked_start : Stacked (start n) where
  active t type := by simp [start]
  nodup _ := List.nodup_nil
  below _ _ h := absurd h List.not_mem_nil

section Calls

variable {t : Fin n} {type : ℕ} {rest : List Call}

theorem Stacked.call (hi : Stacked s) (hcalls : ∀ c rest, s.calls t = c :: rest →
      ∃ user, c = .init user ∧ s.ponce_ user = .running t .constructing) :
    Stacked (setCalls s t (.once type :: s.calls t)) where
  active t' type' := by
    simp only [setCalls, Function.update_apply]
    split_ifs with ht
    · subst ht
      simpa using hi.active t' type'
    · exact hi.active t' type'
  nodup t' := by
    simp only [setCalls, Function.update_apply]
    split_ifs with ht
    · refine List.nodup_cons.mpr ⟨fun hmem => ?_, hi.nodup t⟩
      obtain ⟨c, rest, hc⟩ := List.exists_cons_of_ne_nil (List.ne_nil_of_mem hmem)
      obtain ⟨user, rfl, _⟩ := hcalls c rest hc
      rw [hc] at hmem
      rcases List.mem_cons.mp hmem with heq | hrest
      · contradiction
      · obtain ⟨_, heq, _⟩ := hi.below t _ (by rw [hc]; exact hrest)
        contradiction
    · exact hi.nodup t'
  below t' c hc := by
    simp only [setCalls, Function.update_apply] at hc
    split_ifs at hc with ht
    · subst ht
      have hmem : c ∈ s.calls t' := hc
      obtain ⟨c', rest, hc'⟩ := List.exists_cons_of_ne_nil (List.ne_nil_of_mem hmem)
      rw [hc'] at hmem
      rcases List.mem_cons.mp hmem with rfl | hrest
      · exact hcalls c rest hc'
      · exact hi.below t' c (by rw [hc']; exact hrest)
    · exact hi.below t' c hc

theorem Stacked.begin (hi : Stacked s) (hcalls : s.calls t = .once type :: rest)
    (hp : s.ponce_ type = .fresh) :
    Stacked (setCalls (setOnce s type (.running t .constructing)) t (.init type :: rest)) where
  active t' type' := by
    have hold := hi.active t' type'
    simp only [setCalls, setOnce, Function.update_apply]
    by_cases htype : type' = type
    · subst htype
      rw [hp] at hold
      by_cases ht : t' = t
      · subst ht
        simp
      · simpa [ht, Ne.symm ht] using hold
    · by_cases ht : t' = t
      · subst ht
        rw [hcalls] at hold
        simpa [htype] using hold
      · simpa [ht, htype] using hold
  nodup t' := by
    simp only [setCalls, Function.update_apply]
    split_ifs with ht
    · have hnodup := hi.nodup t
      rw [hcalls] at hnodup
      refine List.nodup_cons.mpr ⟨fun hmem => ?_, (List.nodup_cons.mp hnodup).2⟩
      have hactive : Call.init type ∈ s.calls t := by
        rw [hcalls]
        exact List.mem_cons_of_mem _ hmem
      obtain ⟨init, hrunning⟩ := (hi.active t type).mp hactive
      rw [hp] at hrunning
      contradiction
    · exact hi.nodup t'
  below t' c hc := by
    have hold : c ∈ (s.calls t').tail := by
      simp only [setCalls, Function.update_apply] at hc
      split_ifs at hc with ht
      · rw [ht, hcalls]
        exact hc
      · exact hc
    obtain ⟨type', rfl, hrunning⟩ := hi.below t' c hold
    refine ⟨type', rfl, ?_⟩
    have hne : type' ≠ type := by
      intro heq
      rw [heq, hp] at hrunning
      contradiction
    simpa [setCalls, setOnce, hne] using hrunning

/-- The thread goes on with its `init`. -/
theorem Stacked.advance (hi : Stacked s) (hcalls : s.calls t = .init type :: rest)
    {init : Init} (hp : s.ponce_ type = .running t init) (init' : Init) :
    Stacked (setOnce s type (.running t init')) where
  active t' type' := by
    have hold := hi.active t' type'
    simp only [setOnce, Function.update_apply]
    split_ifs with htype
    · subst htype
      rw [hp] at hold
      simpa using hold
    · exact hold
  nodup := hi.nodup
  below t' c hc := by
    obtain ⟨type', rfl, hrunning⟩ := hi.below t' c hc
    refine ⟨type', rfl, ?_⟩
    have hne : type' ≠ type := by
      intro heq
      subst heq
      -- the call that runs `init` is the innermost of its thread
      rw [hp] at hrunning
      obtain ⟨rfl, _⟩ := Once.running.inj hrunning
      have hnodup := hi.nodup t
      have htail : Call.init type' ∈ (s.calls t).tail := hc
      rw [hcalls] at hnodup htail
      exact (List.nodup_cons.mp hnodup).1 htail
    simpa [setOnce, hne] using hrunning

/-- A call returns that has not run `init`. -/
theorem Stacked.pass (hi : Stacked s) (hcalls : s.calls t = .once type :: rest) (obj : ℕ) :
    Stacked (yieldObject s t type obj rest) where
  active t' type' := by
    simp only [yieldObject, setCalls, Function.update_apply]
    split_ifs with ht
    · subst ht
      rw [← hi.active t' type', hcalls]
      simp
    · exact hi.active t' type'
  nodup t' := by
    simp only [yieldObject, setCalls, Function.update_apply]
    split_ifs with ht
    · have hnodup := hi.nodup t
      rw [hcalls] at hnodup
      exact (List.nodup_cons.mp hnodup).2
    · exact hi.nodup t'
  below t' c hc := by
    simp only [yieldObject, setCalls, Function.update_apply] at hc
    split_ifs at hc with ht
    · subst ht
      exact hi.below t' c (by rw [hcalls]; exact List.mem_of_mem_tail hc)
    · exact hi.below t' c hc

/-- The call that has run `init` returns. -/
theorem Stacked.finish (hi : Stacked s) (hcalls : s.calls t = .init type :: rest)
    {init : Init} (hp : s.ponce_ type = .running t init) (obj : ℕ) :
    Stacked (yieldObject (setOnce s type .done) t type obj rest) := by
  have hnodup := hi.nodup t
  rw [hcalls] at hnodup
  obtain ⟨hnot, hrest⟩ := List.nodup_cons.mp hnodup
  have hothers {t' : Fin n} (h : .init type ∈ s.calls t') : t' = t := by
    obtain ⟨_, hrunning⟩ := (hi.active t' type).mp h
    rw [hp] at hrunning
    exact (Once.running.inj hrunning).1.symm
  refine ⟨fun t' type' => ?_, fun t' => ?_, fun t' c hc => ?_⟩
  · have hold := hi.active t' type'
    simp only [yieldObject, setCalls, setOnce, Function.update_apply]
    by_cases htype : type' = type
    · subst htype
      simp only [if_true, reduceCtorEq, exists_false, iff_false]
      split_ifs with ht
      · exact hnot
      · exact fun h => ht (hothers h)
    · rw [if_neg htype, ← hold]
      split_ifs with ht
      · subst ht
        rw [hcalls]
        simp [htype]
      · rfl
  · simp only [yieldObject, setCalls, Function.update_apply]
    split_ifs with ht
    · exact hrest
    · exact hi.nodup t'
  · simp only [yieldObject, setCalls, Function.update_apply] at hc
    have hold : c ∈ (s.calls t').tail ∧ c ≠ .init type := by
      split_ifs at hc with ht
      · subst ht
        rw [hcalls]
        have hmem := List.mem_of_mem_tail hc
        exact ⟨hmem, fun heq => hnot (heq ▸ hmem)⟩
      · exact ⟨hc, fun heq => ht (hothers (heq ▸ List.mem_of_mem_tail hc))⟩
    obtain ⟨type', rfl, hrunning⟩ := hi.below t' c hold.1
    have hne : type' ≠ type := fun heq => hold.2 (by rw [heq])
    exact ⟨type', rfl, by simpa [yieldObject, setCalls, setOnce, hne] using hrunning⟩

end Calls

theorem Stacked.effect (hi : Stacked s) (he : Effect no_destroy s a s') : Stacked s' := by
  cases he with
  | call hcalls => exact hi.call hcalls
  | begin hcalls hp => exact hi.begin hcalls hp
  | pass hcalls _ _ => exact hi.pass hcalls _
  | construct hcalls hp =>
    have hstep := hi.advance hcalls hp .made
    exact ⟨hstep.active, hstep.nodup, hstep.below⟩
  | register hcalls hp =>
    have hstep := hi.advance hcalls hp .registered
    exact ⟨hstep.active, hstep.nodup, hstep.below⟩
  | finish hcalls hp _ => exact hi.finish hcalls hp _
  | exit | destroy _ _ _ => exact ⟨hi.active, hi.nodup, hi.below⟩

/-! ### The objects -/

/-- `value_` is set. -/
def Once.set : Once n → Bool
  | .running _ .made | .running _ .registered | .done => true
  | _ => false

structure Valued (s : State n) : Prop where
  set : ∀ type, (s.value_ type).isSome = (s.ponce_ type).set
  made : ∀ type obj, s.value_ type = some obj ↔ s.made[obj]? = some type
  returned : ∀ p ∈ s.returned, s.ponce_ p.1 = .done ∧ s.value_ p.1 = some p.2

theorem valued_start : Valued (start n) where
  set _ := rfl
  made type obj := by simp [start]
  returned _ h := absurd h List.not_mem_nil

section Values

variable {t : Fin n} {type obj : ℕ} {rest : List Call}

/-- `init` goes on, or is done, without touching `value_`. -/
theorem Valued.setOnce (hi : Valued s) (type : ℕ) (ponce_ : Once n)
    (hdone : s.ponce_ type ≠ .done) (hset : ponce_.set = (s.ponce_ type).set) :
    Valued (setOnce s type ponce_) where
  set type' := by
    simp only [Singleton.setOnce, Function.update_apply]
    split_ifs with htype
    · subst htype
      exact (hi.set type').trans hset.symm
    · exact hi.set type'
  made := hi.made
  returned p hp := by
    obtain ⟨hold, hvalue⟩ := hi.returned p hp
    have hne : p.1 ≠ type := by
      intro htype
      exact hdone (htype ▸ hold)
    exact ⟨(Function.update_of_ne hne ..).trans hold, hvalue⟩

theorem Valued.yieldObject (hi : Valued s) (hdone : s.ponce_ type = .done)
    (hobj : s.value_ type = some obj) :
    Valued (yieldObject s t type obj rest) where
  set := hi.set
  made := hi.made
  returned p hp := by
    rcases List.mem_append.mp hp with hold | hnew
    · exact hi.returned p hold
    · obtain rfl := List.mem_singleton.mp hnew
      exact ⟨hdone, hobj⟩

theorem Valued.unset (hi : Valued s) (hp : s.ponce_ type = .running t .constructing) :
    s.value_ type = none := by
  have hset := hi.set type
  rw [hp] at hset
  exact Option.isNone_iff_eq_none.mp (Option.isSome_eq_false_iff.mp hset)

theorem Valued.construct (hi : Valued s) (hp : s.ponce_ type = .running t .constructing) :
    Valued { Singleton.setOnce s type (.running t .made) with
      value_ := Function.update s.value_ type (some s.made.length)
      made := s.made ++ [type] } where
  set type' := by
    simp only [Singleton.setOnce, Function.update_apply]
    split_ifs with htype
    · rfl
    · exact hi.set type'
  made type' obj := by
    have hunset := hi.unset hp
    simp only [Function.update_apply]
    by_cases hlt : obj < s.made.length
    · rw [List.getElem?_append_left hlt, ← hi.made]
      split_ifs with htype
      · subst htype
        rw [hunset]
        simp only [Option.some.injEq, reduceCtorEq, iff_false]
        omega
      · rfl
    · have hnone (type' : ℕ) : s.value_ type' ≠ some obj := by
        intro hvalue
        exact hlt (List.getElem?_eq_some_iff.mp ((hi.made type' obj).mp hvalue)).1
      by_cases hobj : obj = s.made.length
      · subst hobj
        rw [List.getElem?_concat_length]
        split_ifs with htype
        · simp [htype]
        · simpa [Ne.symm htype] using hnone type'
      · rw [List.getElem?_eq_none (by simp; omega)]
        split_ifs with htype
        · simpa using Ne.symm hobj
        · simpa using hnone type'
  returned p hp' := by
    obtain ⟨hold, hvalue⟩ := hi.returned p hp'
    have hne : p.1 ≠ type := by
      intro htype
      rw [htype, hi.unset hp] at hvalue
      contradiction
    exact ⟨(Function.update_of_ne hne ..).trans hold, (Function.update_of_ne hne ..).trans hvalue⟩

end Values

theorem Valued.effect (hi : Valued s) (he : Effect no_destroy s a s') : Valued s' := by
  cases he with
  | call _ => exact ⟨hi.set, hi.made, hi.returned⟩
  | @begin t type rest _ hp =>
    have hstep := hi.setOnce type (.running t .constructing) (by simp [hp]) (by rw [hp]; rfl)
    exact ⟨hstep.set, hstep.made, hstep.returned⟩
  | pass _ hp hobj => exact hi.yieldObject hp hobj
  | construct _ hp => exact hi.construct hp
  | @register t type rest _ hp =>
    have hstep := hi.setOnce type (.running t .registered) (by simp [hp]) (by rw [hp]; rfl)
    exact ⟨hstep.set, hstep.made, hstep.returned⟩
  | @finish t type rest obj _ hp hobj =>
    have hstep := hi.setOnce type .done (by simp [hp]) (by rw [hp]; rfl)
    exact hstep.yieldObject (Function.update_self ..) hobj
  | exit | destroy _ _ _ => exact ⟨hi.set, hi.made, hi.returned⟩

/-- What holds of the calls and of the objects. -/
structure Inv (s : State n) : Prop where
  stacked : Stacked s
  valued : Valued s

theorem Inv.step (hi : Inv s) (hs : step no_destroy s a = some s') : Inv s' where
  stacked := hi.stacked.effect (step_effect hs)
  valued := hi.valued.effect (step_effect hs)

theorem inv_start : Inv (start n) := ⟨stacked_start, valued_start⟩

theorem Reachable.inv (h : Reachable no_destroy s) : Inv s :=
  Runs.Reaches.invariant (fun _ _ _ hi hs => hi.step hs) h inv_start

/-- Whichever threads call `instance`, and whichever constructors: a type has one object. The
calls that returned gave it out, and only when its `init` was done; a call that finds it done
can return. -/
theorem instance_once (h : Reachable no_destroy s) :
    s.made.Nodup ∧
      (∀ p ∈ s.returned, s.ponce_ p.1 = .done ∧ s.made[p.2]? = some p.1) ∧
      (∀ p ∈ s.returned, ∀ q ∈ s.returned, p.1 = q.1 ↔ p.2 = q.2) ∧
      ∀ t type rest, s.calls t = .once type :: rest → s.ponce_ type = .done →
        ∃ obj s', step no_destroy s (.once t) = some s' ∧
          s'.returned = s.returned ++ [(type, obj)] := by
  have hi := h.inv.valued
  have hmade {p : ℕ × ℕ} (hp : p ∈ s.returned) : s.made[p.2]? = some p.1 :=
    (hi.made p.1 p.2).mp (hi.returned p hp).2
  refine ⟨?_, fun p hp => ⟨(hi.returned p hp).1, hmade hp⟩, fun p hp q hq => ⟨?_, ?_⟩, ?_⟩
  · rw [List.nodup_iff_getElem?_ne_getElem?]
    intro i j hij hj heq
    obtain ⟨type, htype⟩ : ∃ type, s.made[j]? = some type := ⟨_, List.getElem?_eq_getElem hj⟩
    have hi' := (hi.made type i).mpr (heq.trans htype)
    have hj' := (hi.made type j).mpr htype
    have hsame := Option.some.inj (hi'.symm.trans hj')
    omega
  · intro htype
    have hvalue := (hi.returned p hp).2
    rw [htype, (hi.returned q hq).2] at hvalue
    exact (Option.some.inj hvalue).symm
  · intro hobj
    have hp' := hmade hp
    rw [hobj, hmade hq] at hp'
    exact (Option.some.inj hp').symm
  · intro t type rest hcalls hdone
    have hset := hi.set type
    rw [hdone] at hset
    obtain ⟨obj, hobj⟩ := Option.isSome_iff_exists.mp hset
    refine ⟨obj, yieldObject s t type obj rest, ?_, rfl⟩
    simp [step, hcalls, hdone, leave, hobj]

/-- The constructor of type 0 calls `instance` of type 1 while another thread waits. -/
theorem instance_once_nested : ∃ s : State 2, Reachable (fun _ => false) s ∧
    s.made = [1, 0] ∧ s.returned = [(1, 0), (0, 1)] ∧ s.calls 1 = [.once 0] ∧ s.made.Nodup ∧
    ∃ obj s', step (fun _ => false) s (.once 1) = some s' ∧
      s'.returned = s.returned ++ [(0, obj)] := by
  obtain ⟨s, hrun, hs⟩ := Runs.exists_of_any (step fun _ => false) (start 2)
    [.call 0 0, .once 0, .call 1 0, .call 0 1, .once 0, .construct 0, .register 0, .finish 0,
      .construct 0, .register 0, .finish 0]
    (fun s => s.made = [1, 0] ∧ s.returned = [(1, 0), (0, 1)] ∧ s.calls 1 = [.once 0] ∧
      s.ponce_ 0 = .done) (by decide)
  obtain ⟨hmade, hreturned, hcalls, hdone⟩ := of_decide_eq_true hs
  have h : Reachable (fun _ => false) s := ⟨_, hrun⟩
  obtain ⟨hnodup, _, _, hreturn⟩ := instance_once h
  exact ⟨s, h, hmade, hreturned, hcalls, hnodup, hreturn 1 0 [] hcalls hdone⟩

end NaiveNet.Singleton
