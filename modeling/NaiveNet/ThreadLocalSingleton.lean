import NaiveNet.ThreadLocal

/-!
# One object for a thread and a type

`ThreadLocalSingleton` keeps the object of a thread in `t_value_`, and at a key as well, so
that it is deleted when the thread exits. A type stands for the key of its `deleter_`, which
is constructed when the type is loaded. The objects are those of a `ThreadLocal` (each
step is one of its steps, or none), but while the destructor of one runs, `instance`
still yields it. `new T()` runs between the look at `t_value_` and `deleter_.set`; should it
ask for the instance that it is making, the assertion in `set` would fail. A failed assertion
has no result.
-/
namespace NaiveNet.ThreadLocalSingleton

/-- `deleting` is the type whose object a thread is about to forget: between `delete t_value_`
and `t_value_ = nullptr`. -/
structure State (n : ℕ) extends ThreadLocal.State n where
  t_value_ : Fin n → ℕ → Option ℕ
  deleting : Fin n → Option ℕ

variable {n : ℕ}

def start (n : ℕ) : State n := ⟨ThreadLocal.start n, fun _ _ => none, fun _ => none⟩

inductive Action (n : ℕ)
  /-- `Deleter()` -/
  | load
  /-- `~Deleter()` -/
  | unload (pkey_ : ℕ)
  | instance_ (t : Fin n) (pkey_ : ℕ)
  /-- `new T()` is done. -/
  | set (t : Fin n)
  | exit (t : Fin n) (order : List ℕ)
  | destructor (t : Fin n)
  | forget (t : Fin n)
  | endRound (t : Fin n) (order : List ℕ)

def setPointer (t_value_ : Fin n → ℕ → Option ℕ) (t : Fin n) (pkey_ : ℕ) (value : Option ℕ) :
    Fin n → ℕ → Option ℕ :=
  Function.update t_value_ t (Function.update (t_value_ t) pkey_ value)

/-- `static T& instance()`, which yields the object of the thread or enters `new T()`. Without
`deleter_` what follows is not defined. -/
def instance_ (s : State n) (t : Fin n) (pkey_ : ℕ) : Option (Option ℕ × State n) :=
  match s.t_value_ t pkey_ with
  | some obj => some (some obj, s)
  | none =>
    if s.keys.live pkey_ then
      some (none, { s with
        constructing := Function.update s.constructing t (pkey_ :: s.constructing t) })
    else none

/-- The rest of `instance`, once `new T()` is done: `t_value_` and `deleter_.set`. -/
def set (s : State n) (t : Fin n) : Option (ℕ × State n) :=
  match s.constructing t with
  | [] => none
  | pkey_ :: rest => do
    let newObj := s.made.length
    let specific ← s.keys.getspecific t pkey_
    -- `assert(pthread_getspecific(pkey_) == NULL)`
    if specific.isNone then do
      let keys ← s.keys.setspecific t pkey_ newObj
      return (newObj, { s with
        keys := keys
        constructing := Function.update s.constructing t rest
        made := s.made ++ [(t, pkey_)]
        t_value_ := setPointer s.t_value_ t pkey_ (some newObj) })
    else none

/-- `static T* pointer()` -/
def pointer (s : State n) (t : Fin n) (pkey_ : ℕ) : Option ℕ := s.t_value_ t pkey_

/-- `static void destructor(void* obj)` up to `delete t_value_`. -/
def destructor (s : State n) (t : Fin n) (pkey_ obj : ℕ) : Option (State n) :=
  -- `assert(obj == t_value_)`
  if s.t_value_ t pkey_ = some obj then
    some { s with
      deleted := s.deleted ++ [obj]
      deleting := Function.update s.deleting t (some pkey_) }
  else none

/-- A thread exits, and its destructors go on, when it is in no constructor. -/
def step (s : State n) : Action n → Option (State n)
  | .load => some { s with keys := s.keys.keyCreate }
  | .unload pkey_ => (s.keys.keyDelete pkey_).map fun keys => { s with keys := keys }
  | .instance_ t pkey_ =>
    if (s.keys.phase t).present then (instance_ s t pkey_).map Prod.snd else none
  | .set t => if (s.keys.phase t).present then (set s t).map Prod.snd else none
  | .exit t order =>
    if s.constructing t = [] then
      (s.keys.exit t order).map fun keys => { s with keys := keys }
    else none
  | .destructor t =>
    if s.constructing t = [] then
      match s.deleting t, s.keys.phase t with
      | none, .exiting _ (pkey_ :: _) => do
        let (x, keys) ← s.keys.visit t
        match x with
        | none => return { s with keys := keys }
        | some obj => destructor { s with keys := keys } t pkey_ obj
      | _, _ => none
    else none
  | .forget t =>
    if s.constructing t = [] then
      match s.deleting t with
      | some pkey_ => some { s with
          t_value_ := setPointer s.t_value_ t pkey_ none
          deleting := Function.update s.deleting t none }
      | none => none
    else none
  | .endRound t order =>
    if s.constructing t = [] ∧ s.deleting t = none then
      (s.keys.endRound t order).map fun keys => { s with keys := keys }
    else none

/-- No constructor asks for the instance that it is making. -/
def Unnested (s : State n) : Action n → Prop
  | .instance_ t pkey_ => pkey_ ∉ s.constructing t
  | _ => True

instance (s : State n) : (a : Action n) → Decidable (Unnested s a)
  | .instance_ t pkey_ => inferInstanceAs (Decidable (pkey_ ∉ s.constructing t))
  | .load | .unload _ | .set _ | .exit _ _ | .destructor _ | .forget _ | .endRound _ _ =>
    isTrue trivial

variable {s s' : State n} {a : Action n}

@[simp] theorem setPointer_apply (t_value_ : Fin n → ℕ → Option ℕ) (t t' : Fin n)
    (pkey_ pkey' : ℕ) (value : Option ℕ) : setPointer t_value_ t pkey_ value t' pkey' =
      if t' = t ∧ pkey' = pkey_ then value else t_value_ t' pkey' := by
  simp only [setPointer, Function.update_apply]
  by_cases ht : t' = t
  · subst ht
    simp [Function.update_apply]
  · simp [ht]

/-- `new T()` is entered. -/
def State.enter (s : State n) (t : Fin n) (pkey_ : ℕ) : State n :=
  { s with constructing := Function.update s.constructing t (pkey_ :: s.constructing t) }

/-- The object is made, pointed to and set. -/
def State.make (s : State n) (t : Fin n) (pkey_ : ℕ) (rest : List ℕ) : State n :=
  { s with
    keys := s.keys.setValue t pkey_ (some s.made.length)
    constructing := Function.update s.constructing t rest
    made := s.made ++ [(t, pkey_)]
    t_value_ := setPointer s.t_value_ t pkey_ (some s.made.length) }

/-- All that a step can do to the objects and the pointers to them. -/
inductive Effect (s : State n) : Action n → State n → Prop
  | keep {a keys} (hkeeps : s.keys.Keeps keys) : Effect s a { s with keys := keys }
  | reuse {t pkey_ obj} (hv : s.t_value_ t pkey_ = some obj) : Effect s (.instance_ t pkey_) s
  | enter {t pkey_} (ht : (s.keys.phase t).present = true) (hk : s.keys.live pkey_ = true)
      (hv : s.t_value_ t pkey_ = none) : Effect s (.instance_ t pkey_) (s.enter t pkey_)
  | make {t pkey_ rest} (ht : (s.keys.phase t).present = true) (hk : s.keys.live pkey_ = true)
      (hc : s.constructing t = pkey_ :: rest) (hnone : s.keys.specific t pkey_ = none) :
      Effect s (.set t) (s.make t pkey_ rest)
  | delete {t pkey_ round order obj} (hc : s.constructing t = [])
      (ht : s.keys.phase t = .exiting round (pkey_ :: order)) (hnot : s.deleting t = none)
      (hhas : ThreadLocal.Has s.toState t pkey_ obj) (hv : s.t_value_ t pkey_ = some obj) :
      Effect s (.destructor t)
        { s with
          keys := (s.keys.setPhase t (.exiting round order)).setValue t pkey_ none
          deleted := s.deleted ++ [obj]
          deleting := Function.update s.deleting t (some pkey_) }
  | forget {t pkey_} (hd : s.deleting t = some pkey_) :
      Effect s (.forget t)
        { s with
          t_value_ := setPointer s.t_value_ t pkey_ none
          deleting := Function.update s.deleting t none }

theorem instance_cases {t : Fin n} {pkey_ : ℕ} {found : Option ℕ}
    (h : instance_ s t pkey_ = some (found, s')) :
    (∃ obj, found = some obj ∧ s.t_value_ t pkey_ = some obj ∧ s' = s) ∨
      found = none ∧ s.t_value_ t pkey_ = none ∧ s.keys.live pkey_ = true ∧
        s' = s.enter t pkey_ := by
  unfold instance_ at h
  cases hv : s.t_value_ t pkey_ with
  | some obj =>
    rw [hv] at h
    obtain ⟨rfl, rfl⟩ := Prod.mk.inj (Option.some.inj h)
    exact Or.inl ⟨obj, rfl, rfl, rfl⟩
  | none =>
    simp only [hv, Option.ite_none_right_eq_some] at h
    obtain ⟨rfl, rfl⟩ := Prod.mk.inj (Option.some.inj h.2)
    exact Or.inr ⟨rfl, rfl, h.1, rfl⟩

theorem set_cases {t : Fin n} {obj : ℕ} (h : set s t = some (obj, s')) :
    ∃ pkey_ rest, s.constructing t = pkey_ :: rest ∧ s.keys.live pkey_ = true ∧
      s.keys.specific t pkey_ = none ∧ obj = s.made.length ∧ s' = s.make t pkey_ rest := by
  unfold set ThreadSpecific.getspecific ThreadSpecific.setspecific at h
  cases hc : s.constructing t with
  | nil => simp [hc] at h
  | cons pkey_ rest =>
    by_cases hk : s.keys.live pkey_ = true
    · simp only [hc, if_pos hk, Option.bind_eq_bind, Option.bind_some] at h
      split_ifs at h with hnone
      obtain ⟨rfl, rfl⟩ := Prod.mk.inj (Option.some.inj h)
      exact ⟨pkey_, rest, rfl, hk, Option.isNone_iff_eq_none.mp hnone, rfl, rfl⟩
    · simp [hc, hk] at h

theorem step_effect (hi : s.keys.Sound) (h : step s a = some s') : Effect s a s' := by
  cases a with
  | load =>
    obtain rfl := Option.some.inj h
    exact .keep (ThreadSpecific.keyCreate_keeps hi)
  | unload pkey_ =>
    obtain ⟨keys, hkeys, rfl⟩ := Option.map_eq_some_iff.mp h
    exact .keep (ThreadSpecific.keyDelete_keeps hi hkeys)
  | exit t order =>
    rw [step, Option.ite_none_right_eq_some] at h
    obtain ⟨keys, hkeys, rfl⟩ := Option.map_eq_some_iff.mp h.2
    exact .keep (ThreadSpecific.exit_keeps hi hkeys)
  | endRound t order =>
    rw [step, Option.ite_none_right_eq_some] at h
    obtain ⟨keys, hkeys, rfl⟩ := Option.map_eq_some_iff.mp h.2
    exact .keep (ThreadSpecific.endRound_keeps hi hkeys)
  | instance_ t pkey_ =>
    rw [step, Option.ite_none_right_eq_some] at h
    obtain ⟨⟨found, s₁⟩, hinstance, rfl⟩ := Option.map_eq_some_iff.mp h.2
    rcases instance_cases hinstance with ⟨obj, _, hv, rfl⟩ | ⟨_, hv, hk, rfl⟩
    · exact .reuse hv
    · exact .enter h.1 hk hv
  | set t =>
    rw [step, Option.ite_none_right_eq_some] at h
    obtain ⟨⟨obj, s₁⟩, hset, rfl⟩ := Option.map_eq_some_iff.mp h.2
    obtain ⟨pkey_, rest, hc, hk, hnone, _, rfl⟩ := set_cases hset
    exact .make h.1 hk hc hnone
  | forget t =>
    simp only [step, Option.ite_none_right_eq_some] at h
    replace h := h.2
    cases hd : s.deleting t with
    | none => simp [hd] at h
    | some pkey_ =>
      rw [hd] at h
      obtain rfl := Option.some.inj h
      exact .forget hd
  | destructor t =>
    simp only [step, Option.ite_none_right_eq_some] at h
    obtain ⟨hc, h⟩ := h
    split at h
    · next round pkey' order' hnot hphase =>
      obtain ⟨⟨x, keys⟩, hvisit, h⟩ := Option.bind_eq_some_iff.mp h
      rcases ThreadSpecific.visit_cases hi hvisit with ⟨rfl, hkeeps⟩ |
        ⟨round, pkey_, order, obj, rfl, ht, hk, hspecific, rfl⟩
      · obtain rfl := Option.some.inj h
        exact .keep hkeeps
      · obtain ⟨_, hcons⟩ := Phase.exiting.inj (ht.symm.trans hphase)
        obtain ⟨rfl, _⟩ := List.cons.inj hcons
        simp only [destructor, Option.ite_none_right_eq_some] at h
        obtain ⟨hv, h⟩ := h
        obtain rfl := Option.some.inj h
        exact .delete hc ht hnot ⟨hk, hspecific⟩ hv
    · contradiction

/-- `t_value_` and the value at the key are the same, but for an object whose destructor
runs: that one is still pointed to. What a thread is making is not pointed to yet. -/
structure Agrees (s : State n) : Prop where
  owned : ThreadLocal.Owned s.toState
  made : ∀ t pkey_ obj, s.t_value_ t pkey_ = some obj → s.made[obj]? = some (t, pkey_)
  same : ∀ t pkey_, s.keys.live pkey_ = true → s.deleting t ≠ some pkey_ →
    s.t_value_ t pkey_ = s.keys.specific t pkey_
  deleting : ∀ t pkey_, s.deleting t = some pkey_ → s.keys.live pkey_ = true →
    s.keys.specific t pkey_ = none ∧ ∃ obj ∈ s.deleted, s.t_value_ t pkey_ = some obj
  created : ∀ t pkey_, s.keys.created ≤ pkey_ →
    s.t_value_ t pkey_ = none ∧ s.deleting t ≠ some pkey_
  constructing : ∀ t, ∀ pkey_ ∈ s.constructing t, s.t_value_ t pkey_ = none

theorem agrees_start : Agrees (start n) where
  owned := ThreadLocal.owned_start
  made _ _ _ h := by contradiction
  same _ _ _ _ := rfl
  deleting _ _ h := by contradiction
  created _ _ _ := ⟨rfl, by simp [start]⟩
  constructing _ _ h := absurd h List.not_mem_nil

theorem Agrees.keep (hi : Agrees s) {keys : ThreadSpecific (Fin n) ℕ}
    (hkeeps : s.keys.Keeps keys) : Agrees { s with keys := keys } where
  owned := hi.owned.keep hkeeps
  made := hi.made
  same t pkey_ hk hnot := by
    by_cases hlt : pkey_ < s.keys.created
    · obtain ⟨hlive, hsame⟩ := hkeeps.old t pkey_ hlt hk
      exact (hi.same t pkey_ hlive hnot).trans hsame.symm
    · have hge := not_lt.mp hlt
      exact (hi.created t pkey_ hge).1.trans (hkeeps.new t pkey_ hge hk).symm
  deleting t pkey_ hd hk := by
    by_cases hlt : pkey_ < s.keys.created
    · obtain ⟨hlive, hsame⟩ := hkeeps.old t pkey_ hlt hk
      obtain ⟨hnone, hpointer⟩ := hi.deleting t pkey_ hd hlive
      exact ⟨hsame.trans hnone, hpointer⟩
    · exact absurd hd (hi.created t pkey_ (not_lt.mp hlt)).2
  created t pkey_ hge := hi.created t pkey_ (hkeeps.created_le.trans hge)
  constructing := hi.constructing

/-- Where nothing is pointed to, there is no value at the key. -/
theorem Agrees.specific_eq_none (hi : Agrees s) {t : Fin n} {pkey_ : ℕ}
    (hk : s.keys.live pkey_ = true) (hv : s.t_value_ t pkey_ = none) :
    s.deleting t ≠ some pkey_ ∧ s.keys.specific t pkey_ = none := by
  have hnot : s.deleting t ≠ some pkey_ := by
    intro hd
    obtain ⟨_, obj, _, hpointer⟩ := hi.deleting t pkey_ hd hk
    exact Option.some_ne_none obj (hpointer.symm.trans hv)
  exact ⟨hnot, (hi.same t pkey_ hk hnot).symm.trans hv⟩

theorem Agrees.enter (hi : Agrees s) {t : Fin n} {pkey_ : ℕ} (hk : s.keys.live pkey_ = true)
    (hv : s.t_value_ t pkey_ = none) (hnot : pkey_ ∉ s.constructing t) :
    Agrees (s.enter t pkey_) where
  owned := hi.owned.enter hk (hi.specific_eq_none hk hv).2 hnot
  made := hi.made
  same := hi.same
  deleting := hi.deleting
  created := hi.created
  constructing t' pkey' h := by
    simp only [State.enter, Function.update_apply] at h
    split_ifs at h with htt
    · subst htt
      obtain rfl | hold := List.mem_cons.mp h
      · exact hv
      · exact hi.constructing t' pkey' hold
    · exact hi.constructing t' pkey' h

theorem Agrees.make (hi : Agrees s) {t : Fin n} {pkey_ : ℕ} {rest : List ℕ}
    (ht : (s.keys.phase t).present = true) (hk : s.keys.live pkey_ = true)
    (hc : s.constructing t = pkey_ :: rest) : Agrees (s.make t pkey_ rest) where
  owned := hi.owned.make ht hk hc
  made t' pkey' obj hv' := by
    simp only [State.make, setPointer_apply] at hv'
    split_ifs at hv' with hsame
    · obtain ⟨rfl, rfl⟩ := hsame
      obtain rfl := Option.some.inj hv'
      exact List.getElem?_concat_length
    · have hmade := hi.made t' pkey' obj hv'
      have hlt := (List.getElem?_eq_some_iff.mp hmade).1
      exact (List.getElem?_append_left hlt).trans hmade
  same t' pkey' hlive hd := by
    simp only [State.make, setPointer_apply, ThreadSpecific.specific_setValue]
    split_ifs
    · rfl
    · exact hi.same t' pkey' hlive hd
  deleting t' pkey' hd hlive := by
    -- while its destructor runs, the object is still pointed to
    have hne : ¬ (t' = t ∧ pkey' = pkey_) := by
      intro hsame
      obtain ⟨rfl, rfl⟩ := hsame
      obtain ⟨_, obj, _, hpointer⟩ := hi.deleting t' pkey' hd hlive
      have hv := hi.constructing t' pkey' (by rw [hc]; exact List.mem_cons_self)
      exact Option.some_ne_none obj (hpointer.symm.trans hv)
    simp only [State.make, setPointer_apply, ThreadSpecific.specific_setValue, if_neg hne]
    exact hi.deleting t' pkey' hd hlive
  created t' pkey' hge := by
    have hlt := hi.owned.keys.lt_created hk
    have hne : ¬ (t' = t ∧ pkey' = pkey_) := by
      intro hsame
      rw [hsame.2] at hge
      exact absurd hlt (not_lt.mpr hge)
    simp only [State.make, setPointer_apply, if_neg hne]
    exact hi.created t' pkey' hge
  constructing t' pkey' h := by
    have hnodup := hi.owned.unnested t
    rw [hc, List.nodup_cons] at hnodup
    simp only [State.make, Function.update_apply] at h
    simp only [State.make, setPointer_apply]
    split_ifs at h with htt
    · subst htt
      rw [if_neg fun hsame : t' = t' ∧ pkey' = pkey_ => hnodup.1 (hsame.2 ▸ h)]
      exact hi.constructing t' pkey' (by rw [hc]; exact List.mem_cons_of_mem _ h)
    · rw [if_neg fun hsame : t' = t ∧ pkey' = pkey_ => htt hsame.1]
      exact hi.constructing t' pkey' h

theorem Agrees.delete (hi : Agrees s) {t : Fin n} {pkey_ round obj : ℕ} {order : List ℕ}
    (ht : s.keys.phase t = .exiting round (pkey_ :: order)) (hnot : s.deleting t = none)
    (hhas : ThreadLocal.Has s.toState t pkey_ obj) (hv : s.t_value_ t pkey_ = some obj) :
    Agrees { s with
      keys := (s.keys.setPhase t (.exiting round order)).setValue t pkey_ none
      deleted := s.deleted ++ [obj]
      deleting := Function.update s.deleting t (some pkey_) } where
  owned := hi.owned.delete ht hhas
  made := hi.made
  same t' pkey' hlive hd := by
    simp only [Function.update_apply] at hd
    simp only [ThreadSpecific.specific_setValue, ThreadSpecific.specific_setPhase]
    split_ifs at hd with htt
    · subst htt
      rw [if_neg fun h => hd (by rw [h.2])]
      exact hi.same t' pkey' hlive (by rw [hnot]; simp)
    · rw [if_neg fun h => htt h.1]
      exact hi.same t' pkey' hlive hd
  deleting t' pkey' hd hlive := by
    simp only [Function.update_apply] at hd
    simp only [ThreadSpecific.specific_setValue, ThreadSpecific.specific_setPhase]
    split_ifs at hd with htt
    · subst htt
      obtain rfl := Option.some.inj hd
      exact ⟨if_pos ⟨rfl, rfl⟩, obj, List.mem_append_right _ (List.mem_singleton_self obj), hv⟩
    · obtain ⟨hnone, obj', hmem, hpointer⟩ := hi.deleting t' pkey' hd hlive
      rw [if_neg fun h => htt h.1]
      exact ⟨hnone, obj', List.mem_append_left _ hmem, hpointer⟩
  created t' pkey' hge := by
    have hlt := hi.owned.keys.lt_created hhas.1
    obtain ⟨hnone, hother⟩ := hi.created t' pkey' hge
    refine ⟨hnone, ?_⟩
    simp only [Function.update_apply]
    split_ifs
    · intro heq
      rw [Option.some.inj heq] at hlt
      exact absurd hlt (not_lt.mpr hge)
    · exact hother
  constructing := hi.constructing

theorem Agrees.forget (hi : Agrees s) {t : Fin n} {pkey_ : ℕ} (hd : s.deleting t = some pkey_) :
    Agrees { s with
      t_value_ := setPointer s.t_value_ t pkey_ none
      deleting := Function.update s.deleting t none } where
  owned := hi.owned
  made t' pkey' obj hv := by
    simp only [setPointer_apply] at hv
    split_ifs at hv
    exact hi.made t' pkey' obj hv
  same t' pkey' hlive hnot := by
    simp only [Function.update_apply] at hnot
    simp only [setPointer_apply]
    split_ifs with hsame
    · obtain ⟨rfl, rfl⟩ := hsame
      exact (hi.deleting t' pkey' hd hlive).1.symm
    · refine hi.same t' pkey' hlive fun hd' => ?_
      split_ifs at hnot with htt
      · subst htt
        exact hsame ⟨rfl, Option.some.inj (hd'.symm.trans hd)⟩
      · exact hnot hd'
  deleting t' pkey' hd' hlive := by
    simp only [Function.update_apply] at hd'
    split_ifs at hd' with htt
    simp only [setPointer_apply, if_neg fun h : t' = t ∧ pkey' = pkey_ => htt h.1]
    exact hi.deleting t' pkey' hd' hlive
  created t' pkey' hge := by
    obtain ⟨hnone, hother⟩ := hi.created t' pkey' hge
    simp only [setPointer_apply, Function.update_apply]
    split_ifs with _ htt htt
    · exact ⟨rfl, by simp⟩
    · exact ⟨rfl, hother⟩
    · exact ⟨hnone, by simp⟩
    · exact ⟨hnone, hother⟩
  constructing t' pkey' h := by
    simp only [setPointer_apply]
    split_ifs
    · rfl
    · exact hi.constructing t' pkey' h

theorem Agrees.step (hi : Agrees s) (hn : Unnested s a)
    (h : ThreadLocalSingleton.step s a = some s') : Agrees s' := by
  cases step_effect hi.owned.keys h with
  | keep hkeeps => exact hi.keep hkeeps
  | reuse hv => exact hi
  | enter ht hk hv => exact hi.enter hk hv hn
  | make ht hk hc hnone => exact hi.make ht hk hc
  | delete hc ht hnot hhas hv => exact hi.delete ht hnot hhas hv
  | forget hd => exact hi.forget hd

/-- A pointer is to an object that was deleted only while its destructor runs. -/
theorem Agrees.deleted_iff (hi : Agrees s) {t : Fin n} {pkey_ obj : ℕ}
    (hk : s.keys.live pkey_ = true) (hv : s.t_value_ t pkey_ = some obj) :
    obj ∈ s.deleted ↔ s.deleting t = some pkey_ := by
  constructor
  · intro hmem
    by_contra hnot
    have hhas : ThreadLocal.Has s.toState t pkey_ obj :=
      ⟨hk, (hi.same t pkey_ hk hnot).symm.trans hv⟩
    exact (hi.owned.has t pkey_ obj hhas).2 hmem
  · intro hd
    obtain ⟨_, obj', hmem, hpointer⟩ := hi.deleting t pkey_ hd hk
    rwa [Option.some.inj (hv.symm.trans hpointer)]

/-- The object of a thread is there, or its constructor can be entered. -/
theorem Agrees.exists_instance (hi : Agrees s) (t : Fin n) {pkey_ : ℕ}
    (hk : s.keys.live pkey_ = true) :
    ∃ found s', instance_ s t pkey_ = some (found, s') ∧ found = pointer s t pkey_ ∧
      (∀ obj, found = some obj → s.made[obj]? = some (t, pkey_) ∧
        (obj ∈ s.deleted ↔ s.deleting t = some pkey_)) ∧
      (found = none → s'.constructing t = pkey_ :: s.constructing t) := by
  cases hv : s.t_value_ t pkey_ with
  | some obj =>
    refine ⟨some obj, s, by rw [instance_, hv], hv.symm, fun obj' heq => ?_,
      fun hnone => by contradiction⟩
    obtain rfl := Option.some.inj heq
    exact ⟨hi.made t pkey_ obj hv, hi.deleted_iff hk hv⟩
  | none =>
    refine ⟨none, s.enter t pkey_, ?_, hv.symm, fun obj heq => by contradiction, fun _ => ?_⟩
    · simp [instance_, hv, hk, State.enter]
    · simp [State.enter]

/-- The assertion of `Deleter::set` holds, and a thread makes only one object. -/
theorem Agrees.exists_set (hi : Agrees s) {t : Fin n} {pkey_ : ℕ} {rest : List ℕ}
    (hc : s.constructing t = pkey_ :: rest) (hk : s.keys.live pkey_ = true) :
    ∃ obj s', set s t = some (obj, s') ∧ pointer s' t pkey_ = some obj ∧ obj ∉ s'.deleted ∧
      (s.keys.phase t = .running → ∀ obj', s'.made[obj']? = some (t, pkey_) → obj' = obj) := by
  have hnone := (hi.owned.constructing t pkey_ (by rw [hc]; exact List.mem_cons_self)).2 hk
  have hset : set s t = some (s.made.length, s.make t pkey_ rest) := by
    simp [set, hc, ThreadSpecific.getspecific, ThreadSpecific.setspecific, hk, hnone, State.make]
  obtain ⟨obj, r, hr, _, hdeleted, hone⟩ := hi.owned.exists_set hc hk
  obtain ⟨pkey', rest', hc', _, rfl, rfl⟩ := ThreadLocal.set_cases hr
  obtain ⟨rfl, rfl⟩ := List.cons.inj (hc.symm.trans hc')
  exact ⟨_, _, hset, by simp [pointer, State.make], hdeleted, hone⟩

/-- The assertion of `destructor` holds. -/
theorem Agrees.exists_destructor (hi : Agrees s) {t : Fin n} {round pkey_ : ℕ} {order : List ℕ}
    (hc : s.constructing t = []) (ht : s.keys.phase t = .exiting round (pkey_ :: order))
    (hnot : s.deleting t = none) :
    ∃ s', ThreadLocalSingleton.step s (.destructor t) = some s' := by
  by_cases hk : s.keys.live pkey_ = true
  · have hsame := hi.same t pkey_ hk (by rw [hnot]; simp)
    cases hv : s.keys.specific t pkey_ with
    | none => simp [ThreadLocalSingleton.step, hc, hnot, ht, ThreadSpecific.visit, hk, hv]
    | some obj =>
      rw [hv] at hsame
      simp [ThreadLocalSingleton.step, hc, hnot, ht, ThreadSpecific.visit, hk, hv, destructor,
        hsame]
  · simp [ThreadLocalSingleton.step, hc, hnot, ht, ThreadSpecific.visit, hk]

/-- Each step is one of a `ThreadLocal`, or touches no object. -/
theorem Agrees.step_simulates (hi : Agrees s) (hn : Unnested s a)
    (h : ThreadLocalSingleton.step s a = some s') :
    s'.toState = s.toState ∨
      ∃ b, ThreadLocal.Unnested s.toState b ∧ ThreadLocal.step s.toState b = some s'.toState := by
  cases a with
  | load =>
    obtain rfl := Option.some.inj h
    exact Or.inr ⟨.construct, trivial, rfl⟩
  | unload pkey_ =>
    obtain ⟨keys, hkeys, rfl⟩ := Option.map_eq_some_iff.mp h
    exact Or.inr ⟨.destroy pkey_, trivial, by rw [ThreadLocal.step, hkeys, Option.map_some]⟩
  | exit t order =>
    rw [ThreadLocalSingleton.step, Option.ite_none_right_eq_some] at h
    obtain ⟨keys, hkeys, rfl⟩ := Option.map_eq_some_iff.mp h.2
    exact Or.inr ⟨.exit t order, trivial, by
      rw [ThreadLocal.step, if_pos h.1, hkeys, Option.map_some]⟩
  | endRound t order =>
    rw [ThreadLocalSingleton.step, Option.ite_none_right_eq_some] at h
    obtain ⟨keys, hkeys, rfl⟩ := Option.map_eq_some_iff.mp h.2
    exact Or.inr ⟨.endRound t order, trivial, by
      rw [ThreadLocal.step, if_pos h.1.1, hkeys, Option.map_some]⟩
  | instance_ t pkey_ =>
    rw [ThreadLocalSingleton.step, Option.ite_none_right_eq_some] at h
    obtain ⟨⟨found, s₁⟩, hinstance, rfl⟩ := Option.map_eq_some_iff.mp h.2
    rcases instance_cases hinstance with ⟨_, _, _, rfl⟩ | ⟨_, hv, hk, rfl⟩
    · exact Or.inl rfl
    · refine Or.inr ⟨.value t pkey_, hn, ?_⟩
      have hnone := (hi.specific_eq_none hk hv).2
      simp [ThreadLocal.step, h.1, ThreadLocal.value, ThreadSpecific.getspecific, hk, hnone,
        State.enter]
  | set t =>
    rw [ThreadLocalSingleton.step, Option.ite_none_right_eq_some] at h
    obtain ⟨⟨obj, s₁⟩, hset, rfl⟩ := Option.map_eq_some_iff.mp h.2
    obtain ⟨pkey_, rest, hc, hk, _, _, rfl⟩ := set_cases hset
    refine Or.inr ⟨.set t, trivial, ?_⟩
    simp [ThreadLocal.step, h.1, ThreadLocal.set, ThreadSpecific.setspecific, hc, hk, State.make]
  | forget t =>
    simp only [ThreadLocalSingleton.step, Option.ite_none_right_eq_some] at h
    replace h := h.2
    split at h
    · obtain rfl := Option.some.inj h
      exact Or.inl rfl
    · contradiction
  | destructor t =>
    simp only [ThreadLocalSingleton.step, Option.ite_none_right_eq_some] at h
    obtain ⟨hc, h⟩ := h
    split at h
    · obtain ⟨⟨x, keys⟩, hvisit, h⟩ := Option.bind_eq_some_iff.mp h
      refine Or.inr ⟨.destructor t, trivial, ?_⟩
      rw [ThreadLocal.step, if_pos hc, ThreadLocal.destructor, hvisit, Option.bind_eq_bind,
        Option.bind_some]
      cases x with
      | none =>
        obtain rfl := Option.some.inj h
        simp
      | some obj =>
        simp only [destructor, Option.ite_none_right_eq_some] at h
        obtain rfl := Option.some.inj h.2
        rfl
    · contradiction

/-- The objects are those of a run of `ThreadLocal` in which no constructor asks for the value
that it is making either. -/
def Simulated (s : State n) : Prop :=
  ∃ bs, Runs.Meets ThreadLocal.Unnested ThreadLocal.step (ThreadLocal.start n) bs ∧
    Runs.run ThreadLocal.step (ThreadLocal.start n) bs = some s.toState

theorem Simulated.step (hsim : Simulated s) (hi : Agrees s) (hn : Unnested s a)
    (h : ThreadLocalSingleton.step s a = some s') : Simulated s' := by
  obtain ⟨bs, hmeets, hrun⟩ := hsim
  rcases hi.step_simulates hn h with heq | ⟨b, hb, hstep⟩
  · exact ⟨bs, hmeets, by rw [heq, hrun]⟩
  · refine ⟨bs ++ [b], hmeets.concat hrun hb, ?_⟩
    rw [Runs.run_append, hrun]
    simp [hstep]

/-- As long as no constructor asks for the instance that it is making: two threads or two types
never share an object, and `instance` yields what `pointer` points to, which was deleted only
if its destructor runs now, or enters the constructor, whose object is then pointed to; as long
as the thread has not begun to exit, it is the only object ever made for it. The objects are
those of a run of `ThreadLocal`, and no assertion fails. -/
theorem instance_owned {n : ℕ} {as : List (Action n)}
    (hunnested : Runs.Meets Unnested step (start n) as) {s : State n}
    (hvisits : Runs.Visits step (start n) as s) :
    (∃ bs, Runs.Meets ThreadLocal.Unnested ThreadLocal.step (ThreadLocal.start n) bs ∧
      Runs.run ThreadLocal.step (ThreadLocal.start n) bs = some s.toState) ∧
    (∀ t t' pkey_ pkey' obj, pointer s t pkey_ = some obj → pointer s t' pkey' = some obj →
      t = t' ∧ pkey_ = pkey') ∧
    (∀ t pkey_, s.keys.live pkey_ = true →
      ∃ found s', instance_ s t pkey_ = some (found, s') ∧ found = pointer s t pkey_ ∧
        (∀ obj, found = some obj → s.made[obj]? = some (t, pkey_) ∧
          (obj ∈ s.deleted ↔ s.deleting t = some pkey_)) ∧
        (found = none → s'.constructing t = pkey_ :: s.constructing t) ∧
        (s.keys.phase t = .running →
          ∀ obj, s.made[obj]? = some (t, pkey_) → found = some obj)) ∧
    (∀ t pkey_ rest, s.constructing t = pkey_ :: rest → s.keys.live pkey_ = true →
      ∃ obj s', set s t = some (obj, s') ∧ pointer s' t pkey_ = some obj ∧ obj ∉ s'.deleted ∧
        (s.keys.phase t = .running → ∀ obj', s'.made[obj']? = some (t, pkey_) → obj' = obj)) ∧
    ∀ t round pkey_ order, s.constructing t = [] →
      s.keys.phase t = .exiting round (pkey_ :: order) → s.deleting t = none →
      ∃ s', step s (.destructor t) = some s' := by
  obtain ⟨hi, hsim⟩ : Agrees s ∧ Simulated s := by
    apply hunnested.invariant (I := fun s => Agrees s ∧ Simulated s) _ _ hvisits
    · exact fun _ _ _ hi hn hs => ⟨hi.1.step hn hs, hi.2.step hi.1 hn hs⟩
    · exact ⟨agrees_start, [], trivial, rfl⟩
  refine ⟨hsim, fun t t' pkey_ pkey' obj hv hv' => ?_, fun t pkey_ hk => ?_,
    fun t pkey_ rest hc hk => hi.exists_set hc hk,
    fun t round pkey_ order hc ht hnot => hi.exists_destructor hc ht hnot⟩
  · have hmade := (hi.made t pkey_ obj hv).symm.trans (hi.made t' pkey' obj hv')
    exact Prod.mk.inj (Option.some.inj hmade)
  · obtain ⟨found, s', hinstance, hpointer, hfound, hnone⟩ := hi.exists_instance t hk
    refine ⟨found, s', hinstance, hpointer, hfound, hnone, fun hrunning obj hmade => ?_⟩
    have hhas := hi.owned.has_of_running hrunning hk hmade
    have hnot : s.deleting t ≠ some pkey_ := by
      intro hd
      exact Option.some_ne_none obj (hhas.2.symm.trans (hi.deleting t pkey_ hd hk).1)
    exact hpointer.trans ((hi.same t pkey_ hk hnot).trans hhas.2)

/-- A constructor that asks for its own instance: the assertion in `set` fails. -/
example : (Runs.run step (start 1)
    [.load, .instance_ 0 0, .instance_ 0 0, .set 0, .set 0]).isNone = true := by decide

/-- While its destructor runs, an object asks for itself and for the object of another type,
whose key was visited before: that object is made while the thread exits. -/
theorem instance_owned_dying : ∃ (as : List (Action 1)) (s : State 1),
    Runs.run step (start 1) as = some s ∧ s.deleted = [0] ∧ s.deleting 0 = some 0 ∧
    pointer s 0 0 = some 0 ∧ s.constructing 0 = [1] ∧
    ∃ obj s', set s 0 = some (obj, s') ∧ pointer s' 0 1 = some obj ∧ obj ∉ s'.deleted := by
  let as : List (Action 1) := [.load, .load, .instance_ 0 0, .set 0, .exit 0 [1, 0],
    .destructor 0, .destructor 0, .instance_ 0 0, .instance_ 0 1]
  obtain ⟨s, hrun, hs⟩ := Runs.exists_of_any step (start 1) as
    (fun s => s.deleted = [0] ∧ s.deleting 0 = some 0 ∧ pointer s 0 0 = some 0 ∧
      s.constructing 0 = [1] ∧ s.keys.live 1 = true) (by decide)
  obtain ⟨hdeleted, hd, hpointer, hc, hlive⟩ := of_decide_eq_true hs
  have hunnested : Runs.Meets Unnested step (start 1) as := by decide
  obtain ⟨_, _, _, hset, _⟩ := instance_owned hunnested ⟨as, List.prefix_rfl, hrun⟩
  obtain ⟨obj, s', hs', hv, hnot, _⟩ := hset 0 1 [] hc hlive
  exact ⟨as, s, hrun, hdeleted, hd, hpointer, hc, obj, s', hs', hv, hnot⟩

end NaiveNet.ThreadLocalSingleton
