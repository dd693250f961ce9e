import Mathlib.Data.List.Nodup
import NaiveNet.Runs
import NaiveNet.ThreadSpecific

/-!
# Thread-local objects

The `ThreadLocal`s of a process, each with a key of its own, and the objects that `value`
makes for the threads. Several threads construct, use and destroy them in any order and
exit when they like. `new T()` runs between the look at the key and `pthread_setspecific`:
it may ask for other values, and the destructor of an object may ask for any. A constructor
that asks for the very value it is making would have it made twice and one object lost
(`Unnested` excludes it). What is not defined, `value` without the key above all, has no
result.
-/
namespace NaiveNet.ThreadLocal

/-- An object is its number in the order in which the constructors were done. What was made
for which thread and key, and what was deleted, is history. -/
structure State (n : ℕ) where
  keys : ThreadSpecific (Fin n) ℕ
  /-- The keys whose `new T()` a thread is in, the innermost first. -/
  constructing : Fin n → List ℕ
  made : List (Fin n × ℕ)
  deleted : List ℕ

variable {n : ℕ}

def start (n : ℕ) : State n := ⟨.new, fun _ => [], [], []⟩

/-- A key stands for its `ThreadLocal`, a thread that exits chooses the order of the keys. -/
inductive Action (n : ℕ)
  | construct
  | destroy (pkey_ : ℕ)
  | value (t : Fin n) (pkey_ : ℕ)
  /-- `new T()` is done. -/
  | set (t : Fin n)
  | exit (t : Fin n) (order : List ℕ)
  | destructor (t : Fin n)
  | endRound (t : Fin n) (order : List ℕ)

/-- `T& value()`, which yields the value of the thread or enters `new T()`. -/
def value (s : State n) (t : Fin n) (pkey_ : ℕ) : Option (Option ℕ × State n) := do
  let perThreadValue ← s.keys.getspecific t pkey_
  match perThreadValue with
  | some obj => return (some obj, s)
  | none =>
    return (none, { s with
      constructing := Function.update s.constructing t (pkey_ :: s.constructing t) })

/-- The rest of `value`, once `new T()` is done. -/
def set (s : State n) (t : Fin n) : Option (ℕ × State n) :=
  match s.constructing t with
  | [] => none
  | pkey_ :: rest => do
    let newObj := s.made.length
    let keys ← s.keys.setspecific t pkey_ newObj
    return (newObj, { s with
      keys := keys
      constructing := Function.update s.constructing t rest
      made := s.made ++ [(t, pkey_)] })

/-- `static void destructor(void* x)`, for the next key of a thread that exits. -/
def destructor (s : State n) (t : Fin n) : Option (State n) := do
  let (x, keys) ← s.keys.visit t
  return { s with keys := keys, deleted := s.deleted ++ x.toList }

/-- A thread exits, and its destructors go on, when it is in no constructor. -/
def step (s : State n) : Action n → Option (State n)
  | .construct => some { s with keys := s.keys.keyCreate }
  | .destroy pkey_ => (s.keys.keyDelete pkey_).map fun keys => { s with keys := keys }
  | .value t pkey_ =>
    if (s.keys.phase t).present then (value s t pkey_).map Prod.snd else none
  | .set t => if (s.keys.phase t).present then (set s t).map Prod.snd else none
  | .exit t order =>
    if s.constructing t = [] then
      (s.keys.exit t order).map fun keys => { s with keys := keys }
    else none
  | .destructor t => if s.constructing t = [] then destructor s t else none
  | .endRound t order =>
    if s.constructing t = [] then
      (s.keys.endRound t order).map fun keys => { s with keys := keys }
    else none

/-- No constructor asks for the value that it is making. -/
def Unnested (s : State n) : Action n → Prop
  | .value t pkey_ => pkey_ ∉ s.constructing t
  | _ => True

instance (s : State n) : (a : Action n) → Decidable (Unnested s a)
  | .value t pkey_ => inferInstanceAs (Decidable (pkey_ ∉ s.constructing t))
  | .construct | .destroy _ | .set _ | .exit _ _ | .destructor _ | .endRound _ _ => isTrue trivial

variable {s s' : State n} {a : Action n}

/-- The object at a key that is there. -/
def Has (s : State n) (t : Fin n) (pkey_ obj : ℕ) : Prop :=
  s.keys.live pkey_ = true ∧ s.keys.specific t pkey_ = some obj

/-- `new T()` is entered. -/
def State.enter (s : State n) (t : Fin n) (pkey_ : ℕ) : State n :=
  { s with constructing := Function.update s.constructing t (pkey_ :: s.constructing t) }

/-- The object is made and set. -/
def State.make (s : State n) (t : Fin n) (pkey_ : ℕ) (rest : List ℕ) : State n :=
  { s with
    keys := s.keys.setValue t pkey_ (some s.made.length)
    constructing := Function.update s.constructing t rest
    made := s.made ++ [(t, pkey_)] }

/-- All that a step can do to the objects. -/
inductive Effect (s : State n) : Action n → State n → Prop
  | keep {a keys} (hkeeps : s.keys.Keeps keys)
      (hphase : ∀ t, s.constructing t ≠ [] → keys.phase t = s.keys.phase t) :
      Effect s a { s with keys := keys }
  | reuse {t pkey_ obj} (hhas : Has s t pkey_ obj) : Effect s (.value t pkey_) s
  | enter {t pkey_} (ht : (s.keys.phase t).present = true) (hk : s.keys.live pkey_ = true)
      (hnone : s.keys.specific t pkey_ = none) : Effect s (.value t pkey_) (s.enter t pkey_)
  | make {t pkey_ rest} (ht : (s.keys.phase t).present = true) (hk : s.keys.live pkey_ = true)
      (hc : s.constructing t = pkey_ :: rest) : Effect s (.set t) (s.make t pkey_ rest)
  | delete {t pkey_ round order obj} (hc : s.constructing t = [])
      (ht : s.keys.phase t = .exiting round (pkey_ :: order)) (hhas : Has s t pkey_ obj) :
      Effect s (.destructor t)
        { s with
          keys := (s.keys.setPhase t (.exiting round order)).setValue t pkey_ none
          deleted := s.deleted ++ [obj] }

theorem value_cases {t : Fin n} {pkey_ : ℕ} {found : Option ℕ}
    (h : value s t pkey_ = some (found, s')) :
    (∃ obj, found = some obj ∧ Has s t pkey_ obj ∧ s' = s) ∨
      found = none ∧ s.keys.live pkey_ = true ∧ s.keys.specific t pkey_ = none ∧
        s' = s.enter t pkey_ := by
  unfold value ThreadSpecific.getspecific at h
  by_cases hk : s.keys.live pkey_ = true
  · simp only [if_pos hk, Option.bind_eq_bind, Option.bind_some] at h
    cases hv : s.keys.specific t pkey_ with
    | some obj =>
      rw [hv] at h
      obtain ⟨rfl, rfl⟩ := Prod.mk.inj (Option.some.inj h)
      exact Or.inl ⟨obj, rfl, ⟨hk, hv⟩, rfl⟩
    | none =>
      rw [hv] at h
      obtain ⟨rfl, rfl⟩ := Prod.mk.inj (Option.some.inj h)
      exact Or.inr ⟨rfl, hk, rfl, rfl⟩
  · simp [hk] at h

theorem set_cases {t : Fin n} {obj : ℕ} (h : set s t = some (obj, s')) :
    ∃ pkey_ rest, s.constructing t = pkey_ :: rest ∧ s.keys.live pkey_ = true ∧
      obj = s.made.length ∧ s' = s.make t pkey_ rest := by
  unfold set ThreadSpecific.setspecific at h
  cases hc : s.constructing t with
  | nil => simp [hc] at h
  | cons pkey_ rest =>
    by_cases hk : s.keys.live pkey_ = true
    · simp only [hc, if_pos hk, Option.bind_eq_bind, Option.bind_some] at h
      obtain ⟨rfl, rfl⟩ := Prod.mk.inj (Option.some.inj h)
      exact ⟨pkey_, rest, rfl, hk, rfl, rfl⟩
    · simp [hc, hk] at h

theorem step_effect (hi : s.keys.Sound) (h : step s a = some s') : Effect s a s' := by
  -- a thread in a constructor is not the one whose phase changes
  have hother {t t' : Fin n} (hc : s.constructing t = []) (hc' : s.constructing t' ≠ []) :
      t' ≠ t := by
    rintro rfl
    exact hc' hc
  cases a with
  | construct =>
    obtain rfl := Option.some.inj h
    exact .keep (ThreadSpecific.keyCreate_keeps hi) fun _ _ => rfl
  | destroy pkey_ =>
    obtain ⟨keys, hkeys, rfl⟩ := Option.map_eq_some_iff.mp h
    exact .keep (ThreadSpecific.keyDelete_keeps hi hkeys) fun t _ =>
      congrFun (ThreadSpecific.keyDelete_phase hkeys) t
  | exit t order =>
    rw [step, Option.ite_none_right_eq_some] at h
    obtain ⟨keys, hkeys, rfl⟩ := Option.map_eq_some_iff.mp h.2
    exact .keep (ThreadSpecific.exit_keeps hi hkeys) fun _ hc =>
      ThreadSpecific.exit_phase hkeys (hother h.1 hc)
  | endRound t order =>
    rw [step, Option.ite_none_right_eq_some] at h
    obtain ⟨keys, hkeys, rfl⟩ := Option.map_eq_some_iff.mp h.2
    exact .keep (ThreadSpecific.endRound_keeps hi hkeys) fun _ hc =>
      ThreadSpecific.endRound_phase hkeys (hother h.1 hc)
  | value t pkey_ =>
    rw [step, Option.ite_none_right_eq_some] at h
    obtain ⟨⟨found, s₁⟩, hvalue, rfl⟩ := Option.map_eq_some_iff.mp h.2
    rcases value_cases hvalue with ⟨obj, _, hhas, rfl⟩ | ⟨_, hk, hnone, rfl⟩
    · exact .reuse hhas
    · exact .enter h.1 hk hnone
  | set t =>
    rw [step, Option.ite_none_right_eq_some] at h
    obtain ⟨⟨obj, s₁⟩, hset, rfl⟩ := Option.map_eq_some_iff.mp h.2
    obtain ⟨pkey_, rest, hc, hk, _, rfl⟩ := set_cases hset
    exact .make h.1 hk hc
  | destructor t =>
    rw [step, Option.ite_none_right_eq_some] at h
    obtain ⟨hc, h⟩ := h
    obtain ⟨⟨x, keys⟩, hvisit, hs'⟩ := Option.bind_eq_some_iff.mp h
    obtain rfl := Option.some.inj hs'
    have hphase : ∀ t', s.constructing t' ≠ [] → keys.phase t' = s.keys.phase t' :=
      fun _ hc' => ThreadSpecific.visit_phase hvisit (hother hc hc')
    rcases ThreadSpecific.visit_cases hi hvisit with ⟨rfl, hkeeps⟩ |
      ⟨round, pkey_, order, obj, rfl, ht, hk, hv, rfl⟩
    · have hnil : s.deleted ++ (none : Option ℕ).toList = s.deleted := List.append_nil _
      rw [hnil]
      exact .keep hkeeps hphase
    · exact .delete hc ht ⟨hk, hv⟩

/-- Every object is where it was made for, or deleted, or its key is gone; and only the
thread's own exit deletes it. What a thread is making it does not have yet. -/
structure Owned (s : State n) : Prop where
  keys : s.keys.Sound
  has : ∀ t pkey_ obj, Has s t pkey_ obj → s.made[obj]? = some (t, pkey_) ∧ obj ∉ s.deleted
  made : ∀ t pkey_ obj, s.made[obj]? = some (t, pkey_) → pkey_ < s.keys.created ∧
    (s.keys.live pkey_ = true → Has s t pkey_ obj ∨ obj ∈ s.deleted)
  deleted : ∀ obj ∈ s.deleted, ∃ t pkey_, s.made[obj]? = some (t, pkey_) ∧
    s.keys.phase t ≠ .running
  nodup : s.deleted.Nodup
  constructing : ∀ t, ∀ pkey_ ∈ s.constructing t, pkey_ < s.keys.created ∧
    (s.keys.live pkey_ = true → s.keys.specific t pkey_ = none)
  unnested : ∀ t, (s.constructing t).Nodup

theorem owned_start : Owned (start n) where
  keys := ThreadSpecific.sound_new
  has t pkey_ obj h := absurd h.1 Bool.false_ne_true
  made t pkey_ obj h := by simp [start] at h
  deleted obj h := absurd h List.not_mem_nil
  nodup := List.nodup_nil
  constructing t pkey_ h := absurd h List.not_mem_nil
  unnested t := List.nodup_nil

theorem Owned.keep (hi : Owned s) {keys : ThreadSpecific (Fin n) ℕ}
    (hkeeps : s.keys.Keeps keys) : Owned { s with keys := keys } where
  keys := hi.keys.change hkeeps.change
  has t pkey_ obj h := by
    have hold : pkey_ < s.keys.created := by
      by_contra hge
      have hnone := hkeeps.new t pkey_ (not_lt.mp hge) h.1
      exact Option.some_ne_none obj (h.2.symm.trans hnone)
    obtain ⟨hlive, hsame⟩ := hkeeps.old t pkey_ hold h.1
    exact hi.has t pkey_ obj ⟨hlive, hsame ▸ h.2⟩
  made t pkey_ obj h := by
    obtain ⟨hlt, hplace⟩ := hi.made t pkey_ obj h
    refine ⟨hlt.trans_le hkeeps.created_le, fun hlive => ?_⟩
    obtain ⟨hlive', hsame⟩ := hkeeps.old t pkey_ hlt hlive
    exact (hplace hlive').imp_left fun hhas => ⟨hlive, hsame.trans hhas.2⟩
  deleted obj h := by
    obtain ⟨t, pkey_, hmade, hphase⟩ := hi.deleted obj h
    exact ⟨t, pkey_, hmade, fun hrunning => hphase (hkeeps.running t hrunning)⟩
  nodup := hi.nodup
  constructing t pkey_ h := by
    obtain ⟨hlt, hnone⟩ := hi.constructing t pkey_ h
    refine ⟨hlt.trans_le hkeeps.created_le, fun hlive => ?_⟩
    obtain ⟨hlive', hsame⟩ := hkeeps.old t pkey_ hlt hlive
    exact hsame.trans (hnone hlive')
  unnested := hi.unnested

/-- An object is made for one thread and one key. -/
theorem Owned.unique (hi : Owned s) {t t' : Fin n} {pkey_ pkey' obj : ℕ}
    (h : Has s t pkey_ obj) (h' : Has s t' pkey' obj) : t = t' ∧ pkey_ = pkey' := by
  have hmade := (hi.has t pkey_ obj h).1
  rw [(hi.has t' pkey' obj h').1] at hmade
  obtain ⟨ht, hkey⟩ := Prod.mk.inj (Option.some.inj hmade)
  exact ⟨ht.symm, hkey.symm⟩

theorem has_setValue {keys : ThreadSpecific (Fin n) ℕ} {constructing : Fin n → List ℕ}
    {made : List (Fin n × ℕ)} {deleted : List ℕ} {t t' : Fin n} {pkey_ pkey' obj : ℕ}
    {value : Option ℕ} :
    Has ⟨keys.setValue t pkey_ value, constructing, made, deleted⟩ t' pkey' obj ↔
      keys.live pkey' = true ∧
        (if t' = t ∧ pkey' = pkey_ then value else keys.specific t' pkey') = some obj := by
  rw [Has, ThreadSpecific.live_setValue, ThreadSpecific.specific_setValue]

theorem Owned.enter (hi : Owned s) {t : Fin n} {pkey_ : ℕ} (hk : s.keys.live pkey_ = true)
    (hnone : s.keys.specific t pkey_ = none) (hnot : pkey_ ∉ s.constructing t) :
    Owned (s.enter t pkey_) :=
  { hi with
    constructing := fun t' pkey' h => by
      simp only [State.enter, Function.update_apply] at h
      split_ifs at h with ht
      · subst ht
        obtain rfl | hold := List.mem_cons.mp h
        · exact ⟨hi.keys.lt_created hk, fun _ => hnone⟩
        · exact hi.constructing t' pkey' hold
      · exact hi.constructing t' pkey' h
    unnested := fun t' => by
      simp only [State.enter, Function.update_apply]
      split_ifs with ht
      · subst ht
        exact List.nodup_cons.mpr ⟨hnot, hi.unnested t'⟩
      · exact hi.unnested t' }

theorem Owned.make (hi : Owned s) {t : Fin n} {pkey_ : ℕ} {rest : List ℕ}
    (ht : (s.keys.phase t).present = true) (hk : s.keys.live pkey_ = true)
    (hc : s.constructing t = pkey_ :: rest) : Owned (s.make t pkey_ rest) where
  keys := hi.keys.change (.set ht hk)
  has t' pkey' obj h := by
    obtain ⟨hlive, hv⟩ := has_setValue.mp h
    split_ifs at hv with hsame
    · obtain ⟨rfl, rfl⟩ := hsame
      obtain rfl := Option.some.inj hv
      refine ⟨List.getElem?_concat_length, fun hdeleted => ?_⟩
      obtain ⟨_, _, hmade, _⟩ := hi.deleted _ hdeleted
      exact absurd (List.getElem?_eq_some_iff.mp hmade).1 (Nat.lt_irrefl _)
    · obtain ⟨hmade, hdeleted⟩ := hi.has t' pkey' obj ⟨hlive, hv⟩
      have hlt := (List.getElem?_eq_some_iff.mp hmade).1
      exact ⟨(List.getElem?_append_left hlt).trans hmade, hdeleted⟩
  made t' pkey' obj h := by
    by_cases hlt : obj < s.made.length
    · have h : s.made[obj]? = some (t', pkey') := (List.getElem?_append_left hlt).symm.trans h
      obtain ⟨hcreated, hplace⟩ := hi.made t' pkey' obj h
      refine ⟨hcreated, fun hlive => (hplace hlive).imp_left fun hhas => ?_⟩
      refine has_setValue.mpr ⟨hlive, ?_⟩
      rw [if_neg]
      · exact hhas.2
      · intro hsame
        obtain ⟨rfl, rfl⟩ := hsame
        have hnone := (hi.constructing t' pkey' (by rw [hc]; exact List.mem_cons_self)).2 hk
        exact Option.some_ne_none obj (hhas.2.symm.trans hnone)
    · have hlast := (List.getElem?_eq_some_iff.mp h).1
      simp only [State.make, List.length_append, List.length_singleton] at hlast
      obtain rfl : obj = s.made.length := by omega
      obtain ⟨rfl, rfl⟩ := Prod.mk.inj (Option.some.inj (List.getElem?_concat_length.symm.trans h))
      exact ⟨hi.keys.lt_created hk, fun _ => Or.inl (has_setValue.mpr ⟨hk, if_pos ⟨rfl, rfl⟩⟩)⟩
  deleted obj h := by
    obtain ⟨t', pkey', hmade, hphase⟩ := hi.deleted obj h
    have hlt := (List.getElem?_eq_some_iff.mp hmade).1
    exact ⟨t', pkey', (List.getElem?_append_left hlt).trans hmade, hphase⟩
  nodup := hi.nodup
  constructing t' pkey' h := by
    have hnodup := hi.unnested t
    rw [hc, List.nodup_cons] at hnodup
    simp only [State.make, Function.update_apply] at h
    simp only [State.make, ThreadSpecific.specific_setValue]
    split_ifs at h with htt
    · subst htt
      obtain ⟨hlt, hnone⟩ := hi.constructing t' pkey' (by rw [hc]; exact List.mem_cons_of_mem _ h)
      refine ⟨hlt, fun hlive => ?_⟩
      rw [if_neg fun hsame : t' = t' ∧ pkey' = pkey_ => hnodup.1 (hsame.2 ▸ h)]
      exact hnone hlive
    · rw [if_neg fun hsame : t' = t ∧ pkey' = pkey_ => htt hsame.1]
      exact hi.constructing t' pkey' h
  unnested t' := by
    have hnodup := hi.unnested t
    rw [hc, List.nodup_cons] at hnodup
    simp only [State.make, Function.update_apply]
    split_ifs
    · exact hnodup.2
    · exact hi.unnested t'

theorem Owned.delete (hi : Owned s) {t : Fin n} {pkey_ round obj : ℕ} {order : List ℕ}
    (ht : s.keys.phase t = .exiting round (pkey_ :: order)) (hhas : Has s t pkey_ obj) :
    Owned { s with
      keys := (s.keys.setPhase t (.exiting round order)).setValue t pkey_ none
      deleted := s.deleted ++ [obj] } where
  keys := hi.keys.change (.take ht hhas.1 hhas.2)
  has t' pkey' obj' h := by
    obtain ⟨hlive, hv⟩ := has_setValue.mp h
    split_ifs at hv with hsame
    have hhas' : Has s t' pkey' obj' := ⟨hlive, hv⟩
    obtain ⟨hmade, hdeleted⟩ := hi.has t' pkey' obj' hhas'
    refine ⟨hmade, fun hmem => ?_⟩
    rcases List.mem_append.mp hmem with hold | hnew
    · exact hdeleted hold
    · obtain rfl := List.mem_singleton.mp hnew
      exact hsame (hi.unique hhas' hhas)
  made t' pkey' obj' h := by
    obtain ⟨hcreated, hplace⟩ := hi.made t' pkey' obj' h
    refine ⟨hcreated, fun hlive => ?_⟩
    rcases hplace hlive with hhas' | hold
    · by_cases hsame : t' = t ∧ pkey' = pkey_
      · obtain ⟨rfl, rfl⟩ := hsame
        obtain rfl := Option.some.inj (hhas'.2.symm.trans hhas.2)
        exact Or.inr (List.mem_append_right _ (List.mem_singleton_self _))
      · exact Or.inl (has_setValue.mpr ⟨hlive, (if_neg hsame).trans hhas'.2⟩)
    · exact Or.inr (List.mem_append_left _ hold)
  deleted obj' h := by
    have hphase {t' : Fin n} (hne : s.keys.phase t' ≠ .running) :
        (s.keys.setPhase t (.exiting round order)).phase t' ≠ .running := by
      rw [ThreadSpecific.phase_setPhase]
      split_ifs
      · simp
      · exact hne
    rcases List.mem_append.mp h with hold | hnew
    · obtain ⟨t', pkey', hmade, hne⟩ := hi.deleted obj' hold
      exact ⟨t', pkey', hmade, hphase hne⟩
    · obtain rfl := List.mem_singleton.mp hnew
      exact ⟨t, pkey_, (hi.has t pkey_ obj' hhas).1, hphase (by simp [ht])⟩
  nodup := by
    rw [List.nodup_append]
    refine ⟨hi.nodup, List.nodup_singleton obj, ?_⟩
    intro obj' hmem x hx heq
    obtain rfl := List.mem_singleton.mp hx
    exact (hi.has t pkey_ x hhas).2 (heq ▸ hmem)
  constructing t' pkey' h := by
    obtain ⟨hlt, hnone⟩ := hi.constructing t' pkey' h
    refine ⟨hlt, fun hlive => ?_⟩
    simp only [ThreadSpecific.specific_setValue, ThreadSpecific.specific_setPhase]
    split_ifs
    · rfl
    · exact hnone hlive
  unnested := hi.unnested

theorem Owned.step (hi : Owned s) (hn : Unnested s a) (h : ThreadLocal.step s a = some s') :
    Owned s' := by
  cases step_effect hi.keys h with
  | keep hkeeps => exact hi.keep hkeeps
  | reuse hhas => exact hi
  | enter ht hk hnone => exact hi.enter hk hnone hn
  | make ht hk hc => exact hi.make ht hk hc
  | delete hc ht hhas => exact hi.delete ht hhas

theorem owned_of_unnested {as : List (Action n)} (h : Runs.Meets Unnested step (start n) as)
    (hvisits : Runs.Visits step (start n) as s) : Owned s :=
  h.invariant (fun _ _ _ hi hn hs => hi.step hn hs) owned_start hvisits

theorem Owned.has_of_running (hi : Owned s) {t : Fin n} {pkey_ obj : ℕ}
    (hrunning : s.keys.phase t = .running) (hk : s.keys.live pkey_ = true)
    (hmade : s.made[obj]? = some (t, pkey_)) : Has s t pkey_ obj := by
  refine ((hi.made t pkey_ obj hmade).2 hk).resolve_right fun hmem => ?_
  obtain ⟨t', pkey', hmade', hphase⟩ := hi.deleted obj hmem
  obtain ⟨rfl, _⟩ := Prod.mk.inj (Option.some.inj (hmade'.symm.trans hmade))
  exact hphase hrunning

/-- The value of a thread is there, or its constructor can be entered. -/
theorem Owned.exists_value (hi : Owned s) (t : Fin n) {pkey_ : ℕ}
    (hk : s.keys.live pkey_ = true) :
    ∃ found s', value s t pkey_ = some (found, s') ∧
      (∀ obj, found = some obj → Has s t pkey_ obj ∧ obj ∉ s.deleted) ∧
      (found = none → s'.constructing t = pkey_ :: s.constructing t) := by
  cases hv : s.keys.specific t pkey_ with
  | some obj =>
    refine ⟨some obj, s, ?_, fun obj' heq => ?_, fun hnone => by contradiction⟩
    · simp [value, ThreadSpecific.getspecific, hk, hv]
    · obtain rfl := Option.some.inj heq
      exact ⟨⟨hk, hv⟩, (hi.has t pkey_ obj ⟨hk, hv⟩).2⟩
  | none =>
    refine ⟨none, s.enter t pkey_, ?_, fun obj heq => by contradiction, fun _ => ?_⟩
    · simp [value, ThreadSpecific.getspecific, hk, hv, State.enter]
    · simp [State.enter]

/-- What a thread has made it gets, and it makes only one. -/
theorem Owned.exists_set (hi : Owned s) {t : Fin n} {pkey_ : ℕ} {rest : List ℕ}
    (hc : s.constructing t = pkey_ :: rest) (hk : s.keys.live pkey_ = true) :
    ∃ obj s', set s t = some (obj, s') ∧ Has s' t pkey_ obj ∧ obj ∉ s'.deleted ∧
      (s.keys.phase t = .running → ∀ obj', s'.made[obj']? = some (t, pkey_) → obj' = obj) := by
  refine ⟨s.made.length, s.make t pkey_ rest, ?_, ?_, fun hdeleted => ?_, fun hrunning obj' h => ?_⟩
  · simp [set, hc, ThreadSpecific.setspecific, hk, State.make]
  · exact has_setValue.mpr ⟨hk, if_pos ⟨rfl, rfl⟩⟩
  · obtain ⟨_, _, hmade, _⟩ := hi.deleted _ hdeleted
    exact absurd (List.getElem?_eq_some_iff.mp hmade).1 (Nat.lt_irrefl _)
  · have hlast := (List.getElem?_eq_some_iff.mp h).1
    by_contra hne
    have hlt : obj' < s.made.length := by
      simp only [State.make, List.length_append, List.length_singleton] at hlast
      omega
    have hhas := hi.has_of_running hrunning hk ((List.getElem?_append_left hlt).symm.trans h)
    have hnone := (hi.constructing t pkey_ (by rw [hc]; exact List.mem_cons_self)).2 hk
    exact Option.some_ne_none obj' (hhas.2.symm.trans hnone)

/-- As long as no constructor asks for the value that it is making: two threads or two
`ThreadLocal`s never share an object. `value` yields the object of its thread, or enters the
constructor of one, which becomes the thread's when it is done; it is the same as long as the
thread has not begun to exit and the key is there. No object is deleted twice, none but by the
exit of its own thread, and a thread that is gone after less than four rounds has left none at
a key that is there. -/
theorem objects_owned {n : ℕ} {as : List (Action n)}
    (hunnested : Runs.Meets Unnested step (start n) as) {s : State n}
    (hvisits : Runs.Visits step (start n) as s) :
    (∀ t t' pkey_ pkey' obj, Has s t pkey_ obj → Has s t' pkey' obj → t = t' ∧ pkey_ = pkey') ∧
    (∀ t pkey_, s.keys.live pkey_ = true → ∃ found s', value s t pkey_ = some (found, s') ∧
      (∀ obj, found = some obj → Has s t pkey_ obj ∧ obj ∉ s.deleted) ∧
      (found = none → s'.constructing t = pkey_ :: s.constructing t) ∧
      (s.keys.phase t = .running → ∀ obj, s.made[obj]? = some (t, pkey_) → found = some obj)) ∧
    (∀ t pkey_ rest, s.constructing t = pkey_ :: rest → s.keys.live pkey_ = true →
      ∃ obj s', set s t = some (obj, s') ∧ Has s' t pkey_ obj ∧ obj ∉ s'.deleted ∧
        (s.keys.phase t = .running → ∀ obj', s'.made[obj']? = some (t, pkey_) → obj' = obj)) ∧
    s.deleted.Nodup ∧
    (∀ obj ∈ s.deleted, ∃ t pkey_, s.made[obj]? = some (t, pkey_) ∧
      s.keys.phase t ≠ .running) ∧
    ∀ t rounds, s.keys.phase t = .gone rounds → rounds < destructorIterations →
      ∀ pkey_ obj, s.made[obj]? = some (t, pkey_) → s.keys.live pkey_ = true →
        obj ∈ s.deleted := by
  have hi := owned_of_unnested hunnested hvisits
  refine ⟨fun t t' pkey_ pkey' obj => hi.unique, fun t pkey_ hk => ?_,
    fun t pkey_ rest hc hk => hi.exists_set hc hk, hi.nodup, hi.deleted,
    fun t rounds hgone hlt pkey_ obj hmade hk => ?_⟩
  · obtain ⟨found, s', hvalue, hfound, hnone⟩ := hi.exists_value t hk
    refine ⟨found, s', hvalue, hfound, hnone, fun hrunning obj hmade => ?_⟩
    have hhas := hi.has_of_running hrunning hk hmade
    rcases value_cases hvalue with ⟨obj', rfl, hsame, _⟩ | ⟨_, _, hempty, _⟩
    · rw [Option.some.inj (hhas.2.symm.trans hsame.2)]
    · exact absurd (hhas.2.symm.trans hempty) (Option.some_ne_none obj)
  · have hunset := hi.keys.gone t rounds hgone hlt pkey_ (hi.keys.lt_created hk)
    refine ((hi.made t pkey_ obj hmade).2 hk).resolve_left fun hhas => hunset ⟨hk, ?_⟩
    rw [hhas.2]
    rfl

/-- A constructor that asks for its own value: there are two objects, and the first is lost. -/
example : (Runs.run step (start 1) [.construct, .value 0 0, .value 0 0, .set 0, .set 0]).any
    (fun s => s.made = [(0, 0), (0, 0)] ∧ s.keys.specific 0 0 = some 1) = true := by decide

/-- Two `ThreadLocal`s: one thread is gone, and the other asks for the second value in the
constructor of the first. -/
theorem objects_owned_two : ∃ (as : List (Action 2)) (s : State 2),
    Runs.run step (start 2) as = some s ∧ s.made = [(1, 0), (0, 1)] ∧ s.deleted = [0] ∧
    s.constructing 0 = [0] ∧ s.keys.phase 1 = .gone 1 ∧ 0 ∈ s.deleted ∧
    ∃ obj s', set s 0 = some (obj, s') ∧ Has s' 0 0 obj ∧ obj ∉ s'.deleted := by
  let as : List (Action 2) := [.construct, .construct, .value 1 0, .set 1, .exit 1 [1, 0],
    .destructor 1, .destructor 1, .endRound 1 [], .value 0 0, .value 0 1, .set 0]
  obtain ⟨s, hrun, hs⟩ := Runs.exists_of_any step (start 2) as
    (fun s => s.made = [(1, 0), (0, 1)] ∧ s.deleted = [0] ∧ s.keys.live 0 = true ∧
      s.constructing 0 = [0] ∧ s.keys.phase 1 = .gone 1) (by decide)
  obtain ⟨hmade, hdeleted, hlive, hc, hgone⟩ := of_decide_eq_true hs
  have hunnested : Runs.Meets Unnested step (start 2) as := by decide
  obtain ⟨_, _, hset, _, _, hleft⟩ := objects_owned hunnested ⟨as, List.prefix_rfl, hrun⟩
  obtain ⟨obj, s', hs', hhas, hnot, _⟩ := hset 0 0 [] hc hlive
  exact ⟨as, s, hrun, hmade, hdeleted, hc, hgone,
    hleft 1 1 hgone (by decide) 0 0 (by rw [hmade]; rfl) hlive, obj, s', hs', hhas, hnot⟩

/-- The thread asks for no value once it has begun to exit. -/
def QuietExit (t : Fin n) (s : State n) : Action n → Prop
  | .value t' _ => t' = t → s.keys.phase t = .running
  | _ => True

instance (t : Fin n) (s : State n) : (a : Action n) → Decidable (QuietExit t s a)
  | .value t' _ => inferInstanceAs (Decidable (t' = t → s.keys.phase t = .running))
  | .construct | .destroy _ | .set _ | .exit _ _ | .destructor _ | .endRound _ _ => isTrue trivial

/-- A thread that exits makes nothing, and has values only at keys still to be visited. -/
structure Quiet (t : Fin n) (s : State n) : Prop where
  owned : Owned s
  settled : s.keys.Settled t
  running : s.constructing t ≠ [] → s.keys.phase t = .running

theorem quiet_start (t : Fin n) : Quiet t (start n) :=
  ⟨owned_start, trivial, fun h => absurd rfl h⟩

theorem Quiet.settled_step {t : Fin n} (hi : Quiet t s) (h : step s a = some s') :
    s'.keys.Settled t := by
  have hkeys := hi.owned.keys
  cases step_effect hkeys h with
  | keep hkeeps => exact hi.settled.change hkeys hkeeps.change fun _ => hkeeps.holds
  | reuse | enter => exact hi.settled
  | @make t' pkey_ rest ht hk hc =>
    by_cases htt : t = t'
    · subst htt
      have hrunning := hi.running (by rw [hc]; exact List.cons_ne_nil _ _)
      simp only [ThreadSpecific.Settled, State.make, ThreadSpecific.phase_setValue, hrunning]
    · refine hi.settled.change hkeys (.set ht hk) fun key hholds => ?_
      simpa [State.make, ThreadSpecific.Holds, htt] using hholds
  | @delete t' pkey_ round order obj hc ht hhas =>
    refine hi.settled.change hkeys (.take ht hhas.1 hhas.2) fun key hholds => ?_
    have hchange : s.keys.Change (some (t', pkey_, obj)) _ := .take ht hhas.1 hhas.2
    refine (hchange.holds hholds).resolve_right fun hset => ?_
    obtain ⟨_, value, heq⟩ := hset
    have hphase := congrArg (fun keys => ThreadSpecific.phase keys t') heq
    simp [ht] at hphase

theorem Quiet.running_step {t : Fin n} (hi : Quiet t s) (hquiet : QuietExit t s a)
    (h : step s a = some s') (hc' : s'.constructing t ≠ []) : s'.keys.phase t = .running := by
  cases step_effect hi.owned.keys h with
  | keep _ hphase => exact (hphase t hc').trans (hi.running hc')
  | reuse => exact hi.running hc'
  | @enter t' pkey_ ht hk hnone =>
    by_cases htt : t' = t
    · exact hquiet htt
    · simp only [State.enter, Function.update_of_ne (Ne.symm htt)] at hc'
      exact hi.running hc'
  | @make t' pkey_ rest ht hk hc =>
    by_cases htt : t' = t
    · subst htt
      exact hi.running (by rw [hc]; exact List.cons_ne_nil _ _)
    · simp only [State.make, Function.update_of_ne (Ne.symm htt)] at hc'
      exact hi.running hc'
  | @delete t' pkey_ round order obj hc ht hhas =>
    have htt : t ≠ t' := by
      rintro rfl
      exact hc' hc
    simp only [ThreadSpecific.phase_setValue, ThreadSpecific.phase_setPhase, if_neg htt]
    exact hi.running hc'

/-- As long as no constructor asks for the value that it is making, a thread whose destructors
ask for no value leaves no object behind, however many rounds it takes and whatever the other
threads do; only the objects of a `ThreadLocal` that was destroyed before are lost. -/
theorem quiet_exit_leaves_nothing {n : ℕ} {t : Fin n} {as : List (Action n)}
    (hquiet : Runs.Meets (fun s a => Unnested s a ∧ QuietExit t s a) step (start n) as)
    {s : State n} (hvisits : Runs.Visits step (start n) as s) {rounds : ℕ}
    (hgone : s.keys.phase t = .gone rounds) {pkey_ obj : ℕ}
    (hmade : s.made[obj]? = some (t, pkey_)) (hk : s.keys.live pkey_ = true) :
    obj ∈ s.deleted := by
  have hi : Quiet t s := hquiet.invariant
    (fun _ _ _ hi hq hs => ⟨hi.owned.step hq.1 hs, hi.settled_step hs, hi.running_step hq.2 hs⟩)
    (quiet_start t) hvisits
  have hsettled := hi.settled
  unfold ThreadSpecific.Settled at hsettled
  rw [hgone] at hsettled
  refine ((hi.owned.made t pkey_ obj hmade).2 hk).resolve_left fun hhas => hsettled pkey_ ⟨hk, ?_⟩
  rw [hhas.2]
  rfl

/-- The other thread goes on to use its object. -/
theorem quiet_exit_leaves_nothing_two : ∃ (as : List (Action 2)) (s : State 2),
    Runs.run step (start 2) as = some s ∧ s.keys.phase 1 = .gone 1 ∧
    s.made = [(1, 0), (0, 0)] ∧ 0 ∈ s.deleted := by
  let as : List (Action 2) := [.construct, .value 1 0, .set 1, .exit 1 [0], .value 0 0, .set 0,
    .destructor 1, .endRound 1 []]
  obtain ⟨s, hrun, hs⟩ := Runs.exists_of_any step (start 2) as
    (fun s => s.keys.phase 1 = .gone 1 ∧ s.made = [(1, 0), (0, 0)] ∧ s.keys.live 0 = true)
    (by decide)
  obtain ⟨hgone, hmade, hlive⟩ := of_decide_eq_true hs
  have hquiet : Runs.Meets (fun s a => Unnested s a ∧ QuietExit 1 s a) step (start 2) as := by
    decide
  exact ⟨as, s, hrun, hgone, hmade, quiet_exit_leaves_nothing hquiet ⟨as, List.prefix_rfl, hrun⟩
    hgone (by rw [hmade]; rfl) hlive⟩

end NaiveNet.ThreadLocal
