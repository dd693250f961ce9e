import Mathlib.Algebra.Group.Defs
import Mathlib.Data.List.Infix
import Mathlib.Data.Option.Basic
import Mathlib.Logic.Function.Basic

/-!
# Runs of a partial step function

A system is a partial step function `σ → α → Option σ`. The action resolves
every choice the system has, so a run is determined by its first state and the
list of its actions, and a concrete run can be evaluated. `Meets` restricts a
run step by step: the condition sees the state before the step and the action.
`trace` lists what a run shows to somebody who sees its steps.
-/
namespace NaiveNet.Runs

variable {σ α β γ : Type*}

/-- Performs the actions in order; `none` as soon as one of them is not enabled. -/
def run (step : σ → α → Option σ) : σ → List α → Option σ
  | s, [] => some s
  | s, a :: as => (step s a).bind fun s' => run step s' as

@[simp] theorem run_nil (step : σ → α → Option σ) (s : σ) : run step s [] = some s := rfl

@[simp] theorem run_cons (step : σ → α → Option σ) (s : σ) (a : α) (as : List α) :
    run step s (a :: as) = (step s a).bind fun s' => run step s' as := rfl

theorem run_append (step : σ → α → Option σ) (s : σ) (as bs : List α) :
    run step s (as ++ bs) = (run step s as).bind fun s' => run step s' bs := by
  induction as generalizing s with
  | nil => rfl
  | cons a as ih =>
    simp only [List.cons_append, run_cons]
    cases step s a with
    | none => rfl
    | some s' => exact ih s'

/-- `s'` is the state after some run from `s`. -/
def Reaches (step : σ → α → Option σ) (s s' : σ) : Prop :=
  ∃ as, run step s as = some s'

theorem Reaches.trans {step : σ → α → Option σ} {s₁ s₂ s₃ : σ}
    (h₁ : Reaches step s₁ s₂) (h₂ : Reaches step s₂ s₃) : Reaches step s₁ s₃ := by
  obtain ⟨as, h₁⟩ := h₁
  obtain ⟨bs, h₂⟩ := h₂
  exact ⟨as ++ bs, by simp [run_append, h₁, h₂]⟩

theorem Reaches.tail {step : σ → α → Option σ} {s₁ s₂ s₃ : σ} {a : α}
    (h : Reaches step s₁ s₂) (hs : step s₂ a = some s₃) : Reaches step s₁ s₃ :=
  h.trans ⟨[a], by rw [run_cons, hs, Option.bind_some, run_nil]⟩

/-- The induction rule of runs: what every step keeps, every run keeps. -/
theorem Reaches.invariant {step : σ → α → Option σ} {I : σ → Prop}
    (hstep : ∀ s a s', I s → step s a = some s' → I s')
    {s s' : σ} (h : Reaches step s s') (hs : I s) : I s' := by
  obtain ⟨as, h⟩ := h
  induction as generalizing s with
  | nil =>
    obtain rfl : s = s' := by simpa using h
    exact hs
  | cons a as ih =>
    obtain ⟨t, ht, h⟩ := Option.bind_eq_some_iff.mp h
    exact ih (hstep s a t hs ht) h

/-- Where every step is enabled and keeps an invariant, every run can be performed. -/
theorem exists_run {step : σ → α → Option σ} {I : σ → Prop}
    (hstep : ∀ s a, I s → ∃ s', step s a = some s' ∧ I s') (s : σ) (hs : I s) (as : List α) :
    ∃ s', run step s as = some s' ∧ I s' := by
  induction as generalizing s with
  | nil => exact ⟨s, rfl, hs⟩
  | cons a as ih =>
    obtain ⟨t, ht, hI⟩ := hstep s a hs
    obtain ⟨s', hrun, hs'⟩ := ih t hI
    exact ⟨s', by rw [run_cons, ht, Option.bind_some, hrun], hs'⟩

/-- Where a step of a system is a step of its part, a run of the system is a run of the part. -/
theorem run_map {τ : Type*} {step : σ → α → Option σ} {step' : τ → β → Option τ} {part : σ → τ}
    {f : α → β} (hstep : ∀ s a s', step s a = some s' → step' (part s) (f a) = some (part s'))
    {s s' : σ} {as : List α} (h : run step s as = some s') :
    run step' (part s) (as.map f) = some (part s') := by
  induction as generalizing s with
  | nil =>
    obtain rfl : s = s' := by simpa using h
    rfl
  | cons a as ih =>
    obtain ⟨t, ht, h⟩ := Option.bind_eq_some_iff.mp h
    rw [List.map_cons, run_cons, hstep s a t ht, Option.bind_some, ih h]

/-- What is seen of a run, step by step. -/
def trace (step : σ → α → Option σ) (see : σ → α → σ → List β) : σ → List α → List β
  | _, [] => []
  | s, a :: as =>
    match step s a with
    | some s' => see s a s' ++ trace step see s' as
    | none => []

theorem trace_cons {step : σ → α → Option σ} {see : σ → α → σ → List β} {s t : σ} {a : α}
    (ht : step s a = some t) (as : List α) :
    trace step see s (a :: as) = see s a t ++ trace step see t as := by
  rw [trace, ht]

/-- What is picked out of a trace is the trace of what is picked out of each step. -/
theorem apply_trace {step : σ → α → Option σ} {see : σ → α → σ → List β}
    {f : List β → List γ} (hnil : f [] = []) (happend : ∀ xs ys, f (xs ++ ys) = f xs ++ f ys)
    (s : σ) (as : List α) :
    f (trace step see s as) = trace step (fun s a s' => f (see s a s')) s as := by
  induction as generalizing s with
  | nil => exact hnil
  | cons a as ih =>
    unfold trace
    cases step s a with
    | none => exact hnil
    | some t => rw [happend, ih]

/-- Where every step passes on what it is given behind what is held, so does a run. -/
theorem append_flatMap_eq_trace {step : σ → α → Option σ} {given : α → List β}
    {see : σ → α → σ → List β} (held : σ → List β)
    (hstep : ∀ s a s', step s a = some s' → held s ++ given a = see s a s' ++ held s')
    {s s' : σ} {as : List α} (h : run step s as = some s') :
    held s ++ as.flatMap given = trace step see s as ++ held s' := by
  induction as generalizing s with
  | nil =>
    obtain rfl : s = s' := by simpa using h
    exact List.append_nil _
  | cons a as ih =>
    obtain ⟨t, ht, h⟩ := Option.bind_eq_some_iff.mp h
    rw [List.flatMap_cons, ← List.append_assoc, hstep s a t ht, trace_cons ht, List.append_assoc,
      List.append_assoc, ih h]

/-- Of several parties only the one that moves is given something, or shows something. -/
theorem append_held_update {ι : Type*} [DecidableEq ι] {held : σ → List β} {f : ι → σ} {i : ι}
    {x : σ} {given seen : List β} (h : held (f i) ++ given = seen ++ held x) (j : ι) :
    held (f j) ++ (if i = j then given else []) =
      (if i = j then seen else []) ++ held (Function.update f i x j) := by
  by_cases hij : i = j
  · subst hij
    simpa using h
  · simp [hij, Function.update_of_ne (Ne.symm hij)]

theorem held_update {ι : Type*} [DecidableEq ι] {held : σ → List β} {f : ι → σ} {i : ι} {x : σ}
    (h : held (f i) = held x) (j : ι) : held (f j) = held (Function.update f i x j) := by
  have hmove : held (f i) ++ [] = [] ++ held x := by simpa using h
  simpa using append_held_update hmove j

/-- A log that every step extends by what is seen of it holds what is seen of a run; the
steps may need an invariant for that. -/
theorem eq_append_trace_of_invariant {step : σ → α → Option σ} {see : σ → α → σ → List β}
    {I : σ → Prop} {log : σ → List β} (hkeep : ∀ s a s', I s → step s a = some s' → I s')
    (hstep : ∀ s a s', I s → step s a = some s' → log s' = log s ++ see s a s')
    {s s' : σ} {as : List α} (hs : I s) (h : run step s as = some s') :
    log s' = log s ++ trace step see s as := by
  induction as generalizing s with
  | nil =>
    obtain rfl : s = s' := by simpa using h
    exact (List.append_nil _).symm
  | cons a as ih =>
    obtain ⟨t, ht, h⟩ := Option.bind_eq_some_iff.mp h
    rw [ih (hkeep s a t hs ht) h, hstep s a t hs ht, trace_cons ht, List.append_assoc]

theorem eq_append_trace {step : σ → α → Option σ} {see : σ → α → σ → List β} {log : σ → List β}
    (hstep : ∀ s a s', step s a = some s' → log s' = log s ++ see s a s')
    {s s' : σ} {as : List α} (h : run step s as = some s') :
    log s' = log s ++ trace step see s as :=
  eq_append_trace_of_invariant (I := fun _ => True) (fun _ _ _ _ _ => trivial)
    (fun s a s' _ => hstep s a s') trivial h

/-- A quantity that every step raises by the size of what is seen of it is raised by a run by
the size of what is seen of the run. -/
theorem eq_add_trace {M : Type*} [AddMonoid M] {step : σ → α → Option σ}
    {see : σ → α → σ → List β} (size : List β → M) (total : σ → M) (hnil : size [] = 0)
    (happend : ∀ xs ys, size (xs ++ ys) = size xs + size ys)
    (hstep : ∀ s a s', step s a = some s' → total s' = total s + size (see s a s'))
    {s s' : σ} {as : List α} (h : run step s as = some s') :
    total s' = total s + size (trace step see s as) := by
  induction as generalizing s with
  | nil =>
    obtain rfl : s = s' := by simpa using h
    rw [trace, hnil, add_zero]
  | cons a as ih =>
    obtain ⟨t, ht, h⟩ := Option.bind_eq_some_iff.mp h
    rw [ih h, hstep s a t ht, trace_cons ht, happend, add_assoc]

/-- Where the action alone tells what is seen, so do the actions of a run. -/
theorem trace_eq_flatMap {step : σ → α → Option σ} (see : α → List β) {s s' : σ} {as : List α}
    (h : run step s as = some s') : trace step (fun _ a _ => see a) s as = as.flatMap see := by
  induction as generalizing s with
  | nil => rfl
  | cons a as ih =>
    obtain ⟨t, ht, h⟩ := Option.bind_eq_some_iff.mp h
    rw [trace_cons ht, ih h, List.flatMap_cons]

/-- Every step of the run from `s` starts in a state that meets the condition. -/
def Meets (C : σ → α → Prop) (step : σ → α → Option σ) : σ → List α → Prop
  | _, [] => True
  | s, a :: as => C s a ∧ ∀ s', step s a = some s' → Meets C step s' as

instance decidableMeets {C : σ → α → Prop} [∀ s a, Decidable (C s a)] (step : σ → α → Option σ) :
    ∀ (s : σ) (as : List α), Decidable (Meets C step s as)
  | _, [] => isTrue trivial
  | s, a :: as =>
    have : ∀ s', Decidable (Meets C step s' as) := fun s' => decidableMeets step s' as
    inferInstanceAs (Decidable (C s a ∧ ∀ s' ∈ step s a, Meets C step s' as))

/-- A state reached while the actions are performed, the first and last included. -/
def Visits (step : σ → α → Option σ) (s : σ) (as : List α) (s' : σ) : Prop :=
  ∃ bs, bs <+: as ∧ run step s bs = some s'

/-- The induction rule of restricted runs: an invariant that every step meeting
the condition keeps holds in every state such a run visits. -/
theorem Meets.invariant {C : σ → α → Prop} {step : σ → α → Option σ} {I : σ → Prop}
    (hstep : ∀ s a s', I s → C s a → step s a = some s' → I s')
    {s : σ} {as : List α} (hm : Meets C step s as) (hs : I s) {s' : σ}
    (h : Visits step s as s') : I s' := by
  obtain ⟨bs, hpre, h⟩ := h
  induction bs generalizing s as with
  | nil =>
    obtain rfl : s = s' := by simpa using h
    exact hs
  | cons b bs ih =>
    obtain ⟨cs, rfl⟩ := hpre
    obtain ⟨t, ht, h⟩ := Option.bind_eq_some_iff.mp h
    obtain ⟨hC, hm⟩ := hm
    exact ih (hm t ht) (hstep s b t hs hC ht) ⟨cs, rfl⟩ h

/-- A run that meets the condition goes on with a step that does. -/
theorem Meets.concat {C : σ → α → Prop} {step : σ → α → Option σ} {s t : σ} {as : List α} {a : α}
    (hm : Meets C step s as) (h : run step s as = some t) (hC : C t a) :
    Meets C step s (as ++ [a]) := by
  induction as generalizing s with
  | nil =>
    obtain rfl : s = t := by simpa using h
    exact ⟨hC, fun _ _ => trivial⟩
  | cons b as ih =>
    obtain ⟨r, hr, h⟩ := Option.bind_eq_some_iff.mp h
    obtain ⟨hb, hm⟩ := hm
    refine ⟨hb, fun s' hs' => ?_⟩
    obtain rfl : r = s' := Option.some.inj (hr.symm.trans hs')
    exact ih (hm r hr) h

theorem Visits.reaches {step : σ → α → Option σ} {s s' : σ} {as : List α}
    (h : Visits step s as s') : Reaches step s s' := by
  obtain ⟨bs, _, h⟩ := h
  exact ⟨bs, h⟩

theorem visits_self {step : σ → α → Option σ} {s : σ} {as : List α} : Visits step s as s :=
  ⟨[], List.nil_prefix, rfl⟩

theorem Visits.cons {step : σ → α → Option σ} {s t s' : σ} {a : α} {as : List α}
    (ht : step s a = some t) (h : Visits step t as s') : Visits step s (a :: as) s' := by
  obtain ⟨bs, hpre, h⟩ := h
  exact ⟨a :: bs, List.cons_prefix_cons.mpr ⟨rfl, hpre⟩, by rw [run_cons, ht, Option.bind_some, h]⟩

/-- Where a step keeps an invariant exactly when it meets the condition, a run keeps it
throughout exactly when all of its steps do. -/
theorem forall_visits_iff_meets {C : σ → α → Prop} {step : σ → α → Option σ} {I : σ → Prop}
    (hstep : ∀ s a, I s → ∃ s', step s a = some s' ∧ (I s' ↔ C s a)) {s : σ} (hs : I s)
    (as : List α) : (∀ s', Visits step s as s' → I s') ↔ Meets C step s as := by
  constructor
  · intro h
    induction as generalizing s with
    | nil => trivial
    | cons a as ih =>
      obtain ⟨t, ht, hiff⟩ := hstep s a hs
      have hI : I t := h t (visits_self.cons ht)
      refine ⟨hiff.mp hI, fun s' hs' => ?_⟩
      obtain rfl : t = s' := Option.some.inj (ht.symm.trans hs')
      exact ih hI fun r hr => h r (hr.cons ht)
  · refine fun hm s' => hm.invariant (fun r a r' hr hC hs' => ?_) hs
    obtain ⟨t, ht, hiff⟩ := hstep r a hr
    obtain rfl : t = r' := Option.some.inj (ht.symm.trans hs')
    exact hiff.mpr hC

/-- Where a step keeps `I` exactly when it meets the condition, and no step restores it, a
performed run keeps it exactly when all of its steps meet the condition. -/
theorem run_iff_meets {C : σ → α → Prop} {step : σ → α → Option σ} {J I : σ → Prop}
    (hJ : ∀ s a s', J s → step s a = some s' → J s')
    (hI : ∀ s a s', J s → step s a = some s' → (I s' ↔ I s ∧ C s a)) {s s' : σ} {as : List α}
    (hs : J s) (h : run step s as = some s') : I s' ↔ I s ∧ Meets C step s as := by
  induction as generalizing s with
  | nil =>
    obtain rfl : s = s' := by simpa using h
    exact (and_iff_left trivial).symm
  | cons a as ih =>
    obtain ⟨t, ht, h⟩ := Option.bind_eq_some_iff.mp h
    have hmeets : Meets C step s (a :: as) ↔ C s a ∧ Meets C step t as := by
      refine and_congr_right fun _ => ⟨fun hrest => hrest t ht, fun hrest s' hs' => ?_⟩
      obtain rfl : t = s' := Option.some.inj (ht.symm.trans hs')
      exact hrest
    rw [ih (hJ s a t hs ht) h, hI s a t hs ht, hmeets, and_assoc]

/-- Turns an evaluated run into the state it ends in. -/
theorem exists_of_any (step : σ → α → Option σ) (s : σ) (as : List α) (p : σ → Bool)
    (h : (run step s as).any p = true) : ∃ s', run step s as = some s' ∧ p s' = true := by
  cases hr : run step s as with
  | none => simp [hr] at h
  | some s' => exact ⟨s', rfl, by simpa [hr] using h⟩

end NaiveNet.Runs
