import NaiveNet.Singleton
import NaiveNet.Potential
import NaiveNet.Tally
import Mathlib.Algebra.BigOperators.Ring.List

/-!
# The calls of `instance` return

A call takes four steps at most. Where the constructors use one another along a rank, some
thread can make the next step of its call as long as a call has not returned: nobody waits in
`pthread_once` for itself, or in a ring.
-/
namespace NaiveNet.Singleton

variable {n : ℕ} {no_destroy : ℕ → Bool} {s s' : State n} {a : Action n}

/-- A step of a call that was made. -/
def Action.inner : Action n → Bool
  | .once _ | .construct _ | .register _ | .finish _ => true
  | _ => false

def Action.isCall : Action n → Bool
  | .call _ _ => true
  | _ => false

/-! ### The steps that are left -/

/-- The steps that are left of a call. -/
def left (ponce_ : ℕ → Once n) : Call → ℕ
  | .once _ => 4
  | .init type =>
    match ponce_ type with
    | .running _ .constructing => 3
    | .running _ .made => 2
    | .running _ .registered => 1
    | _ => 0

def leftOf (ponce_ : ℕ → Once n) (calls : List Call) : ℕ := (calls.map (left ponce_)).sum

@[simp] theorem leftOf_cons (ponce_ : ℕ → Once n) (c : Call) (rest : List Call) :
    leftOf ponce_ (c :: rest) = left ponce_ c + leftOf ponce_ rest := by
  rw [leftOf, List.map_cons, List.sum_cons]
  rfl

theorem leftOf_update {ponce_ : ℕ → Once n} {type : ℕ} {once : Once n} {calls : List Call}
    (h : .init type ∉ calls) :
    leftOf (Function.update ponce_ type once) calls = leftOf ponce_ calls := by
  induction calls with
  | nil => rfl
  | cons c rest ih =>
    rw [List.mem_cons, not_or] at h
    rw [leftOf_cons, leftOf_cons, ih h.2]
    cases c with
    | once type' => rfl
    | init type' =>
      have hne : type' ≠ type := by
        intro htype
        exact h.1 (by rw [htype])
      simp only [left, Function.update_of_ne hne]

/-- The steps that are left of all the calls. -/
def potential (s : State n) : ℕ := Tally.tally id fun t => leftOf s.ponce_ (s.calls t)

/-- One thread goes on with its calls. -/
theorem potential_move (s s' : State n) (t : Fin n)
    (h : ∀ t', t' ≠ t → leftOf s'.ponce_ (s'.calls t') = leftOf s.ponce_ (s.calls t')) :
    potential s' + leftOf s.ponce_ (s.calls t) = potential s + leftOf s'.ponce_ (s'.calls t) := by
  have heq : (fun t' => leftOf s'.ponce_ (s'.calls t')) =
      Function.update (fun t' => leftOf s.ponce_ (s.calls t')) t
        (leftOf s'.ponce_ (s'.calls t)) := by
    ext t'
    rw [Function.update_apply]
    split_ifs with ht
    · rw [ht]
    · exact h t' ht
  rw [potential, heq]
  exact Tally.tally_update id (fun t' => leftOf s.ponce_ (s.calls t')) t _

/-- What a thread changes in `ponce_` concerns the calls of no other thread. -/
theorem Stacked.leftOf_other (hi : Stacked s) {t t' : Fin n} {type : ℕ} {once : Once n}
    (hp : s.ponce_ type = .fresh ∨ ∃ init, s.ponce_ type = .running t init) (ht : t' ≠ t) :
    leftOf (Function.update s.ponce_ type once) (s.calls t') = leftOf s.ponce_ (s.calls t') := by
  apply leftOf_update
  intro hmem
  obtain ⟨init', hrunning⟩ := (hi.active t' type).mp hmem
  rcases hp with hp | ⟨init, hp⟩
  · rw [hp] at hrunning
    contradiction
  · rw [hp] at hrunning
    exact ht (Once.running.inj hrunning).1.symm

/-- The innermost call of a thread comes a step further. -/
theorem Stacked.spend (hi : Stacked s) {t : Fin n} {type : ℕ} {once : Once n} {c : Call}
    {rest calls : List Call}
    (hp : s.ponce_ type = .fresh ∨ ∃ init, s.ponce_ type = .running t init)
    (hcalls : s.calls t = c :: rest) (hrest : .init type ∉ rest)
    (hponce : s'.ponce_ = Function.update s.ponce_ type once)
    (hcalls' : s'.calls = Function.update s.calls t calls)
    (hleft : leftOf s'.ponce_ calls + 1 = left s.ponce_ c + leftOf s'.ponce_ rest) :
    1 + potential s' ≤ potential s := by
  have hmove := potential_move s s' t fun t' ht => by
    rw [hponce, hcalls', Function.update_of_ne ht]
    exact hi.leftOf_other hp ht
  rw [hcalls', Function.update_self, hcalls, leftOf_cons] at hmove
  have hsame : leftOf s'.ponce_ rest = leftOf s.ponce_ rest := by
    rw [hponce]
    exact leftOf_update hrest
  omega

/-- A call is as many steps as `left` says; a new one brings in four. -/
theorem Stacked.pay (hi : Stacked s) (he : Effect no_destroy s a s') :
    Runs.unit Action.inner a + potential s' ≤ potential s + 4 * Runs.unit Action.isCall a := by
  have hnodup {t : Fin n} {c : Call} {rest : List Call} (hcalls : s.calls t = c :: rest) :
      c ∉ rest := by
    have hall := hi.nodup t
    rw [hcalls] at hall
    exact (List.nodup_cons.mp hall).1
  cases he with
  | @call t type _ =>
    have hmove := potential_move s (setCalls s t (.once type :: s.calls t)) t
      fun t' ht => by simp only [setCalls, Function.update_of_ne ht]
    simp only [setCalls, Function.update_self, leftOf_cons, left] at hmove ⊢
    have hcost : Runs.unit Action.isCall (.call t type) = 1 := rfl
    have hwork : Runs.unit Action.inner (.call t type) = 0 := rfl
    omega
  | @begin t type rest hcalls hp =>
    have hrest : .init type ∉ rest := by
      intro hmem
      obtain ⟨init, hrunning⟩ := (hi.active t type).mp (by
        rw [hcalls]
        exact List.mem_cons_of_mem _ hmem)
      rw [hp] at hrunning
      contradiction
    exact hi.spend (Or.inl hp) hcalls hrest rfl rfl (by simp [left, setCalls, setOnce]; omega)
  | @pass t type rest obj hcalls hp hobj =>
    have hmove := potential_move s (yieldObject s t type obj rest) t
      fun t' ht => by simp only [yieldObject, setCalls, Function.update_of_ne ht]
    simp only [yieldObject, setCalls, Function.update_self, hcalls, leftOf_cons, left] at hmove ⊢
    have hwork : Runs.unit Action.inner (.once t) = 1 := rfl
    omega
  | construct hcalls hp | register hcalls hp =>
    exact hi.spend (Or.inr ⟨_, hp⟩) hcalls (hnodup hcalls) rfl (Function.update_eq_self ..).symm
      (by simp [hcalls, left, hp, setOnce]; omega)
  | finish hcalls hp _ =>
    exact hi.spend (Or.inr ⟨_, hp⟩) hcalls (hnodup hcalls) rfl rfl (by simp [left, hp]; omega)
  | exit | destroy _ _ _ => simp [Runs.unit, Action.inner, Action.isCall, potential]

theorem paid_potential (no_destroy : ℕ → Bool) : Runs.Paid (step no_destroy) (Inv (n := n))
    (Runs.unit Action.inner) (fun a => 4 * Runs.unit Action.isCall a) potential where
  keep _ _ _ hi hs := hi.step hs
  pay _ _ _ hi hs := hi.stacked.pay (step_effect hs)

theorem potential_start : potential (start n) = 0 := by
  have hnone (t : Fin n) : leftOf (start n).ponce_ ((start n).calls t) = 0 := rfl
  simp [potential, Tally.tally, hnone]

/-! ### Constructors that use one another -/

/-- Constructors use objects of the types that `uses` gives for theirs. -/
def Follows (uses : ℕ → ℕ → Prop) (s : State n) : Action n → Prop
  | .call t type => ∀ user, caller (s.calls t) = some user → uses type user
  | _ => True

/-- What a thread waits for within a constructor, the constructor uses. -/
def Nested (uses : ℕ → ℕ → Prop) (s : State n) : Prop :=
  ∀ t, (s.calls t).Pairwise fun c c' => Relation.TransGen uses c.type c'.type

section Uses

variable {uses : ℕ → ℕ → Prop}

theorem Nested.tail (hi : Nested uses s) {t : Fin n} {c : Call} {rest : List Call}
    (hcalls : s.calls t = c :: rest) :
    rest.Pairwise fun c c' => Relation.TransGen uses c.type c'.type := by
  have hall := hi t
  rw [hcalls] at hall
  exact (List.pairwise_cons.mp hall).2

theorem Nested.setCalls (hi : Nested uses s) {t : Fin n} {calls : List Call}
    (h : calls.Pairwise fun c c' => Relation.TransGen uses c.type c'.type) :
    Nested uses (setCalls s t calls) := by
  intro t'
  simp only [Singleton.setCalls, Function.update_apply]
  split_ifs
  · exact h
  · exact hi t'

theorem Nested.effect (hi : Nested uses s) (hf : Follows uses s a)
    (he : Effect no_destroy s a s') : Nested uses s' := by
  cases he with
  | @call t type hcalls =>
    refine hi.setCalls (List.pairwise_cons.mpr ⟨fun c hc => ?_, hi t⟩)
    obtain ⟨c', rest, hc'⟩ := List.exists_cons_of_ne_nil (List.ne_nil_of_mem hc)
    obtain ⟨user, rfl, _⟩ := hcalls c' rest hc'
    have huses : uses type user := hf user (by rw [hc']; rfl)
    rw [hc'] at hc
    rcases List.mem_cons.mp hc with rfl | hrest
    · exact .single huses
    · have hall := hi t
      rw [hc'] at hall
      exact .head huses ((List.pairwise_cons.mp hall).1 c hrest)
  | @begin t type rest hcalls _ =>
    have hall := hi t
    rw [hcalls] at hall
    exact hi.setCalls (List.pairwise_cons.mpr (List.pairwise_cons.mp hall))
  | pass hcalls _ _ | finish hcalls _ _ => exact hi.setCalls (hi.tail hcalls)
  | construct _ _ | register _ _ | exit | destroy _ _ _ => exact hi

/-- A thread that runs `init` can go on with it. -/
theorem exists_initStep (hi : Inv s) {t : Fin n} {type : ℕ} {rest : List Call}
    (hcalls : s.calls t = .init type :: rest) :
    ∃ a s', a.inner = true ∧ step no_destroy s a = some s' := by
  obtain ⟨init, hp⟩ := (hi.stacked.active t type).mp (by
    rw [hcalls]
    exact List.mem_cons_self)
  cases init with
  | constructing => exact ⟨.construct t, _, rfl, by simp only [step, hcalls, if_pos hp]; rfl⟩
  | made => exact ⟨.register t, _, rfl, by simp only [step, hcalls, if_pos hp]; rfl⟩
  | registered =>
    have hset := hi.valued.set type
    rw [hp] at hset
    obtain ⟨obj, hobj⟩ := Option.isSome_iff_exists.mp hset
    exact ⟨.finish t, yieldObject (setOnce s type .done) t type obj rest, rfl, by
      simp [step, hcalls, hp, leave, setOnce, hobj]⟩

/-- Who waits for a type waits for a thread that makes it, and that thread for less. -/
theorem exists_innerStep (hi : Inv s) (hnested : Nested uses s) (hwf : WellFounded uses)
    {t : Fin n} {c : Call} {rest : List Call} (hcalls : s.calls t = c :: rest) :
    ∃ a s', a.inner = true ∧ step no_destroy s a = some s' := by
  induction hc : c.type using hwf.transGen.induction generalizing t c rest with
  | _ type ih =>
    cases c with
    | init type' => exact exists_initStep hi hcalls
    | once type' =>
      obtain rfl : type' = type := hc
      cases hp : s.ponce_ type' with
      | fresh =>
        exact ⟨.once t, _, rfl, by simp only [step, hcalls, hp]; rfl⟩
      | done =>
        have hset := hi.valued.set type'
        rw [hp] at hset
        obtain ⟨obj, hobj⟩ := Option.isSome_iff_exists.mp hset
        exact ⟨.once t, yieldObject s t type' obj rest, rfl, by
          simp [step, hcalls, hp, leave, hobj]⟩
      | running t' init =>
        have hmem : .init type' ∈ s.calls t' := (hi.stacked.active t' type').mpr ⟨init, hp⟩
        obtain ⟨c', rest', hcalls'⟩ := List.exists_cons_of_ne_nil (List.ne_nil_of_mem hmem)
        have hall := hnested t'
        rw [hcalls'] at hall hmem
        rcases List.mem_cons.mp hmem with heq | htail
        · exact exists_initStep hi (hcalls'.trans (by rw [heq]))
        · exact ih c'.type ((List.pairwise_cons.mp hall).1 _ htail) hcalls' rfl

end Uses

/-- A run makes four steps at most for each call of `instance`. Where the constructors use
one another in no ring, some call can go on as long as one has not returned. -/
theorem instance_progress (uses : ℕ → ℕ → Prop) (hwf : WellFounded uses)
    {as : List (Action n)} (hmeets : Runs.Meets (Follows uses) (step no_destroy) (start n) as)
    (hrun : Runs.run (step no_destroy) (start n) as = some s) :
    as.countP Action.inner ≤ 4 * as.countP Action.isCall ∧
      ∀ t, s.calls t ≠ [] → ∃ a s', a.inner = true ∧ step no_destroy s a = some s' := by
  constructor
  · have hsum := (paid_potential no_destroy).sum_le inv_start hrun
    rw [List.sum_map_mul_left, Runs.sum_map_unit, Runs.sum_map_unit, potential_start] at hsum
    simpa using Nat.le_of_add_right_le hsum
  · intro t ht
    obtain ⟨hi, hnested⟩ : Inv s ∧ Nested uses s := by
      apply hmeets.invariant (I := fun s => Inv s ∧ Nested uses s) _ ⟨inv_start, _⟩
        ⟨as, List.prefix_refl as, hrun⟩
      · intro s a s' ⟨hi, hnested⟩ hf hs
        exact ⟨hi.step hs, hnested.effect hf (step_effect hs)⟩
      · exact fun _ => List.Pairwise.nil
    obtain ⟨c, rest, hcalls⟩ := List.exists_cons_of_ne_nil ht
    exact exists_innerStep hi hnested hwf hcalls

/-- The constructor of type 1 uses type 0, while another thread calls for type 1. -/
theorem instance_progress_nested : ∃ as, ∃ s : State 2,
    Runs.run (step fun _ => false) (start 2) as = some s ∧
    Runs.Meets (Follows (· < ·)) (step fun _ => false) (start 2) as ∧
    s.calls 0 = [.once 0, .init 1] ∧ s.calls 1 = [.once 1] ∧
    ∃ a s', a.inner = true ∧ step (fun _ => false) s a = some s' := by
  let as : List (Action 2) := [.call 0 1, .once 0, .call 0 0, .call 1 1]
  obtain ⟨s, hrun, hs⟩ := Runs.exists_of_any (step fun _ => false) (start 2) as
    (fun s => s.calls 0 = [.once 0, .init 1] ∧ s.calls 1 = [.once 1]) (by decide)
  obtain ⟨hmaker, hother⟩ := of_decide_eq_true hs
  have hmeets : Runs.Meets (Follows (· < ·)) (step fun _ => false) (start 2) as := by
    refine ⟨fun _ h => by contradiction, fun s₁ hs₁ => ⟨trivial, fun s₂ hs₂ => ⟨fun user h => ?_,
      fun s₃ hs₃ => ⟨fun user h => ?_, fun _ _ => trivial⟩⟩⟩⟩ <;>
      obtain rfl := Option.some.inj hs₁ <;> obtain rfl := Option.some.inj hs₂
    · obtain rfl := Option.some.inj h
      exact Nat.zero_lt_one
    · obtain rfl := Option.some.inj hs₃
      contradiction
  obtain ⟨_, hgo⟩ := instance_progress (· < ·) wellFounded_lt hmeets hrun
  exact ⟨as, s, hrun, hmeets, hmaker, hother, hgo 0 (by simp [hmaker])⟩

/-- Calls that wait for types that the same threads are making never return. -/
theorem instance_ring (h : Reachable no_destroy s) (ring : Fin n → Prop)
    (hring : ∀ t, ring t → ∃ type rest t', s.calls t = .once type :: rest ∧ ring t' ∧
      .init type ∈ s.calls t')
    (hlater : Runs.Reaches (step no_destroy) s s') (t : Fin n) (ht : ring t) :
    s'.calls t = s.calls t := by
  suffices hall : Inv s' ∧ ∀ t, ring t → s'.calls t = s.calls t from hall.2 t ht
  apply Runs.Reaches.invariant (I := fun s' => Inv s' ∧ ∀ t, ring t → s'.calls t = s.calls t)
    _ hlater ⟨h.inv, fun _ _ => rfl⟩
  intro s₁ a s₂ ⟨hi, hsame⟩ hs
  refine ⟨hi.step hs, fun t ht => ?_⟩
  -- a thread of the ring stands before `pthread_once`, which is running
  have hstuck {t₁ : Fin n} (ht₁ : ring t₁) : ∃ type rest t' init,
      s₁.calls t₁ = .once type :: rest ∧ s₁.ponce_ type = .running t' init := by
    obtain ⟨type, rest, t', hcalls, ht', hmem⟩ := hring t₁ ht₁
    rw [← hsame t₁ ht₁] at hcalls
    rw [← hsame t' ht'] at hmem
    obtain ⟨init, hp⟩ := (hi.stacked.active t' type).mp hmem
    exact ⟨type, rest, t', init, hcalls, hp⟩
  obtain ⟨type, rest, t', init, hwait, hrunning⟩ := hstuck ht
  rw [← hsame t ht]
  have hother {s₀ : State n} {t₁ : Fin n} {calls : List Call} (hcalls : s₀.calls = s₁.calls)
      (hne : t₁ ≠ t) : (setCalls s₀ t₁ calls).calls t = s₁.calls t := by
    rw [← hcalls]
    exact Function.update_of_ne (Ne.symm hne) ..
  have hfree {t₁ : Fin n} {type₁ : ℕ} {rest₁ : List Call}
      (hcalls : s₁.calls t₁ = .once type₁ :: rest₁)
      (hp : s₁.ponce_ type₁ = .fresh ∨ s₁.ponce_ type₁ = .done) : t₁ ≠ t := by
    intro heq
    rw [heq, hwait] at hcalls
    obtain rfl := Call.once.inj (List.cons.inj hcalls).1
    rw [hrunning] at hp
    rcases hp with hp | hp <;> contradiction
  cases step_effect hs with
  | @call t₁ type₁ hcalls =>
    refine hother rfl fun heq => ?_
    subst heq
    obtain ⟨user, heq, _⟩ := hcalls _ _ hwait
    contradiction
  | begin hcalls hp => exact hother rfl (hfree hcalls (Or.inl hp))
  | pass hcalls hp _ => exact hother rfl (hfree hcalls (Or.inr hp))
  | @finish t₁ type₁ rest₁ obj hcalls _ _ =>
    refine hother rfl fun heq => ?_
    subst heq
    rw [hwait] at hcalls
    exact Call.noConfusion (List.cons.inj hcalls).1
  | construct _ _ | register _ _ | exit | destroy _ _ _ => rfl

/-- The constructors of types 0 and 1 use one another, in two threads. -/
theorem instance_ring_two : ∃ s s' : State 2, Reachable (fun _ => false) s ∧
    s.calls 0 = [.once 1, .init 0] ∧ s.calls 1 = [.once 0, .init 1] ∧
    step (fun _ => false) s .exit = some s' ∧ s'.calls 0 = s.calls 0 := by
  obtain ⟨s, hrun, hs⟩ := Runs.exists_of_any (step fun _ => false) (start 2)
    [.call 0 0, .once 0, .call 1 1, .once 1, .call 0 1, .call 1 0]
    (fun s => s.calls 0 = [.once 1, .init 0] ∧ s.calls 1 = [.once 0, .init 1]) (by decide)
  obtain ⟨hzero, hone⟩ := of_decide_eq_true hs
  refine ⟨s, { s with exiting := true }, ⟨_, hrun⟩, hzero, hone, rfl,
    instance_ring ⟨_, hrun⟩ (fun _ => True) (fun t _ => ?_) ⟨[.exit], rfl⟩ 0 trivial⟩
  match t with
  | 0 => exact ⟨1, [.init 0], 1, hzero, trivial, by simp [hone]⟩
  | 1 => exact ⟨0, [.init 1], 0, hone, trivial, by simp [hzero]⟩

end NaiveNet.Singleton
