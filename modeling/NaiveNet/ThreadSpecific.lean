import Mathlib.Data.Nat.Init
import Mathlib.Logic.Function.Basic
import Mathlib.Tactic.ApplyFun

/-!
# Thread-specific data

Keys for which every thread has a value of its own, and what happens to the values when a
thread exits: the destructor of each key is given what the thread has there, in any
order and again while there is anything, but for at most four rounds. A destructor may set
values itself. The values at a key that is deleted are forgotten. What is not defined, an
access to a key that is not there above all, has no result.
-/
namespace NaiveNet

/-- `PTHREAD_DESTRUCTOR_ITERATIONS` -/
def destructorIterations : ℕ := 4

inductive Phase
  | running
  /-- The keys are still to be visited in this round. -/
  | exiting (round : ℕ) (keys : List ℕ)
  | gone (rounds : ℕ)
  deriving DecidableEq

/-- The thread runs, or its destructors do. -/
def Phase.present : Phase → Bool
  | .gone _ => false
  | _ => true

structure ThreadSpecific (T V : Type*) where
  /-- The keys created so far are those below. -/
  created : ℕ
  live : ℕ → Bool
  specific : T → ℕ → Option V
  phase : T → Phase

namespace ThreadSpecific

variable {T V : Type*}

def new : ThreadSpecific T V := ⟨0, fun _ => false, fun _ _ => none, fun _ => .running⟩

/-- All keys that are there are among these. -/
def Covers (s : ThreadSpecific T V) (keys : List ℕ) : Prop :=
  ∀ key < s.created, s.live key = true → key ∈ keys

instance (s : ThreadSpecific T V) (keys : List ℕ) : Decidable (s.Covers keys) :=
  inferInstanceAs (Decidable (∀ key < _, _))

/-- The thread has a value at the key, which is there. -/
def Holds (s : ThreadSpecific T V) (t : T) (key : ℕ) : Prop :=
  s.live key = true ∧ (s.specific t key).isSome = true

instance (s : ThreadSpecific T V) (t : T) (key : ℕ) : Decidable (s.Holds t key) :=
  inferInstanceAs (Decidable (_ ∧ _))

/-- The thread has no value left. -/
def Unset (s : ThreadSpecific T V) (t : T) : Prop := ∀ key < s.created, ¬ s.Holds t key

instance (s : ThreadSpecific T V) (t : T) : Decidable (s.Unset t) :=
  inferInstanceAs (Decidable (∀ key < _, _))

section Operations

variable [DecidableEq T]

def setValue (s : ThreadSpecific T V) (t : T) (key : ℕ) (value : Option V) :
    ThreadSpecific T V :=
  { s with specific := Function.update s.specific t (Function.update (s.specific t) key value) }

def setPhase (s : ThreadSpecific T V) (t : T) (phase : Phase) : ThreadSpecific T V :=
  { s with phase := Function.update s.phase t phase }

/-- `pthread_key_create`; no thread has a value at the new key. -/
def keyCreate (s : ThreadSpecific T V) : ThreadSpecific T V where
  created := s.created + 1
  live := Function.update s.live s.created true
  specific t := Function.update (s.specific t) s.created none
  phase := s.phase

/-- `pthread_key_delete`; no destructor is called. -/
def keyDelete (s : ThreadSpecific T V) (key : ℕ) : Option (ThreadSpecific T V) :=
  if s.live key then some { s with live := Function.update s.live key false } else none

def getspecific (s : ThreadSpecific T V) (t : T) (key : ℕ) : Option (Option V) :=
  if s.live key then some (s.specific t key) else none

def setspecific (s : ThreadSpecific T V) (t : T) (key : ℕ) (value : V) :
    Option (ThreadSpecific T V) :=
  if s.live key then some (s.setValue t key (some value)) else none

/-- The thread begins to exit and will visit these keys. -/
def exit (s : ThreadSpecific T V) (t : T) (keys : List ℕ) : Option (ThreadSpecific T V) :=
  if s.phase t = .running ∧ s.Covers keys then some (s.setPhase t (.exiting 1 keys)) else none

/-- The next key; what the thread has there is taken and given to the destructor. -/
def visit (s : ThreadSpecific T V) (t : T) : Option (Option V × ThreadSpecific T V) :=
  match s.phase t with
  | .exiting round (key :: keys) =>
    let visited := s.setPhase t (.exiting round keys)
    if s.live key then some (s.specific t key, visited.setValue t key none)
    else some (none, visited)
  | _ => none

/-- The end of a round, with the keys to visit in a next one. -/
def endRound (s : ThreadSpecific T V) (t : T) (keys : List ℕ) : Option (ThreadSpecific T V) :=
  match s.phase t with
  | .exiting round [] =>
    if s.Unset t ∨ destructorIterations ≤ round then some (s.setPhase t (.gone round))
    else if s.Covers keys then some (s.setPhase t (.exiting (round + 1) keys)) else none
  | _ => none

end Operations

section Fields

variable [DecidableEq T] (s : ThreadSpecific T V) (t t' : T) (key key' : ℕ)

@[simp] theorem phase_setPhase (phase : Phase) :
    (s.setPhase t phase).phase t' = if t' = t then phase else s.phase t' :=
  Function.update_apply ..

@[simp] theorem live_setPhase (phase : Phase) : (s.setPhase t phase).live = s.live := rfl

@[simp] theorem created_setPhase (phase : Phase) :
    (s.setPhase t phase).created = s.created := rfl

@[simp] theorem specific_setPhase (phase : Phase) :
    (s.setPhase t phase).specific = s.specific := rfl

@[simp] theorem specific_setValue (value : Option V) :
    (s.setValue t key value).specific t' key' =
      if t' = t ∧ key' = key then value else s.specific t' key' := by
  simp only [setValue, Function.update_apply]
  by_cases ht : t' = t
  · subst ht
    simp [Function.update_apply]
  · simp [ht]

@[simp] theorem live_setValue (value : Option V) : (s.setValue t key value).live = s.live := rfl

@[simp] theorem created_setValue (value : Option V) :
    (s.setValue t key value).created = s.created := rfl

@[simp] theorem phase_setValue (value : Option V) : (s.setValue t key value).phase = s.phase := rfl

omit [DecidableEq T] in
@[simp] theorem live_keyCreate :
    s.keyCreate.live key = if key = s.created then true else s.live key :=
  Function.update_apply ..

omit [DecidableEq T] in
@[simp] theorem specific_keyCreate :
    s.keyCreate.specific t key = if key = s.created then none else s.specific t key :=
  Function.update_apply ..

omit [DecidableEq T] in
@[simp] theorem created_keyCreate : s.keyCreate.created = s.created + 1 := rfl

omit [DecidableEq T] in
@[simp] theorem phase_keyCreate : s.keyCreate.phase = s.phase := rfl

end Fields

variable {s s' : ThreadSpecific T V}

section Changes

variable [DecidableEq T]

/-- All that can happen to the values, with the value taken for a destructor. -/
inductive Change (s : ThreadSpecific T V) : Option (T × ℕ × V) → ThreadSpecific T V → Prop
  | keyCreate : Change s none s.keyCreate
  | keyDelete {key} (hk : s.live key = true) :
      Change s none { s with live := Function.update s.live key false }
  | set {t key value} (ht : (s.phase t).present = true) (hk : s.live key = true) :
      Change s none (s.setValue t key (some value))
  | exit {t keys} (ht : s.phase t = .running) (hkeys : s.Covers keys) :
      Change s none (s.setPhase t (.exiting 1 keys))
  | pass {t round key keys} (ht : s.phase t = .exiting round (key :: keys))
      (hk : ¬ s.Holds t key) :
      Change s none (s.setPhase t (.exiting round keys))
  | take {t round key keys value} (ht : s.phase t = .exiting round (key :: keys))
      (hk : s.live key = true) (hv : s.specific t key = some value) :
      Change s (some (t, key, value)) ((s.setPhase t (.exiting round keys)).setValue t key none)
  | again {t round keys} (ht : s.phase t = .exiting round [])
      (hround : round < destructorIterations) (hkeys : s.Covers keys) :
      Change s none (s.setPhase t (.exiting (round + 1) keys))
  | leave {t round} (ht : s.phase t = .exiting round [])
      (hleft : s.Unset t ∨ destructorIterations ≤ round) :
      Change s none (s.setPhase t (.gone round))

theorem keyDelete_change {key : ℕ} (h : s.keyDelete key = some s') : Change s none s' := by
  unfold keyDelete at h
  split_ifs at h with hk
  obtain rfl := Option.some.inj h
  exact .keyDelete hk

theorem exit_change {t : T} {keys : List ℕ} (h : s.exit t keys = some s') : Change s none s' := by
  unfold exit at h
  split_ifs at h with ht
  obtain rfl := Option.some.inj h
  exact .exit ht.1 ht.2

theorem endRound_change {t : T} {keys : List ℕ} (h : s.endRound t keys = some s') :
    Change s none s' := by
  unfold endRound at h
  split at h
  · next round ht =>
    split_ifs at h with hleft hkeys
    · obtain rfl := Option.some.inj h
      exact .leave ht hleft
    · obtain rfl := Option.some.inj h
      exact .again ht (not_le.mp (not_or.mp hleft).2) hkeys
  · contradiction

/-- A thread that exits changes its own phase. -/
theorem phase_setPhase_of_ne {t t' : T} (ht : t' ≠ t) (phase : Phase) :
    (s.setPhase t phase).phase t' = s.phase t' := by
  rw [phase_setPhase, if_neg ht]

theorem exit_phase {t t' : T} {keys : List ℕ} (h : s.exit t keys = some s') (ht : t' ≠ t) :
    s'.phase t' = s.phase t' := by
  unfold exit at h
  split_ifs at h
  obtain rfl := Option.some.inj h
  exact phase_setPhase_of_ne ht _

theorem endRound_phase {t t' : T} {keys : List ℕ} (h : s.endRound t keys = some s')
    (ht : t' ≠ t) : s'.phase t' = s.phase t' := by
  unfold endRound at h
  split at h
  · split_ifs at h
    · obtain rfl := Option.some.inj h
      exact phase_setPhase_of_ne ht _
    · obtain rfl := Option.some.inj h
      exact phase_setPhase_of_ne ht _
  · contradiction

theorem visit_phase {t t' : T} {value : Option V} (h : s.visit t = some (value, s'))
    (ht : t' ≠ t) : s'.phase t' = s.phase t' := by
  unfold visit at h
  split at h
  · dsimp only at h
    split_ifs at h
    · obtain ⟨_, rfl⟩ := Prod.mk.inj (Option.some.inj h)
      exact phase_setPhase_of_ne ht _
    · obtain ⟨_, rfl⟩ := Prod.mk.inj (Option.some.inj h)
      exact phase_setPhase_of_ne ht _
  · contradiction

omit [DecidableEq T] in
theorem keyDelete_phase {key : ℕ} (h : s.keyDelete key = some s') : s'.phase = s.phase := by
  unfold keyDelete at h
  split_ifs at h
  obtain rfl := Option.some.inj h
  rfl

end Changes

/-- A thread comes to a value only by setting it. -/
theorem Change.holds [DecidableEq T] {taken : Option (T × ℕ × V)} (h : Change s taken s') {t : T}
    {key : ℕ} (hholds : s'.Holds t key) :
    s.Holds t key ∨ (s.phase t).present = true ∧ ∃ value, s' = s.setValue t key (some value) := by
  cases h with
  | keyCreate =>
    simp only [Holds, live_keyCreate, specific_keyCreate] at hholds
    split_ifs at hholds with hkey
    · exact absurd hholds.2 (by simp)
    · exact Or.inl hholds
  | @keyDelete key' hk =>
    simp only [Holds, Function.update_apply] at hholds
    split_ifs at hholds with hkey
    · exact absurd hholds.1 (by simp)
    · exact Or.inl hholds
  | @set t' key' value ht hk =>
    by_cases hsame : t = t' ∧ key = key'
    · obtain ⟨rfl, rfl⟩ := hsame
      exact Or.inr ⟨ht, value, rfl⟩
    · simp only [Holds, live_setValue, specific_setValue, if_neg hsame] at hholds
      exact Or.inl hholds
  | @take t' round key' keys value ht hk hv =>
    simp only [Holds, live_setValue, specific_setValue, live_setPhase, specific_setPhase]
      at hholds
    split_ifs at hholds with hsame
    · exact absurd hholds.2 (by simp)
    · exact Or.inl hholds
  | exit | pass | again | leave => exact Or.inl hholds

/-- Keys that were not created are not there, and a thread that needed fewer rounds than it
may take left nothing. -/
structure Sound (s : ThreadSpecific T V) : Prop where
  fresh : ∀ key, s.created ≤ key → s.live key = false
  gone : ∀ t rounds, s.phase t = .gone rounds → rounds < destructorIterations → s.Unset t

theorem sound_new : Sound (new : ThreadSpecific T V) where
  fresh _ _ := rfl
  gone _ _ h := by contradiction

theorem Sound.lt_created (h : s.Sound) {key : ℕ} (hk : s.live key = true) : key < s.created := by
  by_contra hge
  rw [h.fresh key (not_lt.mp hge)] at hk
  contradiction

variable [DecidableEq T] {taken : Option (T × ℕ × V)}

theorem Change.fresh (hi : s.Sound) (h : Change s taken s') (key : ℕ)
    (hkey : s'.created ≤ key) : s'.live key = false := by
  cases h with
  | keyCreate =>
    rw [created_keyCreate] at hkey
    rw [live_keyCreate, if_neg (by omega), hi.fresh key (by omega)]
  | keyDelete hk =>
    have hfresh := hi.fresh key hkey
    simp only [Function.update_apply]
    split_ifs
    · rfl
    · exact hfresh
  | set | exit | pass | take | again | leave => exact hi.fresh key hkey

/-- What a thread was before it is gone. -/
theorem Change.gone (h : Change s taken s') {t : T} {rounds : ℕ}
    (hgone : s'.phase t = .gone rounds) :
    s.phase t = .gone rounds ∨ s.phase t = .exiting rounds [] ∧ s' = s.setPhase t (.gone rounds) ∧
      (s.Unset t ∨ destructorIterations ≤ rounds) := by
  have hphase {t' : T} {phase : Phase} (hp : (s.setPhase t' phase).phase t = .gone rounds) :
      s.phase t = .gone rounds ∨ t = t' ∧ phase = .gone rounds := by
    rw [phase_setPhase] at hp
    split_ifs at hp with ht
    · exact Or.inr ⟨ht, hp⟩
    · exact Or.inl hp
  cases h with
  | keyCreate | keyDelete | set => exact Or.inl hgone
  | exit | pass | again =>
    exact (hphase hgone).imp_right fun h => by cases h.2
  | take => exact (hphase hgone).imp_right fun h => by cases h.2
  | leave ht hleft =>
    refine (hphase hgone).imp_right fun h => ?_
    obtain ⟨rfl, hrounds⟩ := h
    obtain rfl := Phase.gone.inj hrounds
    exact ⟨ht, rfl, hleft⟩

/-- A value is set at a thread that is not gone, and a thread goes without a value or after
all its rounds. -/
theorem Sound.change (hi : s.Sound) (h : Change s taken s') : s'.Sound := by
  refine ⟨h.fresh hi, fun t rounds hgone hlt key _ hholds => ?_⟩
  have hunset : s.Unset t := by
    rcases h.gone hgone with hbefore | ⟨_, _, hleft⟩
    · exact hi.gone t rounds hbefore hlt
    · exact hleft.resolve_right (not_le.mpr hlt)
  rcases h.holds hholds with hbefore | ⟨hpresent, value, rfl⟩
  · exact hunset key (hi.lt_created hbefore.1) hbefore
  · rw [phase_setValue] at hgone
    rw [hgone] at hpresent
    contradiction

/-- No value is set or taken: the values at keys that are still there are the same, and
there are none at new keys. -/
structure Keeps (s s' : ThreadSpecific T V) : Prop where
  change : Change s none s'
  created_le : s.created ≤ s'.created
  old : ∀ t key, key < s.created → s'.live key = true →
    s.live key = true ∧ s'.specific t key = s.specific t key
  new : ∀ t key, s.created ≤ key → s'.live key = true → s'.specific t key = none
  running : ∀ t, s'.phase t = .running → s.phase t = .running

theorem Keeps.holds (h : s.Keeps s') {t : T} {key : ℕ} (hholds : s'.Holds t key) :
    s.Holds t key := by
  by_cases hlt : key < s.created
  · obtain ⟨hlive, hsame⟩ := h.old t key hlt hholds.1
    exact ⟨hlive, hsame ▸ hholds.2⟩
  · have hnone := h.new t key (not_lt.mp hlt) hholds.1
    have hsome := hholds.2
    rw [hnone] at hsome
    contradiction

theorem keyCreate_keeps (hi : s.Sound) : s.Keeps s.keyCreate where
  change := .keyCreate
  created_le := Nat.le_succ _
  old t key hlt hlive := by
    rw [live_keyCreate, if_neg hlt.ne] at hlive
    rw [specific_keyCreate, if_neg hlt.ne]
    exact ⟨hlive, rfl⟩
  new t key hle hlive := by
    rw [live_keyCreate] at hlive
    rw [specific_keyCreate]
    split_ifs at hlive with hkey
    · rw [if_pos hkey]
    · rw [hi.fresh key hle] at hlive
      contradiction
  running _ h := h

theorem keyDelete_keeps (hi : s.Sound) {key : ℕ} (h : s.keyDelete key = some s') :
    s.Keeps s' := by
  have hchange := keyDelete_change h
  unfold keyDelete at h
  split_ifs at h with hk
  obtain rfl := Option.some.inj h
  have hlive {key' : ℕ} (h : Function.update s.live key false key' = true) :
      s.live key' = true := by
    rw [Function.update_apply] at h
    split_ifs at h
    exact h
  refine ⟨hchange, le_rfl, fun t key' _ h => ⟨hlive h, rfl⟩, fun t key' hle h => ?_,
    fun _ h => h⟩
  have hlt := hi.lt_created (hlive h)
  omega

theorem setPhase_keeps (hi : s.Sound) {t : T} {phase : Phase} (hne : phase ≠ .running)
    (h : Change s none (s.setPhase t phase)) : s.Keeps (s.setPhase t phase) where
  change := h
  created_le := le_rfl
  old _ _ _ hlive := ⟨hlive, rfl⟩
  new t key hle hlive := by
    rw [live_setPhase, hi.fresh key hle] at hlive
    contradiction
  running t' hp := by
    rw [phase_setPhase] at hp
    split_ifs at hp
    · exact absurd hp hne
    · exact hp

theorem exit_keeps (hi : s.Sound) {t : T} {keys : List ℕ} (h : s.exit t keys = some s') :
    s.Keeps s' := by
  have hchange := exit_change h
  unfold exit at h
  split_ifs at h
  obtain rfl := Option.some.inj h
  exact setPhase_keeps hi (by simp) hchange

theorem endRound_keeps (hi : s.Sound) {t : T} {keys : List ℕ}
    (h : s.endRound t keys = some s') : s.Keeps s' := by
  have hchange := endRound_change h
  unfold endRound at h
  split at h
  · split_ifs at h
    · obtain rfl := Option.some.inj h
      exact setPhase_keeps hi (by simp) hchange
    · obtain rfl := Option.some.inj h
      exact setPhase_keeps hi (by simp) hchange
  · contradiction

/-- A visit takes the value that the thread has at the key, or changes nothing. -/
theorem visit_cases (hi : s.Sound) {t : T} {value : Option V} (h : s.visit t = some (value, s')) :
    value = none ∧ s.Keeps s' ∨ ∃ round key keys v, value = some v ∧
      s.phase t = .exiting round (key :: keys) ∧ s.live key = true ∧ s.specific t key = some v ∧
      s' = (s.setPhase t (.exiting round keys)).setValue t key none := by
  unfold visit at h
  split at h
  · next round key keys ht =>
    have hpass (hk : ¬ s.Holds t key) : s.Keeps (s.setPhase t (.exiting round keys)) :=
      setPhase_keeps hi (by simp) (.pass ht hk)
    dsimp only at h
    split_ifs at h with hk
    · obtain ⟨rfl, rfl⟩ := Prod.mk.inj (Option.some.inj h)
      cases hv : s.specific t key with
      | some v => exact Or.inr ⟨round, key, keys, v, rfl, ht, hk, hv, rfl⟩
      | none =>
        have hsame : (s.setPhase t (.exiting round keys)).setValue t key none =
            s.setPhase t (.exiting round keys) := by
          unfold setValue setPhase
          rw [← hv, Function.update_eq_self, Function.update_eq_self]
        rw [hsame]
        exact Or.inl ⟨rfl, hpass fun hholds => by simp [Holds, hv] at hholds⟩
    · obtain ⟨rfl, rfl⟩ := Prod.mk.inj (Option.some.inj h)
      exact Or.inl ⟨rfl, hpass fun hholds => hk hholds.1⟩
  · contradiction

/-- The thread runs, or has values only at keys that are still to be visited. -/
def Settled (s : ThreadSpecific T V) (t : T) : Prop :=
  match s.phase t with
  | .running => True
  | .exiting _ keys => ∀ key, s.Holds t key → key ∈ keys
  | .gone _ => ∀ key, ¬ s.Holds t key

/-- As long as no destructor sets a value, a round leaves nothing. -/
theorem Settled.change {t : T} (hi : s.Settled t) (hsound : s.Sound) (h : Change s taken s')
    (hset : ∀ key, s'.Holds t key → s.Holds t key) : s'.Settled t := by
  -- only the thread's own exit changes its phase
  have hother (hphase : s'.phase t = s.phase t) : s'.Settled t := by
    unfold Settled at hi ⊢
    rw [hphase]
    cases hp : s.phase t with
    | running => trivial
    | exiting round keys =>
      rw [hp] at hi
      exact fun key hholds => hi key (hset key hholds)
    | gone rounds =>
      rw [hp] at hi
      exact fun key hholds => hi key (hset key hholds)
  have hcovers {keys : List ℕ} (hkeys : s.Covers keys) (key : ℕ) (hholds : s.Holds t key) :
      key ∈ keys := hkeys key (hsound.lt_created hholds.1) hholds.1
  cases h with
  | keyCreate | keyDelete | set => exact hother rfl
  | @exit t' keys ht hkeys =>
    by_cases htt : t = t'
    · subst htt
      simp only [Settled, phase_setPhase, if_true]
      exact hcovers hkeys
    · exact hother (by rw [phase_setPhase, if_neg htt])
  | @again t' round keys ht hround hkeys =>
    by_cases htt : t = t'
    · subst htt
      simp only [Settled, phase_setPhase, if_true]
      exact hcovers hkeys
    · exact hother (by rw [phase_setPhase, if_neg htt])
  | @pass t' round key keys ht hk =>
    by_cases htt : t = t'
    · subst htt
      simp only [Settled, ht] at hi
      simp only [Settled, phase_setPhase, if_true]
      intro key' hholds
      refine (List.mem_cons.mp (hi key' hholds)).resolve_left ?_
      intro heq
      exact hk (heq ▸ hholds)
    · exact hother (by rw [phase_setPhase, if_neg htt])
  | @take t' round key keys value ht hk hv =>
    by_cases htt : t = t'
    · subst htt
      simp only [Settled, ht] at hi
      simp only [Settled, phase_setValue, phase_setPhase, if_true]
      intro key' hholds
      refine (List.mem_cons.mp (hi key' (hset key' hholds))).resolve_left ?_
      intro heq
      rw [heq] at hholds
      simp [Holds] at hholds
    · exact hother (by rw [phase_setValue, phase_setPhase, if_neg htt])
  | @leave t' round ht hleft =>
    by_cases htt : t = t'
    · subst htt
      simp only [Settled, ht] at hi
      simp only [Settled, phase_setPhase, if_true]
      exact fun key hholds => List.not_mem_nil (hi key hholds)
    · exact hother (by rw [phase_setPhase, if_neg htt])

end ThreadSpecific

end NaiveNet
