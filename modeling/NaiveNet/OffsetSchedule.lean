import Mathlib.Algebra.Order.Group.Abs
import Mathlib.Algebra.Order.Group.Int
import Mathlib.Data.Nat.Count

/-!
# Clocks with a changing offset

A local clock runs at an offset that changes at given instants, further apart
than the changes themselves. Each instant has one local time; a local time
belongs to one instant, to none in a gap, or to several where the clock was set
back. Looking a local time up among the local starts of the periods finds the
latest of its instants.
-/
namespace NaiveNet

/-- Below a count every number has the property, if larger ones pass it down. -/
theorem lt_count_iff {p : ℕ → Prop} [DecidablePred p] {n : ℕ}
    (h : ∀ k, k + 1 < n → p (k + 1) → p k) (k : ℕ) :
    k < Nat.count p n ↔ k < n ∧ p k := by
  induction n generalizing k with
  | zero => simp
  | succ n ih =>
    have ih := ih (fun k hk => h k (by omega))
    have hle : Nat.count p n ≤ n := Nat.count_le p
    rw [Nat.count_succ]
    split_ifs with hn
    · have hall : n ≤ Nat.count p n := by
        by_cases h0 : n = 0
        · omega
        · have hlast := (ih (n - 1)).mpr ⟨by omega, h (n - 1) (by omega) (by
            rwa [Nat.sub_add_cancel (by omega)])⟩
          omega
      constructor
      · intro hk
        by_cases hkn : k = n
        · exact ⟨by omega, hkn ▸ hn⟩
        · exact ⟨by omega, ((ih k).mp (by omega)).2⟩
      · intro hk
        omega
    · rw [Nat.add_zero, ih k]
      constructor
      · exact fun hk => ⟨by omega, hk.2⟩
      · intro hk
        have hne : k ≠ n := fun heq => hn (heq ▸ hk.2)
        exact ⟨by omega, hk.2⟩

/-- Period `i` ends and period `i + 1` begins at `start i`. -/
structure OffsetSchedule where
  changes : ℕ
  start : ℕ → ℤ
  offset : ℕ → ℤ
  apart : ∀ i, i + 1 < changes →
    |offset (i + 1) - offset i| < start (i + 1) - start i ∧
      |offset (i + 2) - offset (i + 1)| < start (i + 1) - start i

namespace OffsetSchedule

variable (s : OffsetSchedule) {t t' L : ℤ} {i : ℕ}

/-- The period of an instant: the number of changes made by then. -/
def period (t : ℤ) : ℕ := Nat.count (fun i => s.start i ≤ t) s.changes

/-- The first local time of period `i + 1`. -/
def localStart (i : ℕ) : ℤ := s.start i + s.offset (i + 1)

/-- The period that a local time is looked up in. -/
def localPeriod (L : ℤ) : ℕ := Nat.count (fun i => s.localStart i ≤ L) s.changes

/-- What the local clock shows. -/
def localTime (t : ℤ) : ℤ := t + s.offset (s.period t)

/-- The instant that the looked up period gives a local time. -/
def latest (L : ℤ) : ℤ := L - s.offset (s.localPeriod L)

theorem start_lt (h : i + 1 < s.changes) : s.start i < s.start (i + 1) := by
  have hgap := (s.apart i h).1
  have hnn := abs_nonneg (s.offset (i + 1) - s.offset i)
  omega

/-- The clock's change is too small to bring the local starts out of order. -/
theorem localStart_lt (h : i + 1 < s.changes) : s.localStart i < s.localStart (i + 1) := by
  have hgap := (abs_lt.mp (s.apart i h).2).1
  unfold localStart
  rw [show i + 1 + 1 = i + 2 by omega]
  omega

theorem localStart_lt_of_lt {i j : ℕ} (hij : i < j) (hj : j < s.changes) :
    s.localStart i < s.localStart j := by
  induction j with
  | zero => omega
  | succ j ih =>
    have hstep := s.localStart_lt hj
    by_cases heq : i = j
    · rwa [heq]
    · have hprev := ih (by omega) (by omega)
      omega

theorem lt_period_iff (k : ℕ) : k < s.period t ↔ k < s.changes ∧ s.start k ≤ t :=
  lt_count_iff (fun _ hk hle => (s.start_lt hk).le.trans hle) k

theorem lt_localPeriod_iff (k : ℕ) :
    k < s.localPeriod L ↔ k < s.changes ∧ s.localStart k ≤ L :=
  lt_count_iff (fun _ hk hle => (s.localStart_lt hk).le.trans hle) k

theorem localPeriod_le : s.localPeriod L ≤ s.changes := Nat.count_le _

theorem period_eq_succ (h : i < s.changes) (hstart : s.start i ≤ t)
    (hend : i + 1 < s.changes → t < s.start (i + 1)) : s.period t = i + 1 := by
  have hlt := (s.lt_period_iff (t := t) i).mpr ⟨h, hstart⟩
  have hge : ¬ i + 1 < s.period t := by
    intro hperiod
    have hnext := (s.lt_period_iff _).mp hperiod
    have hend := hend hnext.1
    omega
  omega

theorem period_le_localPeriod : s.period t ≤ s.localPeriod (s.localTime t) := by
  by_cases h0 : s.period t = 0
  · omega
  · obtain ⟨k, hk⟩ : ∃ k, s.period t = k + 1 := ⟨s.period t - 1, by omega⟩
    have hstart := (s.lt_period_iff (t := t) k).mp (by omega)
    have hlocal : s.localStart k ≤ s.localTime t := by
      unfold localStart localTime
      rw [hk]
      omega
    have hlt := (s.lt_localPeriod_iff k).mpr ⟨hstart.1, hlocal⟩
    omega

/-- While a later period has begun at this local time too, the next period has an
instant with it. -/
theorem period_next (h : s.period t < s.localPeriod (s.localTime t)) :
    s.period (s.localTime t - s.offset (s.period t + 1)) = s.period t + 1 := by
  obtain ⟨hchanges, hstart⟩ := (s.lt_localPeriod_iff _).mp h
  have hend : t < s.start (s.period t) := by
    by_contra hle
    have := (s.lt_period_iff (t := t) (s.period t)).mpr ⟨hchanges, by omega⟩
    omega
  unfold localStart at hstart
  apply s.period_eq_succ hchanges
  · omega
  · intro hnext
    have hgap := (abs_lt.mp (s.apart _ hnext).1).1
    unfold localTime
    omega

theorem localTime_next (h : s.period t < s.localPeriod (s.localTime t)) :
    s.localTime (s.localTime t - s.offset (s.period t + 1)) = s.localTime t := by
  have hperiod := s.period_next h
  rw [localTime, hperiod]
  omega

/-- The looked up instant lies in the looked up period. -/
theorem period_latest (t : ℤ) :
    s.period (s.latest (s.localTime t)) = s.localPeriod (s.localTime t) := by
  obtain ⟨d, hd⟩ : ∃ d, d = s.localPeriod (s.localTime t) - s.period t := ⟨_, rfl⟩
  have hle := s.period_le_localPeriod (t := t)
  induction d generalizing t with
  | zero =>
    have heq : s.period t = s.localPeriod (s.localTime t) := by omega
    have ht : s.latest (s.localTime t) = t := by
      unfold latest
      rw [← heq, localTime]
      omega
    rw [ht, heq]
  | succ d ih =>
    have hlt : s.period t < s.localPeriod (s.localTime t) := by omega
    have hperiod := s.period_next hlt
    have hlocal := s.localTime_next hlt
    have hnext := ih _ (by rw [hperiod, hlocal]; omega) (by rw [hperiod, hlocal]; omega)
    rwa [hlocal] at hnext

theorem localTime_latest (t : ℤ) : s.localTime (s.latest (s.localTime t)) = s.localTime t := by
  rw [localTime, period_latest, latest]
  omega

/-- No instant with this local time is later. -/
theorem le_latest (t : ℤ) : t ≤ s.latest (s.localTime t) := by
  have hperiod := s.period_latest t
  have hle := s.period_le_localPeriod (t := t)
  by_cases heq : s.period t = s.localPeriod (s.localTime t)
  · unfold latest
    rw [← heq, localTime]
    omega
  · have hlt := (s.lt_period_iff (t := s.latest (s.localTime t)) (s.period t)).mp (by omega)
    have hend : ¬ s.start (s.period t) ≤ t := by
      intro hstart
      have := (s.lt_period_iff (t := t) (s.period t)).mpr ⟨hlt.1, hstart⟩
      omega
    omega

/-- An instant is the latest of its local time exactly if none of the others is later. -/
theorem latest_eq_iff : s.latest (s.localTime t) = t ↔
    ∀ t', s.localTime t' = s.localTime t → t' ≤ t := by
  constructor
  · intro h t' ht'
    have hle := s.le_latest t'
    rwa [ht', h] at hle
  · intro h
    have hge := h _ (s.localTime_latest t)
    have hle := s.le_latest t
    omega

end OffsetSchedule

end NaiveNet
