import Mathlib.Algebra.BigOperators.Intervals
import Mathlib.Algebra.Order.BigOperators.Group.Finset
import Mathlib.Order.Interval.Finset.Nat
import Mathlib.Tactic.IntervalCases
import Mathlib.Tactic.Ring

/-!
# The proleptic Gregorian calendar

Valid dates, their successor and predecessor, and the day number that counts
the days since the last day of year 0. The day number is an order isomorphism
onto the integers: it grows by one with each calendar day (`dayNumber_succ`), and
two dates compare as their day numbers do (`lt_iff_dayNumber_lt`).
-/
namespace NaiveNet.Gregorian

def isLeap (year : ℤ) : Bool := 4 ∣ year && (!decide (100 ∣ year) || 400 ∣ year)

def daysInMonth (year : ℤ) : ℕ → ℕ
  | 2 => if isLeap year then 29 else 28
  | 4 => 30
  | 6 => 30
  | 9 => 30
  | 11 => 30
  | _ => 31

/-- Days of the year before the first of the month. -/
def daysBeforeMonth (year : ℤ) (month : ℕ) : ℕ := ∑ k ∈ Finset.Ico 1 month, daysInMonth year k

/-- Days from 0001-01-01 to the first of January, for years before 1 negative. -/
def daysBeforeYear (year : ℤ) : ℤ :=
  365 * (year - 1) + (year - 1) / 4 - (year - 1) / 100 + (year - 1) / 400

@[ext] structure Date where
  year : ℤ
  month : ℕ
  day : ℕ
  month_pos : 1 ≤ month
  month_le : month ≤ 12
  day_pos : 1 ≤ day
  day_le : day ≤ daysInMonth year month
  deriving DecidableEq

theorem daysInMonth_pos (year : ℤ) (month : ℕ) : 1 ≤ daysInMonth year month := by
  unfold daysInMonth
  split <;> (try split) <;> omega

theorem daysInMonth_le (year : ℤ) (month : ℕ) : daysInMonth year month ≤ 31 := by
  unfold daysInMonth
  split <;> (try split) <;> omega

/-- Counted from March, the lengths of the months but February follow one formula. -/
theorem daysInMonth_eq (year : ℤ) {month : ℕ} (h1 : 1 ≤ month) (h12 : month ≤ 12)
    (h2 : month ≠ 2) : daysInMonth year month =
      (153 * ((month + 9) % 12 + 1) + 2) / 5 - (153 * ((month + 9) % 12) + 2) / 5 := by
  interval_cases month <;> first | contradiction | rfl

theorem daysInMonth_two (year : ℤ) :
    daysInMonth year 2 = if isLeap year then 29 else 28 := rfl

theorem daysBeforeMonth_succ (year : ℤ) {month : ℕ} (h : 1 ≤ month) :
    daysBeforeMonth year (month + 1) = daysBeforeMonth year month + daysInMonth year month :=
  Finset.sum_Ico_succ_top h _

theorem daysBeforeMonth_mono (year : ℤ) {month month' : ℕ} (h : month ≤ month') :
    daysBeforeMonth year month ≤ daysBeforeMonth year month' :=
  Finset.sum_le_sum_of_subset (Finset.Ico_subset_Ico_right h)

/-- 28 or 29 days in February, and so 365 or 366 in the year. -/
def leapDay (year : ℤ) : ℕ := if isLeap year then 1 else 0

theorem leapDay_le (year : ℤ) : leapDay year ≤ 1 := by
  unfold leapDay
  split <;> omega

/-- The cumulated month lengths, as the formula over March-based months. -/
theorem daysBeforeMonth_eq (year : ℤ) {month : ℕ} (h1 : 1 ≤ month) (h12 : month ≤ 12) :
    daysBeforeMonth year month =
      if month ≤ 2 then 31 * (month - 1) else (153 * (month - 3) + 2) / 5 + 59 + leapDay year := by
  interval_cases month <;>
    simp [daysBeforeMonth, Finset.sum_Ico_succ_top, daysInMonth, leapDay] <;> split <;> rfl

theorem leapDay_eq (year : ℤ) :
    (leapDay year : ℤ) = year / 4 - (year - 1) / 4 - (year / 100 - (year - 1) / 100) +
      (year / 400 - (year - 1) / 400) := by
  simp only [leapDay, isLeap, Bool.and_eq_true, Bool.or_eq_true, Bool.not_eq_true',
    decide_eq_true_eq, decide_eq_false_iff_not]
  split_ifs <;> push_cast <;> omega

theorem daysBeforeYear_succ (year : ℤ) :
    daysBeforeYear (year + 1) = daysBeforeYear year + 365 + leapDay year := by
  rw [leapDay_eq, daysBeforeYear, daysBeforeYear]
  simp only [add_sub_cancel_right]
  omega

namespace Date

variable {d e : Date}

/-- A date has one of twelve months, and a day in it. -/
theorem bounds (d : Date) : 1 ≤ d.month ∧ d.month ≤ 12 ∧ 1 ≤ d.day ∧ d.day ≤ 31 :=
  ⟨d.month_pos, d.month_le, d.day_pos, d.day_le.trans (daysInMonth_le _ _)⟩

/-- The first of January. -/
@[simps] def newYear (year : ℤ) : Date :=
  ⟨year, 1, 1, le_rfl, by omega, le_rfl, daysInMonth_pos _ _⟩

/-- The ordinal of the date in its year, 1 for the first of January. -/
def ordinal (d : Date) : ℕ := daysBeforeMonth d.year d.month + d.day

def dayNumber (d : Date) : ℤ := daysBeforeYear d.year + d.ordinal

/-- The next day of the calendar. -/
def succ (d : Date) : Date :=
  if h : d.day < daysInMonth d.year d.month then
    ⟨d.year, d.month, d.day + 1, d.month_pos, d.month_le, by omega, h⟩
  else if h : d.month < 12 then
    ⟨d.year, d.month + 1, 1, by omega, h, le_rfl, daysInMonth_pos _ _⟩
  else newYear (d.year + 1)

/-- The day before. -/
def pred (d : Date) : Date :=
  if h : 1 < d.day then
    ⟨d.year, d.month, d.day - 1, d.month_pos, d.month_le, by omega, by have := d.day_le; omega⟩
  else if h : 1 < d.month then
    ⟨d.year, d.month - 1, daysInMonth d.year (d.month - 1), by omega,
      by have := d.month_le; omega, daysInMonth_pos _ _, le_rfl⟩
  else ⟨d.year - 1, 12, 31, by omega, le_rfl, by omega, by simp [daysInMonth]⟩

/-- The date `n` calendar days later, or earlier for negative `n`. -/
def advance (d : Date) : ℤ → Date
  | .ofNat k => succ^[k] d
  | .negSucc k => pred^[k + 1] d

theorem ordinal_pos (d : Date) : 1 ≤ d.ordinal := by
  have := d.day_pos
  unfold ordinal
  omega

theorem ordinal_le (d : Date) : d.ordinal ≤ 365 + leapDay d.year := by
  have hmonth := daysBeforeMonth_succ d.year d.month_pos
  have hyear := daysBeforeMonth_mono d.year (show d.month + 1 ≤ 13 by have := d.month_le; omega)
  have hdec := daysBeforeMonth_succ d.year (show 1 ≤ 12 by omega)
  rw [daysBeforeMonth_eq d.year (by omega) le_rfl] at hdec
  have hday := d.day_le
  simp [daysInMonth] at hdec
  unfold ordinal
  omega

theorem ordinal_bounds (d : Date) : 1 ≤ d.ordinal ∧ d.ordinal ≤ 366 := by
  have hleap := leapDay_le d.year
  have hle := d.ordinal_le
  exact ⟨d.ordinal_pos, by omega⟩

theorem dayNumber_succ (d : Date) : d.succ.dayNumber = d.dayNumber + 1 := by
  have hle := d.day_le
  unfold succ
  split_ifs with hday hmonth
  · simp only [dayNumber, ordinal]
    push_cast
    ring
  · have hsucc := daysBeforeMonth_succ d.year d.month_pos
    simp only [dayNumber, ordinal, hsucc]
    omega
  · have hm : d.month = 12 := by have := d.month_le; omega
    have hd : d.day = 31 := by
      rw [hm] at hle hday
      simp only [daysInMonth] at hle hday
      omega
    have hb := daysBeforeMonth_eq d.year (show 1 ≤ 12 by omega) le_rfl
    simp only [dayNumber, ordinal, newYear, daysBeforeYear_succ, hm, hd, hb]
    simp [daysBeforeMonth]
    ring

theorem succ_pred (d : Date) : d.pred.succ = d := by
  have h1 := d.day_pos
  have h2 := d.day_le
  have h3 := d.month_pos
  have h4 := d.month_le
  unfold pred
  split_ifs with hday hmonth
  · ext <;> simp [succ] <;> split_ifs <;> simp <;> omega
  · ext <;> simp [succ] <;> split_ifs <;> simp <;> omega
  · ext <;> simp [succ, daysInMonth] <;> omega

theorem dayNumber_pred (d : Date) : d.pred.dayNumber = d.dayNumber - 1 := by
  have h := dayNumber_succ d.pred
  rw [succ_pred] at h
  omega

theorem dayNumber_advance (d : Date) (n : ℤ) : (d.advance n).dayNumber = d.dayNumber + n := by
  have hsucc (k : ℕ) : ∀ d : Date, (succ^[k] d).dayNumber = d.dayNumber + k := by
    induction k with
    | zero => simp
    | succ k ih =>
      intro d
      rw [Function.iterate_succ_apply, ih, dayNumber_succ]
      push_cast
      ring
  have hpred (k : ℕ) : ∀ d : Date, (pred^[k] d).dayNumber = d.dayNumber - k := by
    induction k with
    | zero => simp
    | succ k ih =>
      intro d
      rw [Function.iterate_succ_apply, ih, dayNumber_pred]
      push_cast
      ring
  cases n with
  | ofNat k => exact hsucc k d
  | negSucc k =>
    have h := hpred (k + 1) d
    push_cast at h
    simp only [advance]
    rw [Int.negSucc_eq]
    omega

/-- The order of the calendar: by year, then month, then day. -/
instance : LT Date where
  lt d e := d.year < e.year ∨ d.year = e.year ∧
    (d.month < e.month ∨ d.month = e.month ∧ d.day < e.day)

instance : DecidableRel fun d e : Date => d < e := fun _ _ => inferInstanceAs (Decidable (_ ∨ _))

instance : LE Date where
  le d e := d < e ∨ d = e

theorem lt_def : d < e ↔ d.year < e.year ∨ d.year = e.year ∧
    (d.month < e.month ∨ d.month = e.month ∧ d.day < e.day) := Iff.rfl

theorem le_def : d ≤ e ↔ d < e ∨ d = e := Iff.rfl

theorem lt_trichotomy (d e : Date) : d < e ∨ d = e ∨ e < d := by
  by_cases h : d = e
  · exact Or.inr (Or.inl h)
  · have hne : ¬ (d.year = e.year ∧ d.month = e.month ∧ d.day = e.day) :=
      fun ⟨hy, hm, hd⟩ => h (Date.ext hy hm hd)
    rw [lt_def, lt_def]
    omega

theorem dayNumber_lt (h : d < e) : d.dayNumber < e.dayNumber := by
  rcases h with hy | ⟨hy, hm | ⟨hm, hd⟩⟩
  · have hyear : daysBeforeYear (d.year + 1) ≤ daysBeforeYear e.year := by
      unfold daysBeforeYear
      omega
    rw [daysBeforeYear_succ] at hyear
    have hd := d.ordinal_le
    have he := e.ordinal_pos
    unfold dayNumber
    omega
  · have hmonth := daysBeforeMonth_mono d.year (show d.month + 1 ≤ e.month from hm)
    rw [daysBeforeMonth_succ d.year d.month_pos] at hmonth
    have hd := d.day_le
    have he := e.day_pos
    simp only [dayNumber, ordinal, ← hy]
    omega
  · simp only [dayNumber, ordinal, ← hy, ← hm]
    omega

theorem lt_iff_dayNumber_lt : d < e ↔ d.dayNumber < e.dayNumber := by
  refine ⟨dayNumber_lt, fun h => ?_⟩
  rcases lt_trichotomy d e with hlt | rfl | hgt
  · exact hlt
  · omega
  · have := dayNumber_lt hgt
    omega

theorem dayNumber_injective : Function.Injective dayNumber := by
  intro d e h
  rcases lt_trichotomy d e with hlt | heq | hgt
  · have := dayNumber_lt hlt
    omega
  · exact heq
  · have := dayNumber_lt hgt
    omega

theorem le_iff_dayNumber_le : d ≤ e ↔ d.dayNumber ≤ e.dayNumber := by
  rw [le_def, lt_iff_dayNumber_lt, le_iff_lt_or_eq, dayNumber_injective.eq_iff]

end Date

end NaiveNet.Gregorian
