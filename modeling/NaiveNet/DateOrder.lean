import NaiveNet.UtcTime

/-!
# Dates in order

The day numbers that `getJulianDayNumber` gives to the dates from -4800-03-01 on are
followed backwards: wherever the computation stays in `int` at all, its result is the
Julian day number. So `Date`'s operators, which compare these numbers, are those of
the calendar, and so is `weekDay`.
-/
namespace NaiveNet

open CInt (yields_lit)

namespace Date

/-- The date as the constructor takes it. -/
def ofGregorian (date : Gregorian.Date) : Date :=
  ofYearMonthDay (date.year : ℤ) (date.month : ℤ) (date.day : ℤ)

/-- `operator<`, on day numbers that are defined. -/
def operatorLt (x y : Date) : Option Bool := do
  let a ← x.julianDayNumber.toInt?
  let b ← y.julianDayNumber.toInt?
  return a < b

/-- `operator==` -/
def operatorEq (x y : Date) : Option Bool := do
  let a ← x.julianDayNumber.toInt?
  let b ← y.julianDayNumber.toInt?
  return a = b

end Date

/-- Where `getJulianDayNumber` is defined its result is the Julian day number, and before the
last subtraction `int` held it too. -/
theorem julianDay_of_yields {date : Gregorian.Date} {x : ℤ} (hfirst : firstDate ≤ date)
    (h : (Date.ofGregorian date).julianDayNumber.Yields x) :
    x = julianDay date ∧ x + 32045 ≤ 2147483647 := by
  obtain ⟨h1, h12, hd1, hd31⟩ := date.bounds
  obtain ⟨hlo, hmarch⟩ := year_of_firstDate_le hfirst
  have hday : ((date.day : ℤ) : CInt 32).Yields date.day := CInt.yields_ofInt
  obtain ⟨a, hae⟩ : ∃ a, (14 - (date.month : ℤ)) / 12 = a := ⟨_, rfl⟩
  obtain ⟨m, hme⟩ : ∃ m, (date.month : ℤ) + 12 * a - 3 = m := ⟨_, rfl⟩
  obtain ⟨ha, hmonths⟩ := monthTerms_yields CInt.yields_ofInt hae hme
  -- The expression is taken apart from its last operator back.
  obtain ⟨sum, k, hsum, hk, rfl⟩ := h.exists_sub
  obtain ⟨s₅, cycles, h₅, hcycles, rfl⟩ := hsum.exists_add
  obtain ⟨s₄, centuries, h₄, hcenturies, rfl⟩ := h₅.exists_sub
  obtain ⟨s₃, fours, h₃, hfours, rfl⟩ := h₄.exists_add
  obtain ⟨s₂, years, h₂, hyears, rfl⟩ := h₃.exists_add
  obtain ⟨d, months, hd, hmonths', rfl⟩ := h₂.exists_add
  obtain ⟨y, c, hy, hc, rfl⟩ := hyears.exists_mul
  obtain ⟨y', a', hy', ha', rfl⟩ := hy.exists_sub
  obtain ⟨year, c', hyear, hc', rfl⟩ := hy'.exists_add
  obtain rfl := CInt.eq_of_yields_ofInt hyear
  obtain rfl := hk.unique (yields_lit 32045)
  obtain rfl := hd.unique hday
  obtain rfl := hmonths'.unique hmonths
  obtain rfl := hc.unique (yields_lit 365)
  obtain rfl := ha'.unique ha
  obtain rfl := hc'.unique (yields_lit 4800)
  generalize hye : date.year + 4800 - a' = y at *
  obtain rfl := hfours.unique (hy.div (yields_lit 4))
  obtain rfl := hcenturies.unique (hy.div (yields_lit 100))
  obtain rfl := hcycles.unique (hy.div (yields_lit 400))
  refine ⟨(julianDay_eq date hae.symm hye.symm hme.symm).symm, ?_⟩
  have hmax := (inRange_32.mp hsum.inRange).2
  omega

namespace Date

variable {d e : Gregorian.Date} {x y : ℤ}

theorem operatorLt_eq (hx : (ofGregorian d).julianDayNumber.Yields x)
    (hy : (ofGregorian e).julianDayNumber.Yields y) :
    operatorLt (ofGregorian d) (ofGregorian e) = some (decide (x < y)) := by
  unfold operatorLt
  rw [hx, hy]
  rfl

theorem operatorEq_eq (hx : (ofGregorian d).julianDayNumber.Yields x)
    (hy : (ofGregorian e).julianDayNumber.Yields y) :
    operatorEq (ofGregorian d) (ofGregorian e) = some (decide (x = y)) := by
  unfold operatorEq
  rw [hx, hy]
  rfl

/-- The day after a defined day number is an `int` too, so the weekday is defined. -/
theorem weekDay_yields (hd : firstDate ≤ d) (hx : (ofGregorian d).julianDayNumber.Yields x)
    (hnonneg : 0 ≤ x) : (ofGregorian d).weekDay.Yields ((x + 1) % 7) := by
  obtain ⟨_, hmax⟩ := julianDay_of_yields hd hx
  exact (hx.add (yields_lit 1)).mod (yields_lit 7)

end Date

/-- For two dates from -4800-03-01 on whose day numbers are computed without leaving `int`:
the successor has the next number, `operator<` and `operator==` are the order of the calendar,
the numbers differ by the days between, and the weekday goes round with the days, a Thursday
on 1970-01-01. -/
theorem date_order {d e : Gregorian.Date} {x y : ℤ} (hd : firstDate ≤ d) (he : firstDate ≤ e)
    (hx : (Date.ofGregorian d).julianDayNumber.Yields x)
    (hy : (Date.ofGregorian e).julianDayNumber.Yields y) :
    (e = d.succ → y = x + 1) ∧
    Date.operatorLt (Date.ofGregorian d) (Date.ofGregorian e) = some (decide (d < e)) ∧
    Date.operatorEq (Date.ofGregorian d) (Date.ofGregorian e) = some (decide (d = e)) ∧
    (∀ n : ℤ, y - x = n ↔ d.advance n = e) ∧
    (0 ≤ x → ∃ w, (Date.ofGregorian d).weekDay.Yields w ∧ 0 ≤ w ∧ w ≤ 6 ∧
      (e = d.succ → (Date.ofGregorian e).weekDay.Yields ((w + 1) % 7)) ∧
      (d = epoch → w = 4)) := by
  obtain ⟨hxd, hxmax⟩ := julianDay_of_yields hd hx
  obtain ⟨hye, _⟩ := julianDay_of_yields he hy
  have hnumbers : y - x = e.dayNumber - d.dayNumber := by
    rw [hxd, hye]
    unfold julianDay
    omega
  have hsucc : e = d.succ → y = x + 1 := by
    rintro rfl
    rw [Gregorian.Date.dayNumber_succ] at hnumbers
    omega
  refine ⟨hsucc, ?_, ?_, fun n => ?_, fun hnonneg => ?_⟩
  · rw [Date.operatorLt_eq hx hy, Option.some_inj, decide_eq_decide,
      Gregorian.Date.lt_iff_dayNumber_lt]
    omega
  · rw [Date.operatorEq_eq hx hy, Option.some_inj, decide_eq_decide, hxd, hye,
      julianDay_injective.eq_iff]
  · rw [hnumbers, ← Gregorian.Date.dayNumber_injective.eq_iff, Gregorian.Date.dayNumber_advance,
      sub_eq_iff_eq_add', eq_comm]
  · refine ⟨_, Date.weekDay_yields hd hx hnonneg, by omega, by omega, fun h => ?_, ?_⟩
    · have hweek := Date.weekDay_yields he hy (by have := hsucc h; omega)
      rwa [hsucc h, show (x + 1 + 1) % 7 = ((x + 1) % 7 + 1) % 7 by omega] at hweek
    · rintro rfl
      rw [hxd, julianDay_epoch]
      rfl

/-- The epoch and the day after it. -/
theorem date_order_epoch :
    Date.operatorLt (Date.ofGregorian epoch) (Date.ofGregorian epoch.succ) = some true ∧
    (Date.ofGregorian epoch).weekDay.Yields 4 := by
  have hx : (Date.ofGregorian epoch).julianDayNumber.Yields 2440588 := by decide
  have hy : (Date.ofGregorian epoch.succ).julianDayNumber.Yields 2440589 := by decide
  obtain ⟨_, hlt, _, _, hweek⟩ := date_order (Or.inl (Or.inl (by decide)))
    (Or.inl (Or.inl (by decide))) hx hy
  obtain ⟨w, hw, _, _, _, hthursday⟩ := hweek (by decide)
  exact ⟨hlt, hthursday rfl ▸ hw⟩

end NaiveNet
