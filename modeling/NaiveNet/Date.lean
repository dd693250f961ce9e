import NaiveNet.CInt
import NaiveNet.Gregorian

/-!
# Dates by Julian day number

`getJulianDayNumber` and `getYearMonthDay` as they compute in `int`. Both are
followed through every intermediate value: on the dates from -4800-03-01 on and
the day numbers from -32044 on nothing is negative where it is divided, so C's
truncation is the floor, and nothing overflows up to day 536838867.
-/
namespace NaiveNet

structure YearMonthDay where
  year : CInt 32
  month : CInt 32
  day : CInt 32

def getJulianDayNumber (year month day : CInt 32) : CInt 32 :=
  let a := (14 - month) / 12
  let y := year + 4800 - a
  let m := month + 12 * a - 3
  day + (153 * m + 2) / 5 + y * 365 + y / 4 - y / 100 + y / 400 - 32045

def getYearMonthDay (julianDayNumber : CInt 32) : YearMonthDay :=
  let a := julianDayNumber + 32044
  let b := (4 * a + 3) / 146097
  let c := a - ((b * 146097) / 4)
  let d := (4 * c + 3) / 1461
  let e := c - ((1461 * d) / 4)
  let m := (5 * e + 2) / 153
  { day := e - ((153 * m + 2) / 5) + 1
    month := m + 3 - 12 * (m / 10)
    year := b * 100 + d - 4800 + (m / 10) }

def kDaysPerWeek : CInt 32 := 7

def kJulianDayOf1970_01_01 : CInt 32 := getJulianDayNumber 1970 1 1

/-- `Date`, an `int` that counts days. -/
structure Date where
  julianDayNumber_ : CInt 32

namespace Date

def ofYearMonthDay (y m d : CInt 32) : Date := ⟨getJulianDayNumber y m d⟩

def ofJulianDay (julianDayNum : CInt 32) : Date := ⟨julianDayNum⟩

def julianDayNumber (date : Date) : CInt 32 := date.julianDayNumber_

def yearMonthDay (date : Date) : YearMonthDay := getYearMonthDay date.julianDayNumber_

def weekDay (date : Date) : CInt 32 := (date.julianDayNumber_ + 1) % kDaysPerWeek

end Date

open CInt (yields_lit)

/-- The three numbers are those of a calendar date. -/
def YearMonthDay.Yields (ymd : YearMonthDay) (date : Gregorian.Date) : Prop :=
  ymd.year.Yields date.year ∧ ymd.month.Yields date.month ∧ ymd.day.Yields date.day

/-- The Julian day number of a date. -/
def julianDay (date : Gregorian.Date) : ℤ := date.dayNumber + 1721425

/-- The first date whose Julian day number comes from a nonnegative `y`. -/
def firstDate : Gregorian.Date := ⟨-4800, 3, 1, by decide, by decide, by decide, by decide⟩

/-- The date of day 536838867, the last one that `4 * a + 3` leaves in range. -/
def lastDate : Gregorian.Date := ⟨1465102, 10, 18, by decide, by decide, by decide, by decide⟩

/-- The formula over March-based years and months counts the days of the calendar. -/
theorem julianDay_eq (date : Gregorian.Date) {a y m : ℤ} (ha : a = (14 - date.month) / 12)
    (hy : y = date.year + 4800 - a) (hm : m = date.month + 12 * a - 3) :
    julianDay date =
      date.day + (153 * m + 2) / 5 + y * 365 + y / 4 - y / 100 + y / 400 - 32045 := by
  have h1 := date.month_pos
  have h12 := date.month_le
  have hbefore := Gregorian.daysBeforeMonth_eq date.year h1 h12
  have hleap := Gregorian.leapDay_eq date.year
  unfold julianDay Gregorian.Date.dayNumber Gregorian.Date.ordinal Gregorian.daysBeforeYear
  split_ifs at hbefore with h2
  · have ha1 : a = 1 := by omega
    subst ha1
    omega
  · have ha0 : a = 0 := by omega
    subst ha0
    omega

theorem year_of_firstDate_le {date : Gregorian.Date} (h : firstDate ≤ date) :
    -4800 ≤ date.year ∧ (date.year = -4800 → 3 ≤ date.month) := by
  rw [Gregorian.Date.le_def, Gregorian.Date.lt_def] at h
  simp only [firstDate, Gregorian.Date.ext_iff] at h
  omega

theorem year_of_le_lastDate {date : Gregorian.Date} (h : date ≤ lastDate) :
    date.year ≤ 1465102 := by
  rw [Gregorian.Date.le_def, Gregorian.Date.lt_def] at h
  simp only [lastDate, Gregorian.Date.ext_iff] at h
  omega

/-- The terms of the formula that come from the month alone are defined for every month. -/
theorem monthTerms_yields {month : CInt 32} {date : Gregorian.Date}
    (hmonth : month.Yields date.month) {a m : ℤ} (ha : (14 - (date.month : ℤ)) / 12 = a)
    (hm : (date.month : ℤ) + 12 * a - 3 = m) :
    ((14 - month) / 12).Yields a ∧
      ((153 * (month + 12 * ((14 - month) / 12) - 3) + 2) / 5).Yields ((153 * m + 2) / 5) := by
  have h1 := date.month_pos
  have h12 := date.month_le
  have hshift : ((14 - month) / 12).Yields a :=
    ha ▸ ((yields_lit 14).sub hmonth).div (yields_lit 12)
  have hmarch : (month + 12 * ((14 - month) / 12) - 3).Yields m :=
    hm ▸ (hmonth.add ((yields_lit 12).mul hshift)).sub (yields_lit 3)
  exact ⟨hshift, (((yields_lit 153).mul hmarch).add (yields_lit 2)).div (yields_lit 5)⟩

/-- `getJulianDayNumber` is defined on these dates, and is their Julian day number. -/
theorem getJulianDayNumber_yields {year month day : CInt 32} {date : Gregorian.Date}
    (hyear : year.Yields date.year) (hmonth : month.Yields date.month)
    (hday : day.Yields date.day) (hfirst : firstDate ≤ date) (hlast : date ≤ lastDate) :
    (getJulianDayNumber year month day).Yields (julianDay date) := by
  obtain ⟨h1, h12, hd1, hd31⟩ := date.bounds
  obtain ⟨hlo, hmarch⟩ := year_of_firstDate_le hfirst
  have hhi := year_of_le_lastDate hlast
  obtain ⟨a, hae⟩ : ∃ a, (14 - (date.month : ℤ)) / 12 = a := ⟨_, rfl⟩
  obtain ⟨m, hme⟩ : ∃ m, (date.month : ℤ) + 12 * a - 3 = m := ⟨_, rfl⟩
  obtain ⟨ha, hmonths⟩ := monthTerms_yields hmonth hae hme
  have hy : (year + 4800 - (14 - month) / 12).Yields (date.year + 4800 - a) :=
    (hyear.add (yields_lit 4800)).sub ha
  rw [julianDay_eq date hae.symm rfl hme.symm]
  generalize hye : date.year + 4800 - a = y at hy ⊢
  have hyears := hy.mul (yields_lit 365)
  have hfours := hy.div (yields_lit 4)
  have hcenturies := hy.div (yields_lit 100)
  have hcycles := hy.div (yields_lit 400)
  have hsum := (((((hday.add hmonths).add hyears).add hfours).sub hcenturies).add hcycles).sub
    (yields_lit 32045)
  exact hsum

/-- The numbers that the decoding computes for a count `a` of days since -4800-03-01. -/
structure Decoded (a b c d e m : ℤ) : Prop where
  b_eq : b = (4 * a + 3) / 146097
  c_eq : c = a - b * 146097 / 4
  d_eq : d = (4 * c + 3) / 1461
  e_eq : e = c - 1461 * d / 4
  m_eq : m = (5 * e + 2) / 153

theorem Decoded.bounds {a b c d e m : ℤ} (h : Decoded a b c d e m) (ha : 0 ≤ a) :
    (0 ≤ b ∧ 0 ≤ c ∧ c ≤ 36524 ∧ (c = 36524 → b % 4 = 3)) ∧
    (0 ≤ d ∧ d ≤ 99 ∧ 0 ≤ e ∧ e ≤ 365 ∧ (e = 365 → d % 4 = 3)) ∧ (0 ≤ m ∧ m ≤ 11) := by
  obtain ⟨hb, hc, hd, he, hm⟩ := h
  have hcentury : b * 146097 / 4 = 36524 * b + b / 4 := by omega
  have hfour : 1461 * d / 4 = 365 * d + d / 4 := by omega
  rw [hcentury] at hc
  rw [hfour] at he
  have hb0 : 0 ≤ b ∧ 0 ≤ c ∧ c ≤ 36524 ∧ (c = 36524 → b % 4 = 3) := by omega
  clear hb hc
  have hd0 : 0 ≤ d ∧ d ≤ 99 ∧ 0 ≤ e ∧ e ≤ 365 ∧ (e = 365 → d % 4 = 3) := by omega
  exact ⟨hb0, hd0, by omega⟩

/-- Day 365 of a March-based year exists only at the end of a leap February. -/
theorem Decoded.isLeap {a b c d e m : ℤ} (h : Decoded a b c d e m) (ha : 0 ≤ a)
    (he : e = 365) : Gregorian.isLeap (b * 100 + d - 4800 + 1) = true := by
  obtain ⟨⟨hb0, _, _, hc⟩, ⟨_, hd99, _, _, hd4⟩, _⟩ := h.bounds ha
  have hmod := hd4 he
  have hcycle : d = 99 → b % 4 = 3 := by
    intro hd
    have hlast := h.e_eq
    subst hd
    exact hc (by omega)
  simp only [Gregorian.isLeap, Bool.and_eq_true, Bool.or_eq_true, Bool.not_eq_true',
    decide_eq_true_eq, decide_eq_false_iff_not]
  omega

/-- The decoded numbers are those of the calendar date with that day number. -/
theorem Decoded.exists_date {a b c d e m : ℤ} (h : Decoded a b c d e m) (ha : 0 ≤ a) :
    ∃ date : Gregorian.Date, date.year = b * 100 + d - 4800 + m / 10 ∧
      (date.month : ℤ) = m + 3 - 12 * (m / 10) ∧
      (date.day : ℤ) = e - (153 * m + 2) / 5 + 1 ∧ julianDay date = a - 32044 := by
  obtain ⟨⟨hb0, _⟩, ⟨hd0, hd99, he0, he365, _⟩, hm0, hm11⟩ := h.bounds ha
  have hleap := h.isLeap ha
  have hmeq := h.m_eq
  obtain ⟨month, hmonth⟩ : ∃ k : ℕ, (k : ℤ) = m + 3 - 12 * (m / 10) :=
    ⟨_, Int.toNat_of_nonneg (by omega)⟩
  obtain ⟨day, hday⟩ : ∃ k : ℕ, (k : ℤ) = e - (153 * m + 2) / 5 + 1 :=
    ⟨_, Int.toNat_of_nonneg (by omega)⟩
  have hle : day ≤ Gregorian.daysInMonth (b * 100 + d - 4800 + m / 10) month := by
    by_cases hfeb : month = 2
    · have hm : m = 11 := by omega
      subst hfeb hm
      rw [Gregorian.daysInMonth_two]
      split_ifs with hl
      · omega
      · have hne : e ≠ 365 := fun he => hl (hleap he)
        omega
    · obtain ⟨k, rfl⟩ : ∃ k : ℕ, m = k := ⟨m.toNat, by omega⟩
      have hk : (month + 9) % 12 = k := by omega
      have hstart : (day : ℤ) = e - ((153 * k + 2) / 5 : ℕ) + 1 := by push_cast; exact hday
      have hnext : e + 1 ≤ ((153 * (k + 1) + 2) / 5 : ℕ) := by
        push_cast
        rw [Int.le_ediv_iff_mul_le (by omega)]
        omega
      rw [Gregorian.daysInMonth_eq _ (by omega) (by omega) hfeb, hk]
      omega
  obtain ⟨date, hdy, hdm, hdd⟩ : ∃ date : Gregorian.Date,
      date.year = b * 100 + d - 4800 + m / 10 ∧ date.month = month ∧ date.day = day :=
    ⟨⟨_, month, day, by omega, by omega, by omega, hle⟩, rfl, rfl, rfl⟩
  refine ⟨date, hdy, by rw [hdm, hmonth], by rw [hdd, hday], ?_⟩
  have hcentury : b * 146097 / 4 = 36524 * b + b / 4 := by omega
  have hfour : 1461 * d / 4 = 365 * d + d / 4 := by omega
  have hfours : (b * 100 + d) / 4 = 25 * b + d / 4 := by omega
  have hhundreds : (b * 100 + d) / 100 = b := by omega
  have hcycles : (b * 100 + d) / 400 = b / 4 := by omega
  rw [julianDay_eq date (a := m / 10) (y := b * 100 + d) (m := m) (by omega) (by omega) (by omega),
    hfours, hhundreds, hcycles, hdd, hday]
  have hc := h.c_eq
  have he := h.e_eq
  omega

/-- `getYearMonthDay` is defined on these day numbers and decodes them. -/
theorem getYearMonthDay_yields {julianDayNumber : CInt 32} {x : ℤ}
    (h : julianDayNumber.Yields x) (hlo : -32044 ≤ x) (hhi : x ≤ 536838867) :
    ∃ date : Gregorian.Date, (getYearMonthDay julianDayNumber).Yields date ∧
      julianDay date = x := by
  obtain ⟨a, hae⟩ : ∃ a, a = x + 32044 := ⟨_, rfl⟩
  obtain ⟨b, hbe⟩ : ∃ b, b = (4 * a + 3) / 146097 := ⟨_, rfl⟩
  obtain ⟨c, hce⟩ : ∃ c, c = a - b * 146097 / 4 := ⟨_, rfl⟩
  obtain ⟨d, hde⟩ : ∃ d, d = (4 * c + 3) / 1461 := ⟨_, rfl⟩
  obtain ⟨e, hee⟩ : ∃ e, e = c - 1461 * d / 4 := ⟨_, rfl⟩
  obtain ⟨m, hme⟩ : ∃ m, m = (5 * e + 2) / 153 := ⟨_, rfl⟩
  have hdec : Decoded a b c d e m := ⟨hbe, hce, hde, hee, hme⟩
  obtain ⟨⟨hb0, hc0, hc1, _⟩, ⟨hd0, hd1, he0, he1, _⟩, hm0, hm1⟩ := hdec.bounds (by omega)
  have ha : (julianDayNumber + 32044).Yields a := by
    rw [hae]
    exact h.add (yields_lit 32044)
  generalize hA : julianDayNumber + 32044 = A at ha
  have hb : ((4 * A + 3) / 146097).Yields b := by
    rw [hbe]
    exact (((yields_lit 4).mul ha).add (yields_lit 3)).div (yields_lit 146097)
  generalize hB : (4 * A + 3) / 146097 = B at hb
  have hc : (A - B * 146097 / 4).Yields c := by
    rw [hce]
    exact ha.sub ((hb.mul (yields_lit 146097)).div (yields_lit 4))
  generalize hC : A - B * 146097 / 4 = C at hc
  have hd : ((4 * C + 3) / 1461).Yields d := by
    rw [hde]
    exact (((yields_lit 4).mul hc).add (yields_lit 3)).div (yields_lit 1461)
  generalize hD : (4 * C + 3) / 1461 = D at hd
  have he : (C - 1461 * D / 4).Yields e := by
    rw [hee]
    exact hc.sub (((yields_lit 1461).mul hd).div (yields_lit 4))
  generalize hE : C - 1461 * D / 4 = E at he
  have hm : ((5 * E + 2) / 153).Yields m := by
    rw [hme]
    exact (((yields_lit 5).mul he).add (yields_lit 2)).div (yields_lit 153)
  generalize hM : (5 * E + 2) / 153 = M at hm
  have htens := hm.div (yields_lit 10)
  obtain ⟨date, hyear, hmonth, hday, hjd⟩ := hdec.exists_date (by omega)
  refine ⟨date, ⟨?_, ?_, ?_⟩, by omega⟩ <;>
    simp only [getYearMonthDay, hA, hB, hC, hD, hE, hM, hyear, hmonth, hday]
  · exact (((hb.mul (yields_lit 100)).add hd).sub (yields_lit 4800)).add htens
  · exact (hm.add (yields_lit 3)).sub ((yields_lit 12).mul htens)
  · exact (he.sub ((((yields_lit 153).mul hm).add (yields_lit 2)).div (yields_lit 5))).add
      (yields_lit 1)

theorem julianDay_firstDate : julianDay firstDate = -32044 := by
  rw [julianDay_eq firstDate rfl rfl rfl]
  norm_num [firstDate]

theorem julianDay_lastDate : julianDay lastDate = 536838867 := by
  rw [julianDay_eq lastDate rfl rfl rfl]
  norm_num [lastDate]

theorem julianDay_injective : Function.Injective julianDay := by
  intro d e h
  apply Gregorian.Date.dayNumber_injective
  unfold julianDay at h
  omega

theorem julianDay_le_iff {d e : Gregorian.Date} : julianDay d ≤ julianDay e ↔ d ≤ e := by
  rw [Gregorian.Date.le_iff_dayNumber_le]
  unfold julianDay
  omega

/-- Encoding and decoding are inverse: every day number from -32044 to 536838867
decodes to a calendar date that encodes back to it, and every date from
-4800-03-01 to the last of these decodes from its own number. No intermediate
value leaves `int`. -/
theorem julianDay_inverse :
    (∀ x : ℤ, -32044 ≤ x → x ≤ 536838867 →
      let ymd := getYearMonthDay (x : CInt 32)
      (∃ date : Gregorian.Date, ymd.Yields date) ∧
        (getJulianDayNumber ymd.year ymd.month ymd.day).Yields x) ∧
    (∀ date : Gregorian.Date, firstDate ≤ date → date ≤ lastDate →
      ∃ x, (getJulianDayNumber (date.year : ℤ) (date.month : ℤ) (date.day : ℤ)).Yields x ∧
        (getYearMonthDay x).Yields date) := by
  constructor
  · intro x hlo hhi
    have hx : (x : CInt 32).Yields x := CInt.yields_ofInt
    obtain ⟨date, hymd, hjd⟩ := getYearMonthDay_yields hx hlo hhi
    obtain ⟨hyear, hmonth, hday⟩ := id hymd
    refine ⟨⟨date, hymd⟩, ?_⟩
    have hback := getJulianDayNumber_yields hyear hmonth hday
      (by rw [← julianDay_le_iff, julianDay_firstDate]; omega)
      (by rw [← julianDay_le_iff, julianDay_lastDate]; omega)
    rwa [hjd] at hback
  · intro date hfirst hlast
    obtain ⟨h1, h12, hd1, hd31⟩ := date.bounds
    have hlo := (year_of_firstDate_le hfirst).1
    have hhi := year_of_le_lastDate hlast
    refine ⟨julianDay date, getJulianDayNumber_yields CInt.yields_ofInt
      CInt.yields_ofInt CInt.yields_ofInt hfirst hlast, ?_⟩
    rw [← julianDay_le_iff, julianDay_firstDate] at hfirst
    rw [← julianDay_le_iff, julianDay_lastDate] at hlast
    obtain ⟨date', hymd, hjd⟩ := getYearMonthDay_yields CInt.yields_ofInt hfirst hlast
    rwa [julianDay_injective hjd] at hymd

/-- Day 2440588 and 1970-01-01, one from the other. -/
theorem julianDay_inverse_epoch :
    (getJulianDayNumber (getYearMonthDay ((2440588 : ℤ) : CInt 32)).year
      (getYearMonthDay ((2440588 : ℤ) : CInt 32)).month
      (getYearMonthDay ((2440588 : ℤ) : CInt 32)).day).Yields 2440588 ∧
    ∃ x, (getJulianDayNumber (1970 : ℤ) (1 : ℤ) (1 : ℤ)).Yields x ∧
      (getYearMonthDay x).Yields ⟨1970, 1, 1, by decide, by decide, by decide, by decide⟩ :=
  ⟨(julianDay_inverse.1 2440588 (by decide) (by decide)).2,
    julianDay_inverse.2 ⟨1970, 1, 1, by decide, by decide, by decide, by decide⟩
      (Or.inl (Or.inl (by decide))) (Or.inl (Or.inl (by decide)))⟩

end NaiveNet
