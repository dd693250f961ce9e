import NaiveNet.Date

/-!
# Broken-down time in UTC

`TimeZone::toUtcTime` and `TimeZone::fromUtcTime`. `civil` says what the first is
for: the date reached by advancing 1970-01-01 over the whole days, and the time
of day from the seconds that are left, also before the epoch.
-/
namespace NaiveNet

/-- `struct tm`. The zone is the string that `tm_zone` points to. -/
structure Tm where
  tm_sec : ℤ
  tm_min : ℤ
  tm_hour : ℤ
  tm_mday : ℤ
  tm_mon : ℤ
  tm_year : ℤ
  tm_wday : ℤ
  tm_yday : ℤ
  tm_isdst : ℤ
  tm_gmtoff : ℤ
  tm_zone : Option (List UInt8)
  deriving DecidableEq

/-- What `bzero` leaves. -/
def Tm.zero : Tm := ⟨0, 0, 0, 0, 0, 0, 0, 0, 0, 0, none⟩

/-- `"GMT"` -/
def gmtName : List UInt8 := [71, 77, 84]

def kSecondsPerDay : ℤ := 24 * 60 * 60

/-- `seconds` is an `unsigned`. -/
def fillHMS (seconds : ℕ) (utc : Tm) : Tm :=
  let minutes := seconds / 60
  { utc with
    tm_sec := (seconds % 60 : ℕ)
    tm_min := (minutes % 60 : ℕ)
    tm_hour := (minutes / 60 : ℕ) }

/-- The first statements of `toUtcTime`: the second of the day and the day.
`none` where the computation in `int` overflows. -/
def secondsAndDays (secondsSinceEpoch : CInt 64) : Option (ℤ × ℤ) := do
  let seconds ← ((secondsSinceEpoch % kSecondsPerDay).cast 32).toInt?
  let days ← ((secondsSinceEpoch / kSecondsPerDay).cast 32).toInt?
  if seconds < 0 then do
    let seconds ← ((seconds : CInt 32) + kSecondsPerDay).toInt?
    let days ← ((days : CInt 32) - 1).toInt?
    return (seconds, days)
  else
    return (seconds, days)

def toUtcTime (secondsSinceEpoch : CInt 64) (yday : Bool) : Option Tm := do
  let utc := { Tm.zero with tm_zone := some gmtName }
  let (seconds, days) ← secondsAndDays secondsSinceEpoch
  let utc := fillHMS (seconds % 2 ^ 32).toNat utc
  let date := Date.ofJulianDay ((days : CInt 32) + kJulianDayOf1970_01_01)
  let ymd := date.yearMonthDay
  let tm_year ← (ymd.year - 1900).toInt?
  let tm_mon ← (ymd.month - 1).toInt?
  let tm_mday ← ymd.day.toInt?
  let tm_wday ← date.weekDay.toInt?
  let utc := { utc with
    tm_year := tm_year, tm_mon := tm_mon, tm_mday := tm_mday, tm_wday := tm_wday }
  if yday then do
    let startOfYear := Date.ofYearMonthDay ymd.year 1 1
    let tm_yday ← (date.julianDayNumber - startOfYear.julianDayNumber).toInt?
    return { utc with tm_yday := tm_yday }
  else
    return utc

/-- The overload on six numbers. -/
def fromUtcTime' (year month day hour minute seconds : CInt 32) : CInt 64 :=
  let date := Date.ofYearMonthDay year month day
  let secondsInDay := hour * 3600 + minute * 60 + seconds
  let days := (date.julianDayNumber - kJulianDayOf1970_01_01).cast 64
  days * kSecondsPerDay + secondsInDay.cast 64

def fromUtcTime (utc : Tm) : CInt 64 :=
  fromUtcTime' ((utc.tm_year : CInt 32) + 1900) ((utc.tm_mon : CInt 32) + 1) utc.tm_mday
    utc.tm_hour utc.tm_min utc.tm_sec

/-- 1970-01-01. -/
def epoch : Gregorian.Date := Gregorian.Date.newYear 1970

/-- The broken-down time of an instant in the proleptic Gregorian calendar. Months and
the days of the year count from 0, as in `struct tm`. -/
def civil (t : ℤ) : Tm :=
  let date := epoch.advance (t / 86400)
  let second := t % 86400
  { tm_sec := second % 60
    tm_min := second / 60 % 60
    tm_hour := second / 3600
    tm_mday := date.day
    tm_mon := date.month - 1
    tm_year := date.year - 1900
    tm_wday := (4 + t / 86400) % 7
    tm_yday := date.ordinal - 1
    tm_isdst := 0
    tm_gmtoff := 0
    tm_zone := some gmtName }

theorem julianDay_epoch : julianDay epoch = 2440588 := by
  rw [julianDay_eq epoch rfl rfl rfl]
  norm_num [epoch]

theorem julianDay_advance (n : ℤ) : julianDay (epoch.advance n) = n + 2440588 := by
  have h := Gregorian.Date.dayNumber_advance epoch n
  have he := julianDay_epoch
  unfold julianDay at he ⊢
  omega

theorem kJulianDayOf1970_01_01_yields : kJulianDayOf1970_01_01.Yields 2440588 := by
  rw [← julianDay_epoch]
  exact getJulianDayNumber_yields (CInt.yields_lit 1970)
    (CInt.yields_lit 1) (CInt.yields_lit 1)
    (Or.inl (Or.inl (by decide))) (Or.inl (Or.inl (by decide)))

/-- C's quotient and remainder, corrected for a negative remainder, are the floor's. -/
theorem tmod_tdiv_corrected (x : ℤ) :
    (if x.tmod 86400 < 0 then x.tmod 86400 + 86400 else x.tmod 86400) = x % 86400 ∧
    (if x.tmod 86400 < 0 then x.tdiv 86400 - 1 else x.tdiv 86400) = x / 86400 := by
  have hdef := Int.mul_tdiv_add_tmod x 86400
  have hlt := Int.tmod_lt_of_pos x (show (0 : ℤ) < 86400 by omega)
  have hgt := Int.lt_tmod_of_pos x (show (0 : ℤ) < 86400 by omega)
  split_ifs <;> omega

/-- The first of January of a date's year. -/
def startOfYear (date : Gregorian.Date) : Gregorian.Date := Gregorian.Date.newYear date.year

theorem julianDay_startOfYear (date : Gregorian.Date) :
    julianDay (startOfYear date) = julianDay date - (date.ordinal - 1) := by
  simp only [julianDay, Gregorian.Date.dayNumber, Gregorian.Date.ordinal, startOfYear,
    Gregorian.daysBeforeMonth]
  simp
  omega

/-- The days `toUtcTime` covers. -/
def UtcRange (x : ℤ) : Prop := 0 ≤ x / 86400 + 2440588 ∧ x / 86400 + 2440588 ≤ 536838867

theorem fillHMS_eq {s : ℤ} (h0 : 0 ≤ s) (h1 : s < 86400) (utc : Tm) :
    fillHMS (s % 2 ^ 32).toNat utc =
      { utc with tm_sec := s % 60, tm_min := s / 60 % 60, tm_hour := s / 3600 } := by
  obtain ⟨k, hk⟩ : ∃ k : ℕ, (s % 2 ^ 32).toNat = k ∧ s = k := ⟨_, rfl, by omega⟩
  obtain ⟨hcast, hs⟩ := hk
  rw [hcast, hs]
  have hhour : k / 60 / 60 = k / 3600 := by omega
  simp [fillHMS, hhour]

theorem kSecondsPerDay_eq : kSecondsPerDay = 86400 := rfl

/-- The computed date is the epoch advanced over the whole days. -/
theorem ofJulianDay_yields {days : ℤ} (hlo : 0 ≤ days + 2440588)
    (hhi : days + 2440588 ≤ 536838867) :
    let date := Date.ofJulianDay ((days : CInt 32) + kJulianDayOf1970_01_01)
    date.julianDayNumber.Yields (days + 2440588) ∧
      date.yearMonthDay.Yields (epoch.advance days) ∧
      date.weekDay.Yields ((4 + days) % 7) := by
  have hdays : (days : CInt 32).Yields days := CInt.yields_ofInt
  have hjdn := hdays.add kJulianDayOf1970_01_01_yields
  refine ⟨hjdn, ?_, ?_⟩
  · obtain ⟨date, hymd, hjd⟩ := getYearMonthDay_yields hjdn (by omega) hhi
    rw [← julianDay_advance] at hjd
    rwa [julianDay_injective hjd] at hymd
  · have hweek := (hjdn.add (CInt.yields_lit 1)).mod (CInt.yields_lit 7)
    have hshift : (days + 2440588 + (1 : ℕ)) % (7 : ℕ) = (4 + days) % 7 := by omega
    rwa [hshift] at hweek

/-- These days and the starts of their years are among the dates of the encoding. -/
theorem date_range {x : ℤ} (hx : UtcRange x) :
    firstDate ≤ startOfYear (epoch.advance (x / 86400)) ∧
      startOfYear (epoch.advance (x / 86400)) ≤ lastDate ∧
      firstDate ≤ epoch.advance (x / 86400) ∧ epoch.advance (x / 86400) ≤ lastDate := by
  obtain ⟨hlo, hhi⟩ := hx
  have hord := (epoch.advance (x / 86400)).ordinal_bounds
  simp only [← julianDay_le_iff, julianDay_startOfYear, julianDay_advance,
    julianDay_firstDate, julianDay_lastDate]
  omega

theorem secondsAndDays_eq {t : CInt 64} {x : ℤ} (ht : t.Yields x) (hx : UtcRange x) :
    secondsAndDays t = some (x % 86400, x / 86400) := by
  obtain ⟨hlo, hhi⟩ := hx
  obtain ⟨hsecond, hday⟩ := tmod_tdiv_corrected x
  have hk : ((86400 : ℤ) : CInt 64).Yields 86400 := CInt.yields_ofInt
  have hlt := Int.tmod_lt_of_pos x (show (0 : ℤ) < 86400 by omega)
  have hgt := Int.lt_tmod_of_pos x (show (0 : ℤ) < 86400 by omega)
  have hseconds : ((t % ((86400 : ℤ) : CInt 64)).cast 32).toInt? = some (x.tmod 86400) :=
    (ht.tmod hk).cast (by omega) (inRange_32.mpr (by omega))
  have hdays : ((t / ((86400 : ℤ) : CInt 64)).cast 32).toInt? = some (x.tdiv 86400) :=
    (ht.tdiv hk).cast (by omega) (inRange_32.mpr (by split_ifs at hday <;> omega))
  simp only [secondsAndDays, kSecondsPerDay_eq, hseconds, hdays, Option.bind_eq_bind,
    Option.bind_some]
  split_ifs at hsecond hday ⊢
  · have hseconds' : ((x.tmod 86400 : CInt 32) + ((86400 : ℤ) : CInt 32)).toInt? =
        some (x.tmod 86400 + 86400) :=
      (CInt.yields_ofInt (x := x.tmod 86400)).add CInt.yields_ofInt
    have hdays' : ((x.tdiv 86400 : CInt 32) - 1).toInt? = some (x.tdiv 86400 - 1) :=
      (CInt.yields_ofInt (x := x.tdiv 86400)).sub (CInt.yields_lit 1)
    simp only [hseconds', hdays', Option.bind_some, hsecond, hday]
    rfl
  · rw [hsecond, hday]
    rfl

theorem startOfYear_yields {year : CInt 32} {x : ℤ} (hx : UtcRange x)
    (hyear : year.Yields (epoch.advance (x / 86400)).year) :
    (Date.ofYearMonthDay year 1 1).julianDayNumber.Yields
      (x / 86400 + 2440588 - ((epoch.advance (x / 86400)).ordinal - 1)) := by
  obtain ⟨hfirst, hlast, _⟩ := date_range hx
  have hstart : (Date.ofYearMonthDay year 1 1).julianDayNumber.Yields
      (julianDay (startOfYear (epoch.advance (x / 86400)))) :=
    getJulianDayNumber_yields hyear (CInt.yields_lit 1) (CInt.yields_lit 1) hfirst hlast
  rwa [julianDay_startOfYear, julianDay_advance] at hstart

/-- `toUtcTime` is defined on these days, and is the calendar's broken-down time. -/
theorem toUtcTime_eq {t : CInt 64} {x : ℤ} (ht : t.Yields x) (hx : UtcRange x) (yday : Bool) :
    toUtcTime t yday =
      some { civil x with tm_yday := if yday then (civil x).tm_yday else 0 } := by
  obtain ⟨hlo, hhi⟩ := id hx
  obtain ⟨hjdn, ⟨hyear, hmonth, hmday⟩, hweek⟩ := ofJulianDay_yields hlo hhi
  obtain ⟨_, _, hfirst, hlast⟩ := date_range hx
  have hy0 := (year_of_firstDate_le hfirst).1
  have hy1 := year_of_le_lastDate hlast
  have h12 := (epoch.advance (x / 86400)).month_le
  have hord := (epoch.advance (x / 86400)).ordinal_bounds
  have htm_year := hyear.sub (CInt.yields_lit 1900)
  have htm_mon := hmonth.sub (CInt.yields_lit 1)
  have htm_yday := hjdn.sub (startOfYear_yields hx hyear)
  rw [sub_sub_cancel] at htm_yday
  unfold CInt.Yields at htm_year htm_mon hmday hweek htm_yday
  have hfill := fillHMS_eq (Int.emod_nonneg x (show (86400 : ℤ) ≠ 0 by omega))
    (Int.emod_lt_of_pos x (show (0 : ℤ) < 86400 by omega))
  simp only [toUtcTime, secondsAndDays_eq ht hx, Option.bind_eq_bind, Option.bind_some,
    hfill, htm_year, htm_mon, hmday, hweek]
  cases yday with
  | false => rfl
  | true =>
    simp only [if_true, htm_yday]
    rfl

/-- The fields from year to second are those of a date and of a time of day. -/
structure Tm.Normalized (tm : Tm) (date : Gregorian.Date) : Prop where
  year_eq : tm.tm_year = date.year - 1900
  mon_eq : tm.tm_mon = date.month - 1
  mday_eq : tm.tm_mday = date.day
  hour : 0 ≤ tm.tm_hour ∧ tm.tm_hour < 24
  min : 0 ≤ tm.tm_min ∧ tm.tm_min < 60
  sec : 0 ≤ tm.tm_sec ∧ tm.tm_sec < 60

/-- The seconds since midnight. -/
def Tm.secondInDay (tm : Tm) : ℤ := tm.tm_hour * 3600 + tm.tm_min * 60 + tm.tm_sec

theorem civil_normalized (x : ℤ) : (civil x).Normalized (epoch.advance (x / 86400)) := by
  constructor <;> simp only [civil] <;> omega

/-- The printed fields of an instant have at most two digits. -/
theorem civil_fields (x : ℤ) :
    (0 ≤ (civil x).tm_mon + 1 ∧ (civil x).tm_mon + 1 ≤ 99) ∧
      (0 ≤ (civil x).tm_mday ∧ (civil x).tm_mday ≤ 99) ∧
      (0 ≤ (civil x).tm_hour ∧ (civil x).tm_hour ≤ 99) ∧
      (0 ≤ (civil x).tm_min ∧ (civil x).tm_min ≤ 99) ∧
      0 ≤ (civil x).tm_sec ∧ (civil x).tm_sec ≤ 99 := by
  obtain ⟨_, hmon, hmday, hhour, hmin, hsec⟩ := civil_normalized x
  obtain ⟨h1, h12, hd1, hd31⟩ := (epoch.advance (x / 86400)).bounds
  omega

theorem civil_secondInDay (x : ℤ) : (civil x).secondInDay = x - 86400 * (x / 86400) := by
  simp only [Tm.secondInDay, civil]
  omega

/-- An instant is determined by the fields from year to second. -/
theorem civil_inj {x y : ℤ} (hyear : (civil x).tm_year = (civil y).tm_year)
    (hmon : (civil x).tm_mon = (civil y).tm_mon) (hmday : (civil x).tm_mday = (civil y).tm_mday)
    (hhour : (civil x).tm_hour = (civil y).tm_hour) (hmin : (civil x).tm_min = (civil y).tm_min)
    (hsec : (civil x).tm_sec = (civil y).tm_sec) : x = y := by
  have hx := civil_normalized x
  have hy := civil_normalized y
  have hxsec := civil_secondInDay x
  have hysec := civil_secondInDay y
  have hdate : epoch.advance (x / 86400) = epoch.advance (y / 86400) := by
    have hyear' := hx.year_eq.symm.trans (hyear.trans hy.year_eq)
    have hmon' := hx.mon_eq.symm.trans (hmon.trans hy.mon_eq)
    have hmday' := hx.mday_eq.symm.trans (hmday.trans hy.mday_eq)
    apply Gregorian.Date.ext <;> omega
  have hday := congrArg julianDay hdate
  rw [julianDay_advance, julianDay_advance] at hday
  unfold Tm.secondInDay at hxsec hysec
  omega

/-- From the epoch on the year has at least four digits. -/
theorem civil_year_le {x : ℤ} (hx : 0 ≤ x) : 1970 ≤ (civil x).tm_year + 1900 := by
  have hle : epoch ≤ epoch.advance (x / 86400) := by
    rw [← julianDay_le_iff, julianDay_epoch, julianDay_advance]
    omega
  have hepoch : epoch.year = 1970 := rfl
  rw [(civil_normalized x).year_eq]
  obtain hlt | heq := hle
  · rw [Gregorian.Date.lt_def] at hlt
    omega
  · rw [← heq]
    omega

theorem fromUtcTime_yields {tm : Tm} {date : Gregorian.Date} (h : tm.Normalized date)
    (hlo : 0 ≤ julianDay date) (hhi : julianDay date ≤ 536838867) :
    (fromUtcTime tm).Yields ((julianDay date - 2440588) * 86400 + tm.secondInDay) := by
  obtain ⟨hyear, hmon, hmday, ⟨hhour0, hhour⟩, ⟨hmin0, hmin⟩, hsec0, hsec⟩ := h
  have hfirst : firstDate ≤ date := by
    rw [← julianDay_le_iff, julianDay_firstDate]
    omega
  have hlast : date ≤ lastDate := by rwa [← julianDay_le_iff, julianDay_lastDate]
  have hy0 := (year_of_firstDate_le hfirst).1
  have hy1 := year_of_le_lastDate hlast
  obtain ⟨h1, h12, hd1, hd31⟩ := date.bounds
  have hyear' : ((tm.tm_year : CInt 32) + 1900).Yields date.year := by
    have h := (CInt.yields_ofInt (x := tm.tm_year)).add (CInt.yields_lit 1900)
    rwa [show tm.tm_year + (1900 : ℕ) = date.year by omega] at h
  have hmon' : ((tm.tm_mon : CInt 32) + 1).Yields date.month := by
    have h := (CInt.yields_ofInt (x := tm.tm_mon)).add (CInt.yields_lit 1)
    rwa [show tm.tm_mon + (1 : ℕ) = date.month by omega] at h
  have hmday' : (tm.tm_mday : CInt 32).Yields date.day := by
    rw [hmday]
    exact CInt.yields_ofInt
  have hjdn := getJulianDayNumber_yields hyear' hmon' hmday' hfirst hlast
  have hsecond := (((CInt.yields_ofInt (w := 32) (x := tm.tm_hour)).mul (CInt.yields_lit 3600)).add
    ((CInt.yields_ofInt (x := tm.tm_min)).mul (CInt.yields_lit 60))).add
    (CInt.yields_ofInt (x := tm.tm_sec))
  have hdays := (hjdn.sub kJulianDayOf1970_01_01_yields).cast (v := 64) (by omega)
    (inRange_64.mpr (by omega))
  have hsecond' := hsecond.cast (v := 64) (by omega) (inRange_64.mpr (by omega))
  have hk : ((86400 : ℤ) : CInt 64).Yields 86400 := CInt.yields_ofInt
  unfold Tm.secondInDay
  exact (hdays.mul hk).add hsecond'

/-- `toUtcTime` is the broken-down time of the calendar and `fromUtcTime` its inverse,
on every instant of the days with a Julian day number from 0 to 536838867; no value
computed on the way leaves `int` or `time_t`. -/
theorem utcTime_exact :
    (∀ x : ℤ, 0 ≤ x / 86400 + 2440588 → x / 86400 + 2440588 ≤ 536838867 →
      let tm := civil x
      toUtcTime (x : CInt 64) true = some tm ∧
        tm.Normalized (epoch.advance (x / 86400)) ∧
        tm.secondInDay = x - 86400 * (x / 86400) ∧
        tm.tm_wday = (4 + x / 86400) % 7 ∧ 0 ≤ tm.tm_wday ∧ tm.tm_wday ≤ 6 ∧
        tm.tm_yday = (epoch.advance (x / 86400)).ordinal - 1 ∧
        ∀ yday, ∃ tm', toUtcTime (x : CInt 64) yday = some tm' ∧ (fromUtcTime tm').Yields x) ∧
    (∀ (tm : Tm) (date : Gregorian.Date), tm.Normalized date →
      0 ≤ julianDay date → julianDay date ≤ 536838867 →
      ∀ yday, ∃ tm', toUtcTime (fromUtcTime tm) yday = some tm' ∧
        tm'.tm_year = tm.tm_year ∧ tm'.tm_mon = tm.tm_mon ∧ tm'.tm_mday = tm.tm_mday ∧
        tm'.tm_hour = tm.tm_hour ∧ tm'.tm_min = tm.tm_min ∧ tm'.tm_sec = tm.tm_sec) := by
  constructor
  · intro x hlo hhi tm
    have hx : (x : CInt 64).Yields x := CInt.yields_ofInt
    have hback := fromUtcTime_yields (civil_normalized x)
      (by rwa [julianDay_advance]) (by rwa [julianDay_advance])
    rw [julianDay_advance, civil_secondInDay] at hback
    have hsum : (x / 86400 + 2440588 - 2440588) * 86400 + (x - 86400 * (x / 86400)) = x := by
      omega
    rw [hsum] at hback
    have hweek : tm.tm_wday = (4 + x / 86400) % 7 := rfl
    exact ⟨toUtcTime_eq hx ⟨hlo, hhi⟩ true, civil_normalized x, civil_secondInDay x, hweek,
      by omega, by omega, rfl, fun yday => ⟨_, toUtcTime_eq hx ⟨hlo, hhi⟩ yday, hback⟩⟩
  · intro tm date h hlo hhi yday
    have hfrom := fromUtcTime_yields h hlo hhi
    obtain ⟨hyear, hmon, hmday, ⟨hhour0, hhour⟩, ⟨hmin0, hmin⟩, hsec0, hsec⟩ := h
    obtain ⟨x, hx⟩ : ∃ x, x = (julianDay date - 2440588) * 86400 + tm.secondInDay := ⟨_, rfl⟩
    rw [← hx] at hfrom
    unfold Tm.secondInDay at hx
    have hday : x / 86400 = julianDay date - 2440588 := by omega
    have hdate : epoch.advance (x / 86400) = date := by
      apply julianDay_injective
      rw [julianDay_advance]
      omega
    refine ⟨_, toUtcTime_eq hfrom ⟨by omega, by omega⟩ yday, ?_⟩
    simp only [civil, hdate]
    omega

theorem utcTime_exact_before_epoch :
    toUtcTime ((-1 : ℤ) : CInt 64) true = some (civil (-1)) ∧
    ∃ tm', toUtcTime (fromUtcTime (civil (-1))) true = some tm' ∧ tm'.tm_sec = 59 := by
  constructor
  · exact (utcTime_exact.1 (-1) (by decide) (by decide)).1
  · obtain ⟨tm', htm', _, _, _, _, _, hsec⟩ :=
      utcTime_exact.2 (civil (-1)) (epoch.advance (-1 / 86400)) (civil_normalized (-1))
        (by rw [julianDay_advance]; decide) (by rw [julianDay_advance]; decide) true
    exact ⟨tm', htm', hsec⟩

end NaiveNet
