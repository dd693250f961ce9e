import NaiveNet.DateOrder
import NaiveNet.Timestamp

/-!
# Dates as texts

`Date::toIsoString`. The text of a date tells the date, and for years of at most four
digits the texts are in the order of the dates, though the year is filled with blanks.
-/
namespace NaiveNet

/-- `"%4d-%02d-%02d"` -/
def isoText (year month day : ℤ) : List Char :=
  blankFilled 4 year ++ ('-' :: (zeroFilled 2 month ++ ('-' :: zeroFilled 2 day)))

/-- `none` where the numbers of the date are undefined. -/
def Date.toIsoString (date : Date) : Option (List Char) := do
  let year ← date.yearMonthDay.year.toInt?
  let month ← date.yearMonthDay.month.toInt?
  let day ← date.yearMonthDay.day.toInt?
  return Timestamp.snprintf 32 (isoText year month day)

variable {d e : Gregorian.Date}

/-- The text of a date in its fields. -/
def textOf (d : Gregorian.Date) : List Char := isoText d.year d.month d.day

theorem length_fields (d : Gregorian.Date) : ('-' :: (zeroFilled 2 (d.month : ℤ) ++
    ('-' :: zeroFilled 2 (d.day : ℤ)))).length = 6 := by
  obtain ⟨_, h12, _, hd31⟩ := d.bounds
  have hmonth := length_twoDigits (v := d.month) (by omega)
  have hday := length_twoDigits (v := d.day) (by omega)
  simp only [List.length_cons, List.length_append, hmonth, hday]

theorem textOf_injective : Function.Injective textOf := by
  intro d e h
  obtain ⟨_, hdmonth, _, hdday⟩ := d.bounds
  obtain ⟨_, hemonth, _, heday⟩ := e.bounds
  obtain ⟨hyear, hfields⟩ := List.append_inj' h (by rw [length_fields, length_fields])
  obtain ⟨hmonth, hday⟩ := twoDigits_append_inj (by omega) (by omega) (List.cons.inj hfields).2
  have hday := zeroFilled_inj (by omega) (by omega) (List.cons.inj hday).2
  exact Gregorian.Date.ext (blankFilled_injective 4 hyear) (by omega) (by omega)

theorem length_textOf_le (hfirst : firstDate ≤ d) (hlast : d ≤ lastDate) :
    (textOf d).length ≤ 31 := by
  have hlo := (year_of_firstDate_le hfirst).1
  have hhi := year_of_le_lastDate hlast
  have hyear := length_decimal_le (v := d.year) (k := 7) (by omega) (by omega)
  rw [textOf, isoText, List.length_append, length_fields, blankFilled, List.length_leftpad]
  omega

theorem length_textOf (hlo : 0 ≤ d.year) (hhi : d.year ≤ 9999) : (textOf d).length = 10 := by
  rw [textOf, isoText, List.length_append, length_fields,
    length_blankFilled (by omega) hlo (by omega)]

theorem textOf_lt (hlo : 0 ≤ d.year) (hhi : e.year ≤ 9999) (h : d < e) : textOf d < textOf e := by
  obtain ⟨_, _, _, _⟩ := d.bounds
  obtain ⟨_, _, _, _⟩ := e.bounds
  rw [Gregorian.Date.lt_def] at h
  refine blankFilled_append_lt hlo (by omega) (h.imp id ?_)
  refine And.imp id fun h => ?_
  refine List.cons_lt_cons_iff.mpr (Or.inr ⟨rfl, ?_⟩)
  refine zeroFilled_append_lt (by omega) (by omega) (h.imp (by omega) ?_)
  refine And.imp (by omega) fun h => ?_
  refine List.cons_lt_cons_iff.mpr (Or.inr ⟨rfl, ?_⟩)
  rw [← List.append_nil (zeroFilled 2 (d.day : ℤ)), ← List.append_nil (zeroFilled 2 (e.day : ℤ))]
  exact zeroFilled_append_lt (by omega) (by omega) (Or.inl (by omega))

/-- The date is decoded from its day number as it was. -/
theorem yearMonthDay_yields (hfirst : firstDate ≤ d) (hlast : d ≤ lastDate) :
    (Date.ofGregorian d).yearMonthDay.Yields d := by
  obtain ⟨_, _, _, _⟩ := d.bounds
  have hlo := (year_of_firstDate_le hfirst).1
  have hhi := year_of_le_lastDate hlast
  have hjulian : (getJulianDayNumber (d.year : ℤ) (d.month : ℤ) (d.day : ℤ)).Yields (julianDay d) :=
    getJulianDayNumber_yields CInt.yields_ofInt CInt.yields_ofInt CInt.yields_ofInt hfirst hlast
  rw [← julianDay_le_iff, julianDay_firstDate] at hfirst
  rw [← julianDay_le_iff, julianDay_lastDate] at hlast
  obtain ⟨date, hymd, hsame⟩ := getYearMonthDay_yields hjulian hfirst hlast
  rwa [julianDay_injective hsame] at hymd

theorem toIsoString_eq (hfirst : firstDate ≤ d) (hlast : d ≤ lastDate) :
    (Date.ofGregorian d).toIsoString = some (textOf d) := by
  obtain ⟨hyear, hmonth, hday⟩ := yearMonthDay_yields hfirst hlast
  have hcut : Timestamp.snprintf 32 (textOf d) = textOf d :=
    List.take_of_length_le (length_textOf_le hfirst hlast)
  unfold Date.toIsoString
  rw [hyear, hmonth, hday]
  exact congrArg some hcut

/-- From -4800-03-01 to the last date that is decoded, the text of a date is never cut by the
buffer and tells the date. For the years from 0 to 9999 it has ten characters, and the texts
compare as the dates do. -/
theorem iso_exact (hd : firstDate ≤ d) (hd' : d ≤ lastDate) (he : firstDate ≤ e)
    (he' : e ≤ lastDate) : ∃ t u, (Date.ofGregorian d).toIsoString = some t ∧
      (Date.ofGregorian e).toIsoString = some u ∧ t = isoText d.year d.month d.day ∧
      (t = u ↔ d = e) ∧ (0 ≤ d.year → d.year ≤ 9999 → 0 ≤ e.year → e.year ≤ 9999 →
        t.length = 10 ∧ (t < u ↔ d < e)) := by
  refine ⟨_, _, toIsoString_eq hd hd', toIsoString_eq he he', rfl, textOf_injective.eq_iff,
    fun hdlo hdhi helo hehi => ⟨length_textOf hdlo hdhi, fun hlt => ?_, textOf_lt hdlo hehi⟩⟩
  rcases Gregorian.Date.lt_trichotomy d e with h | h | h
  · exact h
  · rw [h] at hlt
    exact absurd hlt (lt_irrefl _)
  · exact absurd (textOf_lt helo hdhi h) (lt_asymm hlt)

/-- The year 999 has a blank in front, and is before the year 1000. -/
theorem iso_exact_millennium : ∃ t u,
    Date.toIsoString (.ofYearMonthDay 999 12 31) = some t ∧
    Date.toIsoString (.ofYearMonthDay 1000 1 1) = some u ∧ t.length = 10 ∧ t < u := by
  obtain ⟨t, u, ht, hu, _, _, hfour⟩ := iso_exact
    (d := ⟨999, 12, 31, by decide, by decide, by decide, by decide⟩)
    (e := ⟨1000, 1, 1, by decide, by decide, by decide, by decide⟩)
    (Or.inl (Or.inl (by decide))) (Or.inl (Or.inl (by decide)))
    (Or.inl (Or.inl (by decide))) (Or.inl (Or.inl (by decide)))
  obtain ⟨hlength, hlt⟩ := hfour (by decide) (by decide) (by decide) (by decide)
  exact ⟨t, u, ht, hu, hlength, hlt.mpr (by decide)⟩

end NaiveNet
