import NaiveNet.TimeZone

/-!
# Local time and back

`fromLocalTime` after `toLocalTime`. The lookup yields the latest instant of a
local time, so an instant that shares its local time with no other comes back.
Where the clock was set back over an hour of daylight saving time, the fixed
correction of 3600 seconds finds the earlier instant; any other overlap is lost
(`disambiguates_iff`).
-/
namespace NaiveNet.TimeZone

/-- The offset in force in period `i`. -/
def Data.offset (data : Data) (i : ℕ) : ℤ :=
  ((data.during i).map Localtime.gmtOffset).getD 0

/-- Whether period `i` is daylight saving time. -/
def Data.isDst (data : Data) (i : ℕ) : Bool := (data.during i).any Localtime.isDst

/-- The instant at which period `i + 1` begins. -/
def Data.start (data : Data) (i : ℕ) : ℤ := (data.transitions[i]?.map Transition.gmttime).getD 0

/-- Consecutive transitions are further apart than the change of offset at either. -/
structure Data.WellFormed (data : Data) : Prop where
  nonempty : data.localtimes ≠ []
  idx : ∀ transition ∈ data.transitions, transition.localtimeIdx < data.localtimes.length
  localtime_eq : ∀ transition ∈ data.transitions, ∀ localtime,
    data.localtimes[transition.localtimeIdx]? = some localtime →
      transition.localtime = transition.gmttime + localtime.gmtOffset
  increasing : data.transitions.Pairwise fun a b => a.gmttime < b.gmttime
  apart : ∀ i, i + 1 < data.transitions.length →
    |data.offset (i + 1) - data.offset i| < data.start (i + 1) - data.start i ∧
      |data.offset (i + 2) - data.offset (i + 1)| < data.start (i + 1) - data.start i

namespace Data.WellFormed

variable {data : Data} (h : data.WellFormed) {t : ℤ}

/-- The clock of the zone. -/
def schedule : OffsetSchedule := ⟨data.transitions.length, data.start, data.offset, h.apart⟩

include h in
theorem exists_during {i : ℕ} (hi : i ≤ data.transitions.length) :
    ∃ localtime, data.during i = some localtime := by
  cases i with
  | zero =>
    obtain ⟨first, rest, hcons⟩ := List.exists_cons_of_ne_nil h.nonempty
    exact ⟨first, by rw [during, hcons, List.head?_cons]⟩
  | succ i =>
    have hlt := h.idx _ (List.getElem_mem hi)
    exact ⟨data.localtimes[data.transitions[i].localtimeIdx], by
      simp [during, localtimeAt, List.getElem?_eq_getElem hi, List.getElem?_eq_getElem hlt]⟩

theorem localtime_eq_localStart {i : ℕ} {transition : Transition}
    (htr : data.transitions[i]? = some transition) :
    transition.localtime = h.schedule.localStart i := by
  have hi := (List.getElem?_eq_some_iff.mp htr).1
  obtain ⟨localtime, hduring⟩ := h.exists_during hi
  have hloc : data.localtimes[transition.localtimeIdx]? = some localtime := by
    rw [← hduring, during, localtimeAt, htr, Option.bind_some]
  rw [h.localtime_eq _ (List.mem_of_getElem? htr) _ hloc]
  simp [OffsetSchedule.localStart, schedule, start, offset, htr, hduring]

/-- Searched by `gmttime`, an instant is in the type of its period. -/
theorem findLocaltime_gmt :
    findLocaltime data ⟨t, 0, 0⟩ ⟨true⟩ = data.during (h.schedule.period t) := by
  have hsorted : data.transitions.Pairwise fun a b => Comp.key ⟨true⟩ a < Comp.key ⟨true⟩ b :=
    h.increasing
  apply findLocaltime_eq hsorted
  intro k
  rw [h.schedule.lt_period_iff]
  constructor
  · rintro ⟨hk, hle⟩
    have htr := List.getElem?_eq_getElem hk
    simp only [schedule, start, htr] at hle
    exact ⟨_, htr, hle⟩
  · rintro ⟨transition, htr, hle⟩
    refine ⟨(List.getElem?_eq_some_iff.mp htr).1, ?_⟩
    simp only [schedule, start, htr]
    exact hle

/-- Searched by `localtime`, a local time is in the type of the looked up period. -/
theorem findLocaltime_local :
    findLocaltime data ⟨0, t, 0⟩ ⟨false⟩ = data.during (h.schedule.localPeriod t) := by
  have hsorted : data.transitions.Pairwise fun a b =>
      Comp.key ⟨false⟩ a < Comp.key ⟨false⟩ b := by
    rw [List.pairwise_iff_getElem]
    intro i j hi hj hij
    have hlt := h.schedule.localStart_lt_of_lt hij hj
    rwa [← h.localtime_eq_localStart (List.getElem?_eq_getElem hi),
      ← h.localtime_eq_localStart (List.getElem?_eq_getElem hj)] at hlt
  apply findLocaltime_eq hsorted
  intro k
  rw [h.schedule.lt_localPeriod_iff]
  constructor
  · rintro ⟨hk, hle⟩
    have htr := List.getElem?_eq_getElem hk
    rw [← h.localtime_eq_localStart htr] at hle
    exact ⟨_, htr, hle⟩
  · rintro ⟨transition, htr, hle⟩
    refine ⟨(List.getElem?_eq_some_iff.mp htr).1, ?_⟩
    rw [← h.localtime_eq_localStart htr]
    exact hle

theorem schedule_offset {i : ℕ} {localtime : Localtime} (hduring : data.during i = some localtime) :
    h.schedule.offset i = localtime.gmtOffset := by
  show data.offset i = localtime.gmtOffset
  rw [offset, hduring, Option.map_some, Option.getD_some]

theorem period_le : h.schedule.period t ≤ data.transitions.length := Nat.count_le _

end Data.WellFormed

section RoundTrip

variable (libc : Libc) {data : Data} (h : data.WellFormed) {t t' : ℤ}

/-- The broken-down local time is that of the zone's clock, with the type in force. -/
theorem toLocalTime_eq : ∃ gmtoff zone, toLocalTime libc ⟨some data⟩ t =
    some { libc.gmtime_r (h.schedule.localTime t) with
      tm_isdst := if data.isDst (h.schedule.period t) then 1 else 0
      tm_gmtoff := gmtoff
      tm_zone := zone } := by
  obtain ⟨localtime, hduring⟩ := h.exists_during (h.period_le (t := t))
  have hoffset : h.schedule.localTime t = t + localtime.gmtOffset := by
    rw [OffsetSchedule.localTime, h.schedule_offset hduring]
  refine ⟨localtime.gmtOffset, data.zone localtime.arrbIdx, ?_⟩
  simp [toLocalTime, h.findLocaltime_gmt, hduring, hoffset, Data.isDst]

/-- What `fromLocalTime` makes of a broken-down local time: the latest instant with
it, less the fixed correction if that one is not daylight saving time as asked. -/
theorem fromLocalTime_eq (isdst gmtoff : ℤ) (zone : Option (List UInt8)) :
    fromLocalTime libc ⟨some data⟩ { libc.gmtime_r (h.schedule.localTime t) with
      tm_isdst := isdst, tm_gmtoff := gmtoff, tm_zone := zone } =
    some (if isdst ≠ 0 ∧ data.isDst (h.schedule.localPeriod (h.schedule.localTime t)) = false then
      h.schedule.latest (h.schedule.localTime t) - 3600
      else h.schedule.latest (h.schedule.localTime t)) := by
  obtain ⟨localtime, hduring⟩ :=
    h.exists_during (h.schedule.localPeriod_le (L := h.schedule.localTime t))
  have hlatest : h.schedule.latest (h.schedule.localTime t) =
      h.schedule.localTime t - localtime.gmtOffset := by
    rw [OffsetSchedule.latest, h.schedule_offset hduring]
  obtain ⟨gmtoff', zone', htry⟩ :=
    toLocalTime_eq libc h (t := h.schedule.latest (h.schedule.localTime t))
  rw [h.schedule.localTime_latest, h.schedule.period_latest, hlatest] at htry
  simp [fromLocalTime, h.findLocaltime_local, libc.timegm_gmtime_r, hduring, htry]
  rw [hlatest]
  by_cases hisdst : isdst = 0
  · simp [hisdst]
  · by_cases hdst : data.isDst (h.schedule.localPeriod (h.schedule.localTime t)) = false
    · simp only [hisdst, hdst, if_true, if_false, not_false_eq_true, and_self]
      congr 1
      omega
    · simp [hisdst, hdst]

/-- `fromLocalTime(toLocalTime(t)) = t` -/
def RoundTrips (libc : Libc) (data : Data) (t : ℤ) : Prop :=
  ∃ tm, toLocalTime libc ⟨some data⟩ t = some tm ∧ fromLocalTime libc ⟨some data⟩ tm = some t

theorem roundTrips_iff : RoundTrips libc data t ↔
    t = if data.isDst (h.schedule.period t) ∧
        data.isDst (h.schedule.localPeriod (h.schedule.localTime t)) = false then
      h.schedule.latest (h.schedule.localTime t) - 3600
      else h.schedule.latest (h.schedule.localTime t) := by
  obtain ⟨gmtoff, zone, hto⟩ := toLocalTime_eq libc h (t := t)
  have hfrom := fromLocalTime_eq libc h (t := t)
    (if data.isDst (h.schedule.period t) then 1 else 0) gmtoff zone
  simp only [RoundTrips, hto, Option.some.injEq, exists_eq_left', hfrom]
  rw [eq_comm]
  simp

/-- An instant whose local time is that of no other instant comes back. -/
theorem roundTrips_of_unique
    (hunique : ∀ s, h.schedule.localTime s = h.schedule.localTime t → s = t) :
    RoundTrips libc data t := by
  have hlatest : h.schedule.latest (h.schedule.localTime t) = t :=
    hunique _ (h.schedule.localTime_latest t)
  have hperiod := h.schedule.period_latest t
  rw [hlatest] at hperiod
  rw [roundTrips_iff libc h, ← hperiod, hlatest, if_neg]
  rintro ⟨hdst, hstd⟩
  rw [hdst] at hstd
  contradiction

/-- Two instants with one local time, told apart by `tm_isdst`, both come back exactly
if the earlier is daylight saving time, they are 3600 seconds apart and no later
instant has this local time. -/
theorem disambiguates_iff (hlt : t < t')
    (hlocal : h.schedule.localTime t = h.schedule.localTime t')
    (hdst : data.isDst (h.schedule.period t) ≠ data.isDst (h.schedule.period t')) :
    RoundTrips libc data t ∧ RoundTrips libc data t' ↔
      data.isDst (h.schedule.period t) = true ∧ t' = t + 3600 ∧
        ∀ s, h.schedule.localTime s = h.schedule.localTime t' → s ≤ t' := by
  have hperiod := h.schedule.period_latest t'
  have hle := h.schedule.le_latest t'
  rw [roundTrips_iff libc h, roundTrips_iff libc h, hlocal, ← h.schedule.latest_eq_iff, ← hperiod]
  generalize h.schedule.latest (h.schedule.localTime t') = latest at hle ⊢
  constructor
  · rintro ⟨ht, ht'⟩
    have hcond : data.isDst (h.schedule.period t) = true ∧
        data.isDst (h.schedule.period latest) = false := by
      by_contra hnot
      rw [if_neg hnot] at ht
      omega
    rw [if_pos hcond] at ht
    rw [if_neg (fun hc => hdst (hcond.1.trans hc.1.symm))] at ht'
    exact ⟨hcond.1, by omega, by omega⟩
  · rintro ⟨htrue, hshift, hlast⟩
    have hfalse : data.isDst (h.schedule.period t') = false := by
      rw [htrue] at hdst
      exact Bool.eq_false_iff.mpr hdst.symm
    rw [hlast, if_pos ⟨htrue, hfalse⟩, if_neg (by rw [hfalse]; simp)]
    exact ⟨by omega, rfl⟩

end RoundTrip

/-- The seconds from the epoch to the date and time of day of the fields. -/
def civilSeconds (tm : Tm) : ℤ :=
  (Gregorian.daysBeforeYear (tm.tm_year + 1900) +
    Gregorian.daysBeforeMonth (tm.tm_year + 1900) (tm.tm_mon + 1).toNat + tm.tm_mday -
    epoch.dayNumber) * 86400 + tm.secondInDay

theorem civilSeconds_civil (seconds isdst gmtoff : ℤ) (zone : Option (List UInt8)) :
    civilSeconds { civil seconds with
      tm_isdst := isdst, tm_gmtoff := gmtoff, tm_zone := zone } = seconds := by
  have hdays := epoch.dayNumber_advance (seconds / 86400)
  unfold Gregorian.Date.dayNumber Gregorian.Date.ordinal at hdays
  simp [civilSeconds, civil, Tm.secondInDay, Gregorian.Date.dayNumber, Gregorian.Date.ordinal]
  omega

/-- The C library's functions on the proleptic Gregorian calendar. -/
def civilLibc : Libc := ⟨civil, civilSeconds, civilSeconds_civil⟩

/-- A zone with one season of daylight saving time. -/
def seasonZone (shift : ℤ) : Data where
  transitions := [⟨0, shift, 1⟩, ⟨10000000, 10000000, 0⟩]
  localtimes := [⟨0, false, 0⟩, ⟨shift, true, 4⟩]
  abbreviation := [83, 84, 68, 0, 68, 83, 84, 0]

theorem seasonZone_wellFormed (shift : ℤ) (h0 : 0 < shift) (h1 : shift < 10000000) :
    (seasonZone shift).WellFormed := by
  constructor
  · simp [seasonZone]
  · simp [seasonZone]
  · simp [seasonZone]
  · simp [seasonZone]
  · intro i hi
    have hi0 : i = 0 := by
      simp [seasonZone] at hi
      omega
    subst hi0
    simp [seasonZone, Data.offset, Data.during, Data.localtimeAt, Data.start, abs_lt]
    omega

theorem seasonZone_period {shift : ℤ} (h : (seasonZone shift).WellFormed) (t : ℤ) :
    h.schedule.period t = if t < 0 then 0 else if t < 10000000 then 1 else 2 := by
  simp [OffsetSchedule.period, Data.WellFormed.schedule, Data.start, seasonZone, Nat.count_succ]
  split_ifs <;> omega

theorem seasonZone_localTime {shift : ℤ} (h : (seasonZone shift).WellFormed) (t : ℤ) :
    h.schedule.localTime t = if t < 0 then t else if t < 10000000 then t + shift else t := by
  rw [OffsetSchedule.localTime, seasonZone_period]
  split_ifs <;>
    simp [Data.WellFormed.schedule, Data.offset, Data.during, Data.localtimeAt, seasonZone]

theorem seasonZone_isDst {shift : ℤ} (h : (seasonZone shift).WellFormed) (t : ℤ) :
    (seasonZone shift).isDst (h.schedule.period t) = decide (0 ≤ t ∧ t < 10000000) := by
  rw [seasonZone_period]
  split_ifs <;> simp [Data.isDst, Data.during, Data.localtimeAt, seasonZone] <;> omega

theorem roundTrips_of_unique_summer : RoundTrips civilLibc (seasonZone 3600) 5000000 := by
  have h := seasonZone_wellFormed 3600 (by omega) (by omega)
  apply roundTrips_of_unique civilLibc h
  intro s hs
  rw [seasonZone_localTime, seasonZone_localTime] at hs
  split_ifs at hs <;> omega

theorem disambiguates_iff_hour :
    RoundTrips civilLibc (seasonZone 3600) 9998200 ∧
      RoundTrips civilLibc (seasonZone 3600) 10001800 := by
  have h := seasonZone_wellFormed 3600 (by omega) (by omega)
  apply (disambiguates_iff civilLibc h (by omega)
    (by simp [seasonZone_localTime]) (by simp [seasonZone_isDst])).mpr
  refine ⟨by simp [seasonZone_isDst], by omega, fun s hs => ?_⟩
  rw [seasonZone_localTime, seasonZone_localTime] at hs
  split_ifs at hs <;> omega

/-- Set back over half an hour, the earlier of two instants comes back an hour off. -/
theorem half_hour_overlap_lost : ∃ h : (seasonZone 1800).WellFormed,
    h.schedule.localTime 9999100 = h.schedule.localTime 10000900 ∧
    (seasonZone 1800).isDst (h.schedule.period 9999100) ≠
      (seasonZone 1800).isDst (h.schedule.period 10000900) ∧
    ¬ (RoundTrips civilLibc (seasonZone 1800) 9999100 ∧
      RoundTrips civilLibc (seasonZone 1800) 10000900) := by
  have h := seasonZone_wellFormed 1800 (by omega) (by omega)
  refine ⟨h, by simp [seasonZone_localTime], by simp [seasonZone_isDst], ?_⟩
  rintro ⟨hback, _⟩
  have hlocal : h.schedule.localTime 9999100 = h.schedule.localTime 10000900 := by
    simp [seasonZone_localTime]
  have hlatest : h.schedule.latest (h.schedule.localTime 10000900) = 10000900 := by
    rw [h.schedule.latest_eq_iff]
    intro s hs
    rw [seasonZone_localTime, seasonZone_localTime] at hs
    split_ifs at hs <;> omega
  rw [roundTrips_iff civilLibc h, hlocal, hlatest] at hback
  split_ifs at hback
  · omega
  · contradiction

end NaiveNet.TimeZone
