import NaiveNet.OffsetSchedule
import NaiveNet.UtcTime

/-!
# Local time of a zone

The transition table of `TimeZone::Data` and the conversions that search it. A
well-formed table is an `OffsetSchedule`: `findLocaltime` with `Comp(true)` finds
the type of the period of an instant, and with `Comp(false)` that of the period
a local time is looked up in. `time_t` is an integer without bounds here.
-/
namespace NaiveNet

structure Transition where
  gmttime : ℤ
  localtime : ℤ
  localtimeIdx : ℕ
  deriving DecidableEq

structure Comp where
  compareGmt : Bool

namespace Comp

/-- `operator()` -/
def less (comp : Comp) (lhs rhs : Transition) : Bool :=
  if comp.compareGmt then lhs.gmttime < rhs.gmttime else lhs.localtime < rhs.localtime

def equal (comp : Comp) (lhs rhs : Transition) : Bool :=
  if comp.compareGmt then lhs.gmttime == rhs.gmttime else lhs.localtime == rhs.localtime

end Comp

structure Localtime where
  gmtOffset : ℤ
  isDst : Bool
  arrbIdx : ℕ
  deriving DecidableEq

structure TimeZone.Data where
  transitions : List Transition
  localtimes : List Localtime
  abbreviation : List UInt8
  deriving DecidableEq

structure TimeZone where
  data_ : Option TimeZone.Data
  deriving DecidableEq

/-- `std::lower_bound`: how many elements at the front compare less than the value. -/
def lower_bound {α : Type} (xs : List α) (value : α) (comp : α → α → Bool) : ℕ :=
  (xs.takeWhile (comp · value)).length

/-- `data.localtimes[transI->localtimeIdx]`, `none` out of range. -/
def TimeZone.Data.localtimeAt (data : TimeZone.Data) (transI : ℕ) : Option Localtime :=
  data.transitions[transI]?.bind fun transition => data.localtimes[transition.localtimeIdx]?

/-- `none` where an index is out of range or the assertion fails. -/
def findLocaltime (data : TimeZone.Data) (sentry : Transition) (comp : Comp) :
    Option Localtime :=
  if data.transitions.isEmpty || data.transitions.head?.any (comp.less sentry) then
    data.localtimes.head?
  else
    let transI := lower_bound data.transitions sentry comp.less
    match data.transitions[transI]? with
    | some transition =>
      if !comp.equal sentry transition then
        if transI = 0 then none else data.localtimeAt (transI - 1)
      else
        data.localtimeAt transI
    | none => data.localtimeAt (data.transitions.length - 1)

/-- The functions of the C library. `timegm` reads the fields from year to second. -/
structure Libc where
  gmtime_r : ℤ → Tm
  timegm : Tm → ℤ
  timegm_gmtime_r : ∀ seconds isdst gmtoff zone,
    timegm { gmtime_r seconds with tm_isdst := isdst, tm_gmtoff := gmtoff, tm_zone := zone } =
      seconds

/-- The string at `&abbreviation[arrbIdx]`, `none` where no element is there to point to. -/
def TimeZone.Data.zone (data : TimeZone.Data) (arrbIdx : ℕ) : Option (List UInt8) :=
  if arrbIdx ≤ data.abbreviation.length then
    some ((data.abbreviation.drop arrbIdx).takeWhile (· ≠ 0))
  else none

namespace TimeZone

def valid (tz : TimeZone) : Bool := tz.data_.isSome

/-- `TimeZone(int eastOfUtc, const char* tzname)` -/
def ofOffset (eastOfUtc : ℤ) (name : List UInt8) : TimeZone :=
  ⟨some ⟨[], [⟨eastOfUtc, false, 0⟩], name⟩⟩

variable (libc : Libc)

/-- `none` where `data_` is null or an index is out of range. -/
def toLocalTime (tz : TimeZone) (seconds : ℤ) : Option Tm := do
  let data ← tz.data_
  let sentry : Transition := ⟨seconds, 0, 0⟩
  let localtime ← findLocaltime data sentry ⟨true⟩
  let localSeconds := seconds + localtime.gmtOffset
  return { libc.gmtime_r localSeconds with
    tm_isdst := if localtime.isDst then 1 else 0
    tm_gmtoff := localtime.gmtOffset
    tm_zone := data.zone localtime.arrbIdx }

def fromLocalTime (tz : TimeZone) (localTm : Tm) : Option ℤ := do
  let data ← tz.data_
  let seconds := libc.timegm localTm
  let sentry : Transition := ⟨0, seconds, 0⟩
  let localtime ← findLocaltime data sentry ⟨false⟩
  if localTm.tm_isdst ≠ 0 then do
    let tryTm ← toLocalTime libc tz (seconds - localtime.gmtOffset)
    let seconds :=
      if tryTm.tm_isdst = 0 ∧ tryTm.tm_hour = localTm.tm_hour ∧ tryTm.tm_min = localTm.tm_min then
        seconds - 3600
      else seconds
    return seconds - localtime.gmtOffset
  else
    return seconds - localtime.gmtOffset

end TimeZone

/-- For a property that earlier elements inherit, `takeWhile` takes all that have it. -/
theorem lt_length_takeWhile_iff {α : Type} {p : α → Bool} {xs : List α}
    (h : xs.Pairwise fun a b => p b → p a) (k : ℕ) :
    k < (xs.takeWhile p).length ↔ ∃ a, xs[k]? = some a ∧ p a := by
  induction xs generalizing k with
  | nil => simp
  | cons a xs ih =>
    obtain ⟨hhead, htail⟩ := List.pairwise_cons.mp h
    rw [List.takeWhile_cons]
    split_ifs with ha
    · cases k with
      | zero => simp [ha]
      | succ k => simp [ih htail k]
    · have hnone : ∀ b ∈ a :: xs, ¬ p b := by
        intro b hb
        rcases List.mem_cons.mp hb with rfl | hb
        · exact ha
        · exact fun hp => ha (hhead b hb hp)
      constructor
      · intro hk
        simp at hk
      · rintro ⟨b, hb, hp⟩
        exact absurd hp (hnone b (List.mem_of_getElem? hb))

/-- The member that is compared. -/
def Comp.key (comp : Comp) (transition : Transition) : ℤ :=
  if comp.compareGmt then transition.gmttime else transition.localtime

theorem Comp.less_iff (comp : Comp) (lhs rhs : Transition) :
    comp.less lhs rhs = true ↔ comp.key lhs < comp.key rhs := by
  unfold Comp.less Comp.key
  split <;> simp

theorem Comp.equal_iff (comp : Comp) (lhs rhs : Transition) :
    comp.equal lhs rhs = true ↔ comp.key lhs = comp.key rhs := by
  unfold Comp.equal Comp.key
  split <;> simp

namespace TimeZone.Data

variable {data : TimeZone.Data}

/-- The type in force in period `i`; the first one's before all transitions. -/
def during (data : TimeZone.Data) : ℕ → Option Localtime
  | 0 => data.localtimes.head?
  | i + 1 => data.localtimeAt i

/-- `lower_bound` stops at the first element that is not less. -/
theorem lt_lower_bound_iff {sentry : Transition} {comp : Comp}
    (hsorted : data.transitions.Pairwise fun a b => comp.key a < comp.key b) (k : ℕ) :
    k < lower_bound data.transitions sentry comp.less ↔
      ∃ transition, data.transitions[k]? = some transition ∧
        comp.key transition < comp.key sentry := by
  have hbound := lt_length_takeWhile_iff (p := fun a => comp.less a sentry)
    (hsorted.imp (by
      intro a b hab
      rw [Comp.less_iff, Comp.less_iff]
      omega)) k
  simpa only [Comp.less_iff, lower_bound] using hbound

/-- The search finds the type of the period whose start is the last one reached. -/
theorem findLocaltime_eq {sentry : Transition} {comp : Comp} {i : ℕ}
    (hsorted : data.transitions.Pairwise fun a b => comp.key a < comp.key b)
    (hi : ∀ k, k < i ↔ ∃ transition, data.transitions[k]? = some transition ∧
      comp.key transition ≤ comp.key sentry) :
    findLocaltime data sentry comp = data.during i := by
  have hbound (k : ℕ) : k < lower_bound data.transitions sentry comp.less ↔ _ :=
    lt_lower_bound_iff hsorted k
  have hfirst : (data.transitions.isEmpty || data.transitions.head?.any (comp.less sentry)) = true ↔
      i = 0 := by
    have h0 := hi 0
    cases htr : data.transitions with
    | nil =>
      simp [htr] at h0
      simp [h0]
    | cons first rest =>
      simp [htr] at h0
      simp [Comp.less_iff]
      omega
  unfold findLocaltime
  cases i with
  | zero =>
    rw [if_pos (hfirst.mpr rfl)]
    rfl
  | succ m =>
    rw [if_neg (fun h => absurd (hfirst.mp h) (by omega))]
    obtain ⟨last, hlast, hle⟩ := (hi m).mp (by omega)
    have hlen := (List.getElem?_eq_some_iff.mp hlast).1
    have hnext (k : ℕ) (tr : Transition) (hk : m < k) (htr : data.transitions[k]? = some tr) :
        comp.key sentry < comp.key tr := by
      by_contra hge
      have := (hi k).mpr ⟨tr, htr, by omega⟩
      omega
    by_cases heq : comp.key last = comp.key sentry
    · -- An exact hit: the search stops at the transition itself.
      have hstop : lower_bound data.transitions sentry comp.less = m := by
        have hnot : ¬ m < lower_bound data.transitions sentry comp.less := by
          rw [hbound]
          rintro ⟨tr, htr, hlt⟩
          rw [hlast] at htr
          cases htr
          omega
        have hbefore : ∀ k < m, k < lower_bound data.transitions sentry comp.less := by
          intro k hk
          have hlt := List.pairwise_iff_getElem.mp hsorted k m (by omega) hlen hk
          rw [(List.getElem?_eq_some_iff.mp hlast).2] at hlt
          exact (hbound k).mpr ⟨_, List.getElem?_eq_getElem (by omega), by omega⟩
        by_contra hne
        have := hbefore (lower_bound data.transitions sentry comp.less) (by omega)
        omega
      have hequal := (Comp.equal_iff comp sentry last).mpr heq.symm
      simp [hstop, hlast, hequal, during]
    · have hstop : lower_bound data.transitions sentry comp.less = m + 1 := by
        have hlt := (hbound m).mpr ⟨last, hlast, by omega⟩
        have hnot : ¬ m + 1 < lower_bound data.transitions sentry comp.less := by
          rw [hbound]
          rintro ⟨tr, htr, hlt⟩
          have := hnext (m + 1) tr (by omega) htr
          omega
        omega
      cases htr : data.transitions[m + 1]? with
      | none =>
        have hend := List.getElem?_eq_none_iff.mp htr
        have hlast : data.transitions.length - 1 = m := by omega
        simp [hstop, htr, hlast, during]
      | some tr =>
        have hgt := hnext (m + 1) tr (by omega) htr
        have hdiffer : comp.equal sentry tr = false := by
          rw [← Bool.not_eq_true, Comp.equal_iff]
          omega
        simp [hstop, htr, hdiffer, during]

end TimeZone.Data

end NaiveNet
