import NaiveNet.LocalTime
import NaiveNet.ZoneFileFormat

/-!
# Conversions with a zone from a file

What a zone file says about an instant, in the terms of the file, is what the
conversions of the zone read from it show. The way back is exact for the latest
instant of a local time, and for the one an hour of daylight saving time before
it; for no other.
-/
namespace NaiveNet

open File

/-- Where a property passes down, its elements are those in front. -/
theorem filter_eq_takeWhile {α : Type} {p : α → Bool} {xs : List α}
    (h : xs.Pairwise fun a b => p b → p a) : xs.filter p = xs.takeWhile p := by
  induction xs with
  | nil => rfl
  | cons a xs ih =>
    obtain ⟨hhead, htail⟩ := List.pairwise_cons.mp h
    by_cases ha : p a = true
    · rw [List.filter_cons_of_pos ha, List.takeWhile_cons_of_pos ha, ih htail]
    · have hnone : xs.filter p = [] := by
        apply List.filter_eq_nil_iff.mpr
        intro b hb hp
        exact ha (hhead b hb hp)
      rw [List.filter_cons_of_neg ha, List.takeWhile_cons_of_neg ha, hnone]

namespace ZoneFile

variable {zone : ZoneFile} {t : ℤ}

/-- The type of the last transition made by then; before all of them, the first type. -/
def typeAt (zone : ZoneFile) (t : ℤ) : Option Ttinfo :=
  match (zone.transitions.filter (·.1.toInt ≤ t)).getLast? with
  | some transition => zone.types[transition.2.toNat]?
  | none => zone.types.head?

/-- The text that an index into the abbreviations stands for. -/
def abbreviationAt (zone : ZoneFile) (idx : UInt8) : List UInt8 :=
  (zone.abbreviation.drop idx.toNat).takeWhile (· ≠ 0)

/-- What the clock of the zone shows. -/
def localAt (zone : ZoneFile) (t : ℤ) : ℤ :=
  t + ((zone.typeAt t).map fun type => type.gmtoff.toInt).getD 0

def dstAt (zone : ZoneFile) (t : ℤ) : Bool := (zone.typeAt t).any fun type => type.isdst ≠ 0

/-- No later instant has the same local time. -/
def Latest (zone : ZoneFile) (t : ℤ) : Prop := ∀ s, zone.localAt s = zone.localAt t → s ≤ t

/-- There is a type, the times increase and the indices are in range. -/
structure Ordered (zone : ZoneFile) : Prop where
  types_ne_nil : zone.types ≠ []
  increasing : zone.transitions.Pairwise fun a b => a.1.toInt < b.1.toInt
  abbrind_le : ∀ type ∈ zone.types, type.abbrind.toNat ≤ zone.abbreviation.length

/-- The transitions are also further apart than the change of offset at either. -/
structure Spaced (zone : ZoneFile) : Prop extends Ordered zone where
  apart : ∀ i, i + 1 < zone.transitions.length →
    |zone.data.offset (i + 1) - zone.data.offset i| < zone.data.start (i + 1) - zone.data.start i ∧
      |zone.data.offset (i + 2) - zone.data.offset (i + 1)| <
        zone.data.start (i + 1) - zone.data.start i

theorem ofFile_bytes (zone : ZoneFile) (trailing : List UInt8) :
    TimeZone.ofFile (some (zone.bytes ++ trailing)) = some ⟨some zone.data⟩ := by
  obtain ⟨m, hread, hdata⟩ := readZone_bytes zone trailing
  simp [TimeZone.ofFile, readTimeZoneFile, hread, hdata]

/-- A transition of the data is one of the file, with its type's offset added. -/
theorem localtimeAt_data (i : ℕ) :
    zone.data.localtimeAt i = (zone.transitions[i]?.bind fun transition =>
      zone.types[transition.2.toNat]?).map Ttinfo.localtime := by
  cases htr : zone.transitions[i]? with
  | none => simp [TimeZone.Data.localtimeAt, data, htr]
  | some transition =>
    rw [TimeZone.Data.localtimeAt, data, List.getElem?_map, htr]
    exact List.getElem?_map

/-- The period after the transitions in front is that of the last of them. -/
theorem during_takeWhile (p : Int32 × UInt8 → Bool) :
    zone.data.during (zone.transitions.takeWhile p).length =
      (match (zone.transitions.takeWhile p).getLast? with
        | some transition => zone.types[transition.2.toNat]?
        | none => zone.types.head?).map Ttinfo.localtime := by
  cases hn : (zone.transitions.takeWhile p).length with
  | zero =>
    rw [List.eq_nil_of_length_eq_zero hn, List.getLast?_nil]
    exact List.head?_map
  | succ n =>
    have hlast : (zone.transitions.takeWhile p).getLast? = zone.transitions[n]? := by
      have hn' : n < (zone.transitions.takeWhile p).length := by omega
      rw [List.getLast?_eq_getElem?, hn, Nat.add_sub_cancel, List.getElem?_eq_getElem hn',
        (List.takeWhile_prefix p).getElem hn', List.getElem?_eq_getElem]
    have hlt : n < zone.transitions.length := by
      have hle := (List.takeWhile_prefix (l := zone.transitions) p).length_le
      omega
    rw [TimeZone.Data.during, localtimeAt_data, hlast, List.getElem?_eq_getElem hlt]
    rfl

/-- The search among the transitions ends at the type in force. -/
theorem Ordered.findLocaltime_eq (h : zone.Ordered) (t : ℤ) :
    findLocaltime zone.data ⟨t, 0, 0⟩ ⟨true⟩ = (zone.typeAt t).map Ttinfo.localtime := by
  have hdown : zone.transitions.Pairwise fun a b =>
      decide (b.1.toInt ≤ t) = true → decide (a.1.toInt ≤ t) = true := by
    apply h.increasing.imp
    intro a b hab hb
    have hle := of_decide_eq_true hb
    exact decide_eq_true (by omega)
  have hsorted : zone.data.transitions.Pairwise fun a b =>
      Comp.key ⟨true⟩ a < Comp.key ⟨true⟩ b := by
    rw [data, List.pairwise_map]
    exact h.increasing
  rw [typeAt, filter_eq_takeWhile hdown, ← during_takeWhile]
  apply TimeZone.Data.findLocaltime_eq hsorted
  intro k
  rw [lt_length_takeWhile_iff hdown k, data]
  constructor
  · intro hk
    obtain ⟨transition, htr, hle⟩ := hk
    refine ⟨_, List.getElem?_map.trans (by rw [htr, Option.map_some]), ?_⟩
    exact of_decide_eq_true (p := transition.1.toInt ≤ t) hle
  · intro hk
    obtain ⟨transition, htr, hle⟩ := hk
    obtain ⟨pair, hpair, rfl⟩ := Option.map_eq_some_iff.mp ((List.getElem?_map ..).symm.trans htr)
    exact ⟨pair, hpair, decide_eq_true hle⟩

theorem Ordered.exists_typeAt (h : zone.Ordered) (t : ℤ) :
    ∃ type ∈ zone.types, zone.typeAt t = some type := by
  unfold typeAt
  cases hlast : (zone.transitions.filter (·.1.toInt ≤ t)).getLast? with
  | none =>
    obtain ⟨first, rest, hcons⟩ := List.exists_cons_of_ne_nil h.types_ne_nil
    exact ⟨first, by simp [hcons], by rw [hcons, List.head?_cons]⟩
  | some transition =>
    have hmem := List.mem_of_mem_filter (List.mem_of_getLast? hlast)
    have hlt := zone.idx_lt transition hmem
    exact ⟨zone.types[transition.2.toNat], List.getElem_mem hlt, List.getElem?_eq_getElem hlt⟩

theorem Ordered.zone_eq (h : zone.Ordered) {type : Ttinfo} (hmem : type ∈ zone.types) :
    zone.data.zone type.localtime.arrbIdx = some (zone.abbreviationAt type.abbrind) :=
  if_pos (h.abbrind_le type hmem)

/-- A file with one season of daylight saving time, from second 0 to second 10000000. -/
def seasonFile : ZoneFile where
  version := 0
  reserved := List.replicate 15 0
  isgmtcnt := 0
  isstdcnt := 0
  leapcnt := 0
  transitions := [(0, 1), (10000000, 0)]
  types := [⟨0, 0, 0⟩, ⟨3600, 1, 4⟩]
  abbreviation := [83, 84, 68, 0, 68, 83, 84, 0]
  reserved_length := List.length_replicate
  transitions_length := by simp
  types_length := by simp
  abbreviation_length := by simp
  idx_lt := by simp

theorem seasonFile_spaced : seasonFile.Spaced where
  types_ne_nil := by simp [seasonFile]
  increasing := by decide
  abbrind_le := by decide
  apart := by
    intro i hi
    obtain rfl : i = 0 := by
      rw [seasonFile, List.length_cons, List.length_singleton] at hi
      omega
    decide

/-- A zone read from a file is valid and shows every instant as the file says: at the offset
of the type in force, with its flag for daylight saving time and its abbreviation. -/
theorem toLocalTime_exact (zone : ZoneFile) (trailing : List UInt8) (libc : Libc)
    (h : zone.Ordered) :
    ∃ tz, TimeZone.ofFile (some (zone.bytes ++ trailing)) = some tz ∧ tz.valid = true ∧
      ∀ t, ∃ type ∈ zone.types, zone.typeAt t = some type ∧
        TimeZone.toLocalTime libc tz t = some { libc.gmtime_r (t + type.gmtoff.toInt) with
          tm_isdst := if type.isdst ≠ 0 then 1 else 0
          tm_gmtoff := type.gmtoff.toInt
          tm_zone := some (zone.abbreviationAt type.abbrind) } := by
  refine ⟨_, zone.ofFile_bytes trailing, rfl, fun t => ?_⟩
  obtain ⟨type, hmem, htype⟩ := h.exists_typeAt t
  have hfind := h.findLocaltime_eq t
  rw [htype, Option.map_some] at hfind
  refine ⟨type, hmem, htype, ?_⟩
  simp [TimeZone.toLocalTime, hfind, h.zone_eq hmem]
  simp [Ttinfo.localtime]

/-- In the season the clock shows an hour more, and the second abbreviation. -/
theorem toLocalTime_exact_summer :
    ∃ tz, TimeZone.ofFile (some (seasonFile.bytes ++ [10])) = some tz ∧
      TimeZone.toLocalTime TimeZone.civilLibc tz 5000000 = some { civil 5003600 with
        tm_isdst := 1, tm_gmtoff := 3600, tm_zone := some [68, 83, 84] } := by
  obtain ⟨tz, hfile, _, hconv⟩ := toLocalTime_exact seasonFile [10] TimeZone.civilLibc
    seasonFile_spaced.toOrdered
  obtain ⟨type, _, htype, hto⟩ := hconv 5000000
  obtain rfl : (⟨3600, 1, 4⟩ : Ttinfo) = type := by
    have hseason : seasonFile.typeAt 5000000 = some ⟨3600, 1, 4⟩ := by decide
    exact Option.some.inj (hseason.symm.trans htype)
  exact ⟨tz, hfile, hto⟩

/-! ### And back -/

theorem Spaced.wellFormed (h : zone.Spaced) : zone.data.WellFormed where
  nonempty := by
    rw [data, Ne, List.map_eq_nil_iff]
    exact h.types_ne_nil
  idx := by
    intro transition hmem
    obtain ⟨pair, hpair, rfl⟩ := List.mem_map.mp hmem
    rw [data, List.length_map]
    exact zone.idx_lt pair hpair
  localtime_eq := by
    intro transition hmem localtime hloc
    obtain ⟨pair, hpair, rfl⟩ := List.mem_map.mp hmem
    obtain ⟨type, htype, rfl⟩ := Option.map_eq_some_iff.mp (List.getElem?_map.symm.trans hloc)
    exact congrArg (pair.1.toInt + ·) (zone.gmtoff_eq htype)
  increasing := by
    rw [data, List.pairwise_map]
    exact h.increasing
  apart i hi := h.apart i (by rwa [data, List.length_map] at hi)

section Schedule

variable (h : zone.Spaced)

theorem Spaced.during_period (t : ℤ) :
    zone.data.during (h.wellFormed.schedule.period t) = (zone.typeAt t).map Ttinfo.localtime := by
  rw [← h.wellFormed.findLocaltime_gmt, h.findLocaltime_eq]

theorem Spaced.localTime_eq (t : ℤ) : h.wellFormed.schedule.localTime t = zone.localAt t := by
  have hduring := h.during_period t
  show t + zone.data.offset (h.wellFormed.schedule.period t) = _
  rw [TimeZone.Data.offset, hduring, Option.map_map]
  rfl

theorem Spaced.isDst_eq (t : ℤ) :
    zone.data.isDst (h.wellFormed.schedule.period t) = zone.dstAt t := by
  rw [TimeZone.Data.isDst, h.during_period, dstAt, Option.any_map]
  rfl

theorem Spaced.latest_iff (t : ℤ) :
    h.wellFormed.schedule.latest (h.wellFormed.schedule.localTime t) = t ↔ zone.Latest t := by
  rw [h.wellFormed.schedule.latest_eq_iff, Latest]
  simp only [h.localTime_eq]

include h in
/-- The two instants that the way back can lead to are the latest of a local time, and the
one an hour before it if only that is daylight saving time. -/
theorem Spaced.roundTrips_iff (libc : Libc) (t : ℤ) :
    TimeZone.RoundTrips libc zone.data t ↔ zone.Latest t ∨
      zone.Latest (t + 3600) ∧ zone.localAt (t + 3600) = zone.localAt t ∧
        zone.dstAt t = true ∧ zone.dstAt (t + 3600) = false := by
  have hlatest := h.wellFormed.schedule.localTime_latest t
  have hperiod := h.wellFormed.schedule.period_latest t
  rw [TimeZone.roundTrips_iff libc h.wellFormed, ← hperiod, h.isDst_eq, h.isDst_eq]
  constructor
  · intro hback
    split_ifs at hback with hdst
    · -- the correction was made, and the latest instant is an hour later
      have hnext : h.wellFormed.schedule.latest (h.wellFormed.schedule.localTime t) =
          t + 3600 := by omega
      rw [hnext] at hlatest hdst
      refine Or.inr ⟨?_, ?_, hdst⟩
      · rw [← h.latest_iff, hlatest]
        exact hnext
      · rw [← h.localTime_eq, ← h.localTime_eq]
        exact hlatest
    · exact Or.inl ((h.latest_iff t).mp hback.symm)
  · intro hback
    rcases hback with hback | hback
    · rw [(h.latest_iff t).mpr hback, if_neg]
      intro hdst
      rw [hdst.1] at hdst
      exact Bool.noConfusion hdst.2
    · obtain ⟨hnext, hlocal, hdst⟩ := hback
      have hnext := (h.latest_iff (t + 3600)).mpr hnext
      rw [← h.localTime_eq, ← h.localTime_eq] at hlocal
      rw [hlocal] at hnext
      rw [hnext, if_pos hdst]
      omega

end Schedule

/-- In a zone read from a file an instant comes back from its local time exactly if it is the
latest with this local time, or an hour of daylight saving time before the latest, which
is not. -/
theorem comes_back_iff (zone : ZoneFile) (trailing : List UInt8) (libc : Libc)
    (h : zone.Spaced) :
    ∃ tz, TimeZone.ofFile (some (zone.bytes ++ trailing)) = some tz ∧
      ∀ t, (∃ tm, TimeZone.toLocalTime libc tz t = some tm ∧ tm.tm_zone ≠ none ∧
          TimeZone.fromLocalTime libc tz tm = some t) ↔
        zone.Latest t ∨ zone.Latest (t + 3600) ∧ zone.localAt (t + 3600) = zone.localAt t ∧
          zone.dstAt t = true ∧ zone.dstAt (t + 3600) = false := by
  refine ⟨_, zone.ofFile_bytes trailing, fun t => ?_⟩
  rw [← h.roundTrips_iff libc]
  constructor
  · intro hback
    obtain ⟨tm, hto, _, hfrom⟩ := hback
    exact ⟨tm, hto, hfrom⟩
  · intro hback
    obtain ⟨tm, hto, hfrom⟩ := hback
    obtain ⟨type, hmem, htype⟩ := h.exists_typeAt t
    have hfind := h.findLocaltime_eq t
    rw [htype, Option.map_some] at hfind
    refine ⟨tm, hto, ?_, hfrom⟩
    simp [TimeZone.toLocalTime, hfind, h.zone_eq hmem] at hto
    rw [← hto]
    exact Option.some_ne_none _

theorem seasonFile_localAt (t : ℤ) :
    seasonFile.localAt t = if t < 0 then t else if t < 10000000 then t + 3600 else t := by
  have hlocal (transitions : List (Int32 × UInt8)) (type : Ttinfo)
      (hfilter : seasonFile.transitions.filter (·.1.toInt ≤ t) = transitions)
      (htype : (match transitions.getLast? with
        | some transition => seasonFile.types[transition.2.toNat]?
        | none => seasonFile.types.head?) = some type) :
      seasonFile.localAt t = t + type.gmtoff.toInt := by
    rw [localAt, typeAt, hfilter, htype, Option.map_some, Option.getD_some]
  split_ifs with h0 h1
  · have hnone : ¬ 10000000 ≤ t := by omega
    exact (hlocal [] ⟨0, 0, 0⟩ (by simp [seasonFile, h0, hnone]) rfl).trans (add_zero t)
  · have hfirst : 0 ≤ t := by omega
    have hsecond : ¬ 10000000 ≤ t := by omega
    exact hlocal [(0, 1)] ⟨3600, 1, 4⟩ (by simp [seasonFile, hfirst, hsecond]) rfl
  · have hfirst : 0 ≤ t := by omega
    have hsecond : 10000000 ≤ t := by omega
    exact (hlocal seasonFile.transitions ⟨0, 0, 0⟩ (by simp [seasonFile, hfirst, hsecond])
      rfl).trans (add_zero t)

/-- An hour before the clock was set back it shows what it shows again an hour later, and
both instants come back. -/
theorem comes_back_iff_overlap :
    ∃ tz, TimeZone.ofFile (some (seasonFile.bytes ++ [10])) = some tz ∧
      ∀ t ∈ [9998200, 10001800], ∃ tm,
        TimeZone.toLocalTime TimeZone.civilLibc tz t = some tm ∧
        TimeZone.fromLocalTime TimeZone.civilLibc tz tm = some t := by
  obtain ⟨tz, hfile, hback⟩ := comes_back_iff seasonFile [10] TimeZone.civilLibc seasonFile_spaced
  have hlast : seasonFile.Latest 10001800 := by
    intro s hs
    rw [seasonFile_localAt, seasonFile_localAt] at hs
    split_ifs at hs <;> omega
  refine ⟨tz, hfile, fun t ht => ?_⟩
  have hcomes : seasonFile.Latest t ∨ seasonFile.Latest (t + 3600) ∧
      seasonFile.localAt (t + 3600) = seasonFile.localAt t ∧
      seasonFile.dstAt t = true ∧ seasonFile.dstAt (t + 3600) = false := by
    rcases List.mem_cons.mp ht with rfl | ht
    · exact Or.inr ⟨hlast, by decide, by decide, by decide⟩
    · obtain rfl := List.mem_singleton.mp ht
      exact Or.inl hlast
  obtain ⟨tm, hto, _, hfrom⟩ := (hback t).mpr hcomes
  exact ⟨tm, hto, hfrom⟩

end ZoneFile

end NaiveNet
