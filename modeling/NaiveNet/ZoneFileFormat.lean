import NaiveNet.ZoneFile

/-!
# The layout of a zone file

`ZoneFile` holds what a file of version 1 says, and `bytes` its layout. The reader
inverts the layout (`readTimeZoneFile_bytes`), and nothing else yields data with a
type (`exists_zoneFile`). The constructor accepts every content all the same, so a
zone is safe to use exactly if its file has this layout and its indices are in
range (`acceptedSafely_iff`).
-/
namespace NaiveNet

open File Reader

/-- What a file of version 1 says, up to the abbreviations. -/
structure ZoneFile where
  version : UInt8
  reserved : List UInt8
  isgmtcnt : Int32
  isstdcnt : Int32
  leapcnt : Int32
  transitions : List (Int32 × UInt8)
  types : List Ttinfo
  abbreviation : List UInt8
  reserved_length : reserved.length = 15
  transitions_length : transitions.length ≤ 2147483647
  types_length : types.length ≤ 2147483647
  abbreviation_length : abbreviation.length ≤ 2147483647
  idx_lt : ∀ transition ∈ transitions, transition.2.toNat < types.length

namespace ZoneFile

/-- The layout: the header with the six counts, and the four sections. -/
def bytes (zone : ZoneFile) : List UInt8 :=
  magic ++ zone.version :: zone.reserved ++
    int32Bytes zone.isgmtcnt ++ int32Bytes zone.isstdcnt ++ int32Bytes zone.leapcnt ++
    int32Bytes (Int32.ofNat zone.transitions.length) ++
    int32Bytes (Int32.ofNat zone.types.length) ++
    int32Bytes (Int32.ofNat zone.abbreviation.length) ++
    zone.transitions.flatMap (fun transition => int32Bytes transition.1) ++
    zone.transitions.map Prod.snd ++ zone.types.flatMap Ttinfo.bytes ++ zone.abbreviation

/-- The offset of a type. -/
def gmtoff (zone : ZoneFile) (idx : UInt8) : ℤ :=
  (zone.types[idx.toNat]?.map fun type => type.gmtoff.toInt).getD 0

/-- The data of the zone. -/
def data (zone : ZoneFile) : TimeZone.Data where
  transitions := zone.transitions.map fun transition =>
    ⟨transition.1.toInt, transition.1.toInt + zone.gmtoff transition.2, transition.2.toNat⟩
  localtimes := zone.types.map fun type =>
    ⟨type.gmtoff.toInt, type.isdst ≠ 0, type.abbrind.toNat⟩
  abbreviation := zone.abbreviation

end ZoneFile

variable {input rest : List UInt8} {m : Memory}

theorem toInt_ofNat_count {n : ℕ} (h : n ≤ 2147483647) : (Int32.ofNat n).toInt = n :=
  Int32.toInt_ofNat_of_lt (by omega)

theorem ofNat_toNat_count {count : Int32} (h : 0 ≤ count.toInt) :
    Int32.ofNat count.toInt.toNat = count := by
  have hlt := count.toInt_lt
  rw [← Int32.toInt_inj, toInt_ofNat_count (by omega)]
  omega

/-- The transitions made from pairs of a time and an index. -/
theorem makes_iff {pairs : List (Int32 × UInt8)} {types : List Ttinfo}
    {transitions : List Transition} {abbreviation : List UInt8} {i : ℕ}
    {transition : Transition} :
    Makes i ⟨⟨transitions, types.map Ttinfo.localtime, abbreviation⟩, pairs.map Prod.fst,
      (pairs.map Prod.snd).map UInt8.toNat⟩ transition ↔
    ∃ pair type, pairs[i]? = some pair ∧ types[pair.2.toNat]? = some type ∧
      transition = ⟨pair.1.toInt, pair.1.toInt + type.gmtoff.toInt, pair.2.toNat⟩ := by
  simp only [Makes, List.getElem?_map, Option.map_eq_some_iff]
  constructor
  · rintro ⟨time, _, ⟨_, ⟨pair, hpair, rfl⟩, hidx⟩, ⟨_, hpair', rfl⟩, ⟨type, htype, rfl⟩,
      hgmt, hlocal⟩
    rw [hpair] at hpair'
    cases hpair'
    refine ⟨pair, type, hpair, by rwa [hidx], ?_⟩
    cases transition
    simp only at hidx hgmt hlocal
    rw [hidx, hgmt, hlocal]
    rfl
  · rintro ⟨pair, type, hpair, htype, rfl⟩
    exact ⟨pair.1, type.localtime, ⟨pair.2, ⟨pair, hpair, rfl⟩, rfl⟩, ⟨pair, hpair, rfl⟩,
      ⟨type, htype, rfl⟩, rfl, rfl⟩

theorem ZoneFile.gmtoff_eq (zone : ZoneFile) {idx : UInt8} {type : Ttinfo}
    (h : zone.types[idx.toNat]? = some type) : zone.gmtoff idx = type.gmtoff.toInt := by
  rw [ZoneFile.gmtoff, h, Option.map_some, Option.getD_some]

theorem readZone_bytes (zone : ZoneFile) (trailing : List UInt8) :
    ∃ m, readZone (zone.bytes ++ trailing) ⟨TimeZone.Data.empty, [], []⟩ = .ok () trailing m ∧
      m.data = zone.data := by
  refine ⟨⟨zone.data, zone.transitions.map Prod.fst,
    (zone.transitions.map Prod.snd).map UInt8.toNat⟩, ?_, rfl⟩
  have htime := toInt_ofNat_count zone.transitions_length
  have htype := toInt_ofNat_count zone.types_length
  have hchar := toInt_ofNat_count zone.abbreviation_length
  rw [readZone, bind_ok_iff]
  refine ⟨⟨Int32.ofNat zone.transitions.length, Int32.ofNat zone.types.length,
    Int32.ofNat zone.abbreviation.length⟩, _, _, readCounts_ok_iff.mpr
      ⟨zone.version, zone.reserved, zone.isgmtcnt, zone.isstdcnt, zone.leapcnt,
        zone.reserved_length, by simp [ZoneFile.bytes]; rfl, rfl⟩,
    readSections_ok_iff.mpr ⟨zone.transitions.map Prod.fst, zone.transitions.map Prod.snd,
      zone.types, zone.data.transitions, zone.abbreviation, by simp only [htime]; omega,
      by simp only [hchar]; omega, ?_, ?_, ?_, ?_, ?_, ?_, ?_, rfl⟩⟩
  · simp [htime]
  · simp [htime]
  · simp [htype]
  · simp [htime, ZoneFile.data]
  · simp [hchar]
  · intro i transition htransition
    simp only [ZoneFile.data, List.getElem?_map, Option.map_eq_some_iff] at htransition
    obtain ⟨pair, hpair, rfl⟩ := htransition
    have htype := List.getElem?_eq_getElem (zone.idx_lt pair (List.mem_of_getElem? hpair))
    rw [zone.gmtoff_eq htype]
    exact makes_iff.mpr ⟨pair, _, hpair, htype, rfl⟩
  · simp [List.flatMap_map]

/-- Content that leaves a type in the data has the layout. -/
theorem exists_zoneFile (h : readZone input ⟨TimeZone.Data.empty, [], []⟩ = .ok () rest m)
    (hne : m.data.localtimes ≠ []) : ∃ zone : ZoneFile, input = zone.bytes ++ rest ∧
      m.data = zone.data := by
  rw [readZone, bind_ok_iff] at h
  obtain ⟨counts, mid, _, hcounts, hsections⟩ := h
  obtain ⟨version, reserved, isgmtcnt, isstdcnt, leapcnt, hreserved, rfl, rfl⟩ :=
    readCounts_ok_iff.mp hcounts
  obtain ⟨times, idxs, types, transitions, abbreviation, htime, hchar, htimes, hidxs, htypes,
    htransitions, habbreviation, hmakes, rfl, rfl⟩ := readSections_ok_iff.mp hsections
  obtain ⟨pairs, rfl, rfl⟩ : ∃ pairs : List (Int32 × UInt8),
      times = pairs.map Prod.fst ∧ idxs = pairs.map Prod.snd := by
    refine ⟨times.zip idxs, ?_, ?_⟩
    · rw [List.map_fst_zip (by omega)]
    · rw [List.map_snd_zip (by omega)]
  rw [List.length_map] at htimes
  have htypes_pos : 0 < types.length := by
    rw [List.length_pos_iff]
    rintro rfl
    exact hne rfl
  have htime_lt := counts.timecnt.toInt_lt
  have htype_lt := counts.typecnt.toInt_lt
  have hchar_lt := counts.charcnt.toInt_lt
  have hpair {i : ℕ} {pair : Int32 × UInt8} (hi : pairs[i]? = some pair) :
      ∃ type, types[pair.2.toNat]? = some type ∧
        transitions[i]? = some ⟨pair.1.toInt, pair.1.toInt + type.gmtoff.toInt, pair.2.toNat⟩ := by
    have hlt := (List.getElem?_eq_some_iff.mp hi).1
    have htr := List.getElem?_eq_getElem (show i < transitions.length by omega)
    obtain ⟨pair', type, hpair', htype, heq⟩ := makes_iff.mp (hmakes i _ htr)
    rw [hi] at hpair'
    cases hpair'
    exact ⟨type, htype, by rw [htr, heq]⟩
  refine ⟨⟨version, reserved, isgmtcnt, isstdcnt, leapcnt, pairs, types, abbreviation,
    hreserved, by omega, by omega, by omega, ?_⟩, ?_, ?_⟩
  · intro pair hmem
    obtain ⟨i, hi⟩ := List.getElem?_of_mem hmem
    obtain ⟨type, htype, _⟩ := hpair hi
    exact (List.getElem?_eq_some_iff.mp htype).1
  · have htimecnt : Int32.ofNat pairs.length = counts.timecnt := by
      rw [htimes, ofNat_toNat_count htime]
    have htypecnt : Int32.ofNat types.length = counts.typecnt := by
      rw [htypes, ofNat_toNat_count (by omega)]
    have hcharcnt : Int32.ofNat abbreviation.length = counts.charcnt := by
      rw [habbreviation, ofNat_toNat_count hchar]
    simp [ZoneFile.bytes, htimecnt, htypecnt, hcharcnt, List.flatMap_map]
  · show TimeZone.Data.mk _ _ _ = TimeZone.Data.mk _ _ _
    congr 1
    apply List.ext_getElem?
    intro i
    rw [List.getElem?_map]
    cases hi : pairs[i]? with
    | none =>
      rw [List.getElem?_eq_none_iff] at hi
      rw [Option.map_none, List.getElem?_eq_none_iff]
      omega
    | some pair =>
      obtain ⟨type, htype, htr⟩ := hpair hi
      rw [htr, Option.map_some, ZoneFile.gmtoff_eq _ htype]

/-- The reader inverts the layout, whatever follows: nothing is thrown or printed, and
the data is the zone's. -/
theorem readTimeZoneFile_bytes (zone : ZoneFile) (trailing : List UInt8) :
    readTimeZoneFile (some (zone.bytes ++ trailing)) TimeZone.Data.empty =
      some ⟨true, zone.data, none⟩ := by
  obtain ⟨m, hread, hdata⟩ := readZone_bytes zone trailing
  simp only [readTimeZoneFile, hread, hdata]

namespace TimeZone

/-- Every index that the conversions use is in range. -/
structure Data.Safe (data : Data) : Prop where
  nonempty : data.localtimes ≠ []
  idx : ∀ transition ∈ data.transitions, transition.localtimeIdx < data.localtimes.length
  arrb : ∀ localtime ∈ data.localtimes, localtime.arrbIdx < data.abbreviation.length

variable {data : Data}

theorem Data.Safe.exists_localtimeAt (h : data.Safe) {i : ℕ} (hi : i < data.transitions.length) :
    ∃ localtime ∈ data.localtimes, data.localtimeAt i = some localtime := by
  have hlt := h.idx _ (List.getElem_mem hi)
  refine ⟨_, List.getElem_mem hlt, ?_⟩
  rw [localtimeAt, List.getElem?_eq_getElem hi, Option.bind_some, List.getElem?_eq_getElem hlt]

/-- The search ends in one of the types, also in a table out of order. -/
theorem Data.Safe.exists_findLocaltime (h : data.Safe) (sentry : Transition) (comp : Comp) :
    ∃ localtime ∈ data.localtimes, findLocaltime data sentry comp = some localtime := by
  unfold findLocaltime
  split_ifs with hfirst
  · obtain ⟨first, rest, hcons⟩ := List.exists_cons_of_ne_nil h.nonempty
    exact ⟨first, by simp [hcons], by rw [hcons, List.head?_cons]⟩
  · rw [Bool.or_eq_true, not_or, List.isEmpty_iff] at hfirst
    obtain ⟨hnil, hless⟩ := hfirst
    have hpos := List.length_pos_iff.mpr hnil
    have hle : lower_bound data.transitions sentry comp.less ≤ data.transitions.length :=
      (List.takeWhile_prefix _).length_le
    cases htr : data.transitions[lower_bound data.transitions sentry comp.less]? with
    | none =>
      simp only [htr]
      exact h.exists_localtimeAt (by omega)
    | some transition =>
      have hlt := (List.getElem?_eq_some_iff.mp htr).1
      simp only [htr]
      split_ifs with hequal hzero
      · -- The assertion: a first transition that is not less is equal.
        exfalso
        obtain ⟨first, rest, hcons⟩ := List.exists_cons_of_ne_nil hnil
        rw [hzero, hcons, List.getElem?_cons_zero, Option.some.injEq] at htr
        subst htr
        have hnot : ¬ comp.less first sentry := by
          intro hfirst
          simp [lower_bound, hcons, hfirst] at hzero
        simp only [hcons, List.head?_cons, Option.any_some] at hless
        rw [Comp.less_iff] at hless hnot
        have heq := (Comp.equal_iff comp sentry first).mpr (by omega)
        simp [heq] at hequal
      · exact h.exists_localtimeAt (by omega)
      · exact h.exists_localtimeAt hlt

/-- No conversion with the zone leaves its vectors. -/
theorem Data.Safe.conversions (h : data.Safe) (libc : Libc) :
    (∀ seconds, ∃ tm, toLocalTime libc ⟨some data⟩ seconds = some tm ∧ tm.tm_zone ≠ none) ∧
      ∀ tm, ∃ seconds, fromLocalTime libc ⟨some data⟩ tm = some seconds := by
  have hto (seconds : ℤ) :
      ∃ tm, toLocalTime libc ⟨some data⟩ seconds = some tm ∧ tm.tm_zone ≠ none := by
    obtain ⟨localtime, hmem, hfind⟩ := h.exists_findLocaltime ⟨seconds, 0, 0⟩ ⟨true⟩
    have harrb := h.arrb localtime hmem
    simp [toLocalTime, hfind, Data.zone]
    omega
  refine ⟨hto, fun tm => ?_⟩
  obtain ⟨localtime, hmem, hfind⟩ := h.exists_findLocaltime ⟨0, libc.timegm tm, 0⟩ ⟨false⟩
  obtain ⟨tryTm, htry, _⟩ := hto (libc.timegm tm - localtime.gmtOffset)
  by_cases hdst : tm.tm_isdst = 0
  · simp [fromLocalTime, hfind, hdst]
  · simp [fromLocalTime, hfind, hdst, htry]

/-- The file does not open, or an exception was caught and its text printed. -/
def ReadingFails (zonefile : Option (List UInt8)) : Prop :=
  zonefile = none ∨ ∃ result what,
    readTimeZoneFile zonefile Data.empty = some result ∧ result.stderr = some what

/-- The constructor's parsing is defined, a valid zone is safe to use, and no zone is
valid whose reading fails. -/
structure AcceptedSafely (zonefile : Option (List UInt8)) : Prop where
  defined : ∃ tz, ofFile zonefile = some tz
  safe : ∀ data, ofFile zonefile = some ⟨some data⟩ → data.Safe ∧ ∀ libc : Libc,
    (∀ seconds, ∃ tm, toLocalTime libc ⟨some data⟩ seconds = some tm ∧ tm.tm_zone ≠ none) ∧
      ∀ tm, ∃ seconds, fromLocalTime libc ⟨some data⟩ tm = some seconds
  rejected : ReadingFails zonefile → ∀ tz, ofFile zonefile = some tz → tz.valid = false

/-- A file is accepted safely exactly if it has the layout, with a type, and with every
index into the abbreviations in range as well. -/
theorem acceptedSafely_iff (zonefile : Option (List UInt8)) : AcceptedSafely zonefile ↔
    ∃ (zone : ZoneFile) (trailing : List UInt8), zonefile = some (zone.bytes ++ trailing) ∧
      zone.types ≠ [] ∧
      ∀ type ∈ zone.types, type.abbrind.toNat < zone.abbreviation.length := by
  constructor
  · rintro ⟨⟨tz, htz⟩, hsafe, hrejected⟩
    cases zonefile with
    | none => cases hrejected (Or.inl rfl) ⟨some Data.empty⟩ rfl
    | some content =>
      cases hread : readZone content ⟨Data.empty, [], []⟩ with
      | ok u rest m =>
        have hdata := (hsafe m.data (by simp [ofFile, readTimeZoneFile, hread])).1
        obtain ⟨zone, rfl, heq⟩ := exists_zoneFile hread hdata.nonempty
        rw [heq] at hdata
        refine ⟨zone, rest, rfl, ?_, ?_⟩
        · simpa [ZoneFile.data] using hdata.nonempty
        · simpa [ZoneFile.data] using hdata.arrb
      | thrown what m =>
        have hfails : ReadingFails (some content) :=
          Or.inr ⟨⟨true, m.data, some what⟩, what, by simp [readTimeZoneFile, hread], rfl⟩
        cases hrejected hfails ⟨some m.data⟩ (by simp [ofFile, readTimeZoneFile, hread])
      | undefined => simp [ofFile, readTimeZoneFile, hread] at htz
  · rintro ⟨zone, trailing, rfl, hne, harrb⟩
    obtain ⟨m, hreadZone, hmdata⟩ := readZone_bytes zone trailing
    have hread : readTimeZoneFile (some (zone.bytes ++ trailing)) Data.empty =
        some ⟨true, zone.data, none⟩ := by
      simp only [readTimeZoneFile, hreadZone, hmdata]
    have hzone : ofFile (some (zone.bytes ++ trailing)) = some ⟨some zone.data⟩ := by
      rw [ofFile, hread]
      rfl
    have hdata : zone.data.Safe := by
      constructor
      · simpa [ZoneFile.data] using hne
      · intro transition hmem
        simp only [ZoneFile.data, List.mem_map] at hmem
        obtain ⟨pair, hpair, rfl⟩ := hmem
        simpa [ZoneFile.data] using zone.idx_lt pair hpair
      · simpa [ZoneFile.data] using harrb
    constructor
    · exact ⟨_, hzone⟩
    · intro data h
      rw [hzone] at h
      cases h
      exact ⟨hdata, hdata.conversions⟩
    · rintro (h | ⟨result, what, h, hwhat⟩)
      · cases h
      · rw [hread] at h
        cases h
        cases hwhat

/-- The zone of a file that is not there is valid, and empty. -/
theorem absent_file_accepted : ¬ AcceptedSafely none := by
  intro h
  have hne := (h.safe Data.empty rfl).1.nonempty
  exact hne rfl

end TimeZone

end NaiveNet
