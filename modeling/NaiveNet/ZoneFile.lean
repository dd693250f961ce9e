import NaiveNet.ByteReader
import NaiveNet.TimeZone

/-!
# Reading a zone file

`readTimeZoneFile` as a reader of the file's bytes. The exceptions it throws are
caught in the function itself, so what it had read by then stays in the data.
A negative length and an index out of range are undefined. Memory is unbounded.
-/
namespace NaiveNet

/-- The data read into, and the two vectors of the function itself. -/
structure Memory where
  data : TimeZone.Data
  trans : List Int32
  localtimes : List ℕ

abbrev File := Reader String Memory

namespace File

open Reader

/-- `trans` -/
def trans : Field Memory (List Int32) where
  get m := m.trans
  set m xs := { m with trans := xs }
  get_set _ _ := rfl
  set_set _ _ _ := rfl
  set_get _ := rfl

/-- `localtimes` -/
def localtimes : Field Memory (List ℕ) where
  get m := m.localtimes
  set m xs := { m with localtimes := xs }
  get_set _ _ := rfl
  set_set _ _ _ := rfl
  set_get _ := rfl

/-- `data->localtimes` -/
def dataLocaltimes : Field Memory (List Localtime) where
  get m := m.data.localtimes
  set m xs := { m with data := { m.data with localtimes := xs } }
  get_set _ _ := rfl
  set_set _ _ _ := rfl
  set_get _ := rfl

/-- `data->transitions` -/
def dataTransitions : Field Memory (List Transition) where
  get m := m.data.transitions
  set m xs := { m with data := { m.data with transitions := xs } }
  get_set _ _ := rfl
  set_set _ _ _ := rfl
  set_get _ := rfl

/-- `data->abbreviation` -/
def dataAbbreviation : Field Memory (List UInt8) where
  get m := m.data.abbreviation
  set m bytes := { m with data := { m.data with abbreviation := bytes } }
  get_set _ _ := rfl
  set_set _ _ _ := rfl
  set_get _ := rfl

def readBytes (n : ℤ) : File (List UInt8) :=
  if n < 0 then undefined else take n.toNat "no enough data"

def be32toh (bytes : List UInt8) : UInt32 := UInt32.ofNat (BigEndian.toNat bytes)

def readInt32 : File Int32 := do
  let x ← take 4 "bad int32_t data"
  return (be32toh x).toInt32

def readUInt8 : File UInt8 := do
  let x ← take 1 "bad uint8_t data"
  return x.headD 0

/-- `xs[i]` of a vector. -/
def index {α : Type} (xs : List α) (i : ℕ) : File α :=
  match xs[i]? with
  | some x => pure x
  | none => undefined

/-- A negative count is a length that no vector can have. -/
def reserve (n : ℤ) : File Unit := if n < 0 then throw "vector::reserve" else pure ()

/-- The index of a transition's type, as an `int`. -/
def readLocalIdx : File ℕ := do
  let localIdx ← readUInt8
  return localIdx.toNat

def readLocaltime : File Localtime := do
  let gmtoff ← readInt32
  let isdst ← readUInt8
  let abbrind ← readUInt8
  return ⟨gmtoff.toInt, isdst ≠ 0, abbrind.toNat⟩

/-- The transition that the last loop makes of what was read. -/
def makeTransition (i : ℕ) : File Transition := do
  let m ← get
  let localIdx ← index m.localtimes i
  let time ← index m.trans i
  let localtime ← index m.data.localtimes localIdx
  return ⟨time.toInt, time.toInt + localtime.gmtOffset, localIdx⟩

/-- `"TZif"` -/
def magic : List UInt8 := [84, 90, 105, 102]

def checkHead (head : List UInt8) : File Unit :=
  if head ≠ magic then throw "bad head" else pure ()

/-- The counts that are used. -/
structure Counts where
  timecnt : Int32
  typecnt : Int32
  charcnt : Int32

/-- The block that exceptions leave, up to the counts. -/
def readCounts : File Counts := do
  checkHead (← readBytes 4)
  let _version ← readBytes 1
  let _ ← readBytes 15
  let _isgmtcnt ← readInt32
  let _isstdcnt ← readInt32
  let _leapcnt ← readInt32
  let timecnt ← readInt32
  let typecnt ← readInt32
  let charcnt ← readInt32
  return ⟨timecnt, typecnt, charcnt⟩

/-- The rest of the block. Its loop over `leapcnt` has an empty body. -/
def readSections (counts : Counts) : File Unit := do
  reserve counts.timecnt.toInt
  loop (fun _ => do pushBack trans (← readInt32)) 0 counts.timecnt.toInt.toNat
  loop (fun _ => do pushBack localtimes (← readLocalIdx)) 0 counts.timecnt.toInt.toNat
  loop (fun _ => do pushBack dataLocaltimes (← readLocaltime)) 0 counts.typecnt.toInt.toNat
  loop (fun i => do pushBack dataTransitions (← makeTransition i)) 0 counts.timecnt.toInt.toNat
  assign dataAbbreviation (← readBytes counts.charcnt.toInt)

def readZone : File Unit := do
  readSections (← readCounts)

end File

/-- What `readTimeZoneFile` returns, leaves in the data and prints. -/
structure ReadResult where
  returned : Bool
  data : TimeZone.Data
  stderr : Option String

/-- The content is `none` for a file that does not open. The result is `none` where the
behaviour is undefined. -/
def readTimeZoneFile (zonefile : Option (List UInt8)) (data : TimeZone.Data) :
    Option ReadResult :=
  match zonefile with
  | none => some ⟨true, data, none⟩
  | some content =>
    match File.readZone content ⟨data, [], []⟩ with
    | .ok _ _ m => some ⟨true, m.data, none⟩
    | .thrown e m => some ⟨true, m.data, some e⟩
    | .undefined => none

/-- What `new TimeZone::Data` makes. -/
def TimeZone.Data.empty : TimeZone.Data := ⟨[], [], []⟩

/-- `TimeZone(const char* zonefile)` -/
def TimeZone.ofFile (zonefile : Option (List UInt8)) : Option TimeZone := do
  let result ← readTimeZoneFile zonefile TimeZone.Data.empty
  return ⟨if result.returned then some result.data else none⟩

namespace File

open Reader

variable {input rest : List UInt8} {m m' : Memory}

/-- The four bytes of an `int32_t`, the most significant first. -/
def int32Bytes (x : Int32) : List UInt8 := BigEndian.ofNat 4 x.toUInt32.toNat

theorem be32toh_int32Bytes (x : Int32) : (be32toh (int32Bytes x)).toInt32 = x := by
  have hlt := x.toUInt32.toNat_lt
  rw [be32toh, int32Bytes, BigEndian.toNat_ofNat 4 _ (by omega), UInt32.ofNat_toNat,
    Int32.toInt32_toUInt32]

theorem int32Bytes_be32toh {bytes : List UInt8} (h : bytes.length = 4) :
    int32Bytes (be32toh bytes).toInt32 = bytes := by
  have hlt := BigEndian.toNat_lt bytes
  rw [h] at hlt
  have hword : (UInt32.ofNat (BigEndian.toNat bytes)).toNat = BigEndian.toNat bytes := by
    rw [UInt32.toNat_ofNat']
    omega
  rw [int32Bytes, UInt32.toUInt32_toInt32, be32toh, hword, ← h, BigEndian.ofNat_toNat]

@[simp] theorem readBytes_ok_iff {n : ℤ} {bytes : List UInt8} :
    readBytes n input m = .ok bytes rest m' ↔
      0 ≤ n ∧ bytes.length = n.toNat ∧ input = bytes ++ rest ∧ m' = m := by
  unfold readBytes
  split_ifs with hn
  · simp
    omega
  · rw [take_ok_iff]
    exact ⟨fun h => ⟨by omega, h⟩, fun h => h.2⟩

@[simp] theorem readInt32_ok_iff {x : Int32} :
    readInt32 input m = .ok x rest m' ↔ input = int32Bytes x ++ rest ∧ m' = m := by
  simp only [readInt32, bind_ok_iff, take_ok_iff, pure_ok_iff]
  constructor
  · rintro ⟨bytes, _, _, ⟨hlength, rfl, rfl⟩, rfl, rfl, rfl⟩
    rw [int32Bytes_be32toh hlength]
    exact ⟨rfl, rfl⟩
  · rintro ⟨rfl, rfl⟩
    exact ⟨int32Bytes x, rest, m', ⟨BigEndian.length_ofNat _ _, rfl, rfl⟩,
      (be32toh_int32Bytes x).symm, rfl, rfl⟩

@[simp] theorem readUInt8_ok_iff {x : UInt8} :
    readUInt8 input m = .ok x rest m' ↔ input = x :: rest ∧ m' = m := by
  simp only [readUInt8, bind_ok_iff, take_ok_iff, pure_ok_iff]
  constructor
  · rintro ⟨bytes, _, _, ⟨hlength, rfl, rfl⟩, rfl, rfl, rfl⟩
    obtain ⟨b, rfl⟩ := List.length_eq_one_iff.mp hlength
    exact ⟨rfl, rfl⟩
  · rintro ⟨rfl, rfl⟩
    exact ⟨[x], rest, m', ⟨rfl, rfl, rfl⟩, rfl, rfl, rfl⟩

@[simp] theorem index_ok_iff {α : Type} {xs : List α} {i : ℕ} {x : α} :
    index xs i input m = .ok x rest m' ↔ xs[i]? = some x ∧ input = rest ∧ m' = m := by
  unfold index
  cases xs[i]? with
  | none => simp
  | some y => rw [pure_ok_iff, Option.some.injEq, eq_comm]

@[simp] theorem reserve_ok_iff {n : ℤ} {u : Unit} :
    reserve n input m = .ok u rest m' ↔ 0 ≤ n ∧ input = rest ∧ m' = m := by
  unfold reserve
  split_ifs with hn
  · simp
    omega
  · simp
    omega

@[simp] theorem checkHead_ok_iff {head : List UInt8} {u : Unit} :
    checkHead head input m = .ok u rest m' ↔ head = magic ∧ input = rest ∧ m' = m := by
  unfold checkHead
  split_ifs with hne
  · simp [hne]
  · simp at hne
    simp [hne]

/-- The six bytes of a type. -/
structure Ttinfo where
  gmtoff : Int32
  isdst : UInt8
  abbrind : UInt8
  deriving DecidableEq

def Ttinfo.bytes (type : Ttinfo) : List UInt8 :=
  int32Bytes type.gmtoff ++ [type.isdst, type.abbrind]

def Ttinfo.localtime (type : Ttinfo) : Localtime :=
  ⟨type.gmtoff.toInt, type.isdst ≠ 0, type.abbrind.toNat⟩

@[simp] theorem readLocaltime_ok_iff {localtime : Localtime} :
    readLocaltime input m = .ok localtime rest m' ↔
      ∃ type : Ttinfo, input = type.bytes ++ rest ∧ localtime = type.localtime ∧ m' = m := by
  simp only [readLocaltime, bind_ok_iff, readInt32_ok_iff, readUInt8_ok_iff, pure_ok_iff]
  constructor
  · rintro ⟨gmtoff, _, _, ⟨rfl, rfl⟩, isdst, _, _, ⟨rfl, rfl⟩, abbrind, _, _, ⟨rfl, rfl⟩,
      rfl, rfl, rfl⟩
    exact ⟨⟨gmtoff, isdst, abbrind⟩, by simp [Ttinfo.bytes], rfl, rfl⟩
  · rintro ⟨⟨gmtoff, isdst, abbrind⟩, rfl, rfl, rfl⟩
    exact ⟨gmtoff, _, m', ⟨by simp [Ttinfo.bytes], rfl⟩, isdst, _, m', ⟨rfl, rfl⟩,
      abbrind, _, m', ⟨rfl, rfl⟩, rfl, rfl, rfl⟩

/-- A transition made from the vectors, all of its three indices in range. -/
def Makes (i : ℕ) (m : Memory) (transition : Transition) : Prop :=
  ∃ time localtime, m.localtimes[i]? = some transition.localtimeIdx ∧ m.trans[i]? = some time ∧
    m.data.localtimes[transition.localtimeIdx]? = some localtime ∧
    transition.gmttime = time.toInt ∧ transition.localtime = time.toInt + localtime.gmtOffset

@[simp] theorem makeTransition_ok_iff {i : ℕ} {transition : Transition} :
    makeTransition i input m = .ok transition rest m' ↔
      Makes i m transition ∧ input = rest ∧ m' = m := by
  simp only [makeTransition, bind_ok_iff, get_ok_iff, index_ok_iff, pure_ok_iff]
  constructor
  · rintro ⟨_, _, _, ⟨rfl, rfl, rfl⟩, localIdx, _, _, ⟨hidx, rfl, rfl⟩, time, _, _,
      ⟨htime, rfl, rfl⟩, localtime, _, _, ⟨hloc, rfl, rfl⟩, rfl, rfl, rfl⟩
    exact ⟨⟨time, localtime, hidx, htime, hloc, rfl, rfl⟩, rfl, rfl⟩
  · rintro ⟨⟨time, localtime, hidx, htime, hloc, hgmt, hlocal⟩, rfl, rfl⟩
    refine ⟨m', input, m', ⟨rfl, rfl, rfl⟩, _, input, m', ⟨hidx, rfl, rfl⟩, time, input, m',
      ⟨htime, rfl, rfl⟩, localtime, input, m', ⟨hloc, rfl, rfl⟩, ?_, rfl, rfl⟩
    rw [← hlocal, ← hgmt]

/-! The loops, as what they read and push. -/

theorem loop_trans_ok_iff {n : ℕ} {u : Unit} :
    loop (fun _ => do pushBack trans (← readInt32)) 0 n input m = .ok u rest m' ↔
      ∃ times : List Int32, times.length = n ∧ input = times.flatMap int32Bytes ++ rest ∧
        m' = trans.set m (trans.get m ++ times) := by
  refine (loop_pushBack_ok_iff trans (fun _ _ _ => True) int32Bytes id ?_ ?_ 0 n).trans ?_
  · simp
  · simp
  · simp

theorem loop_localtimes_ok_iff {n : ℕ} {u : Unit} :
    loop (fun _ => do pushBack localtimes (← readLocalIdx)) 0 n input m = .ok u rest m' ↔
      ∃ idxs : List UInt8, idxs.length = n ∧ input = idxs ++ rest ∧
        m' = localtimes.set m (localtimes.get m ++ idxs.map UInt8.toNat) := by
  refine (loop_pushBack_ok_iff localtimes (fun _ _ _ => True) (fun b => [b]) UInt8.toNat
    ?_ ?_ 0 n).trans ?_
  · intro i input m d rest m'
    simp [readLocalIdx]
  · simp
  · simp

theorem loop_dataLocaltimes_ok_iff {n : ℕ} {u : Unit} :
    loop (fun _ => do pushBack dataLocaltimes (← readLocaltime)) 0 n input m = .ok u rest m' ↔
      ∃ types : List Ttinfo, types.length = n ∧ input = types.flatMap Ttinfo.bytes ++ rest ∧
        m' = dataLocaltimes.set m (dataLocaltimes.get m ++ types.map Ttinfo.localtime) := by
  refine (loop_pushBack_ok_iff dataLocaltimes (fun _ _ _ => True) Ttinfo.bytes Ttinfo.localtime
    ?_ ?_ 0 n).trans ?_
  · simp
  · simp
  · simp

theorem loop_dataTransitions_ok_iff {n : ℕ} {u : Unit} :
    loop (fun i => do pushBack dataTransitions (← makeTransition i)) 0 n input m =
        .ok u rest m' ↔
      ∃ transitions : List Transition, transitions.length = n ∧
        (∀ i transition, transitions[i]? = some transition → Makes i m transition) ∧
        input = rest ∧
        m' = dataTransitions.set m (dataTransitions.get m ++ transitions) := by
  refine (loop_pushBack_ok_iff dataTransitions Makes (fun _ => []) id ?_ ?_ 0 n).trans ?_
  · simp
  · intro i m xs transition
    rfl
  · have hnil (items : List Transition) :
        items.flatMap (fun _ => ([] : List UInt8)) = [] :=
      List.flatMap_eq_nil_iff.mpr (fun _ _ => rfl)
    simp [hnil]

/-- The bytes up to the counts. -/
theorem readCounts_ok_iff {counts : Counts} :
    readCounts input m = .ok counts rest m' ↔
      ∃ version reserved isgmtcnt isstdcnt leapcnt, reserved.length = 15 ∧
        input = magic ++ version :: (reserved ++ (int32Bytes isgmtcnt ++ (int32Bytes isstdcnt ++
          (int32Bytes leapcnt ++ (int32Bytes counts.timecnt ++ (int32Bytes counts.typecnt ++
            (int32Bytes counts.charcnt ++ rest))))))) ∧ m' = m := by
  simp only [readCounts, bind_ok_iff, readBytes_ok_iff, readInt32_ok_iff, checkHead_ok_iff,
    pure_ok_iff]
  constructor
  · rintro ⟨_, _, _, ⟨_, _, rfl, rfl⟩, _, _, _, ⟨rfl, rfl, rfl⟩, version, _, _,
      ⟨_, hversion, rfl, rfl⟩, reserved, _, _, ⟨_, hreserved, rfl, rfl⟩, isgmtcnt, _, _,
      ⟨rfl, rfl⟩, isstdcnt, _, _, ⟨rfl, rfl⟩, leapcnt, _, _, ⟨rfl, rfl⟩, timecnt, _, _,
      ⟨rfl, rfl⟩, typecnt, _, _, ⟨rfl, rfl⟩, charcnt, _, _, ⟨rfl, rfl⟩, rfl, rfl, rfl⟩
    obtain ⟨version, rfl⟩ := List.length_eq_one_iff.mp hversion
    exact ⟨version, reserved, isgmtcnt, isstdcnt, leapcnt, hreserved, rfl, rfl⟩
  · rintro ⟨version, reserved, isgmtcnt, isstdcnt, leapcnt, hreserved, rfl, rfl⟩
    exact ⟨magic, _, m', ⟨by decide, rfl, rfl, rfl⟩, (), _, m', ⟨rfl, rfl, rfl⟩,
      [version], _, m', ⟨by decide, rfl, rfl, rfl⟩,
      reserved, _, m', ⟨by decide, hreserved, rfl, rfl⟩,
      isgmtcnt, _, m', ⟨rfl, rfl⟩, isstdcnt, _, m', ⟨rfl, rfl⟩, leapcnt, _, m', ⟨rfl, rfl⟩,
      counts.timecnt, _, m', ⟨rfl, rfl⟩, counts.typecnt, _, m', ⟨rfl, rfl⟩,
      counts.charcnt, _, m', ⟨rfl, rfl⟩, rfl, rfl, rfl⟩

/-- The bytes after the counts, and the data they leave in an empty memory. -/
theorem readSections_ok_iff {counts : Counts} {u : Unit} :
    readSections counts input ⟨⟨[], [], []⟩, [], []⟩ = .ok u rest m' ↔
      ∃ (times : List Int32) (idxs : List UInt8) (types : List Ttinfo)
        (transitions : List Transition) (abbreviation : List UInt8),
        0 ≤ counts.timecnt.toInt ∧ 0 ≤ counts.charcnt.toInt ∧
        times.length = counts.timecnt.toInt.toNat ∧ idxs.length = counts.timecnt.toInt.toNat ∧
        types.length = counts.typecnt.toInt.toNat ∧
        transitions.length = counts.timecnt.toInt.toNat ∧
        abbreviation.length = counts.charcnt.toInt.toNat ∧
        (∀ i transition, transitions[i]? = some transition → Makes i m' transition) ∧
        input = times.flatMap int32Bytes ++ (idxs ++ (types.flatMap Ttinfo.bytes ++
          (abbreviation ++ rest))) ∧
        m' = ⟨⟨transitions, types.map Ttinfo.localtime, abbreviation⟩, times,
          idxs.map UInt8.toNat⟩ := by
  simp only [readSections, bind_ok_iff, readBytes_ok_iff, reserve_ok_iff, loop_trans_ok_iff,
    loop_localtimes_ok_iff, loop_dataLocaltimes_ok_iff, loop_dataTransitions_ok_iff,
    assign_ok_iff]
  constructor
  · rintro ⟨_, _, _, ⟨htime, rfl, rfl⟩, _, _, _, ⟨times, htimes, rfl, rfl⟩, _, _, _,
      ⟨idxs, hidxs, rfl, rfl⟩, _, _, _, ⟨types, htypes, rfl, rfl⟩, _, _, _,
      ⟨transitions, htransitions, hmakes, rfl, rfl⟩, abbreviation, _, _,
      ⟨hchar, habbreviation, rfl, rfl⟩, rfl, rfl⟩
    exact ⟨times, idxs, types, transitions, abbreviation, htime, hchar, htimes, hidxs, htypes,
      htransitions, habbreviation, hmakes, rfl, rfl⟩
  · rintro ⟨times, idxs, types, transitions, abbreviation, htime, hchar, htimes, hidxs, htypes,
      htransitions, habbreviation, hmakes, rfl, rfl⟩
    exact ⟨(), _, _, ⟨htime, rfl, rfl⟩, (), _, _, ⟨times, htimes, rfl, rfl⟩, (), _, _,
      ⟨idxs, hidxs, rfl, rfl⟩, (), _, _, ⟨types, htypes, rfl, rfl⟩, (), _, _,
      ⟨transitions, htransitions, hmakes, rfl, rfl⟩, abbreviation, _, _,
      ⟨hchar, habbreviation, rfl, rfl⟩, rfl, rfl⟩

end File

end NaiveNet
