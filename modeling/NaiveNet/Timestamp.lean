import NaiveNet.LogTime
import NaiveNet.NumeralOrder
import NaiveNet.NumeralReading

/-!
# Timestamps as texts

`Timestamp::toString` and `toFormattedString`. What `snprintf` prints is cut to the
buffer it is given, and `gmtime_r` is the conversion to UTC of the calendar.
-/
namespace NaiveNet

/-- Microseconds since the epoch, an `int64_t`. -/
structure Timestamp where
  microSecondsSinceEpoch_ : Int64
  deriving DecidableEq

namespace Timestamp

def kMicroSecondsPerSecond : ℤ := 1000 * 1000

def microSecondsSinceEpoch (t : Timestamp) : ℤ := t.microSecondsSinceEpoch_.toInt

def valid (t : Timestamp) : Bool := t.microSecondsSinceEpoch > 0

def secondsSinceEpoch (t : Timestamp) : ℤ :=
  t.microSecondsSinceEpoch.tdiv kMicroSecondsPerSecond

/-- `operator<` -/
instance : LT Timestamp where
  lt lhs rhs := lhs.microSecondsSinceEpoch < rhs.microSecondsSinceEpoch

/-- What `snprintf` leaves in a buffer of `size` bytes, the `'\0'` apart. -/
def snprintf (size : ℕ) (text : List Char) : List Char := text.take (size - 1)

/-- `"%" PRId64 ".%06" PRId64` -/
def secondsText (seconds microseconds : ℤ) : List Char :=
  decimal seconds ++ ['.'] ++ zeroFilled 6 microseconds

def toString (t : Timestamp) : List Char :=
  let seconds := t.microSecondsSinceEpoch.tdiv kMicroSecondsPerSecond
  let microseconds := t.microSecondsSinceEpoch.tmod kMicroSecondsPerSecond
  snprintf (32 - 1) (secondsText seconds microseconds)

def gmtime_r (seconds : ℤ) : Tm := civil seconds

/-- `"%4d%02d%02d %02d:%02d:%02d.%06d"`, or without the last field. -/
def formattedText (t : Timestamp) (showMicroseconds : Bool) : List Char :=
  let tm_time := gmtime_r (t.microSecondsSinceEpoch.tdiv kMicroSecondsPerSecond)
  if showMicroseconds then
    let microseconds := t.microSecondsSinceEpoch.tmod kMicroSecondsPerSecond
    Logger.timeText tm_time ++ ['.'] ++ zeroFilled 6 microseconds
  else Logger.timeText tm_time

def toFormattedString (t : Timestamp) (showMicroseconds : Bool) : List Char :=
  snprintf 32 (t.formattedText showMicroseconds)

end Timestamp

/-- Of two seconds of a day the later has the later time on the clock. -/
theorem clock_lt {p q : ℤ} (h : p < q) :
    p / 3600 < q / 3600 ∨ p / 3600 = q / 3600 ∧
      (p / 60 % 60 < q / 60 % 60 ∨ p / 60 % 60 = q / 60 % 60 ∧ p % 60 < q % 60) := by
  omega

/-- A later second has a later time on the calendar and the clock. -/
theorem civil_lt {x y : ℤ} (h : x < y) :
    (civil x).tm_year < (civil y).tm_year ∨ (civil x).tm_year = (civil y).tm_year ∧
    ((civil x).tm_mon < (civil y).tm_mon ∨ (civil x).tm_mon = (civil y).tm_mon ∧
    ((civil x).tm_mday < (civil y).tm_mday ∨ (civil x).tm_mday = (civil y).tm_mday ∧
    ((civil x).tm_hour < (civil y).tm_hour ∨ (civil x).tm_hour = (civil y).tm_hour ∧
    ((civil x).tm_min < (civil y).tm_min ∨ (civil x).tm_min = (civil y).tm_min ∧
      (civil x).tm_sec < (civil y).tm_sec)))) := by
  by_cases hday : x / 86400 < y / 86400
  · have hdate : epoch.advance (x / 86400) < epoch.advance (y / 86400) := by
      rw [Gregorian.Date.lt_iff_dayNumber_lt, Gregorian.Date.dayNumber_advance,
        Gregorian.Date.dayNumber_advance]
      omega
    rw [Gregorian.Date.lt_def] at hdate
    have hx := civil_normalized x
    have hy := civil_normalized y
    rw [hx.year_eq, hx.mon_eq, hx.mday_eq, hy.year_eq, hy.mon_eq, hy.mday_eq]
    omega
  · have hsame : x / 86400 = y / 86400 := by omega
    have hclock : x % 86400 < y % 86400 := by omega
    simp only [civil, hsame, lt_irrefl, true_and, false_or]
    exact clock_lt hclock

namespace Timestamp

variable {x y : ℤ} {xs ys : List Char}

/-- The fields of the text in their order, the year without blanks. -/
theorem timeText_append (tm : Tm) (hyear : 1000 ≤ tm.tm_year + 1900) (xs : List Char) :
    Logger.timeText tm ++ xs =
      zeroFilled 4 (tm.tm_year + 1900) ++ (zeroFilled 2 (tm.tm_mon + 1) ++
        (zeroFilled 2 tm.tm_mday ++ (' ' :: (zeroFilled 2 tm.tm_hour ++
          (':' :: (zeroFilled 2 tm.tm_min ++ (':' :: (zeroFilled 2 tm.tm_sec ++ xs)))))))) := by
  rw [Logger.timeText, blankFilled_eq_zeroFilled (w := 2) (by omega)]
  simp only [List.append_assoc, List.cons_append, List.nil_append]

/-- Texts of later seconds are larger, and in one second what follows decides. -/
theorem timeText_append_lt (hx : 0 ≤ x) (hyear : (civil y).tm_year + 1900 < 10000)
    (h : x < y ∨ x = y ∧ xs < ys) :
    Logger.timeText (civil x) ++ xs < Logger.timeText (civil y) ++ ys := by
  obtain hlt | ⟨rfl, hlt⟩ := h
  · obtain ⟨hxmon, hxmday, hxhour, hxmin, hxsec⟩ := civil_fields x
    obtain ⟨hymon, hymday, hyhour, hymin, hysec⟩ := civil_fields y
    have hxyear := civil_year_le hx
    have hyyear := civil_year_le (hx.trans hlt.le)
    rw [timeText_append _ (by omega), timeText_append _ (by omega)]
    -- Field by field, as the calendar and the clock compare.
    refine zeroFilled_append_lt (by omega) (by omega) ((civil_lt hlt).imp (by omega) ?_)
    refine And.imp (by omega) fun h => ?_
    refine zeroFilled_append_lt (by omega) (by omega) (h.imp (by omega) ?_)
    refine And.imp (by omega) fun h => ?_
    refine zeroFilled_append_lt (by omega) (by omega) (h.imp id ?_)
    refine And.imp id fun h => ?_
    refine List.cons_lt_cons_iff.mpr (Or.inr ⟨rfl, ?_⟩)
    refine zeroFilled_append_lt (by omega) (by omega) (h.imp id ?_)
    refine And.imp id fun h => ?_
    refine List.cons_lt_cons_iff.mpr (Or.inr ⟨rfl, ?_⟩)
    refine zeroFilled_append_lt (by omega) (by omega) (h.imp id ?_)
    refine And.imp id fun h => ?_
    refine List.cons_lt_cons_iff.mpr (Or.inr ⟨rfl, ?_⟩)
    exact zeroFilled_append_lt (by omega) (by omega) (Or.inl h)
  · exact List.append_left_lt hlt

variable {a b t : Timestamp}

/-- The quotient and the remainder have the sign of the number. -/
theorem fields (t : Timestamp) :
    t.microSecondsSinceEpoch = t.secondsSinceEpoch * 1000000 +
      t.microSecondsSinceEpoch.tmod kMicroSecondsPerSecond ∧
    (0 ≤ t.microSecondsSinceEpoch ∧ 0 ≤ t.secondsSinceEpoch ∧
        0 ≤ t.microSecondsSinceEpoch.tmod kMicroSecondsPerSecond ∧
        t.microSecondsSinceEpoch.tmod kMicroSecondsPerSecond < 1000000 ∨
      t.microSecondsSinceEpoch ≤ 0 ∧ t.secondsSinceEpoch ≤ 0 ∧
        t.microSecondsSinceEpoch.tmod kMicroSecondsPerSecond ≤ 0 ∧
        -1000000 < t.microSecondsSinceEpoch.tmod kMicroSecondsPerSecond) := by
  have hk : kMicroSecondsPerSecond = 1000000 := rfl
  rw [secondsSinceEpoch, hk]
  obtain ⟨n, hn | hn⟩ := t.microSecondsSinceEpoch.eq_nat_or_neg
  · rw [hn, Int.tdiv_eq_ediv_of_nonneg (by omega), Int.tmod_eq_emod_of_nonneg (by omega)]
    omega
  · rw [hn, Int.neg_tdiv, Int.neg_tmod, Int.tdiv_eq_ediv_of_nonneg (by omega),
      Int.tmod_eq_emod_of_nonneg (by omega)]
    omega

/-- A timestamp that is valid and whose year has four digits. -/
structure Printable (t : Timestamp) : Prop where
  valid : t.valid = true
  year : (gmtime_r t.secondsSinceEpoch).tm_year + 1900 < 10000

/-- From the epoch on the second and the microsecond in it are those of the floor. -/
theorem Printable.fields (h : Printable t) :
    t.microSecondsSinceEpoch = t.secondsSinceEpoch * 1000000 +
      t.microSecondsSinceEpoch.tmod kMicroSecondsPerSecond ∧
    0 ≤ t.secondsSinceEpoch ∧ 0 ≤ t.microSecondsSinceEpoch.tmod kMicroSecondsPerSecond ∧
    t.microSecondsSinceEpoch.tmod kMicroSecondsPerSecond < 1000000 := by
  have hpos : 0 < t.microSecondsSinceEpoch := of_decide_eq_true h.valid
  have hfields := t.fields
  omega

theorem Printable.length_formattedText (h : Printable t) :
    (t.formattedText true).length = 24 ∧ (t.formattedText false).length = 17 := by
  obtain ⟨_, hseconds, hmicro, hlt⟩ := h.fields
  have hyear := civil_year_le hseconds
  have htime : (Logger.timeText (civil t.secondsSinceEpoch)).length = 17 :=
    Logger.length_timeText (by omega) (Int.le_of_lt_add_one h.year)
  have hsix := length_zeroFilled (w := 6) (by omega) hmicro (by omega)
  refine ⟨?_, htime⟩
  show (Logger.timeText (civil t.secondsSinceEpoch) ++ ['.'] ++ zeroFilled 6 _).length = 24
  rw [List.length_append, List.length_append, htime, hsix, List.length_singleton]

/-- The buffer has room for either text. -/
theorem Printable.toFormattedString_eq (h : Printable t) (showMicroseconds : Bool) :
    t.toFormattedString showMicroseconds = t.formattedText showMicroseconds := by
  obtain ⟨hmicro, hsecond⟩ := h.length_formattedText
  refine List.take_of_length_le ?_
  cases showMicroseconds <;> omega

/-- Later seconds have larger texts. -/
theorem formattedText_false_lt (ha : Printable a) (hb : Printable b)
    (h : a.secondsSinceEpoch < b.secondsSinceEpoch) :
    a.formattedText false < b.formattedText false := by
  obtain ⟨_, haseconds, _⟩ := ha.fields
  show Logger.timeText (civil a.secondsSinceEpoch) < Logger.timeText (civil b.secondsSinceEpoch)
  rw [← List.append_nil (Logger.timeText (civil a.secondsSinceEpoch)),
    ← List.append_nil (Logger.timeText (civil b.secondsSinceEpoch))]
  exact timeText_append_lt haseconds hb.year (Or.inl h)

theorem formattedText_true_lt (ha : Printable a) (hb : Printable b) (h : a < b) :
    a.formattedText true < b.formattedText true := by
  obtain ⟨haeq, haseconds, hamicro, halt⟩ := ha.fields
  obtain ⟨hbeq, _, hbmicro, hblt⟩ := hb.fields
  have h : a.microSecondsSinceEpoch < b.microSecondsSinceEpoch := h
  show Logger.timeText (civil a.secondsSinceEpoch) ++ ['.'] ++ zeroFilled 6 _ <
    Logger.timeText (civil b.secondsSinceEpoch) ++ ['.'] ++ zeroFilled 6 _
  rw [List.append_assoc, List.append_assoc]
  refine timeText_append_lt haseconds hb.year ?_
  by_cases hsecond : a.secondsSinceEpoch < b.secondsSinceEpoch
  · exact Or.inl hsecond
  · have hmicro : a.microSecondsSinceEpoch.tmod kMicroSecondsPerSecond <
        b.microSecondsSinceEpoch.tmod kMicroSecondsPerSecond := by omega
    refine Or.inr ⟨by omega, List.append_left_lt ?_⟩
    rw [← List.append_nil (zeroFilled 6 (a.microSecondsSinceEpoch.tmod _)),
      ← List.append_nil (zeroFilled 6 (b.microSecondsSinceEpoch.tmod _))]
    exact zeroFilled_append_lt hamicro (by omega) (Or.inl hmicro)

/-- Two printable timestamps, one before the other: with microseconds both texts have 24
characters, none cut off, and are in strict order; without them both have 17 and are in
order, and the same exactly in one second. -/
theorem toFormattedString_sorted (ha : Printable a) (hb : Printable b) (h : a < b) :
    ((a.toFormattedString true).length = 24 ∧ (b.toFormattedString true).length = 24 ∧
      a.toFormattedString true = a.formattedText true ∧
      b.toFormattedString true = b.formattedText true ∧
      a.toFormattedString true < b.toFormattedString true) ∧
    (a.toFormattedString false).length = 17 ∧ (b.toFormattedString false).length = 17 ∧
      a.toFormattedString false ≤ b.toFormattedString false ∧
      (a.toFormattedString false = b.toFormattedString false ↔
        a.secondsSinceEpoch = b.secondsSinceEpoch) := by
  obtain ⟨ha24, ha17⟩ := ha.length_formattedText
  obtain ⟨hb24, hb17⟩ := hb.length_formattedText
  simp only [ha.toFormattedString_eq, hb.toFormattedString_eq]
  refine ⟨⟨ha24, hb24, trivial, trivial, formattedText_true_lt ha hb h⟩, ha17, hb17, ?_⟩
  obtain ⟨haeq, _, hamicro, halt⟩ := ha.fields
  obtain ⟨hbeq, _, hbmicro, hblt⟩ := hb.fields
  have h : a.microSecondsSinceEpoch < b.microSecondsSinceEpoch := h
  obtain hlt | heq : a.secondsSinceEpoch < b.secondsSinceEpoch ∨
      a.secondsSinceEpoch = b.secondsSinceEpoch := by omega
  · have htext := formattedText_false_lt ha hb hlt
    exact ⟨htext.le, iff_of_false htext.ne hlt.ne⟩
  · have htext : a.formattedText false = b.formattedText false :=
      congrArg (fun seconds => Logger.timeText (gmtime_r seconds)) heq
    rw [htext]
    exact ⟨le_rfl, iff_of_true rfl heq⟩

/-- The last microsecond of the first day and the first of the next. -/
theorem toFormattedString_sorted_carry :
    toFormattedString ⟨86399999999⟩ true < toFormattedString ⟨86400000000⟩ true := by
  have ha : Printable ⟨86399999999⟩ := ⟨by decide, by decide⟩
  have hb : Printable ⟨86400000000⟩ := ⟨by decide, by decide⟩
  exact (toFormattedString_sorted ha hb (show (_ : ℤ) < _ by decide)).1.2.2.2.2

/-- No text is longer than what the buffer takes. -/
theorem toString_eq (t : Timestamp) :
    t.toString = secondsText t.secondsSinceEpoch
      (t.microSecondsSinceEpoch.tmod kMicroSecondsPerSecond) := by
  have hlo : -2 ^ 63 ≤ t.microSecondsSinceEpoch := t.microSecondsSinceEpoch_.le_toInt
  have hhi : t.microSecondsSinceEpoch < 2 ^ 63 := t.microSecondsSinceEpoch_.toInt_lt
  obtain ⟨hvalue, hsign⟩ := t.fields
  have hseconds := length_decimal_le (v := t.secondsSinceEpoch) (k := 13) (by omega) (by omega)
  have hmicro := length_zeroFilled_le (w := 6)
    (v := t.microSecondsSinceEpoch.tmod kMicroSecondsPerSecond) (by omega) (by omega)
  refine List.take_of_length_le ?_
  show (decimal t.secondsSinceEpoch ++ ['.'] ++ zeroFilled 6 _).length ≤ 30
  rw [List.length_append, List.length_append, List.length_singleton]
  omega

/-- What is read from the text: nothing, when the microseconds have a sign of their own. -/
theorem readSigned_secondsText {seconds microseconds : ℤ} (hlt : microseconds < 1000000) :
    readSigned (readFixed 6) (secondsText seconds microseconds) =
      if microseconds < 0 then none
      else some (if seconds < 0 then seconds * 1000000 - microseconds
        else seconds * 1000000 + microseconds) := by
  rw [secondsText, List.append_assoc, List.singleton_append, readSigned_readFixed]
  by_cases hneg : microseconds < 0
  · rw [if_pos hneg, readNat_zeroFilled_neg 6 hneg, Option.map_none, ite_self]
  · have hmicro : 0 ≤ microseconds := not_lt.mp hneg
    have habs : (microseconds.natAbs : ℤ) = microseconds := Int.natAbs_of_nonneg hmicro
    rw [if_neg hneg, if_pos (length_zeroFilled (by omega) hmicro (by omega)),
      readNat_zeroFilled 6 hmicro, Option.map_some, habs]
    rfl

/-- A number is read back exactly when it is not negative or there is no fraction. -/
theorem readSigned_toString_iff (t : Timestamp) :
    readSigned (readFixed 6) t.toString = some t.microSecondsSinceEpoch ↔
      0 ≤ t.microSecondsSinceEpoch ∨ kMicroSecondsPerSecond ∣ t.microSecondsSinceEpoch := by
  obtain ⟨hvalue, hsign⟩ := t.fields
  rw [toString_eq, readSigned_secondsText (by omega), Int.dvd_iff_tmod_eq_zero]
  by_cases hneg : t.microSecondsSinceEpoch.tmod kMicroSecondsPerSecond < 0
  · rw [if_pos hneg]
    refine iff_of_false (Option.some_ne_none _).symm ?_
    omega
  · rw [if_neg hneg, Option.some_inj]
    refine iff_of_true ?_ (by omega)
    split_ifs <;> omega

/-- The text is not cut off, and it is read back as the number of microseconds exactly
when the number is not negative or there are none beside whole seconds. -/
theorem toString_exact_iff (t : Timestamp) :
    t.toString = secondsText (t.microSecondsSinceEpoch.tdiv kMicroSecondsPerSecond)
        (t.microSecondsSinceEpoch.tmod kMicroSecondsPerSecond) ∧
      readSigned (readFixed 6) t.toString = some t.microSecondsSinceEpoch ↔
    0 ≤ t.microSecondsSinceEpoch ∨ kMicroSecondsPerSecond ∣ t.microSecondsSinceEpoch :=
  (and_iff_right t.toString_eq).trans t.readSigned_toString_iff

/-- Half a second before the epoch. -/
theorem toString_signs_fraction :
    toString ⟨-500000⟩ = ['0', '.', '-', '5', '0', '0', '0', '0', '0'] ∧
      ¬ readSigned (readFixed 6) (toString ⟨-500000⟩) = some (-500000) := by
  refine ⟨rfl, fun h => ?_⟩
  have hwhole := (readSigned_toString_iff ⟨-500000⟩).mp h
  contradiction

end Timestamp

end NaiveNet
