import NaiveNet.LogStream
import NaiveNet.Numerals

/-!
# What an insertion writes

Every insertion is all or nothing: it appends its whole text or leaves the
stream as it is. A text of length `len` is skipped exactly when `len >= avail()`
and a number exactly when `avail() < kMaxNumericSize`, which leaves room for the
longest number and its `'\0'`.
-/
namespace NaiveNet

section Digits

variable {SIZE : ℕ} {data : CArray Char SIZE}

theorem zero_eq (i : ℤ) : zero (i.tmod (10 : ℕ)) = some (i.natAbs % 10).digitChar := by
  have habs : (i.tmod 10).natAbs = i.natAbs % 10 := Int.natAbs_tmod i 10
  have hlt : i.natAbs % 10 < 10 := Nat.mod_lt _ (by omega)
  have htable : ∀ lsd : ℤ, -10 < lsd → lsd < 10 → zero lsd = some lsd.natAbs.digitChar := by
    intro lsd hlo hhi
    interval_cases lsd <;> rfl
  rw [← habs]
  exact htable _ (by push_cast; omega) (by push_cast; omega)

theorem digitsHex_eq (i : ℕ) :
    digitsHex[((i : ℤ).tmod (16 : ℕ)).toNat]? = some ((i % 16).digitChar.toUpper) := by
  have hmod : ((i : ℤ).tmod (16 : ℕ)).toNat = i % 16 := by
    rw [← Int.ofNat_tmod, Int.toNat_natCast]
  have hlt : i % 16 < 16 := Nat.mod_lt _ (by omega)
  rw [hmod]
  generalize i % 16 = lsd at hlt
  interval_cases lsd <;> rfl

/-- The loop writes the numeral backwards; `f` is what the table makes of a digit, of
the values that are `Valid`. -/
theorem storeDigits_eq (table : ℤ → Option Char) {base : ℕ} (hbase : 1 < base) (f : Char → Char)
    (Valid : ℤ → Prop) (hdiv : ∀ i, Valid i → Valid (i.tdiv base))
    (htable : ∀ i : ℤ, Valid i → table (i.tmod base) = some (f (i.natAbs % base).digitChar))
    (i : ℤ) (hi : Valid i) (p : ℕ) (data : CArray Char SIZE)
    (hroom : p + (Nat.toDigits base i.natAbs).length ≤ SIZE) :
    storeDigits table base hbase data p i =
      some (data.write p ((Nat.toDigits base i.natAbs).map f).reverse,
        p + (Nat.toDigits base i.natAbs).length) := by
  induction hn : i.natAbs using Nat.strong_induction_on generalizing i p data with
  | _ n ih =>
    subst hn
    have habs : (i.tdiv base).natAbs = i.natAbs / base := by
      rw [Int.natAbs_tdiv, Int.natAbs_natCast]
      rfl
    rw [storeDigits, htable i hi]
    by_cases hlast : i.natAbs < base
    · have hstop : i.tdiv base = 0 := by
        rw [← Int.natAbs_eq_zero, habs, Nat.div_eq_of_lt hlast]
      rw [Nat.toDigits_of_lt_base hlast, List.length_singleton] at hroom
      simp only [Nat.toDigits_of_lt_base hlast, Nat.mod_eq_of_lt hlast, hstop, Option.bind_eq_bind,
        Option.bind_some, CArray.store_eq (m := data) (by omega : p < SIZE), ne_eq,
        not_true_eq_false, dite_false]
      rfl
    · have hle : base ≤ i.natAbs := Nat.le_of_not_lt hlast
      have hmore : i.tdiv base ≠ 0 := by
        rw [← Int.natAbs_ne_zero, habs]
        exact (Nat.div_pos hle (by omega)).ne'
      rw [Nat.toDigits_of_base_le hbase hle, List.length_append, List.length_singleton] at hroom ⊢
      simp only [Option.bind_eq_bind, Option.bind_some,
        CArray.store_eq (m := data) (by omega : p < SIZE), hmore, ne_eq, not_false_eq_true,
        dite_true]
      rw [ih _ (natAbs_tdiv_lt hbase hmore) _ (hdiv i hi) (p + 1) _ (by rw [habs]; omega) rfl, habs]
      have hwrite := CArray.write_write data p [f (i.natAbs % base).digitChar]
        ((Nat.toDigits base (i.natAbs / base)).map f).reverse
      rw [List.length_singleton] at hwrite
      rw [hwrite]
      simp
      omega

/-- The last statements of `convert` and `convertHex`. -/
theorem reverse_terminated (data : CArray Char SIZE) {buf : ℕ} {xs : List Char}
    (h : buf + xs.length < SIZE) :
    (((data.write buf xs).store (buf + xs.length) nul).bind fun data =>
      (data.reverse buf (buf + xs.length)).bind fun data =>
        some (data, buf + xs.length - buf)) =
      some (data.write buf (xs.reverse ++ [nul]), xs.reverse.length) := by
  rw [CArray.store_eq h, Option.bind_some, CArray.write_write, CArray.reverse_write (by omega),
    Option.bind_some, Nat.add_sub_cancel_left, List.length_reverse]

theorem convert_eq (value : ℤ) {buf : ℕ} (hroom : buf + (decimal value).length < SIZE) :
    convert data buf value =
      some (data.write buf (decimal value ++ [nul]), (decimal value).length) := by
  have hloop := storeDigits_eq zero Nat.one_lt_ofNat id (fun _ => True) (fun _ _ => trivial)
    (fun i _ => zero_eq i) value trivial buf data (by
      unfold decimal at hroom
      rw [List.length_append] at hroom
      omega)
  rw [List.map_id, ← List.length_reverse] at hloop
  unfold convert
  rw [hloop]
  by_cases hneg : value < 0
  · have hdecimal : decimal value = ((Nat.toDigits 10 value.natAbs).reverse ++ ['-']).reverse := by
      simp [decimal, hneg]
    rw [hdecimal, List.length_reverse] at hroom
    have hlast := reverse_terminated data hroom
    rw [List.length_append, List.length_singleton] at hroom hlast
    rw [← CArray.write_write, ← Nat.add_assoc] at hlast
    simp only [Option.bind_eq_bind, Option.bind_some, hneg, if_true]
    rw [CArray.store_eq (by omega), Option.map_some, Option.bind_some, hdecimal]
    exact hlast
  · have hdecimal : decimal value = (Nat.toDigits 10 value.natAbs).reverse.reverse := by
      simp [decimal, hneg]
    rw [hdecimal, List.length_reverse] at hroom
    rw [hdecimal]
    simp only [Option.bind_eq_bind, Option.bind_some, hneg, if_false]
    exact reverse_terminated data hroom

theorem convertHex_eq (value : ℕ) {buf : ℕ} (hroom : buf + (hexadecimal value).length < SIZE) :
    convertHex data buf value =
      some (data.write buf (hexadecimal value ++ [nul]), (hexadecimal value).length) := by
  have hlen : (hexadecimal value).length = (Nat.toDigits 16 value).length := List.length_map _
  have htable : ∀ i : ℤ, 0 ≤ i →
      digitsHex[(i.tmod (16 : ℕ)).toNat]? = some (i.natAbs % 16).digitChar.toUpper := by
    intro i hi
    obtain ⟨n, rfl⟩ := Int.eq_ofNat_of_zero_le hi
    exact digitsHex_eq n
  have hloop := storeDigits_eq (fun lsd => digitsHex[lsd.toNat]?) Nat.one_lt_ofNat Char.toUpper
    (fun i => 0 ≤ i) (fun i hi => Int.tdiv_nonneg hi (Int.natCast_nonneg 16)) htable value
    (Int.natCast_nonneg value) buf data (by rw [Int.natAbs_natCast]; omega)
  have hterminated : buf + (hexadecimal value).reverse.length < SIZE := by
    rw [List.length_reverse]
    exact hroom
  have hlast := reverse_terminated data hterminated
  rw [List.reverse_reverse] at hlast
  rw [Int.natAbs_natCast, ← hlen, ← List.length_reverse] at hloop
  unfold convertHex
  rw [hloop]
  exact hlast

end Digits

namespace Insertion

/-- Written behind `current()` and not through the checked `append`. -/
def isNumber : Insertion → Bool
  | .short _ | .unsignedShort _ | .int _ | .unsignedInt _ | .long _ | .unsignedLong _
  | .longLong _ | .unsignedLongLong _ | .pointer _ | .float _ | .double _ => true
  | _ => false

/-- The text an insertion stands for. -/
def rendering (format : Float → List Char) : Insertion → List Char
  | .bool v => if v then ['1'] else ['0']
  | .short v => decimal v.toInt
  | .unsignedShort v => decimal v.toNat
  | .int v => decimal v.toInt
  | .unsignedInt v => decimal v.toNat
  | .long v => decimal v.toInt
  | .unsignedLong v => decimal v.toNat
  | .longLong v => decimal v.toInt
  | .unsignedLongLong v => decimal v.toNat
  | .pointer p => ['0', 'x'] ++ hexadecimal p.toNat
  | .float v => format v.toFloat
  | .double v => format v
  | .char v => [v]
  | .cString str => str.elim "(null)".toList LogStream.cStr
  | .unsignedCString str => str.elim "(null)".toList LogStream.cStr
  | .string v => v
  | .stringPiece v => v
  | .fmt buf => buf
  | .append data => data
  | .resetBuffer => []

/-- Whether a stream with `avail` cells left drops the insertion. -/
def skipped (format : Float → List Char) (avail : ℤ) (op : Insertion) : Bool :=
  if op.isNumber then avail < 32 else avail ≤ (op.rendering format).length

/-- What is left behind the text: the `'\0'` of a number. -/
def rest (op : Insertion) : List Char := if op.isNumber then [nul] else []

/-- The value of an insertion that goes to `formatInteger`. -/
def integer? : Insertion → Option ℤ
  | .short v => some v.toInt
  | .unsignedShort v => some v.toNat
  | .int v => some v.toInt
  | .unsignedInt v => some v.toNat
  | .long v => some v.toInt
  | .unsignedLong v => some v.toNat
  | .longLong v => some v.toInt
  | .unsignedLongLong v => some v.toNat
  | _ => none

theorem integer_bounds {op : Insertion} {v : ℤ} (h : op.integer? = some v) :
    -2 ^ 63 ≤ v ∧ v < 2 ^ 64 := by
  cases op with
  | short x =>
    have hlo := x.le_toInt
    have hhi := x.toInt_lt
    simp only [integer?, Option.some.injEq] at h
    omega
  | int x =>
    have hlo := x.le_toInt
    have hhi := x.toInt_lt
    simp only [integer?, Option.some.injEq] at h
    omega
  | long x | longLong x =>
    have hlo := x.le_toInt
    have hhi := x.toInt_lt
    simp only [integer?, Option.some.injEq] at h
    omega
  | unsignedShort x =>
    have hhi := x.toNat_lt
    simp only [integer?, Option.some.injEq] at h
    omega
  | unsignedInt x =>
    have hhi := x.toNat_lt
    simp only [integer?, Option.some.injEq] at h
    omega
  | unsignedLong x | unsignedLongLong x =>
    have hhi := x.toNat_lt
    simp only [integer?, Option.some.injEq] at h
    omega
  | _ => simp [integer?] at h

theorem natAbs_integer_lt {op : Insertion} {v : ℤ} (h : op.integer? = some v) :
    v.natAbs < 10 ^ 20 := by
  obtain ⟨hlo, hhi⟩ := integer_bounds h
  omega

/-- What is not skipped leaves at least one cell free. -/
theorem length_rendering_lt {format : Float → List Char} (hformat : ∀ v, (format v).length ≤ 31)
    {avail : ℤ} {op : Insertion} (h : op.skipped format avail = false) (hop : op ≠ .resetBuffer) :
    (op.rendering format).length < avail := by
  have htext : op.isNumber = false → (op.rendering format).length < avail := by
    intro hnumber
    simpa [skipped, hnumber] using h
  have hnumber (hn : op.isNumber = true) (hlen : (op.rendering format).length ≤ 31) :
      (op.rendering format).length < avail := by
    simp only [skipped, hn, if_true, decide_eq_false_iff_not] at h
    omega
  have hinteger {v : ℤ} (hv : op.integer? = some v) : (decimal v).length ≤ 31 := by
    have hle := length_decimal_le (by omega) (natAbs_integer_lt hv)
    omega
  cases op with
  | short v | unsignedShort v | int v | unsignedInt v | long v | unsignedLong v | longLong v
  | unsignedLongLong v => exact hnumber rfl (hinteger rfl)
  | pointer p =>
    have hlen : (hexadecimal p.toNat).length ≤ 16 := length_hexadecimal_le (by omega) p.toNat_lt
    have htotal : (rendering format (.pointer p)).length = (hexadecimal p.toNat).length + 2 := rfl
    exact hnumber rfl (by omega)
  | float v => exact hnumber rfl (hformat _)
  | double v => exact hnumber rfl (hformat v)
  | resetBuffer => exact absurd rfl hop
  | _ => exact htext rfl

end Insertion

namespace LogStream

variable {s : LogStream} {format : Float → List Char}

/-- The stream with `xs` appended and `rest` left behind it, unless that is skipped. -/
def appended (s : LogStream) (skipped : Bool) (xs rest : List Char) : LogStream :=
  if skipped then s else ⟨s.buffer_.put xs rest⟩

theorem avail_eq (s : LogStream) : s.buffer_.avail = 4000 - s.buffer_.cur_ := rfl

/-- What is not skipped has to fit. -/
theorem appended_length_lt (h : s.buffer_.length < 4000) {skipped : Bool} {xs : List Char}
    (hfits : skipped = false → xs.length < s.buffer_.avail) (rest : List Char) :
    (s.appended skipped xs rest).buffer_.length < 4000 := by
  have havail := avail_eq s
  have hcur : s.buffer_.length = s.buffer_.cur_ := rfl
  cases skipped with
  | true => exact h
  | false =>
    have hroom := hfits rfl
    show (s.buffer_.put xs rest).length < 4000
    rw [FixedBuffer.length_put]
    omega

theorem text_appended (s : LogStream) (skipped : Bool) (xs rest : List Char) :
    (s.appended skipped xs rest).buffer_.text =
      if skipped then s.buffer_.text else s.buffer_.text ++ xs := by
  cases skipped with
  | true => rfl
  | false => exact FixedBuffer.text_put _ _ _

theorem append_eq (h : s.buffer_.length < 4000) (data : List Char) :
    s.append data = some (s.appended (s.buffer_.avail ≤ data.length) data []) := by
  have havail := avail_eq s
  have hcur : s.buffer_.cur_ < 4000 := h
  have hsize : kSmallBuffer = 4000 := rfl
  unfold append
  by_cases hfull : s.buffer_.avail ≤ data.length
  · rw [FixedBuffer.append_of_le (by unfold FixedBuffer.length; omega)
      (by unfold FixedBuffer.length; omega), appended, if_pos (decide_eq_true hfull)]
    rfl
  · rw [FixedBuffer.append_of_lt (by omega) (by unfold FixedBuffer.length; omega), appended,
      if_neg (by simpa using hfull)]
    rfl

/-- The longest number is 21 characters. -/
theorem formatInteger_eq {v : ℤ} (hv : v.natAbs < 10 ^ 20) :
    s.formatInteger v = some (s.appended (s.buffer_.avail < 32) (decimal v) [nul]) := by
  have havail := avail_eq s
  have hsize : kSmallBuffer = 4000 := rfl
  have hlen := length_decimal_le (by omega) hv
  unfold formatInteger appended kMaxNumericSize
  simp only [decide_eq_true_eq]
  split_ifs with hroom hfull
  · omega
  · rw [FixedBuffer.current, convert_eq v (by omega)]
    rfl
  · rfl
  · omega

theorem insertPointer_eq (p : UInt64) :
    s.insertPointer p = some (s.appended (s.buffer_.avail < 32)
      (['0', 'x'] ++ hexadecimal p.toNat) [nul]) := by
  have havail := avail_eq s
  have hsize : kSmallBuffer = 4000 := rfl
  have hlen : (hexadecimal p.toNat).length ≤ 16 := length_hexadecimal_le (by omega) p.toNat_lt
  unfold insertPointer appended kMaxNumericSize
  simp only [decide_eq_true_eq]
  split_ifs with hroom hfull
  · omega
  · have hstore₁ : s.buffer_.data_.store s.buffer_.cur_ '0' = _ := CArray.store_eq (by omega) _
    have hstore₂ : (s.buffer_.data_.write s.buffer_.cur_ ['0']).store (s.buffer_.cur_ + 1) 'x' =
      some (s.buffer_.data_.write s.buffer_.cur_ ['0', 'x']) := by
      rw [CArray.store_eq (by omega)]
      exact congrArg some (CArray.write_write _ _ ['0'] ['x'])
    have hwrite : (s.buffer_.data_.write s.buffer_.cur_ ['0', 'x']).write (s.buffer_.cur_ + 2)
        (hexadecimal p.toNat ++ [nul]) =
        s.buffer_.data_.write s.buffer_.cur_ (['0', 'x'] ++ hexadecimal p.toNat ++ [nul]) := by
      rw [List.append_assoc]
      exact CArray.write_write _ _ ['0', 'x'] _
    have hlength : (['0', 'x'] ++ hexadecimal p.toNat).length = (hexadecimal p.toNat).length + 2 :=
      rfl
    simp only [FixedBuffer.current, hstore₁, hstore₂, Option.bind_eq_bind, Option.bind_some]
    rw [convertHex_eq _ (by omega), Option.bind_some]
    rw [hwrite, FixedBuffer.put, hlength]
    rfl
  · rfl
  · omega

theorem insertDouble_eq {v : Float} (hv : (format v).length ≤ 31) :
    s.insertDouble format v = some (s.appended (s.buffer_.avail < 32) (format v) [nul]) := by
  have havail := avail_eq s
  have hsize : kSmallBuffer = 4000 := rfl
  unfold insertDouble appended kMaxNumericSize
  simp only [decide_eq_true_eq]
  split_ifs with hroom hfull
  · omega
  · rw [FixedBuffer.current, List.take_of_length_le (by omega), CArray.copy_eq (by
      rw [List.length_append, List.length_singleton]
      omega)]
    rfl
  · rfl
  · omega

/-- The stream after an insertion. -/
theorem insert_eq (hformat : ∀ v, (format v).length ≤ 31) (h : s.buffer_.length < 4000)
    {op : Insertion} (hop : op ≠ .resetBuffer) :
    insert format s op = some (s.appended (op.skipped format s.buffer_.avail)
      (op.rendering format) op.rest) := by
  cases op with
  | short v =>
    show s.formatInteger v.toInt32.toInt = _
    rw [Int16.toInt_toInt32]
    exact formatInteger_eq (@Insertion.natAbs_integer_lt (.short v) _ rfl)
  | unsignedShort v =>
    show s.formatInteger v.toUInt32.toNat = _
    rw [UInt16.toNat_toUInt32]
    exact formatInteger_eq (@Insertion.natAbs_integer_lt (.unsignedShort v) _ rfl)
  | int v => exact formatInteger_eq (@Insertion.natAbs_integer_lt (.int v) _ rfl)
  | unsignedInt v => exact formatInteger_eq (@Insertion.natAbs_integer_lt (.unsignedInt v) _ rfl)
  | long v => exact formatInteger_eq (@Insertion.natAbs_integer_lt (.long v) _ rfl)
  | unsignedLong v => exact formatInteger_eq (@Insertion.natAbs_integer_lt (.unsignedLong v) _ rfl)
  | longLong v => exact formatInteger_eq (@Insertion.natAbs_integer_lt (.longLong v) _ rfl)
  | unsignedLongLong v =>
    exact formatInteger_eq (@Insertion.natAbs_integer_lt (.unsignedLongLong v) _ rfl)
  | pointer p => exact insertPointer_eq p
  | float v => exact insertDouble_eq (hformat v.toFloat)
  | double v => exact insertDouble_eq (hformat v)
  | cString str | unsignedCString str => cases str <;> exact append_eq h _
  | resetBuffer => exact absurd rfl hop
  | _ => exact append_eq h _

/-- No insertion fills the buffer. -/
theorem length_appended_lt (hformat : ∀ v, (format v).length ≤ 31)
    (h : s.buffer_.length < 4000) {op : Insertion} (hop : op ≠ .resetBuffer) :
    (s.appended (op.skipped format s.buffer_.avail) (op.rendering format)
      op.rest).buffer_.length < 4000 := by
  refine appended_length_lt h (fun hskip => ?_) _
  exact Insertion.length_rendering_lt hformat hskip hop

theorem insert_length_lt (hformat : ∀ v, (format v).length ≤ 31) (h : s.buffer_.length < 4000)
    (op : Insertion) : ∃ s', insert format s op = some s' ∧ s'.buffer_.length < 4000 := by
  by_cases hop : op = .resetBuffer
  · subst op
    exact ⟨s.resetBuffer, rfl, Nat.succ_pos 3999⟩
  · exact ⟨_, insert_eq hformat h hop, length_appended_lt hformat h hop⟩

end LogStream

/-- Whatever is inserted, every store stays inside `data_` and the stream never fills up.
The next insertion appends its whole text or, under the condition of the source, leaves
the stream as it is, and only `resetBuffer` gives up characters already there. -/
theorem insertions_all_or_nothing (format : Float → List Char)
    (hformat : ∀ v, (format v).length ≤ 31) (data_ : CArray Char kSmallBuffer)
    (ops : List Insertion) :
    ∃ s, Runs.run (insert format) (.new data_) ops = some s ∧
      s.buffer_.length < 4000 ∧ 1 ≤ s.buffer_.avail ∧
      ∀ op, ∃ s', insert format s op = some s' ∧
        (op = .resetBuffer → s'.buffer_.text = []) ∧
        (op ≠ .resetBuffer →
          (∀ i < s.buffer_.length, s'.buffer_.data_.get i = s.buffer_.data_.get i) ∧
          (op.skipped format s.buffer_.avail = true → s' = s) ∧
          (op.skipped format s.buffer_.avail = false →
            s'.buffer_.text = s.buffer_.text ++ op.rendering format)) := by
  obtain ⟨s, hrun, hlt⟩ := Runs.exists_run
    (I := fun s : LogStream => s.buffer_.length < 4000)
    (fun s op hs => LogStream.insert_length_lt hformat hs op) (LogStream.new data_)
    (Nat.succ_pos 3999) ops
  refine ⟨s, hrun, hlt, ?_, fun op => ?_⟩
  · have havail := s.avail_eq
    have hcur : s.buffer_.cur_ < 4000 := hlt
    omega
  by_cases hop : op = .resetBuffer
  · subst op
    exact ⟨s.resetBuffer, rfl, fun _ => rfl, fun h => absurd rfl h⟩
  · refine ⟨_, LogStream.insert_eq hformat hlt hop, fun h => absurd h hop, fun _ => ?_⟩
    cases hskip : op.skipped format s.buffer_.avail with
    | true => exact ⟨fun _ _ => rfl, fun _ => rfl, fun h => absurd h (by simp)⟩
    | false =>
      refine ⟨fun i hi => ?_, fun h => absurd h (by simp), fun _ => ?_⟩
      · exact s.buffer_.put_get_of_lt _ _ hi
      · exact s.buffer_.text_put _ _

/-- `true` and then `0.5`. -/
theorem insertions_all_or_nothing_double :
    ∃ s s' : LogStream,
      Runs.run (insert fun _ => ['0', '.', '5']) (.new ⟨fun _ => nul⟩) [.bool true] = some s ∧
      insert (fun _ => ['0', '.', '5']) s (.double 0.5) = some s' ∧
      s'.buffer_.text = ['1', '0', '.', '5'] := by
  obtain ⟨s, hrun, _, _, hnext⟩ := insertions_all_or_nothing (fun _ => ['0', '.', '5'])
    (fun _ => by decide) ⟨fun _ => nul⟩ [.bool true]
  obtain ⟨s', hs', _, hdouble⟩ := hnext (.double 0.5)
  obtain ⟨_, _, htext⟩ := hdouble (by simp)
  have hs : s.buffer_.avail = 3999 ∧ s.buffer_.text = ['1'] := by
    obtain rfl := Option.some.inj hrun
    decide
  refine ⟨s, s', hrun, hs', ?_⟩
  rw [htext (by rw [hs.1]; decide), hs.2]
  rfl

end NaiveNet
