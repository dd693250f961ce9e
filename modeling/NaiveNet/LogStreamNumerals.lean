import NaiveNet.LogStreamText
import NaiveNet.NumeralReading

/-!
# The numerals of the log stream

`convert` and `convertHex` write canonical numerals, for every type of integer that a
stream takes and in less room than `kMaxNumericSize` leaves them.
-/
namespace NaiveNet

variable {SIZE : ℕ} {data : CArray Char SIZE} {buf : ℕ}

/-- `text` with a `'\0'` behind it stands at `buf`. -/
structure Terminated (data : CArray Char SIZE) (buf : ℕ) (text : List Char) : Prop where
  slice : data.slice buf text.length = text
  terminator : data.get (buf + text.length) = nul

theorem terminated_write (data : CArray Char SIZE) (buf : ℕ) (text : List Char) :
    Terminated (data.write buf (text ++ [nul])) buf text := by
  refine ⟨data.slice_write buf text [nul], ?_⟩
  rw [CArray.write_get_add (by simp), List.getElem_append_right le_rfl]
  simp

/-- Twenty characters are enough for the integers of every type, the sign included. -/
theorem length_decimal_integer_le {op : Insertion} {v : ℤ} (h : op.integer? = some v) :
    (decimal v).length ≤ 20 := by
  obtain ⟨hlo, hhi⟩ := op.integer_bounds h
  by_cases hneg : v < 0
  · exact length_decimal_le (k := 19) (by omega) (by omega)
  · rw [decimal, if_neg hneg, List.nil_append]
    exact length_toDigits_natAbs_le (by omega) (not_lt.mp hneg) (by omega)

/-- In 21 cells, less than the callers check for, `convert` writes the canonical decimal numeral
of every value of every integer type, and `convertHex` the hexadecimal one of every address, a
`'\0'` behind it, and they yield its length. The value is read back from the text, so
no two values share one. -/
theorem numerals_canonical (data : CArray Char SIZE) (hroom : buf + 21 ≤ SIZE) :
    (∀ (op : Insertion) (v : ℤ), op.integer? = some v → ∃ data' text,
      convert data buf v = some (data', text.length) ∧ Terminated data' buf text ∧
      text.length ≤ 20 ∧ IsDecimal v text ∧ readInt text = some v) ∧
    (∀ v : UInt64, ∃ data' text,
      convertHex data buf v.toNat = some (data', text.length) ∧ Terminated data' buf text ∧
      text.length ≤ 16 ∧ IsNumeral 16 v.toNat text ∧ readNat 16 text = some v.toNat) ∧
    (∀ u v text, IsDecimal u text → IsDecimal v text → u = v) ∧
    (∀ m n text, IsNumeral 16 m text → IsNumeral 16 n text → m = n) := by
  refine ⟨fun op v hv => ?_, fun v => ?_, fun u v text hu hv => ?_, fun m n text hm hn => ?_⟩
  · have hlen := length_decimal_integer_le hv
    exact ⟨_, decimal v, convert_eq v (by omega), terminated_write data buf _, hlen,
      isDecimal_iff.mpr rfl, readInt_decimal v⟩
  · have hlen : (hexadecimal v.toNat).length ≤ 16 := length_hexadecimal_le (by omega) v.toNat_lt
    have hcanonical : IsNumeral 16 v.toNat (hexadecimal v.toNat) := isHexadecimal_iff.mpr rfl
    exact ⟨_, hexadecimal v.toNat, convertHex_eq v.toNat (by omega), terminated_write data buf _,
      hlen, hcanonical, hcanonical.value⟩
  · have hread := readInt_decimal u
    rw [← isDecimal_iff.mp hu, isDecimal_iff.mp hv, readInt_decimal] at hread
    exact (Option.some.inj hread).symm
  · exact Option.some.inj (hm.value.symm.trans hn.value)

/-- The most negative `long` fills the twenty characters. -/
theorem numerals_canonical_minValue :
    ∃ (data' : CArray Char 32) (text : List Char),
      convert ⟨fun _ => nul⟩ 0 (-9223372036854775808) = some (data', text.length) ∧
      Terminated data' 0 text ∧ text.length ≤ 20 ∧
      readInt text = some (-9223372036854775808) := by
  obtain ⟨hdecimal, _⟩ := numerals_canonical (⟨fun _ => nul⟩ : CArray Char 32)
    (by decide : 0 + 21 ≤ 32)
  obtain ⟨data', text, heq, hterm, hlen, _, hread⟩ :=
    hdecimal (.long Int64.minValue) (-9223372036854775808) (by decide)
  exact ⟨data', text, heq, hterm, hlen, hread⟩

end NaiveNet
