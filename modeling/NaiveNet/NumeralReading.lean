import NaiveNet.Numerals
import Mathlib.Data.List.Basic
import Mathlib.Data.List.Induction
import Mathlib.Tactic.IntervalCases

/-!
# Numbers read back from a text

A reader of numerals, digit by digit, and the canonical numeral of a number: the
text without a superfluous digit that is read as the number. There is one such text
(`isNumeral_iff`), the one that `%d` and `%X` print.
-/
namespace NaiveNet

/-- The value of a digit, from ten on an upper-case letter. -/
def digitValue (c : Char) : Option ℕ :=
  if '0'.toNat ≤ c.toNat ∧ c.toNat ≤ '9'.toNat then some (c.toNat - '0'.toNat)
  else if 'A'.toNat ≤ c.toNat ∧ c.toNat ≤ 'F'.toNat then some (10 + (c.toNat - 'A'.toNat))
  else none

/-- Reads digits behind those of which `n` was read. -/
def readDigits (base : ℕ) : ℕ → List Char → Option ℕ
  | n, [] => some n
  | n, c :: cs =>
    match digitValue c with
    | some d => if d < base then readDigits base (n * base + d) cs else none
    | none => none

/-- Reads a numeral, which is not empty. -/
def readNat (base : ℕ) (text : List Char) : Option ℕ :=
  if text = [] then none else readDigits base 0 text

/-- Reads a text that may have a sign. -/
def readSigned (read : List Char → Option ℕ) : List Char → Option ℤ
  | '-' :: text => (read text).map fun n : ℕ => -(n : ℤ)
  | text => (read text).map fun n : ℕ => (n : ℤ)

/-- Reads a decimal numeral that may have a sign. -/
def readInt : List Char → Option ℤ := readSigned (readNat 10)

/-- Reads digits, a point and `w` digits more, in units of the last digit. -/
def readFixed (w : ℕ) (text : List Char) : Option ℕ :=
  match text.dropWhile (· ≠ '.') with
  | [] => none
  | _ :: fraction =>
    if fraction.length = w then
      (readNat 10 (text.takeWhile (· ≠ '.'))).bind fun whole =>
        (readNat 10 fraction).map fun n => whole * 10 ^ w + n
    else none

/-- The digits of `n`, from ten on upper-case letters. -/
def upperDigits (base n : ℕ) : List Char := (Nat.toDigits base n).map Char.toUpper

/-- The canonical numeral: no zero in front, but of zero itself. -/
structure IsNumeral (base n : ℕ) (text : List Char) : Prop where
  value : readNat base text = some n
  minimal : text.head? = some '0' → text = ['0']

/-- The canonical decimal numeral, with a sign for a negative number. -/
def IsDecimal (v : ℤ) (text : List Char) : Prop :=
  ∃ digits, IsNumeral 10 v.natAbs digits ∧ text = if v < 0 then '-' :: digits else digits

theorem digitValue_digitChar {d : ℕ} (h : d < 16) : digitValue d.digitChar.toUpper = some d := by
  interval_cases d <;> rfl

theorem eq_digitChar_of_digitValue {c : Char} {d : ℕ} (h : digitValue c = some d) :
    d < 16 ∧ c = d.digitChar.toUpper := by
  have hc : c = Char.ofNat c.toNat := (Char.ofNat_toNat c).symm
  unfold digitValue at h
  generalize c.toNat = k at h hc
  subst hc
  split_ifs at h with h1 h2
  · obtain ⟨hlo, hhi⟩ : 48 ≤ k ∧ k ≤ 57 := h1
    obtain rfl := Option.some.inj h
    interval_cases k <;> exact ⟨by decide, by decide⟩
  · obtain ⟨hlo, hhi⟩ : 65 ≤ k ∧ k ≤ 70 := h2
    obtain rfl := Option.some.inj h
    interval_cases k <;> exact ⟨by decide, by decide⟩

theorem readDigits_append (base n : ℕ) (xs ys : List Char) :
    readDigits base n (xs ++ ys) =
      (readDigits base n xs).bind fun m => readDigits base m ys := by
  induction xs generalizing n with
  | nil => rfl
  | cons c cs ih =>
    simp only [List.cons_append, readDigits]
    cases digitValue c with
    | none => rfl
    | some d =>
      dsimp only
      split_ifs
      · exact ih _
      · rfl

section Base

variable {base n : ℕ}

theorem upperDigits_ne_nil : upperDigits base n ≠ [] := by
  rw [upperDigits, ne_eq, List.map_eq_nil_iff]
  exact Nat.toDigits_ne_nil

theorem upperDigits_of_lt (h : n < base) : upperDigits base n = [n.digitChar.toUpper] := by
  rw [upperDigits, Nat.toDigits_of_lt_base h, List.map_singleton]

theorem upperDigits_of_le (hbase : 1 < base) (h : base ≤ n) :
    upperDigits base n = upperDigits base (n / base) ++ [(n % base).digitChar.toUpper] := by
  rw [upperDigits, Nat.toDigits_of_base_le hbase h, List.map_append, List.map_singleton]
  rfl

theorem readDigits_singleton (hle : base ≤ 16) {m d : ℕ} (hd : d < base) :
    readDigits base m [d.digitChar.toUpper] = some (m * base + d) := by
  rw [readDigits, digitValue_digitChar (hd.trans_le hle)]
  simp only [if_pos hd, readDigits]

theorem readDigits_upperDigits (hbase : 1 < base) (hle : base ≤ 16) (n : ℕ) :
    readDigits base 0 (upperDigits base n) = some n := by
  induction n using Nat.strong_induction_on with
  | h n ih =>
    by_cases hn : n < base
    · rw [upperDigits_of_lt hn, readDigits_singleton hle hn, Nat.zero_mul, Nat.zero_add]
    · have hge := Nat.le_of_not_lt hn
      rw [upperDigits_of_le hbase hge, readDigits_append,
        ih (n / base) (Nat.div_lt_self (by omega) hbase), Option.bind_some,
        readDigits_singleton hle (Nat.mod_lt _ (by omega)), Nat.div_add_mod']

theorem readNat_upperDigits (hbase : 1 < base) (hle : base ≤ 16) (n : ℕ) :
    readNat base (upperDigits base n) = some n := by
  rw [readNat, if_neg upperDigits_ne_nil, readDigits_upperDigits hbase hle]

theorem isNumeral_upperDigits (hbase : 1 < base) (hle : base ≤ 16) (n : ℕ) :
    IsNumeral base n (upperDigits base n) := by
  refine ⟨readNat_upperDigits hbase hle n, ?_⟩
  induction n using Nat.strong_induction_on with
  | h n ih =>
    intro hzero
    by_cases hn : n < base
    · rw [upperDigits_of_lt hn] at hzero ⊢
      rw [Option.some.inj hzero]
    · have hge := Nat.le_of_not_lt hn
      have hpos : 0 < n / base := Nat.div_pos hge (by omega)
      rw [upperDigits_of_le hbase hge, List.head?_append_of_ne_nil _ upperDigits_ne_nil] at hzero
      -- The digits before the last would be a zero, and the number less than the base.
      have hread := readDigits_upperDigits hbase hle (n / base)
      rw [ih (n / base) (Nat.div_lt_self (by omega) hbase) hzero] at hread
      have hzero : readDigits base 0 ['0'] = some (0 * base + 0) :=
        readDigits_singleton hle (d := 0) (by omega)
      have hdiv := Option.some.inj (hread.symm.trans hzero)
      omega

theorem readDigits_append_singleton {cs : List Char} {c : Char}
    (h : readDigits base 0 (cs ++ [c]) = some n) :
    ∃ m d, readDigits base 0 cs = some m ∧ d < base ∧ c = d.digitChar.toUpper ∧
      n = m * base + d := by
  rw [readDigits_append] at h
  obtain ⟨m, hm, h⟩ := Option.bind_eq_some_iff.mp h
  unfold readDigits at h
  split at h
  next d hd =>
    split_ifs at h with hlt
    exact ⟨m, d, hm, hlt, (eq_digitChar_of_digitValue hd).2, (Option.some.inj h).symm⟩
  next => contradiction

/-- There is one canonical numeral. -/
theorem isNumeral_iff (hbase : 1 < base) (hle : base ≤ 16) {text : List Char} :
    IsNumeral base n text ↔ text = upperDigits base n := by
  refine ⟨fun h => ?_, fun h => h ▸ isNumeral_upperDigits hbase hle n⟩
  induction text using List.reverseRecOn generalizing n with
  | nil => simpa [readNat] using h.value
  | append_singleton cs c ih =>
    obtain ⟨hvalue, hminimal⟩ := h
    rw [readNat, if_neg (by simp)] at hvalue
    obtain ⟨m, d, hm, hd, rfl, rfl⟩ := readDigits_append_singleton hvalue
    by_cases hcs : cs = []
    · subst hcs
      obtain rfl : 0 = m := Option.some.inj hm
      rw [Nat.zero_mul, Nat.zero_add, List.nil_append, upperDigits_of_lt hd]
    · have hhead : cs.head? ≠ some '0' := by
        intro hzero
        rw [List.head?_append_of_ne_nil _ hcs] at hminimal
        have hlength := congrArg List.length (hminimal hzero)
        have hpos := List.length_pos_iff.mpr hcs
        rw [List.length_append, List.length_singleton, List.length_singleton] at hlength
        omega
      have hinit := ih ⟨by rw [readNat, if_neg hcs, hm], fun hzero => absurd hzero hhead⟩
      have hmpos : 0 < m := by
        by_contra hzero
        obtain rfl : m = 0 := by omega
        rw [hinit, upperDigits_of_lt (by omega)] at hhead
        exact hhead rfl
      have hge : base ≤ m * base + d := by
        have := Nat.le_mul_of_pos_left base hmpos
        omega
      have hdiv : (m * base + d) / base = m := by
        rw [Nat.mul_comm, Nat.mul_add_div (by omega), Nat.div_eq_of_lt hd, Nat.add_zero]
      have hmod : (m * base + d) % base = d := by
        rw [Nat.mul_comm, Nat.mul_add_mod, Nat.mod_eq_of_lt hd]
      rw [upperDigits_of_le hbase hge, hdiv, hmod, ← hinit]

end Base

theorem upperDigits_ten (n : ℕ) : upperDigits 10 n = Nat.toDigits 10 n := by
  induction n using Nat.strong_induction_on with
  | h n ih =>
    by_cases hn : n < 10
    · rw [upperDigits_of_lt hn, Nat.toDigits_of_lt_base hn]
      interval_cases n <;> rfl
    · have hge := Nat.le_of_not_lt hn
      have hlast : n % 10 < 10 := Nat.mod_lt _ (by omega)
      rw [upperDigits_of_le (by omega) hge, Nat.toDigits_of_base_le (by omega) hge,
        ih (n / 10) (Nat.div_lt_self (by omega) (by omega))]
      generalize n % 10 = d at hlast
      interval_cases d <;> rfl

/-- `%d` prints the canonical numeral. -/
theorem isDecimal_iff {v : ℤ} {text : List Char} : IsDecimal v text ↔ text = decimal v := by
  have hdigits : ∀ digits, IsNumeral 10 v.natAbs digits ↔ digits = Nat.toDigits 10 v.natAbs :=
    fun digits => by rw [isNumeral_iff (by omega) (by omega), upperDigits_ten]
  simp only [IsDecimal, hdigits, exists_eq_left, decimal]
  split_ifs <;> rfl

/-- `%X` prints the canonical numeral. -/
theorem isHexadecimal_iff {n : ℕ} {text : List Char} :
    IsNumeral 16 n text ↔ text = hexadecimal n := isNumeral_iff (by omega) (by omega)

theorem head?_toDigits_ne (n : ℕ) : (Nat.toDigits 10 n).head? ≠ some '-' := by
  intro h
  have hdigit := Nat.isDigit_of_mem_toDigits (by omega) le_rfl (List.mem_of_head? h)
  contradiction

theorem readNat_toDigits (n : ℕ) : readNat 10 (Nat.toDigits 10 n) = some n := by
  rw [← upperDigits_ten, readNat_upperDigits (by omega) (by omega)]

theorem readSigned_of_head?_ne {read : List Char → Option ℕ} {text : List Char}
    (h : text.head? ≠ some '-') :
    readSigned read text = (read text).map fun n : ℕ => (n : ℤ) := by
  unfold readSigned
  split
  · exact absurd rfl h
  · rfl

/-- What begins with `%d` is read with the sign of the number. -/
theorem readSigned_decimal_append (read : List Char → Option ℕ) (v : ℤ) (rest : List Char) :
    readSigned read (decimal v ++ rest) =
      (read (Nat.toDigits 10 v.natAbs ++ rest)).map fun n : ℕ =>
        if v < 0 then -(n : ℤ) else n := by
  by_cases hneg : v < 0
  · simp only [decimal, if_pos hneg]
    rfl
  · have hhead : (Nat.toDigits 10 v.natAbs ++ rest).head? ≠ some '-' := by
      rw [List.head?_append_of_ne_nil _ Nat.toDigits_ne_nil]
      exact head?_toDigits_ne _
    simp only [decimal, if_neg hneg, List.nil_append, readSigned_of_head?_ne hhead]

theorem readInt_decimal (v : ℤ) : readInt (decimal v) = some v := by
  have hread := readSigned_decimal_append (readNat 10) v []
  rw [List.append_nil, List.append_nil, readNat_toDigits, Option.map_some] at hread
  rw [readInt, hread]
  congr 1
  split_ifs <;> omega

/-- Zeros in front do not change what is read. -/
theorem readDigits_leftpad {base : ℕ} (hbase : 0 < base) (w : ℕ) (text : List Char) :
    readDigits base 0 (text.leftpad w '0') = readDigits base 0 text := by
  have hzero : digitValue '0' = some 0 := rfl
  rw [List.leftpad]
  induction w - text.length with
  | zero => rfl
  | succ k ih =>
    rw [List.replicate_succ, List.cons_append, readDigits, hzero, ← ih]
    simp only [if_pos hbase, Nat.zero_mul, Nat.zero_add]

theorem readNat_zeroFilled (w : ℕ) {v : ℤ} (h : 0 ≤ v) :
    readNat 10 (zeroFilled w v) = some v.natAbs := by
  have hne : (Nat.toDigits 10 v.natAbs).leftpad w '0' ≠ [] := by
    rw [List.leftpad]
    exact List.append_ne_nil_of_right_ne_nil _ Nat.toDigits_ne_nil
  have hread := readNat_toDigits v.natAbs
  rw [readNat, if_neg Nat.toDigits_ne_nil] at hread
  rw [zeroFilled, if_neg (not_lt.mpr h), readNat, if_neg hne, readDigits_leftpad (by omega), hread]

/-- A sign is not a digit. -/
theorem readNat_zeroFilled_neg (w : ℕ) {v : ℤ} (h : v < 0) :
    readNat 10 (zeroFilled w v) = none := by
  rw [zeroFilled, if_pos h]
  rfl

theorem readFixed_toDigits_append (w n : ℕ) (fraction : List Char) :
    readFixed w (Nat.toDigits 10 n ++ '.' :: fraction) =
      if fraction.length = w then (readNat 10 fraction).map fun m => n * 10 ^ w + m else none := by
  have hpoint : ∀ c ∈ Nat.toDigits 10 n, decide (c ≠ '.') = true := by
    intro c hc
    have hdigit := Nat.isDigit_of_mem_toDigits (by omega) le_rfl hc
    refine decide_eq_true fun h => ?_
    rw [h] at hdigit
    contradiction
  have hbehind : ('.' :: fraction).dropWhile (· ≠ '.') = '.' :: fraction := rfl
  have hbefore : ('.' :: fraction).takeWhile (· ≠ '.') = [] := rfl
  rw [readFixed, List.dropWhile_append_of_pos hpoint, List.takeWhile_append_of_pos hpoint, hbehind,
    hbefore, List.append_nil]
  simp only [readNat_toDigits, Option.bind_some]

/-- The fraction counts away from zero, as the digits before the point do. -/
theorem readSigned_readFixed (w : ℕ) (v : ℤ) (fraction : List Char) :
    readSigned (readFixed w) (decimal v ++ '.' :: fraction) =
      if fraction.length = w then
        (readNat 10 fraction).map fun m : ℕ => if v < 0 then v * 10 ^ w - m else v * 10 ^ w + m
      else none := by
  rw [readSigned_decimal_append, readFixed_toDigits_append]
  by_cases hlength : fraction.length = w
  · rw [if_pos hlength, if_pos hlength, Option.map_map]
    congr 1
    ext m
    have hcast : ((v.natAbs * 10 ^ w + m : ℕ) : ℤ) = v.natAbs * 10 ^ w + m := by
      rw [Nat.cast_add, Nat.cast_mul, Nat.cast_pow, Nat.cast_ofNat]
    rw [Function.comp_apply, hcast]
    split_ifs with hneg
    · have habs : (v.natAbs : ℤ) = -v := by omega
      rw [habs, Int.neg_mul, Int.neg_add, Int.neg_neg, Int.sub_eq_add_neg]
    · have habs : (v.natAbs : ℤ) = v := by omega
      rw [habs]
  · rw [if_neg hlength, if_neg hlength, Option.map_none]

/-- The blanks in front are no part of a numeral. -/
theorem dropWhile_blankFilled (w : ℕ) (v : ℤ) :
    (blankFilled w v).dropWhile (· = ' ') = decimal v := by
  have hblanks : ∀ c ∈ List.replicate (w - (decimal v).length) ' ', decide (c = ' ') = true :=
    fun c hc => decide_eq_true (List.eq_of_mem_replicate hc)
  rw [blankFilled, List.leftpad, List.dropWhile_append_of_pos hblanks]
  by_cases hneg : v < 0
  · rw [decimal, if_pos hneg]
    rfl
  · rw [decimal, if_neg hneg, List.nil_append]
    obtain ⟨c, digits, hcons⟩ := List.exists_cons_of_ne_nil
      (Nat.toDigits_ne_nil (b := 10) (n := v.natAbs))
    have hdigit := Nat.isDigit_of_mem_toDigits (b := 10) (n := v.natAbs) (by omega) le_rfl
      (by rw [hcons]; exact List.mem_cons_self)
    rw [hcons, List.dropWhile_cons_of_neg]
    rintro hblank
    rw [of_decide_eq_true hblank] at hdigit
    contradiction

theorem decimal_injective : Function.Injective decimal := by
  intro u v h
  have hread := congrArg readInt h
  rw [readInt_decimal, readInt_decimal] at hread
  exact Option.some.inj hread

theorem blankFilled_injective (w : ℕ) : Function.Injective (blankFilled w) := by
  intro u v h
  have hdecimal := congrArg (List.dropWhile (· = ' ')) h
  rw [dropWhile_blankFilled, dropWhile_blankFilled] at hdecimal
  exact decimal_injective hdecimal

end NaiveNet
