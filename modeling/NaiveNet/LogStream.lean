import Mathlib.Algebra.Order.Group.Unbundled.Int
import Mathlib.Tactic.IntervalCases
import Mathlib.Tactic.NormNum
import NaiveNet.CArray
import NaiveNet.Runs

/-!
# The log stream

`FixedBuffer` and `LogStream`. Texts go through the checked `append`; numbers are
written directly behind `current()`, guarded by `kMaxNumericSize` alone. An
insertion is `none` where it would store outside `data_`, so the theorem below
says that none does. What `snprintf("%.12g")` prints is a parameter.
-/
namespace NaiveNet

def kSmallBuffer : ℕ := 4000
def kLargeBuffer : ℕ := 4000 * 1000

/-- `'\0'` -/
def nul : Char := Char.ofNat 0

structure FixedBuffer (SIZE : ℕ) where
  data_ : CArray Char SIZE
  /-- `cur_ - data_` -/
  cur_ : ℕ

namespace FixedBuffer

variable {SIZE : ℕ}

/-- The constructor does not clear `data_`. -/
def new (data_ : CArray Char SIZE) : FixedBuffer SIZE := ⟨data_, 0⟩

def length (b : FixedBuffer SIZE) : ℕ := b.cur_

def current (b : FixedBuffer SIZE) : ℕ := b.cur_

def avail (b : FixedBuffer SIZE) : ℤ := SIZE - b.cur_

/-- `avail()` is converted to `size_t`. -/
def append (b : FixedBuffer SIZE) (buf : List Char) : Option (FixedBuffer SIZE) :=
  if buf.length < b.avail % 2 ^ 64 then
    (b.data_.copy b.cur_ buf).map fun data_ => ⟨data_, b.cur_ + buf.length⟩
  else some b

def add (b : FixedBuffer SIZE) (len : ℕ) : FixedBuffer SIZE := { b with cur_ := b.cur_ + len }

def reset (b : FixedBuffer SIZE) : FixedBuffer SIZE := { b with cur_ := 0 }

/-- `asString()` -/
def text (b : FixedBuffer SIZE) : List Char := b.data_.slice 0 b.cur_

/-- The buffer with `xs` appended and `rest` left in the cells after it. -/
def put (b : FixedBuffer SIZE) (xs rest : List Char) : FixedBuffer SIZE :=
  ⟨b.data_.write b.cur_ (xs ++ rest), b.cur_ + xs.length⟩

@[simp] theorem length_put (b : FixedBuffer SIZE) (xs rest : List Char) :
    (b.put xs rest).length = b.length + xs.length := rfl

theorem put_get_of_lt (b : FixedBuffer SIZE) (xs rest : List Char) {i : ℕ} (h : i < b.length) :
    (b.put xs rest).data_.get i = b.data_.get i := CArray.write_get_of_lt _ h

@[simp] theorem length_text (b : FixedBuffer SIZE) : b.text.length = b.length :=
  CArray.length_slice _ _ _

@[simp] theorem text_put (b : FixedBuffer SIZE) (xs rest : List Char) :
    (b.put xs rest).text = b.text ++ xs := by
  have hold : (b.data_.write b.cur_ (xs ++ rest)).slice 0 b.cur_ = b.text :=
    CArray.slice_congr fun j _ hj => CArray.write_get_of_lt _ (by omega)
  rw [text, put, CArray.slice_add, hold, Nat.zero_add, CArray.slice_write]

/-- A text is appended whole where it leaves at least one cell free. -/
theorem append_of_lt {b : FixedBuffer SIZE} {buf : List Char} (hsize : SIZE < 2 ^ 31)
    (h : b.length + buf.length < SIZE) : b.append buf = some (b.put buf []) := by
  have hlen : b.cur_ + buf.length < SIZE := h
  have havail : (buf.length : ℤ) < b.avail % 2 ^ 64 := by
    unfold avail
    omega
  rw [append, if_pos havail, CArray.copy_eq (by omega), Option.map_some, put, List.append_nil]

theorem append_of_le {b : FixedBuffer SIZE} {buf : List Char}
    (hcur : b.length ≤ SIZE) (h : SIZE ≤ b.length + buf.length) : b.append buf = some b := by
  have hlen : SIZE ≤ b.cur_ + buf.length := h
  have hle : b.cur_ ≤ SIZE := hcur
  have havail : ¬ (buf.length : ℤ) < b.avail % 2 ^ 64 := by
    unfold avail
    omega
  rw [append, if_neg havail]

/-- No append misses `data_`. -/
theorem exists_append {b : FixedBuffer SIZE} (hsize : SIZE < 2 ^ 31) (hcur : b.length ≤ SIZE)
    (buf : List Char) : ∃ b', b.append buf = some b' := by
  by_cases hroom : b.length + buf.length < SIZE
  · exact ⟨_, append_of_lt hsize hroom⟩
  · exact ⟨_, append_of_le hcur (not_lt.mp hroom)⟩

end FixedBuffer

variable {SIZE : ℕ}

def digits : List Char := "9876543210123456789".toList

/-- `zero[lsd]`, where `zero` points to the middle of `digits`. -/
def zero (lsd : ℤ) : Option Char := if 0 ≤ 9 + lsd then digits[(9 + lsd).toNat]? else none

def digitsHex : List Char := "0123456789ABCDEF".toList

theorem natAbs_tdiv_lt {base : ℕ} (hbase : 1 < base) {i : ℤ} (h : i.tdiv base ≠ 0) :
    (i.tdiv base).natAbs < i.natAbs := by
  rw [Int.natAbs_tdiv, Int.natAbs_natCast]
  refine Nat.div_lt_self (Int.natAbs_pos.mpr ?_) hbase
  rintro rfl
  exact h (Int.zero_tdiv _)

/-- The `do` loop of `convert` and `convertHex`: stores the digits of `i` from `p` on, the
least significant first, and yields the position behind them. -/
def storeDigits (table : ℤ → Option Char) (base : ℕ) (hbase : 1 < base)
    (data : CArray Char SIZE) (p : ℕ) (i : ℤ) : Option (CArray Char SIZE × ℕ) := do
  let digit ← table (i.tmod base)
  let data ← data.store p digit
  if h : i.tdiv base ≠ 0 then
    storeDigits table base hbase data (p + 1) (i.tdiv base)
  else
    return (data, p + 1)
termination_by i.natAbs
decreasing_by exact natAbs_tdiv_lt hbase h

/-- Writes `value` in decimal at position `buf`. -/
def convert (data : CArray Char SIZE) (buf : ℕ) (value : ℤ) :
    Option (CArray Char SIZE × ℕ) := do
  let (data, p) ← storeDigits zero 10 Nat.one_lt_ofNat data buf value
  let (data, p) ← if value < 0 then (data.store p '-').map (·, p + 1) else some (data, p)
  let data ← data.store p nul
  let data ← data.reverse buf p
  return (data, p - buf)

/-- Writes `value`, an `uintptr_t`, in upper-case hexadecimal at position `buf`. -/
def convertHex (data : CArray Char SIZE) (buf : ℕ) (value : ℕ) :
    Option (CArray Char SIZE × ℕ) := do
  let (data, p) ← storeDigits (fun lsd => digitsHex[lsd.toNat]?) 16 Nat.one_lt_ofNat
    data buf value
  let data ← data.store p nul
  let data ← data.reverse buf p
  return (data, p - buf)

def kMaxNumericSize : ℕ := 32

structure LogStream where
  buffer_ : FixedBuffer kSmallBuffer

namespace LogStream

/-- A fresh stream; `data_` is what its memory happens to hold. -/
def new (data_ : CArray Char kSmallBuffer) : LogStream := ⟨.new data_⟩

def formatInteger (s : LogStream) (v : ℤ) : Option LogStream :=
  if kMaxNumericSize ≤ s.buffer_.avail then do
    let (data, len) ← convert s.buffer_.data_ s.buffer_.current v
    return ⟨({ s.buffer_ with data_ := data }).add len⟩
  else some s

/-- `LogStream::append` -/
def append (s : LogStream) (data : List Char) : Option LogStream :=
  (s.buffer_.append data).map LogStream.mk

def insertBool (s : LogStream) (v : Bool) : Option LogStream :=
  s.append (if v then ['1'] else ['0'])

def insertInt (s : LogStream) (v : Int32) : Option LogStream := s.formatInteger v.toInt

def insertUnsignedInt (s : LogStream) (v : UInt32) : Option LogStream := s.formatInteger v.toNat

def insertShort (s : LogStream) (v : Int16) : Option LogStream := s.insertInt v.toInt32

def insertUnsignedShort (s : LogStream) (v : UInt16) : Option LogStream :=
  s.insertUnsignedInt v.toUInt32

def insertLong (s : LogStream) (v : Int64) : Option LogStream := s.formatInteger v.toInt

def insertUnsignedLong (s : LogStream) (v : UInt64) : Option LogStream := s.formatInteger v.toNat

def insertLongLong (s : LogStream) (v : Int64) : Option LogStream := s.formatInteger v.toInt

def insertUnsignedLongLong (s : LogStream) (v : UInt64) : Option LogStream :=
  s.formatInteger v.toNat

/-- `operator<<(const void*)` -/
def insertPointer (s : LogStream) (p : UInt64) : Option LogStream :=
  if kMaxNumericSize ≤ s.buffer_.avail then do
    let buf := s.buffer_.current
    let data ← s.buffer_.data_.store buf '0'
    let data ← data.store (buf + 1) 'x'
    let (data, len) ← convertHex data (buf + 2) p.toNat
    return ⟨({ s.buffer_ with data_ := data }).add (len + 2)⟩
  else some s

/-- `snprintf` stores what fits and a `'\0'`, and yields the length of the whole text. -/
def insertDouble (format : Float → List Char) (s : LogStream) (v : Float) : Option LogStream :=
  if kMaxNumericSize ≤ s.buffer_.avail then do
    let data ← s.buffer_.data_.copy s.buffer_.current
      ((format v).take (kMaxNumericSize - 1) ++ [nul])
    return ⟨({ s.buffer_ with data_ := data }).add (format v).length⟩
  else some s

def insertFloat (format : Float → List Char) (s : LogStream) (v : Float32) : Option LogStream :=
  s.insertDouble format v.toFloat

def insertChar (s : LogStream) (v : Char) : Option LogStream := s.append [v]

/-- The `strlen` characters of a C string. -/
def cStr (str : List Char) : List Char := str.takeWhile (· ≠ nul)

/-- `operator<<(const char*)`; the pointer may be null. -/
def insertCString (s : LogStream) (str : Option (List Char)) : Option LogStream :=
  match str with
  | some str => s.append (cStr str)
  | none => s.append "(null)".toList

def insertUnsignedCString (s : LogStream) (str : Option (List Char)) : Option LogStream :=
  s.insertCString str

/-- `operator<<(const std::string&)` -/
def insertString (s : LogStream) (v : List Char) : Option LogStream := s.append v

/-- `operator<<(const StringPiece&)` -/
def insertStringPiece (s : LogStream) (v : List Char) : Option LogStream := s.append v

/-- `operator<<(LogStream&, const Fmt&)` -/
def insertFmt (s : LogStream) (fmt : List Char) : Option LogStream := s.append fmt

def resetBuffer (s : LogStream) : LogStream := ⟨s.buffer_.reset⟩

end LogStream

/-- What a caller can do to a stream. Lengths are not negative. -/
inductive Insertion
  | bool (v : Bool)
  | short (v : Int16)
  | unsignedShort (v : UInt16)
  | int (v : Int32)
  | unsignedInt (v : UInt32)
  | long (v : Int64)
  | unsignedLong (v : UInt64)
  | longLong (v : Int64)
  | unsignedLongLong (v : UInt64)
  | pointer (p : UInt64)
  | float (v : Float32)
  | double (v : Float)
  | char (v : Char)
  | cString (str : Option (List Char))
  | unsignedCString (str : Option (List Char))
  | string (v : List Char)
  | stringPiece (v : List Char)
  | fmt (fmt : List Char)
  | append (data : List Char)
  | resetBuffer

/-- One insertion; `none` where a store would miss `data_`. -/
def insert (format : Float → List Char) (s : LogStream) : Insertion → Option LogStream
  | .bool v => s.insertBool v
  | .short v => s.insertShort v
  | .unsignedShort v => s.insertUnsignedShort v
  | .int v => s.insertInt v
  | .unsignedInt v => s.insertUnsignedInt v
  | .long v => s.insertLong v
  | .unsignedLong v => s.insertUnsignedLong v
  | .longLong v => s.insertLongLong v
  | .unsignedLongLong v => s.insertUnsignedLongLong v
  | .pointer p => s.insertPointer p
  | .float v => s.insertFloat format v
  | .double v => s.insertDouble format v
  | .char v => s.insertChar v
  | .cString str => s.insertCString str
  | .unsignedCString str => s.insertUnsignedCString str
  | .string v => s.insertString v
  | .stringPiece v => s.insertStringPiece v
  | .fmt fmt => s.insertFmt fmt
  | .append data => s.append data
  | .resetBuffer => some s.resetBuffer

end NaiveNet
