import NaiveNet.ProcessInfo
import Mathlib.Data.Char
import Mathlib.Data.List.Lex

/-!
# Pieces in order

The comparisons of `StringPiece`. They look at the bytes that both pieces have, and then at
the lengths; that is the lexicographic order of the texts. Bytes are characters here, and
two pieces may overlap in the text they point into.
-/
namespace NaiveNet

section Lexicographic

variable {α : Type*} [LinearOrder α]

/-- What two lists have in common decides, or else the length. -/
theorem lt_iff_take_lt (xs ys : List α) {m : ℕ} (hm : m = min xs.length ys.length) :
    xs < ys ↔ xs.take m < ys.take m ∨ xs.take m = ys.take m ∧ xs.length < ys.length := by
  subst hm
  induction xs generalizing ys with
  | nil =>
    cases ys with
    | nil => simp
    | cons y ys => simp
  | cons x xs ih =>
    cases ys with
    | nil => simp
    | cons y ys =>
      have hmin : min (x :: xs).length (y :: ys).length = min xs.length ys.length + 1 := by
        simp only [List.length_cons]
        omega
      rw [hmin, List.take_succ_cons, List.take_succ_cons, List.cons_lt_cons_iff,
        List.cons_lt_cons_iff, ih, List.cons.injEq, List.length_cons, List.length_cons,
        Nat.add_lt_add_iff_right, and_or_left, or_assoc, and_assoc]

omit [LinearOrder α] in
theorem eq_iff_take_eq (xs ys : List α) {m : ℕ} (hm : m = min xs.length ys.length) :
    xs = ys ↔ xs.take m = ys.take m ∧ xs.length = ys.length := by
  constructor
  · rintro rfl
    exact ⟨rfl, rfl⟩
  · rintro ⟨htake, hlen⟩
    rwa [List.take_of_length_le (by omega), List.take_of_length_le (by omega)] at htake

end Lexicographic

namespace ProcessInfo

/-- `memcmp`: the sign of what it returns is given, no more. -/
structure Memcmp where
  memcmp : List Char → List Char → ℤ
  neg_iff : ∀ xs ys, xs.length = ys.length → (memcmp xs ys < 0 ↔ xs < ys)
  pos_iff : ∀ xs ys, xs.length = ys.length → (0 < memcmp xs ys ↔ ys < xs)

namespace StringPiece

/-- The first `n` bytes at `ptr_`. -/
def bytes (text : List Char) (x : StringPiece) (n : ℤ) : List Char :=
  (text.drop (x.ptr_.getD 0)).take n.toNat

/-- `memcmp(ptr_, x.ptr_, n)` -/
def compareBytes (lib : Memcmp) (text : List Char) (self x : StringPiece) (n : ℤ) : ℤ :=
  lib.memcmp (self.bytes text n) (x.bytes text n)

/-- `length_ < x.length_ ? length_ : x.length_` -/
def minLength (self x : StringPiece) : ℤ :=
  if self.length_ < x.length_ then self.length_ else x.length_

def operatorEq (lib : Memcmp) (text : List Char) (self x : StringPiece) : Bool :=
  self.length_ = x.length_ && compareBytes lib text self x self.length_ = 0

def operatorNe (lib : Memcmp) (text : List Char) (self x : StringPiece) : Bool :=
  !operatorEq lib text self x

/-- `STRINGPIECE_BINARY_PREDICATE(cmp, auxcmp)` -/
def binaryPredicate (cmp auxcmp : ℤ → ℤ → Bool) (lib : Memcmp) (text : List Char)
    (self x : StringPiece) : Bool :=
  let r := compareBytes lib text self x (minLength self x)
  auxcmp r 0 || r = 0 && cmp self.length_ x.length_

def operatorLt : Memcmp → List Char → StringPiece → StringPiece → Bool :=
  binaryPredicate (· < ·) (· < ·)

def operatorLe : Memcmp → List Char → StringPiece → StringPiece → Bool :=
  binaryPredicate (· ≤ ·) (· < ·)

def operatorGe : Memcmp → List Char → StringPiece → StringPiece → Bool :=
  binaryPredicate (· ≥ ·) (· > ·)

def operatorGt : Memcmp → List Char → StringPiece → StringPiece → Bool :=
  binaryPredicate (· > ·) (· > ·)

def compare (lib : Memcmp) (text : List Char) (self x : StringPiece) : ℤ :=
  let r := compareBytes lib text self x (minLength self x)
  if r = 0 then
    if self.length_ < x.length_ then -1 else if self.length_ > x.length_ then 1 else r
  else r

def starts_with (lib : Memcmp) (text : List Char) (self x : StringPiece) : Bool :=
  self.length_ ≥ x.length_ && compareBytes lib text self x x.length_ = 0

variable {lib : Memcmp} {text : List Char} {x y : StringPiece} {xs ys : List Char}

theorem length_as_string (hin : x.Inside text) (h : x.as_string text = some xs) :
    (xs.length : ℤ) = x.length_ := by
  obtain ⟨hnonneg, hle⟩ := hin
  rw [as_string, if_neg (not_lt.mpr hnonneg)] at h
  obtain rfl := Option.some.inj h
  rw [List.length_take, List.length_drop]
  omega

theorem bytes_eq (hin : x.Inside text) (h : x.as_string text = some xs) {n : ℤ}
    (hn : n ≤ x.length_) : x.bytes text n = xs.take n.toNat := by
  rw [as_string, if_neg (not_lt.mpr hin.1)] at h
  obtain rfl := Option.some.inj h
  rw [List.take_take, bytes, min_eq_left (by omega)]

/-- The sign of a comparison is the order of what is compared. -/
theorem compareBytes_sign (lib : Memcmp) (hx : x.Inside text) (hy : y.Inside text)
    (hxs : x.as_string text = some xs) (hys : y.as_string text = some ys) {n : ℤ}
    (hnx : n ≤ x.length_) (hny : n ≤ y.length_) :
    (compareBytes lib text x y n < 0 ↔ xs.take n.toNat < ys.take n.toNat) ∧
    (0 < compareBytes lib text x y n ↔ ys.take n.toNat < xs.take n.toNat) ∧
    (compareBytes lib text x y n = 0 ↔ xs.take n.toNat = ys.take n.toNat) := by
  have hlx := length_as_string hx hxs
  have hly := length_as_string hy hys
  have hlen : (xs.take n.toNat).length = (ys.take n.toNat).length := by
    rw [List.length_take, List.length_take]
    omega
  rw [compareBytes, bytes_eq hx hxs hnx, bytes_eq hy hys hny]
  have hneg := lib.neg_iff _ _ hlen
  have hpos := lib.pos_iff _ _ hlen
  refine ⟨hneg, hpos, ?_⟩
  constructor
  · intro hzero
    rcases lt_trichotomy (xs.take n.toNat) (ys.take n.toNat) with hlt | heq | hgt
    · have hless := hneg.mpr hlt
      omega
    · exact heq
    · have hmore := hpos.mpr hgt
      omega
  · intro heq
    rw [heq] at hneg hpos ⊢
    have hnotless := mt hneg.mp (lt_irrefl _)
    have hnotmore := mt hpos.mp (lt_irrefl _)
    omega

theorem starts_with_iff (lib : Memcmp) (hx : x.Inside text) (hy : y.Inside text)
    (hxs : x.as_string text = some xs) (hys : y.as_string text = some ys) :
    starts_with lib text x y = true ↔ ys <+: xs := by
  have hlx := length_as_string hx hxs
  have hly := length_as_string hy hys
  rw [starts_with, Bool.and_eq_true, decide_eq_true_eq, decide_eq_true_eq,
    List.prefix_iff_eq_take]
  have hlength : y.length_.toNat = ys.length := by omega
  constructor
  · intro ⟨hle, hzero⟩
    obtain ⟨_, _, hsame⟩ := compareBytes_sign lib hx hy hxs hys hle le_rfl
    rw [hlength, List.take_length] at hsame
    exact (hsame.mp hzero).symm
  · intro hhead
    have hle : y.length_ ≤ x.length_ := by
      have hlen := congrArg List.length hhead
      rw [List.length_take] at hlen
      omega
    obtain ⟨_, _, hsame⟩ := compareBytes_sign lib hx hy hxs hys hle le_rfl
    rw [hlength, List.take_length] at hsame
    exact ⟨hle, hsame.mpr hhead.symm⟩

/-- All the operators, and `compare`, are one linear order, the lexicographic one, and
`starts_with` is the prefix relation. -/
theorem order_exact (lib : Memcmp) (hx : x.Inside text) (hy : y.Inside text)
    (hxs : x.as_string text = some xs) (hys : y.as_string text = some ys) :
    (operatorEq lib text x y = true ↔ xs = ys) ∧ (operatorNe lib text x y = true ↔ xs ≠ ys) ∧
    (operatorLt lib text x y = true ↔ xs < ys) ∧ (operatorLe lib text x y = true ↔ ¬ ys < xs) ∧
    (operatorGe lib text x y = true ↔ ¬ xs < ys) ∧ (operatorGt lib text x y = true ↔ ys < xs) ∧
    (compare lib text x y < 0 ↔ xs < ys) ∧ (compare lib text x y = 0 ↔ xs = ys) ∧
    (0 < compare lib text x y ↔ ys < xs) ∧ (starts_with lib text x y = true ↔ ys <+: xs) := by
  have hlx := length_as_string hx hxs
  have hly := length_as_string hy hys
  have hmin : minLength x y ≤ x.length_ ∧ minLength x y ≤ y.length_ ∧
      (minLength x y).toNat = min xs.length ys.length := by
    unfold minLength
    split_ifs <;> omega
  obtain ⟨hneg, hpos, hzero⟩ := compareBytes_sign lib hx hy hxs hys hmin.1 hmin.2.1
  have hlt := lt_iff_take_lt xs ys hmin.2.2
  have hgt := lt_iff_take_lt ys xs (hmin.2.2.trans (Nat.min_comm ..))
  have heq := eq_iff_take_eq xs ys hmin.2.2
  rw [← hneg, ← hzero] at hlt
  rw [← hpos, eq_comm, ← hzero] at hgt
  rw [← hzero] at heq
  have hself : operatorEq lib text x y = true ↔ xs = ys := by
    rw [operatorEq, Bool.and_eq_true, decide_eq_true_eq, decide_eq_true_eq, heq]
    have hsame (h : x.length_ = y.length_) : minLength x y = x.length_ := by
      rw [minLength, if_neg (by omega), h]
    constructor
    · intro ⟨hlength, hbytes⟩
      rw [hsame hlength]
      exact ⟨hbytes, by omega⟩
    · intro ⟨hbytes, hlength⟩
      rw [hsame (by omega)] at hbytes
      exact ⟨by omega, hbytes⟩
  refine ⟨hself, ?_, ?_⟩
  · rw [operatorNe, Bool.not_eq_true', ← Bool.not_eq_true, hself]
  · rw [operatorLt, operatorLe, operatorGe, operatorGt]
    simp only [binaryPredicate, Bool.or_eq_true, Bool.and_eq_true, decide_eq_true_eq, hlt, hgt, heq]
    have hstarts := starts_with_iff lib hx hy hxs hys
    refine ⟨by omega, by omega, by omega, by omega, ?_⟩
    unfold compare
    dsimp only
    split_ifs <;> grind

/-- A `memcmp` that says no more than it must. -/
def signMemcmp : Memcmp where
  memcmp xs ys := if xs < ys then -1 else if ys < xs then 1 else 0
  neg_iff xs ys _ := by
    split_ifs with hlt hgt <;> simp [hlt]
  pos_iff xs ys _ := by
    split_ifs with hlt hgt
    · simpa using hlt.le
    · simp [hgt]
    · simp [hgt]

/-- Two pieces that overlap, and a shorter one that begins like the first. -/
theorem order_exact_overlap :
    operatorLt signMemcmp "abcab".toList ⟨some 0, 4⟩ ⟨some 1, 3⟩ = true ∧
    starts_with signMemcmp "abcab".toList ⟨some 0, 4⟩ ⟨some 3, 2⟩ = true ∧
    0 < compare signMemcmp "abcab".toList ⟨some 0, 4⟩ ⟨some 3, 2⟩ := by
  have hfirst : Inside ⟨some 0, 4⟩ "abcab".toList := ⟨by decide, by decide⟩
  have hsecond : Inside ⟨some 1, 3⟩ "abcab".toList := ⟨by decide, by decide⟩
  have hthird : Inside ⟨some 3, 2⟩ "abcab".toList := ⟨by decide, by decide⟩
  obtain ⟨_, _, hlt, _⟩ := order_exact signMemcmp hfirst hsecond rfl rfl
  obtain ⟨_, _, _, _, _, _, _, _, hcompare, hstarts⟩ :=
    order_exact signMemcmp hfirst hthird rfl rfl
  exact ⟨hlt.mpr (by decide), hstarts.mpr (by decide), hcompare.mpr (by decide)⟩

end StringPiece

end ProcessInfo

end NaiveNet
