import Mathlib.Tactic.NormNum
import Mathlib.Data.Int.DivMod

/-!
# Signed machine integers

A `CInt w` is the outcome of a computation in a signed C type of `w` bits:
a value of the type, or nothing once an intermediate result has left the type or
a divisor was zero, which is undefined behaviour. The operators are those of C,
division truncating towards zero, so that source expressions are written as they
stand; `Yields` follows such an expression from the inside out.
-/
namespace NaiveNet

/-- The values of a two's complement type of `w` bits. -/
def InRange (w : ℕ) (x : ℤ) : Prop := -2 ^ (w - 1) ≤ x ∧ x < 2 ^ (w - 1)

instance (w : ℕ) (x : ℤ) : Decidable (InRange w x) := inferInstanceAs (Decidable (_ ∧ _))

theorem inRange_32 {x : ℤ} : InRange 32 x ↔ -2147483648 ≤ x ∧ x ≤ 2147483647 := by
  norm_num [InRange]
  omega

theorem inRange_64 {x : ℤ} :
    InRange 64 x ↔ -9223372036854775808 ≤ x ∧ x ≤ 9223372036854775807 := by
  norm_num [InRange]
  omega

structure CInt (w : ℕ) where
  value? : Option { x : ℤ // InRange w x }
  deriving DecidableEq

namespace CInt

variable {w v : ℕ} {a b : CInt w} {x y : ℤ}

def ofInt (x : ℤ) : CInt w := ⟨if h : InRange w x then some ⟨x, h⟩ else none⟩

instance : Coe ℤ (CInt w) := ⟨ofInt⟩

instance (k : ℕ) : OfNat (CInt w) k := ⟨ofInt k⟩

/-- Computes exactly, then asks whether the type holds the result. -/
def arith (f : ℤ → ℤ → Option ℤ) (a b : CInt w) : CInt w :=
  ⟨do
    let x ← a.value?
    let y ← b.value?
    let z ← f x y
    (ofInt z : CInt w).value?⟩

instance : Add (CInt w) := ⟨arith fun x y => some (x + y)⟩
instance : Sub (CInt w) := ⟨arith fun x y => some (x - y)⟩
instance : Mul (CInt w) := ⟨arith fun x y => some (x * y)⟩
instance : Div (CInt w) := ⟨arith fun x y => if y = 0 then none else some (x.tdiv y)⟩
/-- The remainder is undefined where the quotient is. -/
instance : Mod (CInt w) :=
  ⟨arith fun x y => if y = 0 ∨ ¬ InRange w (x.tdiv y) then none else some (x.tmod y)⟩

/-- Conversion to a type of `v` bits, modulo `2 ^ v`. -/
def cast (v : ℕ) (a : CInt w) : CInt v :=
  ⟨a.value?.bind fun x => (ofInt (x.val.bmod (2 ^ v)) : CInt v).value?⟩

/-- The value as a mathematical integer. -/
def toInt? (a : CInt w) : Option ℤ := a.value?.map Subtype.val

/-- The computation is defined and `x` is its value. -/
def Yields (a : CInt w) (x : ℤ) : Prop := a.toInt? = some x

instance : Decidable (a.Yields x) := inferInstanceAs (Decidable (_ = _))

theorem yields_iff : a.Yields x ↔ ∃ h : InRange w x, a.value? = some ⟨x, h⟩ := by
  constructor
  · intro h
    obtain ⟨⟨z, hz⟩, ha, rfl⟩ := Option.map_eq_some_iff.mp h
    exact ⟨hz, ha⟩
  · rintro ⟨h, ha⟩
    simp [Yields, toInt?, ha]

theorem Yields.inRange (h : a.Yields x) : InRange w x := (yields_iff.mp h).1

/-! The side conditions below are left to `omega` where a source expression is
followed with known bounds in the context. -/

theorem yields_ofInt (h : InRange w x := by
      first | exact inRange_32.mpr (by omega) | exact inRange_64.mpr (by omega)) :
    (ofInt x : CInt w).Yields x := by
  simp [Yields, toInt?, ofInt, h]

theorem yields_ofNat (k : ℕ) (h : InRange w k) : (OfNat.ofNat k : CInt w).Yields k :=
  yields_ofInt h

theorem yields_arith {f : ℤ → ℤ → Option ℤ} {z : ℤ} (ha : a.Yields x) (hb : b.Yields y)
    (hf : f x y = some z) (hz : InRange w z) : (arith f a b).Yields z := by
  obtain ⟨_, ha⟩ := yields_iff.mp ha
  obtain ⟨_, hb⟩ := yields_iff.mp hb
  simp [Yields, toInt?, arith, ha, hb, hf, ofInt, hz]

theorem Yields.add (ha : a.Yields x) (hb : b.Yields y)
    (h : InRange w (x + y) := by
      first | exact inRange_32.mpr (by omega) | exact inRange_64.mpr (by omega)) :
    (a + b).Yields (x + y) := yields_arith ha hb rfl h

theorem Yields.sub (ha : a.Yields x) (hb : b.Yields y)
    (h : InRange w (x - y) := by
      first | exact inRange_32.mpr (by omega) | exact inRange_64.mpr (by omega)) :
    (a - b).Yields (x - y) := yields_arith ha hb rfl h

theorem Yields.mul (ha : a.Yields x) (hb : b.Yields y)
    (h : InRange w (x * y) := by
      first | exact inRange_32.mpr (by omega) | exact inRange_64.mpr (by omega)) :
    (a * b).Yields (x * y) := yields_arith ha hb rfl h

theorem Yields.unique (hx : a.Yields x) (hy : a.Yields y) : x = y :=
  Option.some.inj (hx.symm.trans hy)

/-! Backwards: a defined result had defined operands. -/

theorem eq_of_yields_ofInt {z : ℤ} (h : (ofInt x : CInt w).Yields z) : z = x := by
  obtain ⟨_, h⟩ := yields_iff.mp h
  unfold ofInt at h
  split_ifs at h
  simpa using h.symm

theorem exists_of_yields_arith {f : ℤ → ℤ → Option ℤ} {z : ℤ} (h : (arith f a b).Yields z) :
    ∃ x y, a.Yields x ∧ b.Yields y ∧ f x y = some z := by
  obtain ⟨_, h⟩ := yields_iff.mp h
  simp only [arith, Option.bind_eq_bind, Option.bind_eq_some_iff] at h
  obtain ⟨x, hx, y, hy, u, hu, hz⟩ := h
  have huz := eq_of_yields_ofInt (yields_iff.mpr ⟨_, hz⟩)
  exact ⟨x, y, yields_iff.mpr ⟨x.2, hx⟩, yields_iff.mpr ⟨y.2, hy⟩, huz ▸ hu⟩

theorem Yields.exists_add {z : ℤ} (h : (a + b).Yields z) :
    ∃ x y, a.Yields x ∧ b.Yields y ∧ x + y = z := by
  obtain ⟨x, y, hx, hy, hz⟩ := exists_of_yields_arith h
  exact ⟨x, y, hx, hy, Option.some.inj hz⟩

theorem Yields.exists_sub {z : ℤ} (h : (a - b).Yields z) :
    ∃ x y, a.Yields x ∧ b.Yields y ∧ x - y = z := by
  obtain ⟨x, y, hx, hy, hz⟩ := exists_of_yields_arith h
  exact ⟨x, y, hx, hy, Option.some.inj hz⟩

theorem Yields.exists_mul {z : ℤ} (h : (a * b).Yields z) :
    ∃ x y, a.Yields x ∧ b.Yields y ∧ x * y = z := by
  obtain ⟨x, y, hx, hy, hz⟩ := exists_of_yields_arith h
  exact ⟨x, y, hx, hy, Option.some.inj hz⟩

/-- A quotient by a positive divisor stays in the type. -/
theorem inRange_tdiv (hx : InRange w x) (hy : 0 < y) : InRange w (x.tdiv y) := by
  unfold InRange at hx ⊢
  rcases Int.le_total 0 x with h0 | h0
  · have hle := Int.tdiv_le_self y h0
    have hnn := Int.tdiv_nonneg h0 hy.le
    omega
  · have hle := Int.tdiv_le_self y (Int.neg_nonneg_of_nonpos h0)
    have hnn := Int.tdiv_nonneg (Int.neg_nonneg_of_nonpos h0) hy.le
    rw [Int.neg_tdiv] at hle hnn
    omega

theorem inRange_tmod (hx : InRange w x) (y : ℤ) : InRange w (x.tmod y) := by
  unfold InRange at hx ⊢
  rcases Int.le_total 0 x with h0 | h0
  · have hnn := Int.tmod_nonneg y h0
    have hle : x.tmod y ≤ x := by
      have := Int.natAbs_tmod x y
      have := Nat.mod_le x.natAbs y.natAbs
      omega
    omega
  · have hnn := Int.tmod_nonneg y (Int.neg_nonneg_of_nonpos h0)
    rw [Int.neg_tmod] at hnn
    have hle : x ≤ x.tmod y := by
      have := Int.natAbs_tmod x y
      have := Nat.mod_le x.natAbs y.natAbs
      omega
    omega

theorem Yields.tdiv (ha : a.Yields x) (hb : b.Yields y) (p : 0 < y := by omega) :
    (a / b).Yields (x.tdiv y) :=
  yields_arith ha hb (if_neg p.ne') (inRange_tdiv ha.inRange p)

theorem Yields.tmod (ha : a.Yields x) (hb : b.Yields y) (p : 0 < y := by omega) :
    (a % b).Yields (x.tmod y) := by
  refine yields_arith ha hb (if_neg ?_) (inRange_tmod ha.inRange y)
  rintro (h | h)
  · exact p.ne' h
  · exact h (inRange_tdiv ha.inRange p)

/-- For a nonnegative dividend the quotient is the floor. -/
theorem Yields.div (ha : a.Yields x) (hb : b.Yields y) (n : 0 ≤ x := by omega)
    (p : 0 < y := by omega) : (a / b).Yields (x / y) := by
  rw [← Int.tdiv_eq_ediv_of_nonneg n]
  exact ha.tdiv hb p

theorem Yields.mod (ha : a.Yields x) (hb : b.Yields y) (n : 0 ≤ x := by omega)
    (p : 0 < y := by omega) : (a % b).Yields (x % y) := by
  rw [← Int.tmod_eq_emod_of_nonneg n]
  exact ha.tmod hb p

/-- A value that the narrower type holds is converted to itself. -/
theorem Yields.cast (ha : a.Yields x) (hv : 0 < v) (h : InRange v x) :
    (a.cast v).Yields x := by
  obtain ⟨_, ha⟩ := yields_iff.mp ha
  have hmod : x.bmod (2 ^ v) = x := by
    obtain ⟨k, rfl⟩ : ∃ k, v = k + 1 := ⟨v - 1, by omega⟩
    unfold InRange at h
    simp only [Nat.add_sub_cancel] at h
    apply Int.bmod_eq_of_le <;> push_cast <;> rw [pow_succ] <;> omega
  simp [Yields, toInt?, CInt.cast, ha, hmod, ofInt, h]

end CInt

/-- An `int` literal. -/
theorem CInt.yields_lit (k : ℕ) (h : k ≤ 2147483647 := by decide) :
    (OfNat.ofNat k : CInt 32).Yields k :=
  CInt.yields_ofNat k (inRange_32.mpr (by omega))

end NaiveNet
