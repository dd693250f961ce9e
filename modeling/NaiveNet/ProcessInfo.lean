import NaiveNet.StringSearch
import Mathlib.Tactic.NormNum

/-!
# The name of the process

`ProcessInfo::procname` looks for the name between the first `(` and the last `)`
of a line of `/proc/self/stat`. Bytes are characters here, as in the source.
-/
namespace NaiveNet.ProcessInfo

open StringSearch

/-- A `StringPiece` into some text: where it starts, unless it is null, and its length. -/
structure StringPiece where
  ptr_ : Option ℕ
  length_ : ℤ

def StringPiece.empty : StringPiece := ⟨none, 0⟩

/-- `static_cast<int>` of a `size_t`. -/
def toInt (n : ℕ) : ℤ := (n : ℤ).bmod (2 ^ 32)

/-- The range lies inside the text. -/
def StringPiece.Inside (p : StringPiece) (text : List Char) : Prop :=
  0 ≤ p.length_ ∧ p.ptr_.getD 0 + p.length_ ≤ text.length

/-- Constructing a `string` throws on a length that no string has. -/
def StringPiece.as_string (p : StringPiece) (text : List Char) : Option (List Char) :=
  if p.length_ < 0 then none
  else some ((text.drop (p.ptr_.getD 0)).take p.length_.toNat)

def procname (stat : List Char) : StringPiece :=
  match find stat '(', rfind stat ')' with
  | some lp, some rp => if lp < rp then ⟨some (lp + 1), toInt (rp - lp - 1)⟩ else .empty
  | _, _ => .empty

/-- The text can be cut into `p (name) q`. -/
def Names (stat p name q : List Char) : Prop :=
  stat = p ++ '(' :: (name ++ ')' :: q) ∧ '(' ∉ p ∧ ')' ∉ q

variable {stat p name q : List Char}

/-- The range that is found, before its length is converted, is that of the name. -/
theorem procname_of_names (h : Names stat p name q) :
    procname stat = ⟨some (p.length + 1), toInt name.length⟩ := by
  obtain ⟨rfl, hp, hq⟩ := h
  have hfind : find (p ++ '(' :: (name ++ ')' :: q)) '(' = some p.length := find_append_cons hp
  have hrfind : rfind (p ++ '(' :: (name ++ ')' :: q)) ')' = some (p.length + 1 + name.length) := by
    rw [show p ++ '(' :: (name ++ ')' :: q) = (p ++ '(' :: name) ++ ')' :: q by simp,
      rfind_append_cons hq, List.length_append, List.length_cons]
    congr 1
    omega
  simp only [procname, hfind, hrfind]
  rw [if_pos (by omega)]
  congr 2
  omega

theorem exists_name {t u : List Char} (h : p ++ '(' :: t = u ++ ')' :: q)
    (hlt : p.length < u.length) : ∃ name, t = name ++ ')' :: q := by
  obtain ⟨v, rfl, hv⟩ | ⟨v, rfl, _⟩ := List.append_eq_append_iff.mp h
  · cases v with
    | nil => simp at hlt
    | cons x name => exact ⟨name, (List.cons.inj hv).2⟩
  · rw [List.length_append] at hlt
    omega

theorem procname_of_not_names (h : ∀ p name q, ¬ Names stat p name q) :
    procname stat = .empty := by
  unfold procname
  by_cases hopen : '(' ∈ stat
  · by_cases hclose : ')' ∈ stat
    · obtain ⟨p, t, hpt, hp⟩ := List.eq_append_cons_of_mem hopen
      obtain ⟨u, q, huq, hq⟩ := exists_last hclose
      have hfind : find stat '(' = some p.length := hpt ▸ find_append_cons hp
      have hrfind : rfind stat ')' = some u.length := huq ▸ rfind_append_cons hq
      simp only [hfind, hrfind]
      refine if_neg fun hlt => ?_
      obtain ⟨name, rfl⟩ := exists_name (hpt.symm.trans huq) hlt
      exact h p name q ⟨hpt, hp, hq⟩
    · rw [rfind_eq_none hclose]
      cases find stat '(' <;> rfl
  · rw [find_eq_none hopen]

theorem toInt_eq {n : ℕ} (h : n < 2 ^ 31) : toInt n = n :=
  Int.bmod_eq_of_le (by omega) (by omega)

theorem as_string_of_names (h : Names stat p name q) (hlen : name.length < 2 ^ 31) :
    (procname stat).as_string stat = some name ∧ (procname stat).Inside stat := by
  rw [procname_of_names h, toInt_eq hlen]
  obtain ⟨rfl, _, _⟩ := h
  refine ⟨?_, Int.natCast_nonneg _, ?_⟩
  · rw [StringPiece.as_string, if_neg (not_lt.mpr (Int.natCast_nonneg _))]
    simp
  · simp only [Option.getD_some, List.length_append, List.length_cons]
    omega

/-- A name of less than `2 ^ 31` bytes is what `procname` finds, whatever parentheses are in
it; where there is none it finds nothing. What it finds lies inside the text. -/
theorem procname_exact (stat : List Char) :
    (∀ p name q, Names stat p name q → name.length < 2 ^ 31 →
      (procname stat).as_string stat = some name ∧ (procname stat).Inside stat) ∧
    ((∀ p name q, ¬ Names stat p name q) →
      procname stat = .empty ∧ (procname stat).Inside stat) := by
  refine ⟨fun p name q h hlen => as_string_of_names h hlen, fun h => ?_⟩
  rw [procname_of_not_names h]
  exact ⟨rfl, le_rfl, by simp [StringPiece.empty]⟩

/-- A name with both parentheses in it. -/
theorem procname_exact_parentheses :
    (procname "7 (a) (b) R 1".toList).as_string "7 (a) (b) R 1".toList =
      some "a) (b".toList := by
  have hnames : Names "7 (a) (b) R 1".toList "7 ".toList "a) (b".toList " R 1".toList :=
    ⟨by decide, by decide, by decide⟩
  exact ((procname_exact _).1 _ _ _ hnames (by decide)).1

/-- A name of `2 ^ 31` bytes gets a negative length. -/
theorem procname_long :
    ¬ ∀ stat p name q, Names stat p name q →
      (procname stat).as_string stat = some name ∧ (procname stat).Inside stat := by
  intro hevery
  have hnames : Names ('(' :: (List.replicate (2 ^ 31) 'a' ++ [')'])) []
      (List.replicate (2 ^ 31) 'a') [] := ⟨rfl, List.not_mem_nil, List.not_mem_nil⟩
  have hinside := (hevery _ _ _ _ hnames).2.1
  rw [procname_of_names hnames, List.length_replicate] at hinside
  exact absurd hinside (by decide)

/-- `procname()`: `procStat()` reads `65536` bytes of `/proc/self/stat` at most. -/
def procnameSelf (file : List Char) : Option (List Char) :=
  let stat := file.take 65536
  (procname stat).as_string stat

/-- On what `procStat()` reads no name is too long. -/
theorem procnameSelf_eq {file : List Char} (h : Names (file.take 65536) p name q) :
    procnameSelf file = some name := by
  have hlen : (file.take 65536).length ≤ 65536 := List.length_take_le ..
  have hname : name.length ≤ (file.take 65536).length := by
    rw [h.1]
    simp only [List.length_append, List.length_cons]
    omega
  exact (as_string_of_names h (by omega)).1

end NaiveNet.ProcessInfo
