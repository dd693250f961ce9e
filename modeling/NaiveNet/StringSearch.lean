import Mathlib.Data.List.Basic

/-!
# Searching a string

`find` and `rfind` of `std::string`, for any kind of character: the first and the
last occurrence, and the cut of a string at it. A text that is looked for is found line by
line where it has no separator in it.
-/
namespace NaiveNet.StringSearch

variable {α : Type*} [DecidableEq α] {c : α} {s t : List α}

/-- `std::string::find` of one character: where it first occurs. -/
def find (s : List α) (c : α) : Option ℕ := s.idxOf? c

/-- `std::string::rfind` of one character: where it last occurs. -/
def rfind (s : List α) (c : α) : Option ℕ :=
  (s.reverse.idxOf? c).map fun i => s.length - 1 - i

theorem find_append_cons (h : c ∉ s) : find (s ++ c :: t) c = some s.length := by
  unfold find
  induction s with
  | nil => simp [List.idxOf?_cons]
  | cons x s ih =>
    obtain ⟨hx, hs⟩ := not_or.mp (mt List.mem_cons.mpr h)
    rw [List.cons_append, List.idxOf?_cons, if_neg (by simpa using Ne.symm hx), ih hs]
    rfl

theorem rfind_append_cons (h : c ∉ t) : rfind (s ++ c :: t) c = some s.length := by
  have hrev : (s ++ c :: t).reverse = t.reverse ++ c :: s.reverse := by simp
  have hfind : (t.reverse ++ c :: s.reverse).idxOf? c = some t.reverse.length :=
    find_append_cons (by simpa using h)
  rw [rfind, hrev, hfind, Option.map_some, List.length_append, List.length_cons,
    List.length_reverse]
  congr 1
  omega

theorem find_eq_none (h : c ∉ s) : find s c = none := List.idxOf?_eq_none_iff.mpr h

theorem rfind_eq_none (h : c ∉ s) : rfind s c = none := by
  rw [rfind, List.idxOf?_eq_none_iff.mpr (by simpa using h), Option.map_none]

omit [DecidableEq α] in
/-- A string that has the character is cut at its last occurrence. -/
theorem exists_last (h : c ∈ s) : ∃ u v, s = u ++ c :: v ∧ c ∉ v := by
  obtain ⟨v, u, hrev, hv⟩ := List.eq_append_cons_of_mem (List.mem_reverse.mpr h)
  refine ⟨u.reverse, v.reverse, ?_, by simpa using hv⟩
  rw [← List.reverse_reverse s, hrev]
  simp

/-- `std::string::find` of a text: where it first occurs. -/
def findText (pattern : List α) : List α → Option ℕ
  | [] => if pattern = [] then some 0 else none
  | c :: s => if pattern <+: c :: s then some 0 else (findText pattern s).map (· + 1)

variable {pattern : List α}

theorem findText_head (t : List α) : findText pattern (pattern ++ t) = some 0 := by
  cases h : pattern ++ t with
  | nil => rw [findText, if_pos (List.append_eq_nil_iff.mp h).1]
  | cons c s => rw [findText, if_pos (h ▸ List.prefix_append pattern t)]

theorem findText_eq_none (h : ¬ pattern <:+: s) : findText pattern s = none := by
  induction s with
  | nil =>
    rw [findText, if_neg]
    rintro rfl
    exact h List.nil_infix
  | cons c s ih =>
    rw [findText, if_neg fun hpre => h hpre.isInfix,
      ih fun hinf => h (hinf.trans (List.suffix_cons c s).isInfix), Option.map_none]

/-- What is found first has nothing of it overlapping before. -/
theorem findText_append (h : ¬ pattern <:+: s ++ pattern.dropLast) (t : List α) :
    findText pattern (s ++ pattern ++ t) = some s.length := by
  induction s with
  | nil =>
    rw [List.nil_append]
    exact findText_head t
  | cons c s ih =>
    have hpre : ¬ pattern <+: c :: (s ++ pattern ++ t) := by
      intro hpre
      have hdrop : pattern.dropLast <+: pattern := List.dropLast_prefix pattern
      have hshort : c :: s ++ pattern.dropLast <+: c :: (s ++ pattern ++ t) := by
        rw [List.cons_append, List.append_assoc]
        exact List.cons_prefix_cons.mpr ⟨rfl, (List.prefix_append_right_inj s).mpr
          (hdrop.trans (List.prefix_append pattern t))⟩
      refine h (List.prefix_of_prefix_length_le hpre hshort ?_).isInfix
      simp only [List.cons_append, List.length_cons, List.length_append, List.length_dropLast]
      omega
    rw [List.cons_append, List.cons_append, findText, if_neg hpre,
      ih fun hinf => h (hinf.trans (List.suffix_cons c _).isInfix), Option.map_some,
      List.length_cons]

omit [DecidableEq α] in
/-- A text whose last character it has once does not begin within itself. -/
theorem not_infix_append (hc : c ∉ t) (h : ¬ t ++ [c] <:+: s) : ¬ t ++ [c] <:+: s ++ t := by
  rintro ⟨u, v, huv⟩
  rw [← List.append_assoc, List.append_assoc (u ++ t)] at huv
  obtain ⟨w, rfl, hrest⟩ | ⟨w, _, hrest⟩ := List.append_eq_append_iff.mp huv
  · cases w with
    | nil =>
      rw [List.nil_append] at hrest
      exact hc (hrest ▸ List.mem_cons_self)
    | cons d w =>
      obtain rfl := (List.cons.inj hrest).1
      exact h ⟨u, w, by simp⟩
  · rw [hrest] at hc
    exact hc (List.mem_append_right _ List.mem_cons_self)

/-- A line without the text is passed over. -/
theorem findText_line {line : List α} (hsep : c ∉ pattern) (hne : pattern ≠ [])
    (h : ¬ pattern <:+: line) :
    findText pattern (line ++ c :: s) = (findText pattern s).map (· + (line.length + 1)) := by
  induction line with
  | nil =>
    have hpre : ¬ pattern <+: c :: s := by
      intro hpre
      obtain ⟨x, rest, rfl⟩ := List.exists_cons_of_ne_nil hne
      rw [(List.cons_prefix_cons.mp hpre).1] at hsep
      exact hsep List.mem_cons_self
    rw [List.nil_append, findText, if_neg hpre]
    rfl
  | cons x line ih =>
    have hpre : ¬ pattern <+: x :: line ++ c :: s := by
      intro hpre
      obtain ⟨t, ht⟩ := hpre
      obtain ⟨rest, hrest, _⟩ | ⟨rest, rfl, hrest⟩ := List.append_eq_append_iff.mp ht
      · exact h ⟨[], rest, by rw [List.nil_append, ← hrest]⟩
      · cases rest with
        | nil => exact h ⟨[], [], by simp⟩
        | cons d rest =>
          obtain rfl := (List.cons.inj hrest).1
          exact hsep (List.mem_append_right _ List.mem_cons_self)
    rw [List.cons_append] at hpre ⊢
    rw [findText, if_neg hpre, ih fun hinf => h (hinf.trans (List.suffix_cons x line).isInfix),
      Option.map_map]
    congr 1

end NaiveNet.StringSearch
