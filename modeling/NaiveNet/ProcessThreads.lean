import NaiveNet.NumeralReading
import NaiveNet.ProcessInfo
import NaiveNet.ReadSmallFile
import Mathlib.Data.List.Nodup
import Mathlib.Data.List.Sort

/-!
# The threads of the process

`ProcessInfo::numThreads` reads a number out of `/proc/self/status`, `threads` and
`openedFiles` go through the entries of a directory. The bytes of a file are characters
here. What `atoi` does with a number that no `int` holds is undefined, `none`.
-/
namespace NaiveNet.ProcessInfo

open StringSearch FileUtil

def isspace (c : Char) : Bool :=
  c = ' ' || '\t'.toNat ≤ c.toNat && c.toNat ≤ '\r'.toNat

def isdigit (c : Char) : Bool := '0'.toNat ≤ c.toNat && c.toNat ≤ '9'.toNat

/-- The digits that a text begins with, as a number. -/
def leadingNumber (s : List Char) : ℤ := Nat.ofDigitChars 10 (s.takeWhile isdigit) 0

def toIntOrUndefined (v : ℤ) : Option ℤ := if InRange 32 v then some v else none

def atoi (s : List Char) : Option ℤ :=
  match s.dropWhile isspace with
  | '-' :: digits => toIntOrUndefined (-leadingNumber digits)
  | '+' :: digits => toIntOrUndefined (leadingNumber digits)
  | digits => toIntOrUndefined (leadingNumber digits)

/-- The bytes of a `std::string`. -/
def text (bytes : List UInt8) : List Char := bytes.map fun b => Char.ofNat b.toNat

/-- `readFile("/proc/self/status", 65536, &result)`, after `open` has answered. -/
def procStatus (opened : Except Errno ℕ) (file : File) : Option (List Char) :=
  (readFile opened file 65536 ⟨[], none, none, none⟩).map fun (_, result) => text result.content

def numThreads (opened : Except Errno ℕ) (file : File) : Option ℤ := do
  let status ← procStatus opened file
  match findText "Threads:".toList status with
  | some pos => atoi (status.drop (pos + 8))
  | none => some 0

/-- `isdigit(d->d_name[0])` -/
def startsWithDigit (d_name : List Char) : Bool := d_name.head?.any isdigit

/-- The filter, with `t_numOpenedFiles` passed on. -/
def fdDirFilter (t_numOpenedFiles : ℕ) (d_name : List Char) : Option ℕ :=
  if startsWithDigit d_name then some (t_numOpenedFiles + 1) else some t_numOpenedFiles

/-- The filter, with `*t_pids` passed on. -/
def taskDirFilter (t_pids : List ℤ) (d_name : List Char) : Option (List ℤ) :=
  if startsWithDigit d_name then (atoi d_name).map fun pid => t_pids ++ [pid] else some t_pids

/-- `scandir` gives the filter every name that the directory has, in its order. -/
def scanDir {σ : Type} (filter : σ → List Char → Option σ) (s : σ) (names : List (List Char)) :
    Option σ := names.foldlM filter s

def openedFiles (names : List (List Char)) : Option ℕ := scanDir fdDirFilter 0 names

def threads (names : List (List Char)) : Option (List ℤ) :=
  (scanDir taskDirFilter [] names).map fun result => result.mergeSort (· ≤ ·)

/-! ### Numbers -/

theorem isdigit_of_isDigit {c : Char} (h : c.isDigit = true) : isdigit c = true := by
  simp only [Char.isDigit, Bool.and_eq_true, decide_eq_true_eq, UInt32.le_iff_toNat_le] at h
  obtain ⟨hlo, hhi⟩ : 48 ≤ c.toNat ∧ c.toNat ≤ 57 := h
  simp [isdigit, hlo, hhi]

theorem isspace_of_isdigit {c : Char} (h : isdigit c = true) : isspace c = false := by
  simp only [isdigit, Bool.and_eq_true, decide_eq_true_eq] at h
  obtain ⟨hlo, _⟩ : 48 ≤ c.toNat ∧ c.toNat ≤ 57 := h
  have hblank : c ≠ ' ' := by
    rintro rfl
    exact absurd hlo (by decide)
  simp [isspace, hblank]
  omega

theorem takeWhile_toDigits (n : ℕ) {t : List Char} (ht : ∀ c ∈ t.head?, isdigit c = false) :
    (Nat.toDigits 10 n ++ t).takeWhile isdigit = Nat.toDigits 10 n := by
  have hdigits : ∀ c ∈ Nat.toDigits 10 n, isdigit c = true := fun c hc =>
    isdigit_of_isDigit (Nat.isDigit_of_mem_toDigits (by omega) le_rfl hc)
  rw [List.takeWhile_append_of_pos hdigits]
  cases t with
  | nil => rw [List.takeWhile_nil, List.append_nil]
  | cons c t => rw [List.takeWhile_cons_of_neg (by simp [ht c rfl]), List.append_nil]

theorem leadingNumber_toDigits (n : ℕ) {t : List Char} (ht : ∀ c ∈ t.head?, isdigit c = false) :
    leadingNumber (Nat.toDigits 10 n ++ t) = n := by
  rw [leadingNumber, takeWhile_toDigits n ht, Nat.ofDigitChars_ten_toDigits]

theorem exists_toDigits (n : ℕ) : ∃ c digits, Nat.toDigits 10 n = c :: digits ∧
    isspace c = false ∧ c ≠ '-' ∧ c ≠ '+' := by
  obtain ⟨c, digits, hcons⟩ := List.exists_cons_of_ne_nil (Nat.toDigits_ne_nil (b := 10) (n := n))
  have hdigit : isdigit c = true := isdigit_of_isDigit
    (Nat.isDigit_of_mem_toDigits (b := 10) (n := n) (by omega) le_rfl (by simp [hcons]))
  refine ⟨c, digits, hcons, ?_, ?_, ?_⟩
  · exact isspace_of_isdigit hdigit
  · rintro rfl
    contradiction
  · rintro rfl
    contradiction

/-- Blanks before a numeral and whatever is no digit behind it do not matter. -/
theorem atoi_decimal {blanks t : List Char} {v : ℤ}
    (hblanks : ∀ c ∈ blanks, isspace c = true) (hv : InRange 32 v)
    (ht : ∀ c ∈ t.head?, isdigit c = false) : atoi (blanks ++ (decimal v ++ t)) = some v := by
  obtain ⟨c, digits, hcons, hspace, hminus, hplus⟩ := exists_toDigits v.natAbs
  rw [atoi, List.dropWhile_append_of_pos hblanks]
  by_cases hneg : v < 0
  · rw [decimal, if_pos hneg, List.append_assoc, List.singleton_append,
      List.dropWhile_cons_of_neg (by decide)]
    show toIntOrUndefined (-leadingNumber (Nat.toDigits 10 v.natAbs ++ t)) = some v
    rw [leadingNumber_toDigits _ ht, show -(v.natAbs : ℤ) = v by omega, toIntOrUndefined, if_pos hv]
  · rw [decimal, if_neg hneg, List.nil_append, hcons, List.cons_append,
      List.dropWhile_cons_of_neg (by simp [hspace])]
    have hread := leadingNumber_toDigits v.natAbs ht
    rw [hcons, List.cons_append] at hread
    split
    · next heq => exact absurd (List.cons.inj heq).1 hminus
    · next heq => exact absurd (List.cons.inj heq).1 hplus
    · rw [hread, show (v.natAbs : ℤ) = v by omega, toIntOrUndefined, if_pos hv]

/-! ### The status file -/

section Status

variable {file : File} {fd : ℕ}

theorem procStatus_eq (hread : file.Readable) (hfd : 0 < fd) :
    procStatus (.ok fd) file = some (text (file.bytes.take 65536)) := by
  obtain ⟨err, result, heq, hcontent, _⟩ := readFile_opened (by decide : InRange 32 65536)
    (by omega) hread hfd ⟨[], none, none, none⟩
  rw [procStatus, heq]
  exact congrArg (fun content => some (text content)) hcontent

/-- Where `readToString` passes the descriptor over, no text is read and no thread counted. -/
theorem numThreads_passed {opened : Except Errno ℕ} (h : ¬ (ReadSmallFile.new opened).fd_ > 0)
    (file : File) : numThreads opened file = some 0 := by
  rw [numThreads, procStatus, readFile, ReadSmallFile.readToString_passed h]
  rfl

/-- What stands behind the first `Threads:` is read. -/
theorem numThreads_of_found (hread : file.Readable) (hfd : 0 < fd) {p rest : List Char}
    (htext : text (file.bytes.take 65536) = p ++ "Threads:".toList ++ rest)
    (hfound : findText "Threads:".toList (p ++ "Threads:".toList ++ rest) = some p.length) :
    numThreads (.ok fd) file = atoi rest := by
  have hdrop : (p ++ "Threads:".toList ++ rest).drop (p.length + 8) = rest :=
    List.drop_left' (by rw [List.length_append]; rfl)
  rw [numThreads, procStatus_eq hread hfd, htext]
  simp only [Option.bind_eq_bind, Option.bind_some, hfound, hdrop]

theorem findText_lines {pattern : List Char} (hsep : '\n' ∉ pattern) (hne : pattern ≠ [])
    {lines : List (List Char)} (h : ∀ line ∈ lines, ¬ pattern <:+: line) (s : List Char) :
    findText pattern (lines.flatMap (· ++ ['\n']) ++ s) =
      (findText pattern s).map (· + (lines.flatMap (· ++ ['\n'])).length) := by
  induction lines with
  | nil => simp
  | cons line lines ih =>
    obtain ⟨hline, hlines⟩ := List.forall_mem_cons.mp h
    rw [List.flatMap_cons, List.append_assoc, List.append_assoc, List.singleton_append,
      findText_line hsep hne hline, ih hlines, Option.map_map]
    congr 1
    ext k
    simp only [Function.comp_apply, List.length_append, List.length_singleton]
    omega

/-- Where the status file is open on a descriptor above `0` and can be read, `numThreads` is the
number of the first line that begins with `Threads:`, where no line before has that in it. The
name of the process stands before: one that has a number behind `Threads:` is taken for the
line. A text without `Threads:` counts no threads, nor does a file that is not open or open on
descriptor `0`, which is not read. -/
theorem numThreads_exact (hread : file.Readable) (fd : ℕ) (hfd : 0 < fd) :
    (∀ (lines : List (List Char)) (n : ℤ) (rest : List Char), InRange 32 n →
      (∀ line ∈ lines, ¬ "Threads:".toList <:+: line) →
      text (file.bytes.take 65536) = lines.flatMap (· ++ ['\n']) ++ "Threads:".toList ++
        ('\t' :: (decimal n ++ '\n' :: rest)) →
      numThreads (.ok fd) file = some n) ∧
    (∀ (u v rest : List Char) (n : ℤ), InRange 32 n → ¬ "Threads:".toList <:+: u →
      (∀ c ∈ (v ++ '\n' :: rest).head?, isdigit c = false) →
      text (file.bytes.take 65536) = "Name:\t".toList ++ u ++ "Threads:".toList ++
        (decimal n ++ (v ++ '\n' :: rest)) →
      numThreads (.ok fd) file = some n) ∧
    (¬ "Threads:".toList <:+: text (file.bytes.take 65536) →
      numThreads (.ok fd) file = some 0) ∧
    numThreads (.ok 0) file = some 0 ∧ ∀ e, numThreads (.error e) file = some 0 := by
  refine ⟨fun lines n rest hn hlines htext => ?_, fun u v rest n hn hu hv htext => ?_,
    fun h => ?_, numThreads_passed (by decide) file,
    fun e => numThreads_passed (by simp [ReadSmallFile.new]) file⟩
  · have hfound := findText_lines (by decide) (by decide) hlines
      ("Threads:".toList ++ ('\t' :: (decimal n ++ '\n' :: rest)))
    rw [findText_head, ← List.append_assoc, Option.map_some, Nat.zero_add] at hfound
    rw [numThreads_of_found hread hfd htext hfound]
    exact atoi_decimal (List.forall_mem_singleton.mpr (rfl : isspace '\t' = true)) hn
      (by simp [isdigit])
  · have hborder : ¬ "Threads:".toList <:+: u ++ "Threads".toList :=
      not_infix_append (t := "Threads".toList) (c := ':') (by decide) hu
    have hsplit (t : List Char) : "Name:\t".toList ++ u ++ "Threads:".toList ++ t =
        "Name:".toList ++ '\t' :: (u ++ "Threads:".toList ++ t) := by
      simp only [List.append_assoc]
      rfl
    have hfound (t : List Char) : findText "Threads:".toList
        ("Name:\t".toList ++ u ++ "Threads:".toList ++ t) =
          some ("Name:\t".toList ++ u).length := by
      rw [hsplit, findText_line (by decide) (by decide) (by decide), findText_append hborder,
        List.length_append]
      exact congrArg some (Nat.add_comm u.length 6)
    rw [numThreads_of_found hread hfd htext (hfound _)]
    exact atoi_decimal (by simp : ∀ c ∈ [], isspace c = true) hn hv
  · rw [numThreads, procStatus_eq hread hfd]
    simp only [Option.bind_eq_bind, Option.bind_some, findText_eq_none h]

/-- A file with the bytes of a text, read byte by byte. -/
def statusFile (status : List Char) : File :=
  { ReadSmallFile.threeBytes with bytes := status.map fun c => UInt8.ofNat c.toNat }

theorem statusFile_readable (status : List Char) : (statusFile status).Readable where
  succeeds _ := rfl
  returns _ _ hlen := Nat.lt_min.mpr ⟨Nat.one_pos, hlen⟩

def twoThreads : List Char := "Name:\ta\nThreads:\t2\n".toList

/-- The name of the process pretends that it has nine. -/
def nineThreads : List Char := "Name:\tThreads:9\nThreads:\t2\n".toList

theorem text_statusFile {status : List Char} (hlen : status.length ≤ 65536)
    (hbytes : (status.all fun c => Char.ofNat (UInt8.ofNat c.toNat).toNat == c) = true) :
    text ((statusFile status).bytes.take 65536) = status := by
  rw [List.take_of_length_le (by simpa [statusFile] using hlen)]
  show (status.map fun c => UInt8.ofNat c.toNat).map (fun b => Char.ofNat b.toNat) = status
  rw [List.map_map]
  refine (List.map_congr_left fun c hc => ?_).trans (List.map_id status)
  exact eq_of_beq (List.all_eq_true.mp hbytes c hc)

theorem numThreads_exact_two : numThreads (.ok 3) (statusFile twoThreads) = some 2 ∧
    numThreads (.ok 3) (statusFile nineThreads) = some 9 := by
  have htwo := numThreads_exact (statusFile_readable twoThreads) 3 (Nat.succ_pos 2)
  have hnine := numThreads_exact (statusFile_readable nineThreads) 3 (Nat.succ_pos 2)
  rw [text_statusFile (by decide) (by decide)] at htwo hnine
  exact ⟨htwo.1 [['N', 'a', 'm', 'e', ':', '\t', 'a']] 2 [] (by decide) (by decide) (by decide),
    hnine.2.1 [] [] "Threads:\t2\n".toList 9 (by decide) (by decide) (by simp [isdigit])
      (by decide)⟩

end Status

/-! ### Directories -/

theorem atoi_of_startsWithDigit {d : List Char} (h : startsWithDigit d = true) :
    atoi d = toIntOrUndefined (leadingNumber d) := by
  cases d with
  | nil => contradiction
  | cons c d =>
    have hdigit : isdigit c = true := h
    rw [atoi, List.dropWhile_cons_of_neg (by simp [isspace_of_isdigit hdigit])]
    split
    · next heq =>
      rw [(List.cons.inj heq).1] at hdigit
      contradiction
    · next heq =>
      rw [(List.cons.inj heq).1] at hdigit
      contradiction
    · rfl

theorem scanDir_taskDirFilter (names : List (List Char)) (t_pids : List ℤ)
    (h : ∀ d ∈ names.filter startsWithDigit, InRange 32 (leadingNumber d)) :
    scanDir taskDirFilter t_pids names =
      some (t_pids ++ (names.filter startsWithDigit).map leadingNumber) := by
  induction names generalizing t_pids with
  | nil => simp [scanDir]
  | cons d names ih =>
    by_cases hd : startsWithDigit d = true
    · rw [List.filter_cons_of_pos hd] at h ⊢
      obtain ⟨hrange, hrest⟩ := List.forall_mem_cons.mp h
      have hfirst : taskDirFilter t_pids d = some (t_pids ++ [leadingNumber d]) := by
        rw [taskDirFilter, if_pos hd, atoi_of_startsWithDigit hd, toIntOrUndefined,
          if_pos hrange, Option.map_some]
      have hscan := ih (t_pids ++ [leadingNumber d]) hrest
      rw [scanDir, List.foldlM_cons, hfirst]
      rw [List.append_assoc] at hscan
      exact hscan
    · rw [List.filter_cons_of_neg hd] at h ⊢
      have hfirst : taskDirFilter t_pids d = some t_pids := by rw [taskDirFilter, if_neg hd]
      rw [scanDir, List.foldlM_cons, hfirst]
      exact ih t_pids h

theorem scanDir_fdDirFilter (names : List (List Char)) (t_numOpenedFiles : ℕ) :
    scanDir fdDirFilter t_numOpenedFiles names =
      some (t_numOpenedFiles + names.countP startsWithDigit) := by
  induction names generalizing t_numOpenedFiles with
  | nil => rfl
  | cons d names ih =>
    rw [scanDir, List.foldlM_cons, List.countP_cons]
    by_cases hd : startsWithDigit d = true
    · rw [fdDirFilter, if_pos hd, if_pos hd]
      exact (ih (t_numOpenedFiles + 1)).trans (congrArg some (by omega))
    · rw [fdDirFilter, if_neg hd, if_neg hd]
      exact ih t_numOpenedFiles

/-- The names in a directory of numbers, in any order. -/
def Numbered (names : List (List Char)) (ids : List ℕ) : Prop :=
  names.Perm (['.'] :: ['.', '.'] :: ids.map fun id => Nat.toDigits 10 id)

theorem startsWithDigit_toDigits (id : ℕ) : startsWithDigit (Nat.toDigits 10 id) = true := by
  obtain ⟨c, digits, hcons⟩ := List.exists_cons_of_ne_nil (Nat.toDigits_ne_nil (b := 10) (n := id))
  have hdigit := Nat.isDigit_of_mem_toDigits (b := 10) (n := id) (by omega) le_rfl
    (by rw [hcons]; exact List.mem_cons_self)
  rw [hcons]
  exact isdigit_of_isDigit hdigit

theorem Numbered.perm_filter {names : List (List Char)} {ids : List ℕ} (h : Numbered names ids) :
    (names.filter startsWithDigit).Perm (ids.map fun id => Nat.toDigits 10 id) := by
  have hfilter := List.Perm.filter startsWithDigit h
  have hall : (ids.map fun id => Nat.toDigits 10 id).filter startsWithDigit =
      ids.map fun id => Nat.toDigits 10 id := by
    rw [List.filter_eq_self]
    intro d hd
    obtain ⟨id, _, rfl⟩ := List.mem_map.mp hd
    exact startsWithDigit_toDigits id
  rwa [List.filter_cons_of_neg (by decide), List.filter_cons_of_neg (by decide), hall] at hfilter

/-- Of a directory of numbers, in whatever order its entries come, `openedFiles` counts the
numbers, and `threads` has them in ascending order, each once. -/
theorem threads_exact {names : List (List Char)} {ids : List ℕ} (h : Numbered names ids)
    (hnodup : ids.Nodup) (hrange : ∀ id ∈ ids, id < 2 ^ 31) :
    openedFiles names = some ids.length ∧ ∃ result, threads names = some result ∧
      result.Pairwise (· < ·) ∧ ∀ pid : ℤ, pid ∈ result ↔ ∃ id ∈ ids, (id : ℤ) = pid := by
  have hnumber (id : ℕ) : leadingNumber (Nat.toDigits 10 id) = id := by
    have hread := leadingNumber_toDigits id (t := []) (by simp)
    rwa [List.append_nil] at hread
  have hread : ((names.filter startsWithDigit).map leadingNumber).Perm
      (ids.map fun id : ℕ => (id : ℤ)) := by
    have hmap := h.perm_filter.map leadingNumber
    rw [List.map_map] at hmap
    simpa only [Function.comp_def, hnumber] using hmap
  have hscan := scanDir_taskDirFilter names [] fun d hd => by
    obtain ⟨id, hid, rfl⟩ := List.mem_map.mp (h.perm_filter.mem_iff.mp hd)
    have hlt := hrange id hid
    rw [hnumber, inRange_32]
    omega
  rw [List.nil_append] at hscan
  have hperm := (List.mergeSort_perm ((names.filter startsWithDigit).map leadingNumber)
    fun x y => decide (x ≤ y)).trans hread
  refine ⟨?_, _, by rw [threads, hscan, Option.map_some], ?_, fun pid => ?_⟩
  · rw [openedFiles, scanDir_fdDirFilter, Nat.zero_add, List.countP_eq_length_filter,
      h.perm_filter.length_eq, List.length_map]
  · have hsorted := List.pairwise_mergeSort' (· ≤ ·)
      ((names.filter startsWithDigit).map leadingNumber)
    have hdistinct := hperm.nodup_iff.mpr (hnodup.map Nat.cast_injective)
    refine (hsorted.and hdistinct).imp fun ⟨hle, hne⟩ => ?_
    exact lt_of_le_of_ne hle hne
  · rw [hperm.mem_iff, List.mem_map]

/-- The entries come in no order. -/
def taskNames : List (List Char) := [['1', '2'], ['.', '.'], ['7'], ['.']]

theorem threads_exact_two : openedFiles taskNames = some 2 ∧
    ∃ result, threads taskNames = some result ∧ result.Pairwise (· < ·) ∧ 12 ∈ result := by
  have hnumbered : Numbered taskNames [7, 12] := by
    rw [Numbered]
    decide
  obtain ⟨hopened, result, hthreads, hsorted, hmem⟩ := threads_exact hnumbered (by decide)
    (by decide)
  exact ⟨hopened, result, hthreads, hsorted, (hmem 12).mpr ⟨12, by decide, rfl⟩⟩

end NaiveNet.ProcessInfo
