import NaiveNet.CInt
import NaiveNet.Transfer

/-!
# Reading a small file

`FileUtil::ReadSmallFile::readToString` on a file whose bytes do not change while it
is read. The pointers `fileSize`, `modifyTime` and `createTime` may be null; a
non-null one is given with the value it points to.
-/
namespace NaiveNet.FileUtil

/-- The values of `errno` after a failed call. -/
abbrev Errno := { e : ℤ // 0 < e }

def EISDIR : ℤ := 21

inductive FileType
  | regular
  | directory
  | other
  deriving DecidableEq

/-- `struct stat`. -/
structure Stat where
  type : FileType
  st_size : ℤ
  st_mtime : ℤ
  st_ctime : ℤ
  size_nonneg : 0 ≤ st_size

/-- The file behind a descriptor, and how the system answers. -/
structure File where
  bytes : List UInt8
  fstat : Except Errno Stat
  /-- How many bytes each `read` returns, the end of the file apart. -/
  transfer : Transfer
  /-- The calls of `read` that fail. -/
  failure : ℕ → Option Errno

/-- The call `k` of `read`, at the offset `offset`, of `len` bytes. -/
def File.read (file : File) (k offset len : ℕ) : Except Errno (List UInt8) :=
  match file.failure k with
  | some e => .error e
  | none => .ok ((file.bytes.drop offset).take (file.transfer.amount k len))

/-- Every `read` returns between one and the requested number of bytes until the end. -/
structure File.Readable (file : File) : Prop where
  succeeds : ∀ k, file.failure k = none
  returns : ∀ k len, 0 < len → 0 < file.transfer.amount k len

structure ReadSmallFile where
  fd_ : ℤ
  err_ : ℤ
  /-- Where the descriptor stands in its file. -/
  offset : ℕ

/-- What the caller passes by pointer. -/
structure Out where
  content : List UInt8
  fileSize : Option ℤ
  modifyTime : Option ℤ
  createTime : Option ℤ

namespace ReadSmallFile

def kBufferSize : ℕ := 64 * 1024

/-- The constructor, after `open` has answered with a descriptor or failed. -/
def new : Except Errno ℕ → ReadSmallFile
  | .ok fd => ⟨fd, 0, 0⟩
  | .error e => ⟨-1, e, 0⟩

/-- `static_cast<size_t>` of an `int`. -/
def toSize (x : ℤ) : ℕ := (x % 2 ^ 64).toNat

/-- Writes through a pointer. -/
def store (pointer : Option ℤ) (x : ℤ) : Option ℤ := pointer.map fun _ => x

/-- `content->reserve(static_cast<int>(min))` throws on a length that no string has. -/
def reserve (maxSize fileSize : ℤ) : Option Unit :=
  if (min maxSize fileSize).bmod (2 ^ 32) < 0 then none else some ()

/-- The part of `readToString` behind `if (fileSize)`; `none` is an exception. -/
def readStatus (file : File) (maxSize err : ℤ) (out : Out) : Option (ℤ × Out) :=
  match file.fstat with
  | .ok statbuf => do
    let times := { out with
      modifyTime := store out.modifyTime statbuf.st_mtime
      createTime := store out.createTime statbuf.st_ctime }
    match statbuf.type with
    | .regular =>
      reserve maxSize statbuf.st_size
      return (err, { times with fileSize := store out.fileSize statbuf.st_size })
    | .directory => return (EISDIR, times)
    | .other => return (err, times)
  | .error e => some (e, out)

/-- The loop of `readToString`, from the call `k` of `read` on. -/
def readLoop (file : File) (maxSize offset k : ℕ) (err : ℤ) (content : List UInt8) :
    ℤ × List UInt8 :=
  if content.length < maxSize then
    let toRead := min (maxSize - content.length) kBufferSize
    match file.read k (offset + content.length) toRead with
    | .ok [] => (err, content)
    | .ok (b :: bs) => readLoop file maxSize offset (k + 1) err (content ++ b :: bs)
    | .error e => (e, content)
  else (err, content)
termination_by maxSize - content.length
decreasing_by
  rw [List.length_append, List.length_cons]
  omega

/-- Returns an `errno`, or `0`. -/
def readToString (f : ReadSmallFile) (file : File) (maxSize : ℤ) (out : Out) :
    Option (ℤ × Out × ReadSmallFile) :=
  let err := f.err_
  if f.fd_ > 0 then do
    let out := { out with content := [] }
    let (err, out) ←
      if out.fileSize.isSome then readStatus file maxSize err out else some (err, out)
    let (err, content) := readLoop file (toSize maxSize) f.offset 0 err out.content
    return (err, { out with content := content }, { f with offset := f.offset + content.length })
  else some (err, out, f)

variable {file : File} {maxSize offset k : ℕ} {err : ℤ} {content chunk : List UInt8}

/-- A `read` goes on where the content ends, and is empty only at the end of the file. -/
theorem read_effect (hread : file.Readable) {len : ℕ} (hlen : 0 < len)
    (hcontent : content <+: file.bytes.drop offset)
    (h : file.read k (offset + content.length) len = .ok chunk) :
    content ++ chunk <+: file.bytes.drop offset ∧ chunk.length ≤ len ∧
      (chunk = [] → content = file.bytes.drop offset) := by
  obtain ⟨rest, hrest⟩ := hcontent
  have hdrop : file.bytes.drop (offset + content.length) = rest := by
    rw [← List.drop_drop, ← hrest, List.drop_left]
  unfold File.read at h
  rw [hread.succeeds k, hdrop] at h
  obtain rfl := Except.ok.inj h
  refine ⟨?_, (List.length_take_le ..).trans (file.transfer.amount_le k len), fun hnil => ?_⟩
  · rw [← hrest, List.prefix_append_right_inj]
    exact List.take_prefix ..
  · obtain hzero | hnil := List.take_eq_nil_iff.mp hnil
    · exact absurd hzero (hread.returns k len hlen).ne'
    · rw [← hrest, hnil, List.append_nil]

/-- The loop ends with all that `maxSize` allows, and reports no error of its own. -/
theorem readLoop_eq (hread : file.Readable) (hcontent : content <+: file.bytes.drop offset)
    (hle : content.length ≤ maxSize) :
    readLoop file maxSize offset k err content =
      (err, (file.bytes.drop offset).take maxSize) := by
  have hlen : ∀ n, n < maxSize → 0 < min (maxSize - n) kBufferSize :=
    fun n hn => Nat.lt_min.mpr ⟨Nat.sub_pos_of_lt hn, by decide⟩
  fun_induction readLoop file maxSize offset k err content with
  | case1 k content hlt toRead hchunk =>
    obtain ⟨_, _, hend⟩ := read_effect hread (hlen _ hlt) hcontent hchunk
    rw [← hend rfl, List.take_of_length_le hle]
  | case2 k content hlt toRead b bs hchunk ih =>
    obtain ⟨hnext, hsize, _⟩ := read_effect hread (hlen _ hlt) hcontent hchunk
    have hroom : toRead ≤ maxSize - content.length := Nat.min_le_left ..
    refine ih hnext ?_
    rw [List.length_append]
    omega
  | case3 k content hlt toRead e hchunk =>
    rw [File.read, hread.succeeds k] at hchunk
    contradiction
  | case4 k content hlt =>
    have hfull : content.length = maxSize := Nat.le_antisymm hle (Nat.le_of_not_lt hlt)
    rw [← hfull, ← List.prefix_iff_eq_take.mp hcontent]

section Status

variable {maxSize : ℤ} (hmax : InRange 32 maxSize) (hnonneg : 0 ≤ maxSize)
include hmax hnonneg

theorem toSize_eq : toSize maxSize = maxSize.toNat := by
  rw [inRange_32] at hmax
  rw [toSize, Int.emod_eq_of_lt hnonneg (by norm_num; omega)]

/-- A length that a string can have is asked for. -/
theorem reserve_eq {fileSize : ℤ} (hsize : 0 ≤ fileSize) :
    reserve maxSize fileSize = some () := by
  rw [inRange_32] at hmax
  rw [reserve, Int.bmod_eq_of_le (by norm_num; omega) (by norm_num; omega), if_neg (by omega)]

/-- `fstat` adds an error exactly when it fails or finds a directory. -/
theorem readStatus_effect (file : File) (out : Out) :
    ∃ err out', readStatus file maxSize 0 out = some (err, out') ∧ out'.content = out.content ∧
      (err = 0 ↔ ∃ statbuf, file.fstat = .ok statbuf ∧ statbuf.type ≠ .directory) := by
  unfold readStatus
  cases file.fstat with
  | error e => exact ⟨e, out, rfl, rfl, iff_of_false e.2.ne' (by simp)⟩
  | ok statbuf =>
    cases htype : statbuf.type with
    | regular =>
      simp only [htype, reserve_eq hmax hnonneg statbuf.size_nonneg]
      exact ⟨_, _, rfl, rfl, iff_of_true rfl ⟨statbuf, rfl, by simp [htype]⟩⟩
    | directory =>
      simp only [htype]
      exact ⟨_, _, rfl, rfl, iff_of_false (by decide) (by simp [htype])⟩
    | other =>
      simp only [htype]
      exact ⟨_, _, rfl, rfl, iff_of_true rfl ⟨statbuf, rfl, by simp [htype]⟩⟩

/-- On a descriptor other than `0` the content is right, whatever is returned. -/
theorem readToString_opened (hread : file.Readable) {fd : ℕ} (hfd : 0 < fd) (out : Out) :
    ∃ err out' f', readToString (new (.ok fd)) file maxSize out = some (err, out', f') ∧
      out'.content = file.bytes.take maxSize.toNat ∧
      (err = 0 ↔ (out.fileSize.isSome →
        ∃ statbuf, file.fstat = .ok statbuf ∧ statbuf.type ≠ .directory)) := by
  have hfd : (new (.ok fd)).fd_ > 0 := Int.natCast_pos.mpr hfd
  have hloop : ∀ err, readLoop file (toSize maxSize) 0 0 err [] =
      (err, file.bytes.take maxSize.toNat) := fun err => by
    rw [toSize_eq hmax hnonneg]
    exact readLoop_eq hread List.nil_prefix (Nat.zero_le _)
  unfold readToString
  rw [if_pos hfd]
  by_cases hsize : out.fileSize.isSome = true
  · obtain ⟨err, out', hstatus, hcontent, hiff⟩ :=
      readStatus_effect hmax hnonneg file { out with content := [] }
    simp only [if_pos hsize, new, hstatus, Option.bind_eq_bind, Option.bind_some, hcontent, hloop]
    exact ⟨_, _, _, rfl, rfl, by simp [hsize, hiff]⟩
  · simp only [if_neg hsize, new, Option.bind_eq_bind, Option.bind_some, hloop]
    exact ⟨_, _, _, rfl, rfl, by simp [hsize]⟩

end Status

/-- A descriptor that is not above `0` is passed over: the content stays as it was. -/
theorem readToString_passed {f : ReadSmallFile} (hfd : ¬ f.fd_ > 0) (file : File) (maxSize : ℤ)
    (out : Out) : readToString f file maxSize out = some (f.err_, out, f) := by
  rw [readToString, if_neg hfd]

theorem readToString_zero (file : File) (maxSize : ℤ) (out : Out) :
    readToString (new (.ok 0)) file maxSize out = some (0, out, new (.ok 0)) :=
  readToString_passed (by decide) file maxSize out

/-- `readToString` returns `0` with the file's first `maxSize` bytes exactly when the descriptor
is not `0` (or the content happens to be right before) and `fstat`, where it is asked, finds no
directory; and after a failed `open` it returns its `errno`. -/
theorem readToString_exact_iff {file : File} (hread : file.Readable) {maxSize : ℤ}
    (hmax : InRange 32 maxSize) (hnonneg : 0 ≤ maxSize) (out : Out) :
    (∀ fd, (∃ out' f', readToString (new (.ok fd)) file maxSize out = some (0, out', f') ∧
        out'.content = file.bytes.take maxSize.toNat) ↔
      fd ≠ 0 ∧ (out.fileSize.isSome →
        ∃ statbuf, file.fstat = .ok statbuf ∧ statbuf.type ≠ .directory) ∨
      fd = 0 ∧ out.content = file.bytes.take maxSize.toNat) ∧
    ∀ e, readToString (new (.error e)) file maxSize out = some (e.val, out, new (.error e)) := by
  refine ⟨fun fd => ?_,
    fun e => readToString_passed (by decide : ¬ (-1 : ℤ) > 0) file maxSize out⟩
  obtain rfl | hfd := Nat.eq_zero_or_pos fd
  · rw [readToString_zero]
    constructor
    · rintro ⟨out', f', heq, hcontent⟩
      obtain ⟨_, rfl, _⟩ : (0 : ℤ) = 0 ∧ out = out' ∧ _ := by simpa using heq
      exact Or.inr ⟨rfl, hcontent⟩
    · rintro (⟨hne, _⟩ | ⟨_, hcontent⟩)
      · exact absurd rfl hne
      · exact ⟨out, _, rfl, hcontent⟩
  · obtain ⟨err, out', f', heq, hcontent, hiff⟩ :=
      readToString_opened hmax hnonneg hread hfd out
    rw [heq]
    constructor
    · rintro ⟨_, _, hzero, _⟩
      obtain ⟨herr, _⟩ := Prod.mk.inj (Option.some.inj hzero)
      exact Or.inl ⟨hfd.ne', hiff.mp herr⟩
    · rintro (⟨_, hstat⟩ | ⟨rfl, _⟩)
      · rw [hiff.mpr hstat]
        exact ⟨out', f', rfl, hcontent⟩
      · exact absurd hfd (Nat.lt_irrefl 0)

/-- A file of three bytes, read one byte at a time. -/
def threeBytes : File where
  bytes := [97, 98, 99]
  fstat := .ok ⟨.regular, 3, 0, 0, by decide⟩
  transfer := ⟨fun _ len => min 1 len, fun _ len => Nat.min_le_right 1 len⟩
  failure _ := none

theorem threeBytes_readable : threeBytes.Readable where
  succeeds _ := rfl
  returns _ _ hlen := Nat.lt_min.mpr ⟨Nat.one_pos, hlen⟩

theorem readToString_exact_iff_three :
    ∃ out' f', readToString (new (.ok 3)) threeBytes 2 ⟨[120], some 0, none, none⟩ =
      some (0, out', f') ∧ out'.content = [97, 98] := by
  obtain ⟨hexact, _⟩ := readToString_exact_iff threeBytes_readable
    (by decide : InRange 32 2) (by decide) ⟨[120], some 0, none, none⟩
  exact (hexact 3).mpr (Or.inl ⟨by decide, fun _ => ⟨_, rfl, by decide⟩⟩)

/-- On descriptor `0` an unread file is reported as read. -/
theorem readToString_skips_zero :
    ¬ ∀ (file : File), file.Readable → ∀ maxSize : ℤ, InRange 32 maxSize → 0 ≤ maxSize →
      ∀ (fd : ℕ) (out : Out), out.fileSize = none →
      ∃ out' f', readToString (new (.ok fd)) file maxSize out = some (0, out', f') ∧
        out'.content = file.bytes.take maxSize.toNat := by
  intro hevery
  obtain ⟨out', f', heq, hcontent⟩ := hevery threeBytes threeBytes_readable 2 (by decide)
    (by decide) 0 ⟨[], none, none, none⟩ rfl
  rw [readToString_zero] at heq
  obtain ⟨_, rfl, _⟩ : (0 : ℤ) = 0 ∧ _ = out' ∧ _ := by simpa using heq
  exact absurd hcontent (by decide)

end ReadSmallFile

/-- `readFile`, after `open` has answered. -/
def readFile (opened : Except Errno ℕ) (file : File) (maxSize : ℤ) (out : Out) :
    Option (ℤ × Out) :=
  (ReadSmallFile.readToString (ReadSmallFile.new opened) file maxSize out).map
    fun (err, out, _) => (err, out)

/-- `readFile` on a descriptor other than `0`: the error it returns comes from `fstat`, and the
content is right beside it. -/
theorem readFile_opened {maxSize : ℤ} (hmax : InRange 32 maxSize) (hnonneg : 0 ≤ maxSize)
    {file : File} (hread : file.Readable) {fd : ℕ} (hfd : 0 < fd) (out : Out) :
    ∃ err out', readFile (.ok fd) file maxSize out = some (err, out') ∧
      out'.content = file.bytes.take maxSize.toNat ∧
      (err = 0 ↔ (out.fileSize.isSome →
        ∃ statbuf, file.fstat = .ok statbuf ∧ statbuf.type ≠ .directory)) := by
  obtain ⟨err, out', f', heq, hexact⟩ :=
    ReadSmallFile.readToString_opened hmax hnonneg hread hfd out
  exact ⟨err, out', by rw [readFile, heq, Option.map_some], hexact⟩

end NaiveNet.FileUtil
