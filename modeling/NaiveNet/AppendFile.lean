import NaiveNet.Runs
import NaiveNet.Transfer
import Mathlib.Tactic.NormNum

/-!
# Appending to a file

`FileUtil::AppendFile` over a stream whose writes may take less than they are given.
The constructor has opened the file: without one its assertion stops the program.

`accepted` is what the writes have taken, in order, and `writes` numbers them; both
are read by the stream alone.
-/
namespace NaiveNet.FileUtil

/-- The stream under the file. -/
structure Stream where
  /-- What each `fwrite_unlocked` takes. -/
  fwrite : Transfer
  /-- The error indicator after so many writes. -/
  ferror : ℕ → ℤ
  strerror_tl : ℤ → String

structure AppendFile where
  writtenBytes_ : UInt64
  accepted : List UInt8
  writes : ℕ
  stderr : List String
  deriving DecidableEq

/-- A message whose length is a `size_t`. -/
structure Logline where
  bytes : List UInt8
  length_lt : bytes.length < 2 ^ 64

def Logline.len (m : Logline) : ℕ := m.bytes.length

namespace AppendFile

def new : AppendFile where
  writtenBytes_ := 0
  accepted := []
  writes := 0
  stderr := []

/-- Returns the number of bytes taken. -/
def write (out : Stream) (f : AppendFile) (logline : List UInt8) (len : ℕ) : AppendFile × ℕ :=
  let n := out.fwrite.amount f.writes len
  ({ f with accepted := f.accepted ++ logline.take n, writes := f.writes + 1 }, n)

/-- A write took nothing. -/
def report (out : Stream) (f : AppendFile) : AppendFile :=
  let err := out.ferror f.writes
  { f with stderr := f.stderr ++
      if err ≠ 0 then ["AppendFile::append() failed " ++ out.strerror_tl err ++ "\n"] else [] }

/-- The loop of `append`, with `n` bytes taken and `len - n` remaining. -/
def retry (out : Stream) (logline : List UInt8) (len : ℕ) (f : AppendFile) (n : ℕ) : AppendFile :=
  let remain := len - n
  if _ : remain > n then
    let (f, x) := write out f (logline.drop n) remain
    if _ : x = 0 then report out f else retry out logline len f (n + x)
  else f
termination_by len - n

def append (out : Stream) (f : AppendFile) (m : Logline) : AppendFile :=
  let (f, n) := write out f m.bytes m.len
  let f := retry out m.bytes m.len f n
  { f with writtenBytes_ := f.writtenBytes_ + UInt64.ofNat m.len }

/-- The rest is taken, the write `k` on with `n` bytes taken, before the loop gives up: each
write takes something, and until the last of them less than half is taken. -/
def Taken (out : Stream) (len k n : ℕ) : Prop :=
  ∃ J, out.fwrite.progress len k n J = len ∧ ∀ j < J, 2 * out.fwrite.progress len k n j < len ∧
    out.fwrite.progress len k n j < out.fwrite.progress len k n (j + 1)

variable {out : Stream} {len k n : ℕ} {f : AppendFile} {logline base : List UInt8}

theorem taken_self : Taken out len k len :=
  ⟨0, rfl, fun _ hj => absurd hj (Nat.not_lt_zero _)⟩

theorem taken_iff (h : n < len) :
    Taken out len k n ↔ 2 * n < len ∧ out.fwrite.amount k (len - n) ≠ 0 ∧
      Taken out len (k + 1) (n + out.fwrite.amount k (len - n)) := by
  constructor
  · rintro ⟨J, hJ, hj⟩
    cases J with
    | zero => exact absurd hJ h.ne
    | succ J =>
      obtain ⟨hhalf, hmore⟩ := hj 0 (Nat.succ_pos J)
      have hmore : n < n + out.fwrite.amount k (len - n) := hmore
      refine ⟨hhalf, by omega, J, hJ, fun j hlt => hj (j + 1) (Nat.succ_lt_succ hlt)⟩
  · rintro ⟨hhalf, hmore, J, hJ, hj⟩
    refine ⟨J + 1, hJ, fun j hlt => ?_⟩
    cases j with
    | zero => exact ⟨hhalf, Nat.lt_add_of_pos_right (Nat.pos_of_ne_zero hmore)⟩
    | succ j => exact hj j (Nat.lt_of_succ_lt_succ hlt)

/-- Where the message is taken up to `n`, a write of the rest takes it up to some later place. -/
theorem write_effect {f' : AppendFile} {x : ℕ}
    (h : write out f (logline.drop n) len = (f', x)) (hf : f.accepted = base ++ logline.take n) :
    x = out.fwrite.amount f.writes len ∧ f'.accepted = base ++ logline.take (n + x) ∧
      f'.writes = f.writes + 1 ∧ f'.writtenBytes_ = f.writtenBytes_ := by
  obtain ⟨rfl, rfl⟩ := Prod.mk.inj h
  refine ⟨rfl, ?_, rfl, rfl⟩
  rw [hf, List.append_assoc, ← List.take_add]

/-- The loop ends with some first part of the message taken, and with all of it exactly
when the writes let it. -/
theorem retry_effect (out : Stream) (hn : n ≤ len) (hf : f.accepted = base ++ logline.take n) :
    ∃ n' ≤ len, (n' = len ↔ Taken out len f.writes n) ∧
      (retry out logline len f n).accepted = base ++ logline.take n' ∧
      (retry out logline len f n).writes ≤ f.writes + (len - n) ∧
      (retry out logline len f n).writtenBytes_ = f.writtenBytes_ := by
  fun_induction retry out logline len f n with
  | case1 f n remain hremain f' hwrite =>
    obtain ⟨hx, haccepted, hwrites, hbytes⟩ := write_effect hwrite hf
    have hlt : n < len := by omega
    refine ⟨n, hn, iff_of_false hlt.ne fun ht => ?_, ?_, ?_, ?_⟩
    · exact ((taken_iff hlt).mp ht).2.1 hx.symm
    · exact haccepted
    · show f'.writes ≤ f.writes + (len - n)
      omega
    · exact hbytes
  | case2 f n remain hremain f' x hwrite hx ih =>
    obtain ⟨rfl, haccepted, hwrites, hbytes⟩ := write_effect hwrite hf
    have hlt : n < len := by omega
    obtain ⟨n', hn', hiff, hend, hcalls, htotal⟩ := ih (out.fwrite.add_amount_le hn) haccepted
    refine ⟨n', hn', ?_, hend, ?_, htotal.trans hbytes⟩
    · rw [hiff, taken_iff hlt, hwrites]
      exact ⟨fun ht => ⟨by omega, hx, ht⟩, fun ht => ht.2.2⟩
    · rw [hwrites] at hcalls
      omega
  | case3 f n remain hremain =>
    refine ⟨n, hn, ⟨?_, fun ht => ?_⟩, hf, Nat.le_add_right .., rfl⟩
    · rintro rfl
      exact taken_self
    · by_contra hne
      have hhalf := ((taken_iff (lt_of_le_of_ne hn hne)).mp ht).1
      omega

/-- All that `append` does to a file. -/
theorem append_effect (out : Stream) (f : AppendFile) (m : Logline) :
    ∃ n ≤ m.len,
      (n = m.len ↔ Taken out m.len (f.writes + 1) (out.fwrite.amount f.writes m.len)) ∧
      (append out f m).accepted = f.accepted ++ m.bytes.take n ∧
      (append out f m).writes ≤ f.writes + 1 + m.len ∧
      (append out f m).writtenBytes_ = f.writtenBytes_ + UInt64.ofNat m.len := by
  have hfirst : (write out f m.bytes m.len).1.accepted =
      f.accepted ++ m.bytes.take (out.fwrite.amount f.writes m.len) := rfl
  obtain ⟨n, hn, hiff, haccepted, hwrites, hbytes⟩ :=
    retry_effect out (out.fwrite.amount_le f.writes m.len) hfirst
  refine ⟨n, hn, hiff, haccepted, hwrites.trans ?_, congrArg (· + UInt64.ofNat m.len) hbytes⟩
  exact Nat.add_le_add_left (Nat.sub_le ..) (f.writes + 1)

/-- Where no write fails, only a write after which half or more is taken ends the loop early. -/
theorem taken_iff_forall (hsome : ∀ k len, 0 < len → 0 < out.fwrite.amount k len) (hn : n ≤ len) :
    Taken out len k n ↔
      ∀ j, out.fwrite.progress len k n j < len → 2 * out.fwrite.progress len k n j < len := by
  induction hrest : len - n using Nat.strong_induction_on generalizing k n with
  | h rest ih =>
    obtain rfl | hlt := hn.eq_or_lt
    · refine iff_of_true taken_self fun j hj => ?_
      rw [out.fwrite.progress_self] at hj
      exact absurd hj (Nat.lt_irrefl n)
    · have hmore := hsome k (len - n) (Nat.sub_pos_of_lt hlt)
      have hnext := ih (len - (n + out.fwrite.amount k (len - n))) (by omega) (k := k + 1)
        (out.fwrite.add_amount_le hn) rfl
      rw [taken_iff hlt, out.fwrite.forall_progress_iff (P := fun x => x < len → 2 * x < len),
        hnext]
      exact ⟨fun h => ⟨fun _ => h.1, h.2.2⟩, fun h => ⟨h.1 hlt, hmore.ne', h.2⟩⟩

/-- Where no write fails, `append` delivers the whole message exactly when no write leaves it
half taken or more, but not whole; and its loop ends after so many writes. -/
theorem append_delivers_iff (out : Stream)
    (hsome : ∀ k len, 0 < len → 1 ≤ out.fwrite.amount k len) (f : AppendFile) (m : Logline) :
    ((append out f m).accepted = f.accepted ++ m.bytes ↔
      ∀ j, let n := out.fwrite.amount f.writes m.len
        let total := out.fwrite.progress m.len (f.writes + 1) n j
        total < m.len → 2 * total < m.len) ∧
    (append out f m).writes ≤ f.writes + 1 + m.len := by
  obtain ⟨n, hn, hiff, haccepted, hwrites, _⟩ := append_effect out f m
  refine ⟨?_, hwrites⟩
  rw [← taken_iff_forall hsome (out.fwrite.amount_le f.writes m.len), ← hiff, haccepted,
    List.append_cancel_left_eq, List.take_eq_self_iff]
  exact ⟨fun h => Nat.le_antisymm hn h, fun h => h.ge⟩

/-- A stream whose first write takes `first` bytes at most, and the others all they are given. -/
def shortStream (first : ℕ) : Stream where
  fwrite.amount k len := if k = 0 then min first len else len
  fwrite.amount_le k len := by split_ifs <;> omega
  ferror _ := 0
  strerror_tl _ := ""

theorem shortStream_some {first : ℕ} (h : 0 < first) (k len : ℕ) (hlen : 0 < len) :
    1 ≤ (shortStream first).fwrite.amount k len := by
  unfold shortStream
  dsimp only
  split_ifs <;> omega

/-- Eight bytes of which the first write takes three. -/
theorem append_delivers_iff_eight :
    (append (shortStream 3) new ⟨List.replicate 8 0, by decide⟩).accepted =
      [0, 0, 0, 0, 0, 0, 0, 0] := by
  refine (append_delivers_iff (shortStream 3) (shortStream_some (by decide)) new
    ⟨List.replicate 8 0, by decide⟩).1.mpr fun j => ?_
  cases j with
  | zero => decide
  | succ j =>
    intro n total hlt
    exact absurd hlt ((Transfer.progress_self (shortStream 3).fwrite j).ge.not_gt)

/-- Ten bytes of which the first write takes six: the other four are never written. -/
theorem append_loses_tail :
    ¬ ∀ out : Stream, (∀ k len, 0 < len → 1 ≤ out.fwrite.amount k len) →
      ∀ (f : AppendFile) (m : Logline), (append out f m).accepted = f.accepted ++ m.bytes := by
  intro hevery
  obtain ⟨n, hn, hiff, haccepted, _⟩ :=
    append_effect (shortStream 6) new ⟨List.replicate 10 0, by decide⟩
  have hall := hevery (shortStream 6) (shortStream_some (by decide)) new
    ⟨List.replicate 10 0, by decide⟩
  rw [haccepted, List.append_cancel_left_eq, List.take_eq_self_iff] at hall
  have htaken := hiff.mp (Nat.le_antisymm hn hall)
  have hhalf := ((taken_iff (by decide)).mp htaken).1
  exact absurd hhalf (by decide)

/-- The step of a history of `append` calls on one file. -/
def step (out : Stream) (f : AppendFile) (m : Logline) : Option AppendFile := some (append out f m)

/-- The writes of this `append` take the whole message, and `writtenBytes_` holds the sum. -/
def Complete (out : Stream) (f : AppendFile) (m : Logline) : Prop :=
  Taken out m.len (f.writes + 1) (out.fwrite.amount f.writes m.len) ∧
  f.accepted.length + m.len < 2 ^ 64

/-- One call keeps `writtenBytes_` right exactly when it is complete. -/
theorem writtenBytes_append (out : Stream) (f : AppendFile) (m : Logline)
    (hf : f.writtenBytes_.toNat = f.accepted.length) :
    (append out f m).writtenBytes_.toNat = (append out f m).accepted.length ↔
      Complete out f m := by
  obtain ⟨n, hn, hiff, haccepted, _, hbytes⟩ := append_effect out f m
  have hlen : m.bytes.length = m.len := rfl
  have hlt : m.len < 2 ^ 64 := m.length_lt
  have hwritten := f.writtenBytes_.toNat_lt
  rw [hbytes, haccepted, Complete, ← hiff, UInt64.toNat_add, UInt64.toNat_ofNat_of_lt' hlt,
    List.length_append, List.length_take, ← hf, hlen]
  omega

/-- In a history of calls `writtenBytes()` is all along what the writes have taken exactly
when every call is complete. -/
theorem writtenBytes_exact_iff (out : Stream) (messages : List Logline) :
    (∀ f, Runs.Visits (step out) new messages f →
      f.writtenBytes_.toNat = f.accepted.length) ↔
    Runs.Meets (Complete out) (step out) new messages :=
  Runs.forall_visits_iff_meets
    (fun f m hf => ⟨append out f m, rfl, writtenBytes_append out f m hf⟩) rfl messages

/-- A stream that takes nothing, as on a full disk. -/
def fullStream : Stream where
  fwrite := ⟨fun _ _ => 0, fun _ len => Nat.zero_le len⟩
  ferror _ := 1
  strerror_tl _ := "Operation not permitted"

/-- Ten bytes that no write takes are counted as written. -/
theorem writtenBytes_counts_lost :
    ¬ ∀ (out : Stream) (messages : List Logline) (f : AppendFile),
      Runs.Visits (step out) new messages f → f.writtenBytes_.toNat = f.accepted.length := by
  intro hevery
  have hvisits : Runs.Visits (step fullStream) new [⟨List.replicate 10 0, by decide⟩]
      (append fullStream new ⟨List.replicate 10 0, by decide⟩) := Runs.visits_self.cons rfl
  have hcomplete := (writtenBytes_append fullStream new _ rfl).mp (hevery _ _ _ hvisits)
  have htaken := (taken_iff (by decide)).mp hcomplete.1
  exact htaken.2.1 rfl

end AppendFile

end NaiveNet.FileUtil
