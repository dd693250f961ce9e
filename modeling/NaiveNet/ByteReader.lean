import Mathlib.Data.List.Induction
import Mathlib.Algebra.Order.Ring.Nat
import Mathlib.Tactic.Ring

/-!
# Readers of bytes

Big-endian numbers, and programs that read bytes in order, change a state of
their own and may throw. Each construct has one characterization of the inputs
on which it returns: what was read, what is left and the new state. Read from
right to left they compose to the round trip of a format, from left to right to
the shape of every accepted input.
-/
namespace NaiveNet

namespace BigEndian

/-- The number with these digits, the most significant first. -/
def toNat (bytes : List UInt8) : ℕ := bytes.foldl (fun n b => 256 * n + b.toNat) 0

/-- The last `n` base-256 digits. -/
def ofNat : ℕ → ℕ → List UInt8
  | 0, _ => []
  | n + 1, x => ofNat n (x / 256) ++ [UInt8.ofNat (x % 256)]

@[simp] theorem length_ofNat (n x : ℕ) : (ofNat n x).length = n := by
  induction n generalizing x with
  | zero => simp [ofNat]
  | succ n ih => simp [ofNat, ih]

theorem toNat_append (bytes : List UInt8) (b : UInt8) :
    toNat (bytes ++ [b]) = 256 * toNat bytes + b.toNat := by
  simp [toNat]

theorem toNat_ofNat (n x : ℕ) (h : x < 256 ^ n) : toNat (ofNat n x) = x := by
  induction n generalizing x with
  | zero =>
    rw [pow_zero] at h
    simp [ofNat, toNat]
    omega
  | succ n ih =>
    rw [pow_succ] at h
    have hdigit : (UInt8.ofNat (x % 256)).toNat = x % 256 := by
      rw [UInt8.toNat_ofNat']
      omega
    rw [ofNat, toNat_append, ih _ (by omega), hdigit]
    omega

theorem ofNat_toNat (bytes : List UInt8) : ofNat bytes.length (toNat bytes) = bytes := by
  induction bytes using List.reverseRecOn with
  | nil => simp [ofNat]
  | append_singleton bytes b ih =>
    have hb := b.toNat_lt
    have hdiv : (256 * toNat bytes + b.toNat) / 256 = toNat bytes := by omega
    have hmod : (256 * toNat bytes + b.toNat) % 256 = b.toNat := by omega
    rw [List.length_append, List.length_singleton, ofNat, toNat_append, hdiv, hmod, ih,
      UInt8.ofNat_toNat]

theorem toNat_lt (bytes : List UInt8) : toNat bytes < 256 ^ bytes.length := by
  induction bytes using List.reverseRecOn with
  | nil => simp [toNat]
  | append_singleton bytes b ih =>
    have hb := b.toNat_lt
    rw [List.length_append, List.length_singleton, toNat_append, pow_succ]
    omega

end BigEndian

/-- How a program ends: with a value and the bytes left, with an exception, or with
an operation that has no defined meaning. The state survives an exception. -/
inductive Outcome (ε σ α : Type)
  | ok (a : α) (rest : List UInt8) (s : σ)
  | thrown (e : ε) (s : σ)
  | undefined

/-- A variable of a state. -/
structure Field (σ α : Type) where
  get : σ → α
  set : σ → α → σ
  get_set : ∀ s a, get (set s a) = a
  set_set : ∀ s a b, set (set s a) b = set s b
  set_get : ∀ s, set s (get s) = s

/-- A program that reads bytes and changes a state. -/
def Reader (ε σ α : Type) := List UInt8 → σ → Outcome ε σ α

namespace Reader

variable {ε σ α β γ : Type} {input rest : List UInt8} {s t : σ}

instance : Monad (Reader ε σ) where
  pure a := fun input s => .ok a input s
  bind m f := fun input s =>
    match m input s with
    | .ok a rest s => f a rest s
    | .thrown e s => .thrown e s
    | .undefined => .undefined

def throw (e : ε) : Reader ε σ α := fun _ s => .thrown e s

def undefined : Reader ε σ α := fun _ _ => .undefined

def get : Reader ε σ σ := fun input s => .ok s input s

def assign {α : Type} (v : Field σ α) (a : α) : Reader ε σ Unit := fun input s =>
  .ok () input (v.set s a)

def pushBack {α : Type} (v : Field σ (List α)) (a : α) : Reader ε σ Unit := fun input s =>
  .ok () input (v.set s (v.get s ++ [a]))

/-- `n` bytes, or the exception if fewer are left. -/
def take (n : ℕ) (e : ε) : Reader ε σ (List UInt8) := fun input s =>
  if n ≤ input.length then .ok (input.take n) (input.drop n) s else .thrown e s

/-- `for (i = start; i < start + n; ++i)` -/
def loop (body : ℕ → Reader ε σ Unit) : ℕ → ℕ → Reader ε σ Unit
  | _, 0 => pure ()
  | start, n + 1 => do
    body start
    loop body (start + 1) n

@[simp] theorem pure_ok_iff {a b : α} :
    (pure a : Reader ε σ α) input s = .ok b rest t ↔ b = a ∧ input = rest ∧ t = s := by
  show Outcome.ok a input s = .ok b rest t ↔ _
  rw [Outcome.ok.injEq, eq_comm, eq_comm (a := s)]

@[simp] theorem bind_ok_iff {m : Reader ε σ α} {f : α → Reader ε σ β} {b : β} :
    (m >>= f) input s = .ok b rest t ↔
      ∃ a mid s', m input s = .ok a mid s' ∧ f a mid s' = .ok b rest t := by
  show (match m input s with
    | .ok a rest s => f a rest s
    | .thrown e s => .thrown e s
    | .undefined => .undefined) = Outcome.ok b rest t ↔ _
  cases m input s with
  | ok a mid s' =>
    constructor
    · exact fun h => ⟨a, mid, s', rfl, h⟩
    · rintro ⟨_, _, _, heq, h⟩
      cases heq
      exact h
  | thrown e s' => simp
  | undefined => simp

@[simp] theorem throw_ok_iff {e : ε} {a : α} :
    (throw e : Reader ε σ α) input s = .ok a rest t ↔ False := by
  simp [throw]

@[simp] theorem undefined_ok_iff {a : α} :
    (undefined : Reader ε σ α) input s = .ok a rest t ↔ False := by
  simp [undefined]

@[simp] theorem get_ok_iff {a : σ} :
    (get : Reader ε σ σ) input s = .ok a rest t ↔ a = s ∧ input = rest ∧ t = s := by
  rw [get, Outcome.ok.injEq, eq_comm, eq_comm (a := s) (b := t)]

@[simp] theorem assign_ok_iff {v : Field σ α} {a : α} {u : Unit} :
    (assign v a : Reader ε σ Unit) input s = .ok u rest t ↔ input = rest ∧ t = v.set s a := by
  rw [assign, Outcome.ok.injEq, eq_comm (b := t)]
  simp

@[simp] theorem pushBack_ok_iff {v : Field σ (List α)} {a : α} {u : Unit} :
    (pushBack v a : Reader ε σ Unit) input s = .ok u rest t ↔
      input = rest ∧ t = v.set s (v.get s ++ [a]) := by
  rw [pushBack, Outcome.ok.injEq, eq_comm (b := t)]
  simp

@[simp] theorem take_ok_iff {n : ℕ} {e : ε} {bytes : List UInt8} :
    (take n e : Reader ε σ _) input s = .ok bytes rest t ↔
      bytes.length = n ∧ input = bytes ++ rest ∧ t = s := by
  unfold take
  split_ifs with hn
  · rw [Outcome.ok.injEq]
    constructor
    · rintro ⟨rfl, rfl, rfl⟩
      exact ⟨List.length_take_of_le hn, (List.take_append_drop n input).symm, rfl⟩
    · rintro ⟨hlength, rfl, rfl⟩
      rw [← hlength, List.take_left, List.drop_left]
      exact ⟨rfl, rfl, rfl⟩
  · constructor
    · intro h
      cases h
    · rintro ⟨hlength, rfl, _⟩
      rw [List.length_append] at hn
      omega

/-- `v.push_back(item)` in a loop: what the items encode is read, and they are appended.
Which items are accepted may depend on the state, but not on `v` itself. -/
theorem loop_pushBack_ok_iff {δ : Type} (v : Field σ (List δ)) {item : ℕ → Reader ε σ δ}
    (accepts : ℕ → σ → γ → Prop) (encode : γ → List UInt8) (f : γ → δ)
    (hitem : ∀ i input s d rest t, item i input s = .ok d rest t ↔
      ∃ c, accepts i s c ∧ input = encode c ++ rest ∧ d = f c ∧ t = s)
    (hset : ∀ i s xs c, accepts i (v.set s xs) c ↔ accepts i s c) (start n : ℕ) {u : Unit} :
    loop (fun i => item i >>= pushBack v) start n input s = .ok u rest t ↔
      ∃ items : List γ, items.length = n ∧
        (∀ i c, items[i]? = some c → accepts (start + i) s c) ∧
        input = items.flatMap encode ++ rest ∧ t = v.set s (v.get s ++ items.map f) := by
  induction n generalizing start input s with
  | zero =>
    rw [loop, pure_ok_iff]
    constructor
    · rintro ⟨_, rfl, rfl⟩
      exact ⟨[], by simp [v.set_get]⟩
    · rintro ⟨items, hlength, _, hinput, ht⟩
      rw [List.length_eq_zero_iff] at hlength
      subst hlength
      exact ⟨rfl, by simpa using hinput, by simpa [v.set_get] using ht⟩
  | succ n ih =>
    simp only [loop, bind_ok_iff, hitem, pushBack_ok_iff]
    constructor
    · rintro ⟨_, mid, s', ⟨_, _, _, ⟨c, hc, rfl, rfl, rfl⟩, rfl, rfl⟩, hrest⟩
      obtain ⟨items, hlength, hitems, rfl, rfl⟩ := (ih (start + 1)).mp hrest
      refine ⟨c :: items, by simp [hlength], ?_, by simp, ?_⟩
      · intro i d hd
        cases i with
        | zero =>
          rw [List.getElem?_cons_zero] at hd
          cases hd
          exact hc
        | succ i =>
          rw [List.getElem?_cons_succ] at hd
          have haccepts := (hset _ _ _ _).mp (hitems i d hd)
          rwa [show start + (i + 1) = start + 1 + i by omega]
      · rw [v.set_set, v.get_set, List.append_assoc, List.singleton_append, List.map_cons]
    · rintro ⟨items, hlength, hitems, rfl, rfl⟩
      obtain ⟨c, items, rfl⟩ := List.exists_cons_of_length_eq_add_one hlength
      refine ⟨(), items.flatMap encode ++ rest, v.set s (v.get s ++ [f c]),
        ⟨f c, _, s, ⟨c, hitems 0 c rfl, by simp, rfl, rfl⟩, rfl, rfl⟩,
        (ih (start + 1)).mpr ⟨items, by simpa using hlength, ?_, rfl, ?_⟩⟩
      · intro i d hd
        have haccepts := hitems (i + 1) d hd
        rw [hset]
        rwa [show start + 1 + i = start + (i + 1) by omega]
      · rw [v.set_set, v.get_set, List.append_assoc, List.singleton_append, List.map_cons]

end Reader

end NaiveNet
