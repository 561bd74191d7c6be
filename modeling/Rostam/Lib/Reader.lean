/-
Readers: a value taken off the front of a byte string, or an error.

A reader is exact for a writer when it accepts precisely what the writer
writes for good values, whatever stands behind it (`Exact`). An exact
reader does not look past what it consumes, and has one spelling for each
value. The rest of the module takes readers apart: what a sequence of
reads, a check, a byte, a run of bytes or a counted loop accepts.
-/
import Rostam.Lib.Bytes

namespace Rostam.Lib

universe u v

variable {ε : Type u} {α β : Type v}

variable {e : ε}

/-- A value off the front, and what is behind it. -/
abbrev Reader (ε : Type u) (α : Type v) := Bytes → Except ε (α × Bytes)

/-- The reader accepts the writer's output on good values, and nothing
else. -/
def Exact (p : Reader ε α) (w : α → Bytes) (good : α → Prop) : Prop :=
  ∀ b x rest, p b = .ok (x, rest) ↔ good x ∧ b = w x ++ rest

theorem Exact.ok {p : Reader ε α} {w : α → Bytes} {good : α → Prop}
    (h : Exact p w good) {b rest : Bytes} {x : α} :
    p b = .ok (x, rest) ↔ good x ∧ b = w x ++ rest := h b x rest

-- ======== taking apart

/-- A sequence succeeds if both parts do. -/
theorem bind_ok {x : Except ε α} {f : α → Except ε β} {r : β} :
    (x >>= f) = .ok r ↔ ∃ a, x = .ok a ∧ f a = .ok r := by
  cases x <;> simp [bind, Except.bind]

/-- A check that passes. -/
theorem check_ok {c : Prop} [Decidable c] {x : Except ε α} {r : α} :
    (if c then .error e else x) = .ok r ↔ ¬ c ∧ x = .ok r := by
  split <;> simp [*]

theorem ok_pair {x y : α} {b c : Bytes} :
    (Except.ok (x, b) : Except ε (α × Bytes)) = .ok (y, c)
      ↔ x = y ∧ b = c := by
  rw [Except.ok.injEq, Prod.mk.injEq]

-- ======== primitives

/-- One byte, or the error of a short input. -/
def readByte (e : ε) : Reader ε UInt8
  | [] => .error e
  | b :: rest => .ok (b, rest)

theorem readByte_ok {b rest : Bytes} {x : UInt8} :
    readByte e b = .ok (x, rest) ↔ b = x :: rest := by
  cases b with
  | nil => exact ⟨fun h => (by cases h), fun h => (by cases h)⟩
  | cons y bs =>
    rw [readByte, ok_pair, List.cons.injEq]

/-- A run of `n` bytes, or the error of a short input. -/
def readBytes (e : ε) (n : Nat) : Reader ε Bytes := fun b =>
  if b.length < n then .error e else .ok (b.take n, b.drop n)

/-- A read takes the first `n` bytes. -/
theorem readBytes_ok {n : Nat} {b rest x : Bytes} :
    readBytes e n b = .ok (x, rest) ↔ x.length = n ∧ b = x ++ rest := by
  unfold readBytes
  rw [check_ok, ok_pair]
  constructor
  · rintro ⟨hlen, rfl, rfl⟩
    refine ⟨?_, (List.take_append_drop n b).symm⟩
    rw [List.length_take]
    exact Nat.min_eq_left (Nat.le_of_not_lt hlen)
  · rintro ⟨rfl, rfl⟩
    refine ⟨?_, List.take_left, List.drop_left⟩
    rw [List.length_append]
    exact Nat.not_lt.mpr (Nat.le_add_right _ _)

/-- A big-endian integer of `w` bytes. -/
def readUint (e : ε) (w : Nat) : Reader ε Nat := fun b => do
  let (x, b) ← readBytes e w b
  .ok (beDecode x, b)

/-- A number of `w` bytes reads as it was written. -/
theorem readUint_exact (e : ε) (w : Nat) :
    Exact (readUint e w) (beEncode w) (· < 256 ^ w) := by
  intro b n rest
  simp only [readUint, bind_ok, Prod.exists, readBytes_ok, ok_pair]
  constructor
  · rintro ⟨x, _, ⟨rfl, rfl⟩, rfl, rfl⟩
    exact ⟨beDecode_lt x, by rw [beEncode_beDecode]⟩
  · rintro ⟨hn, rfl⟩
    exact ⟨_, _, ⟨beEncode_length w n, rfl⟩, beDecode_beEncode hn, rfl⟩

/-- The same reader `n` times. -/
def readMany (p : Reader ε α) : Nat → Reader ε (List α)
  | 0, b => .ok ([], b)
  | n + 1, b => do
    let (x, b) ← p b
    let (xs, b) ← readMany p n b
    .ok (x :: xs, b)

/-- Exact readers in a row are exact. -/
theorem readMany_ok {p : Reader ε α} {w : α → Bytes} {good : α → Prop}
    (hp : Exact p w good) (n : Nat) :
    ∀ (b : Bytes) (xs : List α) (rest : Bytes), readMany p n b = .ok (xs, rest)
        ↔ xs.length = n ∧ (∀ x ∈ xs, good x) ∧ b = xs.flatMap w ++ rest := by
  induction n with
  | zero =>
    intro b xs rest
    rw [readMany, ok_pair]
    constructor
    · rintro ⟨rfl, rfl⟩
      exact ⟨rfl, fun _ h => (by cases h), rfl⟩
    · rintro ⟨hlen, -, hb⟩
      obtain rfl := List.length_eq_zero_iff.mp hlen
      exact ⟨rfl, hb⟩
  | succ n ih =>
    intro b xs rest
    simp only [readMany, bind_ok, Prod.exists, hp.ok, ih, ok_pair]
    constructor
    · rintro ⟨x, _, ⟨hg, rfl⟩, xs, _, ⟨hlen, hgs, rfl⟩, rfl, rfl⟩
      refine ⟨congrArg (· + 1) hlen, List.forall_mem_cons.mpr ⟨hg, hgs⟩, ?_⟩
      rw [List.flatMap_cons, List.append_assoc]
    · rintro ⟨hlen, hgs, rfl⟩
      cases xs with
      | nil => cases hlen
      | cons x xs =>
        obtain ⟨hg, hgs⟩ := List.forall_mem_cons.mp hgs
        rw [List.flatMap_cons, List.append_assoc]
        exact ⟨x, _, ⟨hg, rfl⟩, xs, rest, ⟨Nat.succ.inj hlen, hgs, rfl⟩, rfl,
          rfl⟩

-- ======== round trips

/-- The writer accepts `x`, in `m` bytes or more, and the reader gets
`c x` out of what it wrote, whatever stands behind it. -/
def Reads {δ : Type u} (p : Reader ε α) (f : α → Except δ Bytes)
    (c : α → α) (m : Nat) (x : α) : Prop :=
  ∃ w, f x = .ok w ∧ m ≤ w.length ∧ ∀ rest, p (w ++ rest) = .ok (c x, rest)

/-- One writer for each element, in order. -/
def writeMany (f : α → Except ε Bytes) : List α → Except ε Bytes
  | [] => .ok []
  | x :: xs => do
    let w ← f x
    let ws ← writeMany f xs
    .ok (w ++ ws)

/-- What is written item by item is read back item by item. -/
theorem Reads.many {p : Reader ε α} {f : α → Except ε Bytes} {c : α → α}
    {m : Nat} {xs : List α} (h : ∀ x ∈ xs, Reads p f c m x) :
    ∃ w, writeMany f xs = .ok w ∧ xs.length * m ≤ w.length
      ∧ ∀ rest, readMany p xs.length (w ++ rest) = .ok (xs.map c, rest) := by
  induction xs with
  | nil => exact ⟨[], rfl, Nat.le_of_eq (Nat.zero_mul m), fun _ => rfl⟩
  | cons x xs ih =>
    obtain ⟨hx, hxs⟩ := List.forall_mem_cons.mp h
    obtain ⟨w, hw, hlen, hread⟩ := hx
    obtain ⟨ws, hws, hlens, hreads⟩ := ih hxs
    refine ⟨w ++ ws, ?_, ?_, fun rest => ?_⟩
    · exact bind_ok.mpr ⟨w, hw, bind_ok.mpr ⟨ws, hws, rfl⟩⟩
    · rw [List.length_cons, Nat.succ_mul, List.length_append]
      omega
    · rw [List.append_assoc]
      exact bind_ok.mpr ⟨_, hread _, bind_ok.mpr ⟨_, hreads rest, rfl⟩⟩

end Rostam.Lib
