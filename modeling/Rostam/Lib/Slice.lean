/-
Slices: the front of an array that is written again and again.

A slice is an array up to its capacity, of which the first `len` elements
are in use (`view`). Cutting a slice to nothing keeps the array, so an
append then overwrites what an earlier use left there. `readInto` fills a
slice that way from a reader and clears what the earlier use had beyond
it. It reads what a fresh list would get (`readInto_view`), and behind
the elements in use a tidy slice stays zero (`readInto_tidy`).

The zero of an element type is its `default`.
-/
import Rostam.Lib.Reader

namespace Rostam.Lib

universe u v

/-- An array up to its capacity, and how much of it is in use. -/
structure Slice (α : Type v) where
  back : List α
  len : Nat
  le : len ≤ back.length

namespace Slice

variable {α : Type v}

/-- The elements in use. -/
def view (s : Slice α) : List α := s.back.take s.len

def cap (s : Slice α) : Nat := s.back.length

/-- No array at all. -/
def none : Slice α := ⟨[], 0, Nat.le_refl 0⟩

/-- `s[:0]`. -/
def truncate (s : Slice α) : Slice α := ⟨s.back, 0, Nat.zero_le _⟩

/-- One more element: in place while there is room, else in an array of
its own. -/
def append (s : Slice α) (x : α) : Slice α :=
  if h : s.len < s.back.length then
    ⟨s.back.set s.len x, s.len + 1, by rw [List.length_set]; exact h⟩
  else ⟨s.view ++ [x], (s.view ++ [x]).length, le_rfl⟩

section Zero

variable [Inhabited α]

/-- Nothing in use of an array of `n` zeros. -/
def make (n : Nat) : Slice α := ⟨List.replicate n default, 0, Nat.zero_le _⟩

/-- Zeros from `lo` up to `hi`. -/
def clear (s : Slice α) (lo hi : Nat) : Slice α :=
  ⟨s.back.mapIdx fun i x => if lo ≤ i ∧ i < hi then default else x, s.len,
    by rw [List.length_mapIdx]; exact s.le⟩

/-- Nothing but zeros behind the elements in use. -/
def Tidy (s : Slice α) : Prop :=
  ∀ i, s.len ≤ i → ∀ x, s.back[i]? = some x → x = default

end Zero

-- ======== the view

theorem view_length (s : Slice α) : s.view.length = s.len := by
  unfold view
  rw [List.length_take]
  exact Nat.min_eq_left s.le

@[simp]
theorem view_append (s : Slice α) (x : α) :
    (s.append x).view = s.view ++ [x] := by
  unfold append
  split
  · next h =>
    show (s.back.set s.len x).take (s.len + 1) = s.back.take s.len ++ [x]
    rw [List.take_add_one, List.take_set_of_le le_rfl,
      List.getElem?_set_self h]
    rfl
  · exact List.take_length

theorem len_append (s : Slice α) (x : α) : (s.append x).len = s.len + 1 := by
  rw [← view_length, view_append, List.length_append, view_length]
  rfl

/-- Clearing behind the elements in use leaves them. -/
theorem view_clear [Inhabited α] (s : Slice α) (hi : Nat) :
    (s.clear s.len hi).view = s.view := by
  apply List.ext_getElem?
  intro i
  show (List.take s.len (List.mapIdx _ s.back))[i]? = (s.back.take s.len)[i]?
  by_cases h : i < s.len
  · rw [List.getElem?_take_of_lt h, List.getElem?_take_of_lt h,
      List.getElem?_mapIdx]
    cases s.back[i]? with
    | none => rfl
    | some x => simp [Nat.not_le.mpr h]
  · have h := Nat.le_of_not_lt h
    rw [List.getElem?_take_eq_none h, List.getElem?_take_eq_none h]

-- ======== behind the view

/-- An append in place leaves the capacity and what is behind. -/
theorem append_back {s : Slice α} (h : s.len < s.cap) (x : α) :
    (s.append x).cap = s.cap
      ∧ ∀ i, s.len < i → (s.append x).back[i]? = s.back[i]? := by
  have heq : (s.append x).back = s.back.set s.len x := by
    unfold append
    exact congrArg back (dif_pos h)
  unfold cap
  rw [heq]
  exact ⟨List.length_set, fun i hi => List.getElem?_set_ne (Nat.ne_of_lt hi)⟩

theorem full_tidy [Inhabited α] {s : Slice α} (h : s.cap ≤ s.len) :
    s.Tidy := by
  intro i hi x hx
  rw [List.getElem?_eq_none (Nat.le_trans h hi)] at hx
  cases hx

end Slice

-- ======== reading into

variable {ε : Type u} {α : Type v}

/-- Append `n` reads to a slice. -/
def fill (p : Reader ε α) : Nat → Slice α → Reader ε (Slice α)
  | 0, s, b => .ok (s, b)
  | n + 1, s, b => do
    let (x, b) ← p b
    fill p n (s.append x) b

/-- Read `n` elements into the array of `dst` where it has the room, else
into a fresh one; a reused array that shrank is cleared up to where it
was in use. -/
def readInto [Inhabited α] (p : Reader ε α) (n : Nat) (dst : Slice α) :
    Reader ε (Slice α) := fun b =>
  if dst.cap < n then fill p n (.make n) b
  else do
    let (s, b) ← fill p n dst.truncate b
    .ok (s.clear s.len dst.len, b)

/-- A fill appends what repeated reading gets. -/
theorem fill_view (p : Reader ε α) (n : Nat) (s : Slice α) (b : Bytes) :
    (fill p n s b).map (fun r => (r.1.view, r.2))
      = (readMany p n b).map fun r => (s.view ++ r.1, r.2) := by
  induction n generalizing s b with
  | zero =>
    show Except.ok (s.view, b) = Except.ok (s.view ++ [], b)
    rw [List.append_nil]
  | succ n ih =>
    unfold fill readMany
    cases p b with
    | error e => rfl
    | ok r =>
      show (fill p n (s.append r.1) r.2).map _ = _
      rw [ih, Slice.view_append]
      show _ = Except.map _ (readMany p n r.2 >>= fun q =>
        Except.ok (r.1 :: q.1, q.2))
      cases readMany p n r.2 with
      | error e => rfl
      | ok q =>
        show Except.ok (s.view ++ [r.1] ++ q.1, q.2)
          = Except.ok (s.view ++ r.1 :: q.1, q.2)
        rw [List.append_assoc]
        rfl

/-- Reading into a slice is reading a list. -/
theorem readInto_view [Inhabited α] (p : Reader ε α) (n : Nat)
    (dst : Slice α) (b : Bytes) :
    (readInto p n dst b).map (fun r => (r.1.view, r.2)) = readMany p n b := by
  have hid : (readMany p n b).map (fun r => (([] : List α) ++ r.1, r.2))
      = readMany p n b := by
    cases readMany p n b with
    | error e => rfl
    | ok r => rfl
  unfold readInto
  split
  · exact (fill_view p n _ b).trans hid
  · have h := (fill_view p n dst.truncate b).trans hid
    rw [← h]
    cases fill p n dst.truncate b with
    | error e => rfl
    | ok r =>
      show Except.ok ((r.1.clear r.1.len dst.len).view, r.2)
        = Except.ok (r.1.view, r.2)
      rw [Slice.view_clear]

/-- A fill with the room stays in the array, and leaves what is behind. -/
theorem fill_back {p : Reader ε α} {n : Nat} {s t : Slice α} {b rest : Bytes}
    (h : fill p n s b = .ok (t, rest)) (hroom : s.len + n ≤ s.cap) :
    t.len = s.len + n ∧ t.cap = s.cap
      ∧ ∀ i, s.len + n ≤ i → t.back[i]? = s.back[i]? := by
  induction n generalizing s b with
  | zero =>
    obtain ⟨rfl, -⟩ := ok_pair.mp h
    exact ⟨rfl, rfl, fun _ _ => rfl⟩
  | succ n ih =>
    obtain ⟨⟨x, b'⟩, -, h⟩ := bind_ok.mp h
    obtain ⟨hcap, hback⟩ := Slice.append_back (s := s) (by omega) x
    have hlen := s.len_append x
    obtain ⟨h₁, h₂, h₃⟩ := ih h (by omega)
    refine ⟨by omega, h₂.trans hcap, fun i hi => ?_⟩
    rw [h₃ i (by omega), hback i (by omega)]

/-- What was zero behind the slice, and what it had in use beyond, is
zero behind it now. -/
theorem readInto_tidy [Inhabited α] {p : Reader ε α} {n : Nat}
    {dst t : Slice α} {b rest : Bytes} (hdst : dst.Tidy)
    (h : readInto p n dst b = .ok (t, rest)) : t.Tidy := by
  unfold readInto at h
  split at h
  · have hmake : (Slice.make n : Slice α).cap = n := List.length_replicate
    obtain ⟨hlen, hcap, -⟩ := fill_back h (by
      rw [hmake]
      exact (Nat.zero_add n).le)
    exact Slice.full_tidy (by rw [hcap, hlen, hmake]; omega)
  · next hroom =>
    obtain ⟨⟨s, b'⟩, hs, h⟩ := bind_ok.mp h
    obtain ⟨rfl, -⟩ := ok_pair.mp h
    obtain ⟨hlen, -, hback⟩ := fill_back hs (by
      show 0 + n ≤ dst.cap
      omega)
    have hzero : dst.truncate.len = 0 := rfl
    intro i (hi : s.len ≤ i) x hx
    obtain ⟨y, hy, rfl⟩ := (List.getElem?_mapIdx ..).symm.trans hx
      |> Option.map_eq_some_iff.mp
    split
    · rfl
    · next hc =>
      rw [hback i (by omega)] at hy
      exact hdst i (by omega) y hy

end Rostam.Lib
