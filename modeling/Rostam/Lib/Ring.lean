/-
Ring buffers: a fixed number of slots, a head index and an occupancy
count, with every physical index taken modulo the capacity.

The bounds that make the index arithmetic meaningful are fields of the
structure, so no operation can hand back a ring whose head or count has
left the slot range. Everything above this file reads a ring through
`toList`, its contents oldest first: each operation comes with the one
equation that says what it does to that list, and nothing else about
the slots is needed.

Slots are a function of the physical index rather than an array value:
the vacant slots keep whatever was written last, exactly as a backing
array does, and `get` may read them.
-/
import Mathlib.Algebra.Order.Ring.Nat
import Mathlib.Data.List.Induction
import Mathlib.Data.List.Infix

namespace Rostam.Lib

/-- A ring buffer over `cap` slots: `count` live entries, the oldest at
`head`. -/
structure RingBuf (α : Type) where
  cap : Nat
  slots : Nat → α
  head : Nat
  count : Nat
  cap_pos : 0 < cap
  head_lt : head < cap
  count_le : count ≤ cap

namespace RingBuf

variable {α : Type}

-- ======== the operations

/-- The physical slot `i` places after the head. -/
def slotAt (r : RingBuf α) (i : Nat) : Nat := (r.head + i) % r.cap

/-- Read the slot `i` places after the head, live or vacant. -/
def get (r : RingBuf α) (i : Nat) : α := r.slots (r.slotAt i)

/-- The live entries, oldest first. -/
def toList (r : RingBuf α) : List α := (List.range r.count).map r.get

/-- Overwrite one physical slot. -/
def setSlot (f : Nat → α) (i : Nat) (a : α) : Nat → α :=
  fun j => if j = i then a else f j

/-- A vacant ring: every slot holds `zero`. -/
def vacant (cap : Nat) (zero : α) (hcap : 0 < cap) : RingBuf α where
  cap := cap
  slots := fun _ => zero
  head := 0
  count := 0
  cap_pos := hcap
  head_lt := hcap
  count_le := Nat.zero_le _

/-- A ring of the same capacity, vacant. -/
def cleared (r : RingBuf α) (zero : α) : RingBuf α :=
  vacant r.cap zero r.cap_pos

/-- Write into the first vacant slot. -/
def push (r : RingBuf α) (a : α) (hroom : r.count < r.cap) : RingBuf α where
  cap := r.cap
  slots := setSlot r.slots (r.slotAt r.count) a
  head := r.head
  count := r.count + 1
  cap_pos := r.cap_pos
  head_lt := r.head_lt
  count_le := hroom

/-- Overwrite the oldest entry and advance the head past it. -/
def overwrite (r : RingBuf α) (a : α) : RingBuf α where
  cap := r.cap
  slots := setSlot r.slots r.head a
  head := (r.head + 1) % r.cap
  count := r.count
  cap_pos := r.cap_pos
  head_lt := Nat.mod_lt _ r.cap_pos
  count_le := r.count_le

/-- Append with drop-oldest overflow. -/
def append (r : RingBuf α) (a : α) : RingBuf α :=
  if h : r.count < r.cap then r.push a h else r.overwrite a

/-- Vacate the oldest slot, leaving `zero` behind. -/
def pop (r : RingBuf α) (zero : α) : RingBuf α where
  cap := r.cap
  slots := setSlot r.slots r.head zero
  head := (r.head + 1) % r.cap
  count := r.count - 1
  cap_pos := r.cap_pos
  head_lt := Nat.mod_lt _ r.cap_pos
  count_le := Nat.le_trans (Nat.sub_le ..) r.count_le

/-- Double the slots, re-laying the live entries from slot zero. -/
def grow (r : RingBuf α) (zero : α) : RingBuf α where
  cap := r.cap * 2
  slots := fun j => if j < r.count then r.get j else zero
  head := 0
  count := r.count
  cap_pos := Nat.mul_pos r.cap_pos (by decide)
  head_lt := Nat.mul_pos r.cap_pos (by decide)
  count_le := Nat.le_trans r.count_le (Nat.le_mul_of_pos_right _ (by decide))

/-- Append with growth: a full ring is doubled first. -/
def pushGrow (r : RingBuf α) (a zero : α) : RingBuf α :=
  if h : r.count < r.cap then r.push a h
  else (r.grow zero).push a (by
    have hp := r.cap_pos
    have hle := r.count_le
    show r.count < r.cap * 2
    omega)

-- ======== index arithmetic

/-- Two offsets below the capacity share a slot only when they are
equal. -/
theorem slotAt_inj (r : RingBuf α) {i j : Nat} (hi : i < r.cap)
    (hj : j < r.cap) (h : r.slotAt i = r.slotAt j) : i = j := by
  unfold slotAt at h
  have hh := r.head_lt
  have hcase : ∀ k, k < r.cap → (r.head + k) % r.cap
        = if r.head + k < r.cap then r.head + k
          else r.head + k - r.cap := by
    intro k hk
    split
    · next hlt => exact Nat.mod_eq_of_lt hlt
    · next hge =>
      rw [Nat.mod_eq_sub_mod (by omega)]
      exact Nat.mod_eq_of_lt (by omega)
  rw [hcase i hi, hcase j hj] at h
  split at h <;> split at h <;> omega

/-- The slot of offset zero is the head. -/
theorem slotAt_zero (r : RingBuf α) : r.slotAt 0 = r.head := by
  unfold slotAt
  rw [Nat.add_zero]
  exact Nat.mod_eq_of_lt r.head_lt

/-- Offsets after an advanced head are offsets shifted by one. -/
theorem succ_head_add_mod (h i c : Nat) :
    ((h + 1) % c + i) % c = (h + (i + 1)) % c := by
  rw [Nat.mod_add_mod]
  congr 1
  omega

-- ======== the list reading

@[simp]
theorem toList_length (r : RingBuf α) : r.toList.length = r.count := by
  simp [toList]

/-- Reading the list is reading the slot, inside the live range. -/
theorem toList_getElem? (r : RingBuf α) (i : Nat) :
    r.toList[i]? = if i < r.count then some (r.get i) else none := by
  unfold toList
  by_cases h : i < r.count
  · rw [if_pos h, List.getElem?_map, List.getElem?_range h]
    rfl
  · rw [if_neg h, List.getElem?_eq_none]
    simpa using h

/-- A push appends. -/
theorem toList_push (r : RingBuf α) (a : α) (h : r.count < r.cap) :
    (r.push a h).toList = r.toList ++ [a] := by
  unfold toList
  show (List.range (r.count + 1)).map (r.push a h).get = _
  rw [List.range_succ, List.map_append]
  congr 1
  · refine List.map_congr_left fun i hi => ?_
    rw [List.mem_range] at hi
    show setSlot r.slots (r.slotAt r.count) a (r.slotAt i) = r.get i
    unfold setSlot
    rw [if_neg]
    · rfl
    · intro he
      have := r.slotAt_inj (by omega) h he
      omega
  · show [setSlot r.slots (r.slotAt r.count) a (r.slotAt r.count)] = [a]
    simp [setSlot]

/-- Reading past an advanced head whose slot was overwritten. -/
private theorem get_advanced (r : RingBuf α) (a : α) {i : Nat}
    (hi : i + 1 < r.cap) :
    setSlot r.slots r.head a (((r.head + 1) % r.cap + i) % r.cap)
      = r.get (i + 1) := by
  rw [succ_head_add_mod]
  unfold setSlot get
  rw [if_neg]
  · rfl
  · intro he
    have h0 := r.slotAt_zero
    have := r.slotAt_inj hi r.cap_pos (he.trans h0.symm)
    omega

/-- A pop drops the oldest entry. -/
theorem toList_pop (r : RingBuf α) (zero : α) :
    (r.pop zero).toList = r.toList.tail := by
  refine List.ext_getElem? fun i => ?_
  rw [toList_getElem?, List.getElem?_tail, toList_getElem?]
  show (if i < r.count - 1 then some ((r.pop zero).get i) else none) = _
  have hle := r.count_le
  by_cases hi : i + 1 < r.count
  · rw [if_pos (by omega), if_pos hi]
    congr 1
    exact r.get_advanced zero (by omega)
  · rw [if_neg (by omega), if_neg hi]

/-- Growing keeps the contents. -/
theorem toList_grow (r : RingBuf α) (zero : α) :
    (r.grow zero).toList = r.toList := by
  unfold toList
  refine List.map_congr_left fun i hi => ?_
  rw [List.mem_range] at hi
  have hi' : i < r.count := hi
  show (if (0 + i) % (r.cap * 2) < r.count
    then r.get ((0 + i) % (r.cap * 2)) else zero) = r.get i
  have hle := r.count_le
  rw [Nat.zero_add, Nat.mod_eq_of_lt (by omega), if_pos hi']

/-- Growing append, as a list. -/
theorem toList_pushGrow (r : RingBuf α) (a zero : α) :
    (r.pushGrow a zero).toList = r.toList ++ [a] := by
  unfold pushGrow
  split
  · next h => exact r.toList_push a h
  · rw [toList_push, toList_grow]

theorem pushGrow_count (r : RingBuf α) (a zero : α) :
    (r.pushGrow a zero).count = r.count + 1 := by
  rw [← toList_length, toList_pushGrow]
  simp

end RingBuf

end Rostam.Lib
