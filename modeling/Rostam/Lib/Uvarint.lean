/-
Unsigned varints: base 128, least significant digit first, the high bit
set on every byte but the last, at most 64 bits.

A value has many spellings (`0x80 0x00` is zero too); the canonical one
is the shortest. A reader that checks the length it consumed against the
shortest one accepts exactly what the writer writes
(`uvarint_canonical_iff`).
-/
import Rostam.Lib.Bytes

namespace Rostam.Lib

variable {v : Nat}

-- ======== the reader

/-- Read on from digit `i`: the value of the digits left, and what is
behind them. An eleventh byte, or a tenth above one, is out of range. -/
def uvarintFrom : Nat → Bytes → Option (Nat × Bytes)
  | _, [] => none
  | i, b :: bs =>
    if i = 10 then none
    else if b.toNat < 128 then
      if i = 9 ∧ 1 < b.toNat then none else some (b.toNat, bs)
    else (uvarintFrom (i + 1) bs).map fun r =>
      (b.toNat - 128 + 128 * r.1, r.2)

/-- Read one varint off the front. -/
def uvarint (b : Bytes) : Option (Nat × Bytes) := uvarintFrom 0 b

-- ======== the writer

/-- The shortest spelling, in at most `k` bytes. -/
def uvarintDigits : Nat → Nat → Bytes
  | 0, _ => []
  | k + 1, v =>
    if v < 128 then [UInt8.ofNat v]
    else UInt8.ofNat (v % 128 + 128) :: uvarintDigits k (v / 128)

/-- Write a 64-bit value. -/
def appendUvarint (v : Nat) : Bytes := uvarintDigits 10 v

/-- The length of the shortest spelling: divide until one digit is
left. -/
def uvarintLenFrom : Nat → Nat → Nat
  | 0, _ => 0
  | k + 1, v => if v < 128 then 1 else uvarintLenFrom k (v / 128) + 1

def minUvarintLen (v : Nat) : Nat := uvarintLenFrom 10 v

-- ======== inverse

theorem uvarintFrom_length {i : Nat} {b rest : Bytes}
    (h : uvarintFrom i b = some (v, rest)) : rest.length < b.length := by
  induction b generalizing i v with
  | nil => cases h
  | cons d bs ih =>
    unfold uvarintFrom at h
    split at h
    · cases h
    · split at h
      · split at h
        · cases h
        · injection h with h
          injection h with _ h
          rw [h, List.length_cons]
          exact Nat.lt_succ_self _
      · obtain ⟨⟨w, rest'⟩, hr, he⟩ := Option.map_eq_some_iff.mp h
        injection he with _ he
        subst he
        rw [List.length_cons]
        exact Nat.lt_succ_of_lt (ih hr)

theorem toNat_digit {n : Nat} (h : n < 256) : (UInt8.ofNat n).toNat = n :=
  UInt8.toNat_ofNat_of_lt' h

/-- What is left of 64 bits behind `i` digits: whole digits, until the
last bit. -/
theorem room_digits : ∀ i, i ≤ 8 →
    128 ≤ 2 ^ 64 / 128 ^ i ∧ 2 ^ 64 / 128 ^ i % 128 = 0 := by
  decide

theorem room_succ (i : Nat) :
    2 ^ 64 / 128 ^ (i + 1) = 2 ^ 64 / 128 ^ i / 128 := by
  rw [Nat.div_div_eq_div_mul, ← Nat.pow_succ]

/-- From digit `i` on, with `k` bytes left: a shortest spelling was read
exactly if it is what the writer writes. -/
theorem uvarintFrom_iff (k : Nat) :
    ∀ (i v : Nat) (b rest : Bytes),
    i + k = 10 →
    ((uvarintFrom i b = some (v, rest)
        ∧ b.length - rest.length = uvarintLenFrom k v)
      ↔ v < 2 ^ 64 / 128 ^ i ∧ b = uvarintDigits k v ++ rest) := by
  induction k with
  | zero =>
    intro i v b rest hi
    obtain rfl : i = 10 := by omega
    have h0 : 2 ^ 64 / 128 ^ 10 = 0 := by decide
    rw [h0]
    constructor
    · rintro ⟨h, -⟩
      cases b with
      | nil => cases h
      | cons d bs => cases h
    · rintro ⟨h, -⟩
      exact absurd h (Nat.not_lt_zero _)
  | succ k ih =>
    intro i v b rest hi
    have hroom := room_succ i
    have hlast : i = 9 → 2 ^ 64 / 128 ^ i = 2 := by
      rintro rfl
      decide
    constructor
    · rintro ⟨h, hlen⟩
      cases b with
      | nil => cases h
      | cons d bs =>
        have hd256 : d.toNat < 256 := d.toNat_lt
        unfold uvarintFrom at h
        rw [if_neg (by omega)] at h
        split at h
        · next hd =>
          split at h
          · cases h
          · next hbig =>
            injection h with h
            injection h with hv hr
            subst hv hr
            refine ⟨?_, ?_⟩
            · by_cases h9 : i = 9
              · rw [hlast h9]
                omega
              · have := (room_digits i (by omega)).1
                omega
            · rw [uvarintDigits, if_pos hd, UInt8.ofNat_toNat]
              rfl
        · next hd =>
          obtain ⟨⟨w, rest'⟩, hr, he⟩ := Option.map_eq_some_iff.mp h
          injection he with hv hrest
          dsimp only at hv hrest
          subst hrest
          have hshort := uvarintFrom_length hr
          rw [List.length_cons] at hlen
          -- two bytes were read, so the value has two digits
          have hbig : ¬ v < 128 := by
            intro hlt
            rw [uvarintLenFrom, if_pos hlt] at hlen
            omega
          have hdiv : v / 128 = w := by omega
          rw [uvarintLenFrom, if_neg hbig, hdiv] at hlen
          obtain ⟨hw, hbs⟩ := (ih (i + 1) w bs rest' (by omega)).mp
            ⟨hr, by omega⟩
          refine ⟨?_, ?_⟩
          · rw [hroom] at hw
            omega
          · rw [uvarintDigits, if_neg hbig, hdiv, List.cons_append, ← hbs,
              show v % 128 + 128 = d.toNat by omega,
              UInt8.ofNat_toNat]
    · rintro ⟨hv, rfl⟩
      by_cases hlt : v < 128
      · rw [uvarintDigits, if_pos hlt, uvarintLenFrom, if_pos hlt]
        refine ⟨?_, by rw [List.length_append]; exact Nat.add_sub_cancel ..⟩
        have hb := toNat_digit (n := v) (by omega)
        show uvarintFrom i (UInt8.ofNat v :: rest) = _
        rw [uvarintFrom, if_neg (by omega), hb, if_pos hlt, if_neg]
        rintro ⟨h9, h1⟩
        rw [hlast h9] at hv
        omega
      · have hb := toNat_digit (n := v % 128 + 128) (by omega)
        have h8 : i ≤ 8 := by
          by_contra h
          rw [hlast (by omega)] at hv
          omega
        obtain ⟨h128, hmod⟩ := room_digits i h8
        obtain ⟨hr, hlen⟩ := (ih (i + 1) (v / 128) _ rest
          (by omega)).mpr ⟨by rw [hroom]; omega, rfl⟩
        rw [uvarintDigits, if_neg hlt, uvarintLenFrom, if_neg hlt]
        refine ⟨?_, ?_⟩
        · show uvarintFrom i (UInt8.ofNat (v % 128 + 128)
            :: (uvarintDigits k (v / 128) ++ rest)) = _
          have hv' : v % 128 + 128 - 128 + 128 * (v / 128) = v := by omega
          rw [uvarintFrom, if_neg (by omega), hb, if_neg (by omega), hr,
            Option.map_some, hv']
        · have hle := uvarintFrom_length hr
          rw [List.cons_append, List.length_cons]
          omega

/-- A varint that was read in its shortest length is what the writer
writes for the value, and the other way round. -/
theorem uvarint_canonical_iff {b rest : Bytes} :
    (uvarint b = some (v, rest) ∧ b.length - rest.length = minUvarintLen v)
      ↔ v < 2 ^ 64 ∧ b = appendUvarint v ++ rest := by
  have h := uvarintFrom_iff 10 0 v b rest rfl
  rw [Nat.pow_zero, Nat.div_one] at h
  exact h

theorem appendUvarint_pos (v : Nat) : 0 < (appendUvarint v).length := by
  unfold appendUvarint uvarintDigits
  split
  · exact Nat.zero_lt_one
  · exact Nat.zero_lt_succ _

example : uvarint [0x80, 0x00, 7] = some (0, [7])
    ∧ minUvarintLen 0 = 1 := by decide

example : uvarint (appendUvarint 300 ++ [7]) = some (300, [7]) := by decide

/-- What was written is read, whatever stands behind it. -/
theorem uvarint_append (hv : v < 2 ^ 64) (rest : Bytes) :
    uvarint (appendUvarint v ++ rest) = some (v, rest) :=
  (uvarint_canonical_iff.mpr ⟨hv, rfl⟩).1

end Rostam.Lib
