/-
Fixed-width integers as byte lists.

`leEncode w n` is the `w`-byte encoding of `n` (the high bytes of a
larger `n` are cut off, as a store into a fixed-width slot does) and
`leDecode` reads a list of any width. The two are inverse on values
that fit. `beEncode` and `beDecode` are the same, most significant byte
first.
-/
import Mathlib.Algebra.Order.Ring.Nat
import Mathlib.Data.List.Induction
import Mathlib.Data.List.Infix

namespace Rostam.Lib

abbrev Bytes := List UInt8

/-- The `w`-byte little-endian encoding. -/
def leEncode : Nat → Nat → List UInt8
  | 0, _ => []
  | w + 1, n => UInt8.ofNat (n % 256) :: leEncode w (n / 256)

/-- Read a little-endian integer. -/
def leDecode : List UInt8 → Nat
  | [] => 0
  | b :: bs => b.toNat + 256 * leDecode bs

/-- The `w`-byte big-endian encoding. -/
def beEncode (w n : Nat) : List UInt8 := (leEncode w n).reverse

/-- Read a big-endian integer. -/
def beDecode (bs : List UInt8) : Nat := leDecode bs.reverse

@[simp]
theorem leEncode_length (w n : Nat) : (leEncode w n).length = w := by
  induction w generalizing n with
  | zero => rfl
  | succ w ih => simp [leEncode, ih]

/-- Decoding an encoding gives the value back, modulo its width. -/
theorem leDecode_leEncode (w n : Nat) :
    leDecode (leEncode w n) = n % 256 ^ w := by
  induction w generalizing n with
  | zero => simp [leEncode, leDecode, Nat.mod_one]
  | succ w ih =>
    have hb : (UInt8.ofNat (n % 256)).toNat = n % 256 :=
      UInt8.toNat_ofNat_of_lt' (Nat.mod_lt _ (by decide))
    show (UInt8.ofNat (n % 256)).toNat + 256 * leDecode _ = _
    rw [hb, ih, Nat.pow_succ', Nat.mod_mul]

/-- A number fits the width it was read from. -/
theorem leDecode_lt (b : Bytes) : leDecode b < 256 ^ b.length := by
  induction b with
  | nil => exact Nat.zero_lt_one
  | cons x b ih =>
    have hx : x.toNat < 256 := x.toNat_lt
    rw [List.length_cons, Nat.pow_succ, leDecode]
    omega

/-- Bytes come back from the value they encode. -/
theorem leEncode_leDecode (b : Bytes) :
    leEncode b.length (leDecode b) = b := by
  induction b with
  | nil => rfl
  | cons x b ih =>
    have hx : x.toNat < 256 := x.toNat_lt
    rw [List.length_cons, leEncode, leDecode,
      show (x.toNat + 256 * leDecode b) % 256 = x.toNat by omega,
      show (x.toNat + 256 * leDecode b) / 256 = leDecode b by omega, ih,
      UInt8.ofNat_toNat]

@[simp]
theorem beEncode_length (w n : Nat) : (beEncode w n).length = w := by
  unfold beEncode
  rw [List.length_reverse, leEncode_length]

theorem beDecode_lt (b : Bytes) : beDecode b < 256 ^ b.length := by
  unfold beDecode
  rw [← List.length_reverse]
  exact leDecode_lt _

/-- Bytes are those of the number they decode to. -/
theorem beEncode_beDecode (b : Bytes) :
    beEncode b.length (beDecode b) = b := by
  unfold beEncode beDecode
  rw [← List.length_reverse, leEncode_leDecode, List.reverse_reverse]

/-- A value that fits its width comes back. -/
theorem beDecode_beEncode {w n : Nat} (h : n < 256 ^ w) :
    beDecode (beEncode w n) = n := by
  unfold beDecode beEncode
  rw [List.reverse_reverse, leDecode_leEncode, Nat.mod_eq_of_lt h]

end Rostam.Lib
