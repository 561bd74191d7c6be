/-
Binary floating point as bit patterns: 32 and 64 bits, each a sign, an
exponent and a fraction, read as natural numbers.

Widening is exact. Narrowing and the conversion of an integer round to
the nearest, ties to the even one; an overflow is infinite. A NaN that is
converted comes out quiet.
-/
import Mathlib.Data.Nat.Log
import Mathlib.Algebra.Order.Ring.Nat

namespace Rostam.Lib

-- ======== the parts

/-- The exponent of a 32-bit pattern. -/
def exp32 (x : Nat) : Nat := x / 2 ^ 23 % 2 ^ 8

/-- The fraction of a 32-bit pattern. -/
def frac32 (x : Nat) : Nat := x % 2 ^ 23

/-- The exponent of a 64-bit pattern. -/
def exp64 (x : Nat) : Nat := x / 2 ^ 52 % 2 ^ 11

/-- The fraction of a 64-bit pattern. -/
def frac64 (x : Nat) : Nat := x % 2 ^ 52

def isNaN32 (x : Nat) : Bool := exp32 x == 255 && frac32 x != 0

def isNaN64 (x : Nat) : Bool := exp64 x == 2047 && frac64 x != 0

/-- The quotient by `2 ^ k`, to the nearest, ties to even. -/
def roundHalfEven (x k : Nat) : Nat :=
  if 2 ^ k < 2 * (x % 2 ^ k) ∨ 2 * (x % 2 ^ k) = 2 ^ k ∧ x / 2 ^ k % 2 = 1
  then x / 2 ^ k + 1 else x / 2 ^ k

-- ======== conversions

/-- A magnitude of 31 bits as one of 63. -/
def widen (x : Nat) : Nat :=
  let e := exp32 x
  let m := frac32 x
  if e = 255 then
    if m = 0 then 2047 * 2 ^ 52
    else 2047 * 2 ^ 52 + 2 ^ 51 + m % 2 ^ 22 * 2 ^ 29
  else if e = 0 then
    -- a subnormal becomes normal: its leading bit is the implicit one
    if m = 0 then 0
    else (Nat.log 2 m + 874) * 2 ^ 52
      + (m - 2 ^ Nat.log 2 m) * 2 ^ (52 - Nat.log 2 m)
  else (e + 896) * 2 ^ 52 + m * 2 ^ 29

def f32ToF64 (x : Nat) : Nat := x / 2 ^ 31 % 2 * 2 ^ 63 + widen x

/-- A magnitude of 63 bits rounded to one of 31. -/
def narrow (x : Nat) : Nat :=
  let e := exp64 x
  let m := frac64 x
  if e = 2047 then
    if m = 0 then 255 * 2 ^ 23
    else 255 * 2 ^ 23 + 2 ^ 22 + m / 2 ^ 29 % 2 ^ 22
  else if 897 ≤ e then
    min (255 * 2 ^ 23) ((e - 897) * 2 ^ 23 + roundHalfEven (2 ^ 52 + m) 29)
  else roundHalfEven (if e = 0 then m else 2 ^ 52 + m) (926 - max e 1)

def f64ToF32 (x : Nat) : Nat := x / 2 ^ 63 % 2 * 2 ^ 31 + narrow x

/-- The 64-bit pattern of a natural number below `2 ^ 64`. -/
def f64OfNat (u : Nat) : Nat :=
  let k := Nat.log 2 u
  if u = 0 then 0
  else if k ≤ 52 then (k + 1023) * 2 ^ 52 + (u - 2 ^ k) * 2 ^ (52 - k)
  else (k + 1023) * 2 ^ 52 + (roundHalfEven u (k - 52) - 2 ^ 52)

example : f32ToF64 0x3F800000 = 0x3FF0000000000000 := by decide
example : f64ToF32 0x3FF0000000000000 = 0x3F800000 := by decide
example : f64OfNat (2 ^ 63 + 1) = 0x43E0000000000000 := by decide

end Rostam.Lib
