/-
Integer operate arithmetic is exact saturation.

`exactInt` says what an op means on the value a cell stores, over the
integers and over the two's complement word of the type's width; it names
no machine arithmetic. `applyInt` computes it: each helper is a `clamp`
of the true result, each bit op the op on the narrow word. A result lies
in its type's range, which for the ten types is the storage convention
of `Cell.u`, so that the codec gives the cell back.
-/
import Rostam.Lib.Word
import Rostam.Wire.Math

namespace Rostam.Wire

open Rostam.Lib

-- ======== the meaning

/-- The integer that `u` stores for type `t`. -/
def intValue (t : CellType) (u : BitVec 64) : Int :=
  if typeIsUnsigned t then u.toNat else u.toInt

/-- The least integer of a type. -/
def typeLo (t : CellType) : Int :=
  if typeIsUnsigned t then 0 else -2 ^ (typeBits t - 1)

/-- The greatest integer of a type. -/
def typeHi (t : CellType) : Int :=
  if typeIsUnsigned t then 2 ^ typeBits t - 1 else 2 ^ (typeBits t - 1) - 1

/-- The word of the type's width. -/
def intWord (t : CellType) (x : Int) : BitVec (typeBits t) :=
  BitVec.ofInt (typeBits t) x

/-- The integer of such a word. -/
def wordValue (t : CellType) (v : BitVec (typeBits t)) : Int :=
  if typeIsUnsigned t then v.toNat else v.toInt

/-- The shift counts that are taken. -/
def shiftable (t : CellType) (a : Int) : Bool :=
  typeIsFixedInt t && 0 ≤ a && a ≤ 64

/-- What an op makes of the integer `x` of a cell of type `t`; `none` is
a refusal. -/
def exactInt (o : ScalarOp) (t : CellType) (x : Int) (op : Operand) :
    Option Int :=
  let a := op.a.toInt
  let clamped := clamp (typeLo t) (typeHi t)
  let onFixed := fun v : BitVec (typeBits t) =>
    if typeIsFixedInt t then some (wordValue t v) else none
  match o with
  | .set => some (clamped a)
  | .add => some (clamped (x + a))
  | .mul => some (clamped (x * a))
  | .min => some (Min.min x (clamped a))
  | .max => some (Max.max x (clamped a))
  | .and => onFixed (intWord t x &&& intWord t a)
  | .or => onFixed (intWord t x ||| intWord t a)
  | .xor => onFixed (intWord t x ^^^ intWord t a)
  | .shl =>
    if shiftable t a then some (wordValue t (intWord t x <<< a.toNat))
    else none
  | .shr =>
    if shiftable t a then
      some (wordValue t (if typeIsUnsigned t then intWord t x >>> a.toNat
        else (intWord t x).sshiftRight a.toNat))
    else none
  | .stamp =>
    if op.aux = operateStampMs then some (clamped op.stampMs.toInt)
    else if op.aux = operateStampS then
      some (clamped (op.stampMs.toInt.tdiv 1000))
    else none

/-- An integer cell in its storage convention: the value lies in the
type's range and nothing else is set. -/
structure Cell.Stored (c : Cell) : Prop where
  isInt : typeIsInt c.type = true
  lo : typeLo c.type ≤ intValue c.type c.u
  hi : intValue c.type c.u ≤ typeHi c.type
  f : c.f = 0
  b : c.b = []

-- ======== ranges

section Types

variable {t : CellType}

theorem intValue_unsigned (hu : typeIsUnsigned t = true) (u : BitVec 64) :
    intValue t u = u.toNat := if_pos hu

theorem intValue_signed (hu : typeIsUnsigned t = false) (u : BitVec 64) :
    intValue t u = u.toInt := if_neg (Bool.eq_false_iff.mp hu)

theorem typeUMax_eq (hu : typeIsUnsigned t = true) :
    ((typeUMax t).toNat : Int) = typeHi t := by
  cases t with
  | u8 | u16 | u32 | u64 | uvarint => rfl
  | unknown _ _ => cases hu
  | _ => cases hu

theorem typeSignedRange_eq (hu : typeIsUnsigned t = false) :
    (typeSignedRange t).1.toInt = typeLo t
      ∧ (typeSignedRange t).2.toInt = typeHi t := by
  cases t with
  | u8 | u16 | u32 | u64 | uvarint => cases hu
  | _ => exact ⟨rfl, rfl⟩

theorem typeLo_eq_zero (hu : typeIsUnsigned t = true) : typeLo t = 0 := by
  rw [typeLo, if_pos hu]

theorem typeBits_pos : 0 < typeBits t := by
  unfold typeBits
  split <;> decide

/-- No cell is wider than a word. -/
theorem typeBits_le : typeBits t ≤ 64 := by
  unfold typeBits
  split <;> decide

theorem widthMask_toNat :
    (widthMask (typeBits t)).toNat
    = 2 ^ typeBits t - 1 := by
  cases t <;> rfl

theorem typeLo_le_zero : typeLo t ≤ 0 := by
  unfold typeLo
  split
  · exact Int.le_refl 0
  · have : (0 : Int) ≤ 2 ^ (typeBits t - 1) := Int.pow_nonneg (by decide)
    omega

theorem typeHi_nonneg : 0 ≤ typeHi t := by
  unfold typeHi
  split
  · have : (0 : Int) < 2 ^ typeBits t := Int.pow_pos (by decide)
    omega
  · have : (0 : Int) < 2 ^ (typeBits t - 1) := Int.pow_pos (by decide)
    omega

theorem typeLo_le_typeHi : typeLo t ≤ typeHi t :=
  Int.le_trans typeLo_le_zero typeHi_nonneg

/-- Every word of the width has a value in range. -/
theorem wordValue_mem (v : BitVec (typeBits t)) :
    typeLo t ≤ wordValue t v ∧ wordValue t v ≤ typeHi t := by
  unfold typeLo typeHi wordValue
  split
  · have : (v.toNat : Int) < 2 ^ typeBits t := by exact_mod_cast v.isLt
    omega
  · have := @BitVec.le_toInt _ v
    have := @BitVec.toInt_lt _ v
    omega

end Types

-- ======== helpers

section Helpers

variable {cur a delta lo hi max : BitVec 64}

theorem clampUnsigned_eq :
    ((clampUnsigned a max).toNat : Int) = clamp 0 max.toNat a.toInt := by
  unfold clampUnsigned clamp
  rw [slt_eq, toInt_lit_zero]
  split
  · next h =>
    have := of_decide_eq_true h
    change (0 : Int) = _
    omega
  · next h =>
    have ha := toNat_of_nonneg (Int.not_lt.mp (of_decide_eq_false
      (Bool.eq_false_iff.mpr h)))
    split
    · next h' =>
      rw [BitVec.lt_def] at h'
      omega
    · next h' =>
      rw [BitVec.lt_def] at h'
      omega

/-- A clamp is one on the integers. -/
theorem clampSigned_eq (h : lo.toInt ≤ hi.toInt) :
    (clampSigned a lo hi).toInt = clamp lo.toInt hi.toInt a.toInt := by
  unfold clampSigned clamp
  simp only [slt_eq, decide_eq_true_eq]
  split
  · omega
  · split <;> omega

/-- Saturating addition is clamped addition. -/
theorem addSatUnsigned_eq (h : cur.toNat ≤ max.toNat) :
    ((addSatUnsigned cur delta max).toNat : Int)
      = clamp 0 max.toNat (cur.toNat + delta.toInt) := by
  have hm := max.isLt
  unfold addSatUnsigned clamp
  simp only [slt_eq, toInt_lit_zero, Bool.not_eq_true',
    decide_eq_false_iff_not, BitVec.lt_def]
  split
  · next hd =>
    have hn := toNat_of_nonneg (Int.not_lt.mp hd)
    have hroom : (max - cur).toNat = max.toNat - cur.toNat :=
      BitVec.toNat_sub_of_le h
    split
    · omega
    · rw [BitVec.toNat_add, Nat.mod_eq_of_lt (by omega)]
      omega
  · next hd =>
    have hn := toNat_neg_of_neg (Decidable.of_not_not hd)
    split
    · change (0 : Int) = _
      omega
    · rw [BitVec.toNat_sub_of_le (by rw [BitVec.le_def]; omega)]
      omega

/-- The wrapped sum of two words of one sign is on the other side. -/
theorem addSatSigned_eq (h : lo.toInt ≤ cur.toInt)
    (h' : cur.toInt ≤ hi.toInt) :
    (addSatSigned cur delta lo hi).toInt
      = clamp lo.toInt hi.toInt (cur.toInt + delta.toInt) := by
  have hcur := @BitVec.toInt_lt 64 cur
  have hcur' := @BitVec.le_toInt 64 cur
  have hdelta := @BitVec.toInt_lt 64 delta
  have hdelta' := @BitVec.le_toInt 64 delta
  have hhi := @BitVec.toInt_lt 64 hi
  have hlo := @BitVec.le_toInt 64 lo
  have hsum := BitVec.toInt_add cur delta
  rw [Int.bmod_def] at hsum
  unfold addSatSigned clamp
  simp only [Bool.and_eq_true, slt_eq, toInt_lit_zero, decide_eq_true_eq]
  repeat' split
  all_goals omega

theorem absU64_toNat (x : BitVec 64) : (absU64 x).toNat = x.toInt.natAbs := by
  unfold absU64
  simp only [slt_eq, toInt_lit_zero, decide_eq_true_eq]
  split
  · next h =>
    have := toNat_neg_of_neg h
    omega
  · next h =>
    have := toNat_of_nonneg (Int.not_lt.mp h)
    omega

/-- Saturating multiplication is clamped multiplication. -/
theorem mulSatUnsigned_eq :
    ((mulSatUnsigned cur a max).toNat : Int)
      = clamp 0 max.toNat (cur.toNat * a.toInt) := by
  unfold mulSatUnsigned clamp mul64
  simp only [slt_eq, toInt_lit_zero, decide_eq_true_eq]
  split
  · next h =>
    have hneg : (cur.toNat : Int) * a.toInt ≤ 0 :=
      Int.mul_nonpos_of_nonneg_of_nonpos (Int.natCast_nonneg _)
        (Int.le_of_lt h)
    change (0 : Int) = _
    omega
  · next h =>
    have hp := mul_lt_two_words cur.isLt a.isLt
    rw [← toNat_of_nonneg (Int.not_lt.mp h), ← Int.natCast_mul]
    generalize cur.toNat * a.toNat = p at hp ⊢
    have hm := max.isLt
    simp only [high_or_low_above_iff hp]
    split
    · omega
    · rw [BitVec.toNat_ofNat, Nat.mod_eq_of_lt (by omega)]
      omega

/-- Magnitudes are multiplied, and the product is held against the bound
on its side of zero. -/
theorem mulSatSigned_eq (h : lo.toInt ≤ 0) (h' : 0 ≤ hi.toInt) :
    (mulSatSigned cur a lo hi).toInt
      = clamp lo.toInt hi.toInt (cur.toInt * a.toInt) := by
  unfold mulSatSigned clamp mul64
  split
  · next hz =>
    have : cur.toInt * a.toInt = 0 := by
      obtain rfl | rfl := hz
      · exact Int.zero_mul _
      · exact Int.mul_zero _
    rw [this]
    change (0 : Int) = _
    omega
  · next hz =>
    rw [not_or] at hz
    have hcur : cur.toInt ≠ 0 := fun h0 =>
      hz.1 (BitVec.eq_of_toInt_eq h0)
    have ha : a.toInt ≠ 0 := fun h0 => hz.2 (BitVec.eq_of_toInt_eq h0)
    have hsign : (cur.slt 0 != a.slt 0) = true ↔ cur.toInt * a.toInt < 0 := by
      rw [mul_neg_iff_signs hcur ha, slt_eq, slt_eq, toInt_lit_zero,
        bne_iff_ne, ne_eq, decide_eq_decide]
    have hp := mul_lt_two_words (absU64 cur).isLt (absU64 a).isLt
    have hq := Int.natAbs_mul cur.toInt a.toInt
    rw [← absU64_toNat, ← absU64_toNat] at hq
    generalize (absU64 cur).toNat * (absU64 a).toNat = p at hp hq ⊢
    simp only [hsign, high_or_low_above_iff hp]
    generalize cur.toInt * a.toInt = q at hq ⊢
    have hlo := absU64_toNat lo
    have hhi := toNat_of_nonneg h'
    have hlo' := @BitVec.le_toInt 64 lo
    have hhi' := @BitVec.toInt_lt 64 hi
    split
    · split
      · omega
      · rw [BitVec.toInt_neg, BitVec.toInt_ofNat', Int.bmod_def, Int.bmod_def]
        split <;> split <;> omega
    · split
      · omega
      · rw [BitVec.toInt_ofNat', Int.bmod_def]
        split <;> omega

end Helpers

-- ======== words

section Words

variable {t : CellType}

variable {a : BitVec 64}

theorem intWord_operand (a : BitVec 64) :
    intWord t a.toInt = a.setWidth (typeBits t) := by
  have hd : 2 ^ typeBits t ∣ 2 ^ 64 := Nat.pow_dvd_pow 2 typeBits_le
  apply BitVec.eq_of_toInt_eq
  rw [intWord, BitVec.toInt_ofInt, BitVec.toInt_setWidth,
    BitVec.toInt_eq_toNat_bmod]
  exact Int.bmod_bmod_of_dvd hd

/-- The word of a stored value is the low bits of the cell. -/
theorem intWord_intValue (u : BitVec 64) :
    intWord t (intValue t u) = u.setWidth (typeBits t) := by
  unfold intValue
  split
  · apply BitVec.eq_of_toInt_eq
    rw [intWord, BitVec.toInt_ofInt, BitVec.toInt_setWidth]
  · exact intWord_operand u

/-- Sign extension from the width of the type. -/
theorem signExtend_eq (v : BitVec 64) :
    signExtend v (typeBits t) = (v.setWidth (typeBits t)).signExtend 64 := by
  unfold signExtend
  split
  · next h =>
    have h64 : typeBits t = 64 := Nat.le_antisymm typeBits_le h
    rw [h64]
    simp
  · exact shift_up_down typeBits_le typeBits_pos v

/-- `applyBitOp` writes a narrow word back in the storage convention. -/
theorem intValue_zeroExtend (hu : typeIsUnsigned t = true)
    (v : BitVec (typeBits t)) :
    intValue t (v.setWidth 64) = wordValue t v := by
  rw [intValue_unsigned hu, wordValue, if_pos hu, toNat_zeroExtend typeBits_le]

theorem intValue_signExtend (hu : typeIsUnsigned t = false)
    (v : BitVec (typeBits t)) :
    intValue t (signExtend (v.setWidth 64) (typeBits t)) = wordValue t v := by
  rw [intValue_signed hu, wordValue, if_neg (Bool.eq_false_iff.mp hu),
    signExtend_eq, setWidth_zeroExtend typeBits_le,
    toInt_signExtend_word typeBits_le]

/-- A signed cell in range is its own sign extension. -/
theorem signExtend_stored (hu : typeIsUnsigned t = false) {u : BitVec 64}
    (hlo : typeLo t ≤ intValue t u) (hhi : intValue t u ≤ typeHi t) :
    signExtend u (typeBits t) = u := by
  have hu' : ¬ typeIsUnsigned t = true := Bool.eq_false_iff.mp hu
  apply BitVec.eq_of_toInt_eq
  rw [signExtend_eq, toInt_signExtend_word typeBits_le,
    ← intWord_intValue, intWord, BitVec.toInt_ofInt_eq_self typeBits_pos]
  · exact intValue_signed hu u
  · rw [typeLo, if_neg hu'] at hlo
    exact hlo
  · rw [typeHi, if_neg hu'] at hhi
    omega

/-- The bits of AND, OR and XOR are those of the op on the narrow
words. -/
theorem bitOpRaw_logic (u a : BitVec 64) (unsigned : Bool) :
    let x := u.setWidth (typeBits t)
    let y := a.setWidth (typeBits t)
    bitOpRaw .and (typeBits t) unsigned u a = .ok ((x &&& y).setWidth 64)
      ∧ bitOpRaw .or (typeBits t) unsigned u a = .ok ((x ||| y).setWidth 64)
      ∧ bitOpRaw .xor (typeBits t) unsigned u a
        = .ok ((x ^^^ y).setWidth 64) := by
  simp only [bitOpRaw, and_mask widthMask_toNat, BitVec.setWidth_and,
    BitVec.setWidth_or, BitVec.setWidth_xor, and_self]

/-- The counts that pass the guard of the shifts. -/
theorem shift_guard (h0 : 0 ≤ a.toInt) (h64 : a.toInt ≤ 64) :
    (a.slt 0 || (64 : BitVec 64).slt a) = false := by
  have hlit : (64 : BitVec 64).toInt = 64 := rfl
  rw [slt_eq, slt_eq, toInt_lit_zero, hlit, Bool.or_eq_false_iff,
    decide_eq_false_iff_not, decide_eq_false_iff_not]
  omega

theorem bitOpRaw_shl (u : BitVec 64) (unsigned : Bool)
    (h0 : 0 ≤ a.toInt) (h64 : a.toInt ≤ 64) :
    bitOpRaw .shl (typeBits t) unsigned u a
      = .ok ((u.setWidth (typeBits t) <<< a.toInt.toNat).setWidth 64) := by
  rw [toNat_toInt_of_nonneg h0]
  simp only [bitOpRaw, shift_guard h0 h64, Bool.false_eq_true, if_false,
    and_mask widthMask_toNat, shiftLeft_low typeBits_le]
  split
  · next h => rw [BitVec.shiftLeft_eq_zero h, BitVec.setWidth_zero]; rfl
  · rfl

theorem bitOpRaw_shr_unsigned (u : BitVec 64)
    (h0 : 0 ≤ a.toInt) (h64 : a.toInt ≤ 64) :
    bitOpRaw .shr (typeBits t) true u a
      = .ok ((u.setWidth (typeBits t) >>> a.toInt.toNat).setWidth 64) := by
  rw [toNat_toInt_of_nonneg h0]
  simp only [bitOpRaw, shift_guard h0 h64, Bool.false_eq_true, if_false,
    if_true, and_mask widthMask_toNat, ushiftRight_low typeBits_le]
  split
  · next h => rw [BitVec.ushiftRight_eq_zero h, BitVec.setWidth_zero]; rfl
  · rfl

theorem bitOpRaw_shr_signed (u : BitVec 64)
    (h0 : 0 ≤ a.toInt) (h64 : a.toInt ≤ 64) :
    bitOpRaw .shr (typeBits t) false u a
      = .ok (((u.setWidth (typeBits t)).sshiftRight
          a.toInt.toNat).setWidth 64) := by
  rw [toNat_toInt_of_nonneg h0]
  simp only [bitOpRaw, shift_guard h0 h64, Bool.false_eq_true, if_false,
    and_mask widthMask_toNat, signExtend_eq,
    sshiftRight_signExtend typeBits_le, setWidth_signExtend typeBits_le]
  simp only [slt_eq, toInt_lit_zero, toInt_signExtend_word typeBits_le,
    decide_eq_true_eq]
  split
  · next h =>
    rw [sshiftRight_all h]
    split
    · congr 1
      apply BitVec.eq_of_toNat_eq
      rw [widthMask_toNat, toNat_zeroExtend typeBits_le, BitVec.toNat_allOnes]
    · exact congrArg Except.ok (BitVec.setWidth_zero _ _).symm
  · rfl

end Words

-- ======== the codec

section Codec

variable {c : Cell}

theorem neg_lowBit (u : BitVec 64) :
    -(u &&& 1) = if u.getLsbD 0 then BitVec.allOnes 64 else 0 := by
  have h1 : u &&& 1 = if u.getLsbD 0 then 1 else 0 := by
    apply BitVec.eq_of_toNat_eq
    rw [BitVec.toNat_and]
    change u.toNat &&& 1 = _
    rw [Nat.and_one_is_mod, BitVec.getLsbD, Nat.testBit_zero]
    split
    · next h => exact of_decide_eq_true h
    · next h =>
      simp only [decide_eq_true_eq] at h
      change _ = 0
      omega
  rw [h1]
  split <;> rfl

/-- Bit zero of the zigzag is the sign, and the bits above it are those
of `x`, flipped by the sign. -/
theorem zigzag_bit (x : BitVec 64) {i : Nat} (hi : i < 64) :
    (zigzag x).getLsbD i
      = ((!decide (i = 0) && x.getLsbD (i - 1)) ^^ x.msb) := by
  have hsign : (x.sshiftRight 63).getLsbD i = x.msb := by
    rw [BitVec.getLsbD_sshiftRight, BitVec.msb_eq_getLsbD_last]
    by_cases h0 : i = 0
    · simp [h0]
    · simp [show ¬ 64 ≤ i by omega, show ¬ 63 + i < 64 by omega]
  rw [zigzag, BitVec.getLsbD_xor, hsign, BitVec.getLsbD_shiftLeft]
  simp [hi]

/-- Zigzag loses nothing. -/
theorem unzigzag_zigzag (x : BitVec 64) : unzigzag (zigzag x) = x := by
  have hlow : (zigzag x).getLsbD 0 = x.msb := by
    rw [zigzag_bit x (by decide)]
    simp
  apply BitVec.eq_of_getLsbD_eq
  intro i hi
  have hfill : (if x.msb then BitVec.allOnes 64 else 0).getLsbD i = x.msb := by
    cases x.msb with
    | true =>
      rw [if_pos rfl, BitVec.getLsbD_allOnes]
      exact decide_eq_true hi
    | false => simp
  rw [unzigzag, BitVec.getLsbD_xor, BitVec.getLsbD_ushiftRight, neg_lowBit,
    hlow, hfill]
  by_cases h63 : i + 1 < 64
  · rw [Nat.add_comm, zigzag_bit x h63]
    simp
  · have h : i = 63 := by omega
    subst h
    simp [BitVec.msb_eq_getLsbD_last]

theorem readBytes_leEncode (w v : Nat) (rest : Bytes) :
    readBytes WireErr.shortArgs w (leEncode w v ++ rest)
      = .ok (leEncode w v, rest) :=
  readBytes_ok.mpr ⟨leEncode_length w v, rfl⟩

theorem decodeUint_leEncode (w : Nat) (t : CellType) (n : UInt8)
    {u : BitVec 64} (hu : u.toNat < 256 ^ w) (rest : Bytes) :
    decodeUint w t n (leEncode w u.toNat ++ rest)
      = .ok (⟨t, n, u, 0, []⟩, rest) := by
  unfold decodeUint
  rw [readBytes_leEncode]
  change Except.ok (Cell.mk t n (BitVec.ofNat 64 _) 0 [], rest) = _
  rw [leDecode_leEncode, Nat.mod_eq_of_lt hu, BitVec.ofNat_toNat,
    BitVec.setWidth_eq]

theorem decodeInt_leEncode (w : Nat) (t : CellType) (n : UInt8)
    {u : BitVec 64} (hu : (u.setWidth (8 * w)).signExtend 64 = u)
    (rest : Bytes) :
    decodeInt w t n (leEncode w u.toNat ++ rest)
      = .ok (⟨t, n, u, 0, []⟩, rest) := by
  have hlow : BitVec.ofNat (8 * w) (u.toNat % 256 ^ w)
      = u.setWidth (8 * w) := by
    apply BitVec.eq_of_toNat_eq
    rw [BitVec.toNat_ofNat, BitVec.toNat_setWidth,
      show 256 ^ w = 2 ^ (8 * w) from (Nat.pow_mul 2 8 w).symm,
      Nat.mod_mod]
  unfold decodeInt
  rw [readBytes_leEncode]
  change Except.ok (Cell.mk t n (BitVec.signExtend 64 _) 0 [], rest) = _
  rw [leDecode_leEncode, hlow, hu]

theorem decodeUvarint_append {v : Nat} (hv : v < 2 ^ 64) (rest : Bytes) :
    decodeUvarint (appendUvarint v ++ rest) = .ok (v, rest) := by
  rw [decodeUvarint, uvarint_append hv]

/-- A stored cell survives the codec. -/
theorem Cell.Stored.roundTrip (hc : c.Stored) (rest : Bytes) :
    decodeCellData c.type c.n (appendCellData c ++ rest) = .ok (c, rest) := by
  obtain ⟨t, n, u, f, b⟩ := c
  obtain ⟨ht, hlo, hhi, rfl, rfl⟩ := hc
  have hunsigned : typeIsUnsigned t = true → u.toNat < 2 ^ typeBits t := by
    intro hu
    rw [intValue, typeHi, if_pos hu, if_pos hu] at hhi
    have : (u.toNat : Int) < ((2 ^ typeBits t : Nat) : Int) := by
      rw [Int.natCast_pow]
      exact Int.lt_of_le_sub_one hhi
    exact Int.ofNat_lt.mp this
  have hsigned : typeIsUnsigned t = false →
      (u.setWidth (typeBits t)).signExtend 64 = u := by
    intro hu
    rw [← signExtend_eq]
    exact signExtend_stored hu hlo hhi
  cases t with
  | u8 => exact decodeUint_leEncode 1 _ n (hunsigned rfl) rest
  | u16 => exact decodeUint_leEncode 2 _ n (hunsigned rfl) rest
  | u32 => exact decodeUint_leEncode 4 _ n (hunsigned rfl) rest
  | u64 => exact decodeUint_leEncode 8 _ n (hunsigned rfl) rest
  | i8 => exact decodeInt_leEncode 1 _ n (hsigned rfl) rest
  | i16 => exact decodeInt_leEncode 2 _ n (hsigned rfl) rest
  | i32 => exact decodeInt_leEncode 4 _ n (hsigned rfl) rest
  | i64 => exact decodeUint_leEncode 8 _ n u.isLt rest
  | uvarint =>
    change (decodeUvarint (appendUvarint u.toNat ++ rest) >>= _) = _
    rw [decodeUvarint_append u.isLt]
    change Except.ok
      (Cell.mk .uvarint n (BitVec.ofNat 64 u.toNat) 0 [], rest) = _
    rw [BitVec.ofNat_toNat, BitVec.setWidth_eq]
  | ivarint =>
    change (decodeUvarint (appendUvarint (zigzag u).toNat ++ rest) >>= _) = _
    rw [decodeUvarint_append (zigzag u).isLt]
    change Except.ok
      (Cell.mk .ivarint n (unzigzag (BitVec.ofNat 64 (zigzag u).toNat)) 0
        [], rest) = _
    rw [BitVec.ofNat_toNat, BitVec.setWidth_eq, unzigzag_zigzag]
  | _ => cases ht

end Codec

-- ======== the ops

section Ops

variable {c : Cell} {op : Operand}

variable {o : ScalarOp} {a : BitVec 64} {v : Int}

/-- An operand is stored clamped. -/
theorem storeIntOperand_value (t : CellType) (v : BitVec 64) :
    intValue t (storeIntOperand t (typeIsUnsigned t) v)
      = clamp (typeLo t) (typeHi t) v.toInt := by
  cases hu : typeIsUnsigned t with
  | true =>
    rw [storeIntOperand, if_pos rfl, intValue_unsigned hu, clampUnsigned_eq,
      typeUMax_eq hu, typeLo_eq_zero hu]
  | false =>
    obtain ⟨hlo, hhi⟩ := typeSignedRange_eq hu
    have hle : (typeSignedRange t).1.toInt ≤ (typeSignedRange t).2.toInt := by
      rw [hlo, hhi]
      exact typeLo_le_typeHi
    rw [storeIntOperand, if_neg Bool.false_ne_true, intValue_signed hu]
    rw [clampSigned_eq hle, hlo, hhi]

/-- ADD. -/
theorem applyInt_add (hc : c.Stored) :
    ∃ u, applyInt .add c op = .ok { c with u := u }
      ∧ intValue c.type u = clamp (typeLo c.type) (typeHi c.type)
          (intValue c.type c.u + op.a.toInt) := by
  have hlo := hc.lo
  have hhi := hc.hi
  cases hu : typeIsUnsigned c.type with
  | true =>
    rw [intValue_unsigned hu, ← typeUMax_eq hu] at hhi
    refine ⟨addSatUnsigned c.u op.a (typeUMax c.type), ?_, ?_⟩
    · simp only [applyInt, hu, if_true]
    · rw [intValue_unsigned hu, intValue_unsigned hu,
        addSatUnsigned_eq (Int.ofNat_le.mp hhi), typeUMax_eq hu,
        typeLo_eq_zero hu]
  | false =>
    obtain ⟨hl, hh⟩ := typeSignedRange_eq hu
    refine ⟨addSatSigned c.u op.a (typeSignedRange c.type).1
      (typeSignedRange c.type).2, ?_, ?_⟩
    · simp only [applyInt, hu, Bool.false_eq_true, if_false,
        signExtend_stored hu hlo hhi]
    · rw [intValue_signed hu] at hlo hhi
      rw [intValue_signed hu, intValue_signed hu,
        addSatSigned_eq (hl ▸ hlo) (hh ▸ hhi), hl, hh]

/-- MUL. -/
theorem applyInt_mul (hc : c.Stored) :
    ∃ u, applyInt .mul c op = .ok { c with u := u }
      ∧ intValue c.type u = clamp (typeLo c.type) (typeHi c.type)
          (intValue c.type c.u * op.a.toInt) := by
  cases hu : typeIsUnsigned c.type with
  | true =>
    refine ⟨mulSatUnsigned c.u op.a (typeUMax c.type), ?_, ?_⟩
    · simp only [applyInt, hu, if_true]
    · rw [intValue_unsigned hu, intValue_unsigned hu, mulSatUnsigned_eq,
        typeUMax_eq hu, typeLo_eq_zero hu]
  | false =>
    obtain ⟨hl, hh⟩ := typeSignedRange_eq hu
    refine ⟨mulSatSigned c.u op.a (typeSignedRange c.type).1
      (typeSignedRange c.type).2, ?_, ?_⟩
    · simp only [applyInt, hu, Bool.false_eq_true, if_false,
        signExtend_stored hu hc.lo hc.hi]
    · rw [intValue_signed hu, intValue_signed hu,
        mulSatSigned_eq (hl ▸ typeLo_le_zero) (hh ▸ typeHi_nonneg), hl, hh]

/-- The pick of MIN and MAX: the clamped operand or the cell as it
is. -/
theorem applyInt_pick (hc : c.Stored) (op : Operand)
    (ho : o = .min ∨ o = .max) :
    ∃ v, intValue c.type v = clamp (typeLo c.type) (typeHi c.type) op.a.toInt
      ∧ applyInt o c op = .ok (if decide (o = .min)
          == decide (intValue c.type v < intValue c.type c.u)
          then { c with u := v } else c) := by
  refine ⟨storeIntOperand c.type (typeIsUnsigned c.type) op.a,
    storeIntOperand_value c.type op.a, ?_⟩
  have hcur := signExtend_stored (t := c.type) (u := c.u)
  cases hu : typeIsUnsigned c.type with
  | true =>
    obtain rfl | rfl := ho
      <;> simp only [applyInt, hu, if_true, storeIntOperand, intValue,
        Int.ofNat_lt, BitVec.lt_def]
  | false =>
    obtain rfl | rfl := ho
      <;> simp only [applyInt, hu, Bool.false_eq_true, if_false,
        storeIntOperand, intValue, slt_eq, hcur hu hc.lo hc.hi]

theorem applyInt_min (hc : c.Stored) :
    ∃ u, applyInt .min c op = .ok { c with u := u }
      ∧ intValue c.type u = min (intValue c.type c.u)
          (clamp (typeLo c.type) (typeHi c.type) op.a.toInt) := by
  obtain ⟨v, hv, h⟩ := applyInt_pick hc op (.inl rfl)
  rw [← hv]
  by_cases hlt : intValue c.type v < intValue c.type c.u
  · refine ⟨v, ?_, by omega⟩
    rw [h, decide_eq_true hlt]
    rfl
  · refine ⟨c.u, ?_, by omega⟩
    rw [h, decide_eq_false hlt]
    rfl

theorem applyInt_max (hc : c.Stored) :
    ∃ u, applyInt .max c op = .ok { c with u := u }
      ∧ intValue c.type u = max (intValue c.type c.u)
          (clamp (typeLo c.type) (typeHi c.type) op.a.toInt) := by
  obtain ⟨v, hv, h⟩ := applyInt_pick hc op (.inr rfl)
  rw [← hv]
  by_cases hlt : intValue c.type v < intValue c.type c.u
  · refine ⟨c.u, ?_, by omega⟩
    rw [h, decide_eq_true hlt]
    rfl
  · refine ⟨v, ?_, by omega⟩
    rw [h, decide_eq_false hlt]
    rfl

/-- A bit op whose bits are those of a narrow word stores that word. -/
theorem applyBitOp_word 
    (hf : typeIsFixedInt c.type = true) {v : BitVec (typeBits c.type)}
    (hraw : bitOpRaw o (typeBits c.type) (typeIsUnsigned c.type) c.u a
      = .ok (v.setWidth 64)) :
    ∃ u, applyBitOp o c (typeIsUnsigned c.type) a = .ok { c with u := u }
      ∧ intValue c.type u = wordValue c.type v := by
  unfold applyBitOp
  rw [if_pos hf]
  dsimp only
  rw [hraw]
  cases hu : typeIsUnsigned c.type with
  | true =>
    exact ⟨v.setWidth 64, rfl, intValue_zeroExtend hu v⟩
  | false =>
    exact ⟨signExtend (v.setWidth 64) (typeBits c.type), rfl,
      intValue_signExtend hu v⟩

theorem when_some {p : Prop} [Decidable p] {x v : Int} :
    (if p then some x else none) = some v ↔ p ∧ x = v := by
  rw [Option.ite_none_right_eq_some, Option.some_inj]

theorem when_none {p : Prop} [Decidable p] {x : Int} :
    (if p then some x else none) = none ↔ ¬ p := by
  simp

/-- The bit ops, on the word of the stored value. -/
theorem applyInt_bits 
    (ho : o = .and ∨ o = .or ∨ o = .xor ∨ o = .shl ∨ o = .shr)
    (h : exactInt o c.type (intValue c.type c.u) op = some v) :
    ∃ u, applyInt o c op = .ok { c with u := u } ∧ intValue c.type u = v := by
  obtain ⟨hand, hor, hxor⟩ := bitOpRaw_logic (t := c.type) c.u op.a
    (typeIsUnsigned c.type)
  obtain rfl | rfl | rfl | rfl | rfl := ho <;>
    obtain ⟨hs, rfl⟩ := when_some.mp h <;> rw [intWord_intValue]
  · rw [intWord_operand]
    exact applyBitOp_word hs hand
  · rw [intWord_operand]
    exact applyBitOp_word hs hor
  · rw [intWord_operand]
    exact applyBitOp_word hs hxor
  all_goals
    rw [shiftable, Bool.and_eq_true, Bool.and_eq_true, decide_eq_true_eq,
      decide_eq_true_eq] at hs
    apply applyBitOp_word hs.1.1
  · exact bitOpRaw_shl c.u _ hs.1.2 hs.2
  · cases hu : typeIsUnsigned c.type with
    | true => exact bitOpRaw_shr_unsigned c.u hs.1.2 hs.2
    | false => exact bitOpRaw_shr_signed c.u hs.1.2 hs.2

/-- Seconds are milliseconds, cut toward zero. -/
theorem sdiv_thousand (x : BitVec 64) :
    (x.sdiv 1000).toInt = x.toInt.tdiv 1000 := by
  have hlit : (1000 : BitVec 64).toInt = 1000 := rfl
  have hlo := @BitVec.le_toInt 64 x
  have hhi := @BitVec.toInt_lt 64 x
  have hdiv : (x.toInt.tdiv 1000).natAbs = x.toInt.natAbs / 1000 :=
    Int.natAbs_tdiv x.toInt 1000
  rw [BitVec.toInt_sdiv, hlit, Int.bmod_eq_of_le]
  · omega
  · omega

theorem applyInt_stamp
    (h : exactInt .stamp c.type (intValue c.type c.u) op = some v) :
    ∃ u, applyInt .stamp c op = .ok { c with u := u }
      ∧ intValue c.type u = v := by
  simp only [exactInt] at h
  simp only [applyInt, stampOperand]
  split at h
  · next hms =>
    injection h with h
    rw [if_pos hms]
    exact ⟨_, rfl, h ▸ storeIntOperand_value c.type op.stampMs⟩
  · next hms =>
    split at h
    · next hs =>
      injection h with h
      rw [if_neg hms, if_pos hs]
      refine ⟨_, rfl, ?_⟩
      rw [storeIntOperand_value, sdiv_thousand]
      exact h
    · cases h

/-- Where the op has a meaning, `applyInt` computes it. -/
theorem applyInt_value (hc : c.Stored) 
    (h : exactInt o c.type (intValue c.type c.u) op = some v) :
    ∃ u, applyInt o c op = .ok { c with u := u } ∧ intValue c.type u = v := by
  cases o with
  | set =>
    injection h with h
    exact ⟨_, rfl, h ▸ storeIntOperand_value c.type op.a⟩
  | add =>
    injection h with h
    exact h ▸ applyInt_add hc
  | mul =>
    injection h with h
    exact h ▸ applyInt_mul hc
  | min =>
    injection h with h
    exact h ▸ applyInt_min hc
  | max =>
    injection h with h
    exact h ▸ applyInt_max hc
  | and | or | xor | shl | shr => exact applyInt_bits (by simp) h
  | stamp => exact applyInt_stamp h

/-- The integers a meaning can be. -/
theorem exactInt_mem {t : CellType} {x v : Int}
    (hx : typeLo t ≤ x ∧ x ≤ typeHi t)
    (h : exactInt o t x op = some v) : typeLo t ≤ v ∧ v ≤ typeHi t := by
  have hclamp := clamp_mem (typeLo_le_typeHi (t := t))
  cases o with
  | set | add | mul =>
    injection h with h
    exact h ▸ hclamp _
  | min | max =>
    injection h with h
    have := hclamp op.a.toInt
    omega
  | and | or | xor | shl | shr =>
    obtain ⟨-, rfl⟩ := when_some.mp h
    exact wordValue_mem _
  | stamp =>
    simp only [exactInt] at h
    split at h
    · injection h with h
      exact h ▸ hclamp _
    · obtain ⟨-, rfl⟩ := when_some.mp h
      exact hclamp _

/-- A count outside `0..64` does not pass the guard of the shifts. -/
theorem shift_refused (h : ¬ (0 ≤ a.toInt ∧ a.toInt ≤ 64)) :
    (a.slt 0 || (64 : BitVec 64).slt a) = true := by
  have hlit : (64 : BitVec 64).toInt = 64 := rfl
  rw [slt_eq, slt_eq, toInt_lit_zero, hlit, Bool.or_eq_true,
    decide_eq_true_eq, decide_eq_true_eq]
  omega

/-- A shift past the word is refused. -/
theorem applyBitOp_refused 
    {unsigned : Bool} (ho : o = .shl ∨ o = .shr)
    (h : ¬ shiftable c.type a.toInt = true) :
    applyBitOp o c unsigned a = .error .operateType := by
  unfold applyBitOp
  split
  · next hf =>
    have hcount : ¬ (0 ≤ a.toInt ∧ a.toInt ≤ 64) := by
      intro hcount
      apply h
      rw [shiftable, hf, decide_eq_true hcount.1,
        decide_eq_true hcount.2]
      rfl
    have hraw : bitOpRaw o (typeBits c.type) unsigned c.u a
        = .error .operateType := by
      obtain rfl | rfl := ho
        <;> simp only [bitOpRaw, shift_refused hcount, if_true]
    dsimp only
    rw [hraw]
    rfl
  · rfl

/-- Where it has none, `applyInt` refuses. -/
theorem applyInt_refused
    (h : exactInt o c.type (intValue c.type c.u) op = none) :
    applyInt o c op = .error .operateType := by
  cases o with
  | set | add | mul | min | max => cases h
  | and | or | xor =>
    have hf : ¬ typeIsFixedInt c.type = true :=
      (when_none (x := wordValue c.type _)).mp h
    simp only [applyInt, applyBitOp, if_neg hf]
  | shl => exact applyBitOp_refused (.inl rfl) (when_none.mp h)
  | shr => exact applyBitOp_refused (.inr rfl) (when_none.mp h)
  | stamp =>
    simp only [exactInt] at h
    simp only [applyInt, stampOperand]
    split at h
    · cases h
    · next hms =>
      rw [if_neg hms, if_neg (when_none.mp h)]
      rfl

/-- Integer operate arithmetic: on a stored cell an op either has a
meaning, and then the result is the cell that stores it and that the
codec gives back, or is refused. -/
theorem applyInt_exact (c : Cell) (hc : c.Stored) (o : ScalarOp)
    (op : Operand) :
    (∀ v, exactInt o c.type (intValue c.type c.u) op = some v →
      ∃ c', applyInt o c op = .ok c' ∧ c'.type = c.type ∧ c'.n = c.n
        ∧ intValue c'.type c'.u = v ∧ c'.Stored
        ∧ ∀ rest, decodeCellData c'.type c'.n (appendCellData c' ++ rest)
            = .ok (c', rest))
      ∧ (exactInt o c.type (intValue c.type c.u) op = none →
        applyInt o c op = .error .operateType) := by
  refine ⟨fun v h => ?_, applyInt_refused⟩
  obtain ⟨u, happly, hu⟩ := applyInt_value hc h
  obtain ⟨hlo, hhi⟩ := exactInt_mem ⟨hc.lo, hc.hi⟩ h
  have hstored : Cell.Stored { c with u := u } :=
    ⟨hc.isInt, hu ▸ hlo, hu ▸ hhi, hc.f, hc.b⟩
  exact ⟨_, happly, rfl, rfl, hu, hstored, hstored.roundTrip⟩

/-- An `I8` of -100 takes -100 more: the sum saturates at -128. -/
theorem applyInt_exact_i8 :
    let c : Cell := ⟨.i8, 0, -100, 0, []⟩
    ∃ c', applyInt .add c ⟨-100, 0, 0⟩ = .ok c' ∧ c'.type = .i8
      ∧ c'.n = 0 ∧ intValue c'.type c'.u = -128 ∧ c'.Stored
      ∧ ∀ rest, decodeCellData c'.type c'.n (appendCellData c' ++ rest)
          = .ok (c', rest) :=
  (applyInt_exact ⟨.i8, 0, -100, 0, []⟩
    ⟨rfl, by decide, by decide, rfl, rfl⟩ .add ⟨-100, 0, 0⟩).1 (-128)
    (by decide)

/-- On the eight-bit word a shift by 65 leaves zero; the op is refused. -/
theorem shl_beyond_word_refused :
    let c : Cell := ⟨.u8, 0, 1, 0, []⟩
    c.Stored ∧ wordValue .u8 (intWord .u8 (intValue .u8 c.u)
          <<< (65 : BitVec 64).toInt.toNat) = 0
      ∧ applyInt .shl c ⟨65, 0, 0⟩ = .error .operateType :=
  ⟨⟨rfl, by decide, by decide, rfl, rfl⟩, by decide, by decide⟩

end Ops

end Rostam.Wire
