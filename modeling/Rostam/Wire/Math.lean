/-
Integer operate arithmetic (sdk/wire/operate_math.go): the scalar ops on
the ten integer types of a cell.

The source computes in `uint64` and `int64` and detects every wrap by
hand. Both are `BitVec 64` here: `toNat`, `+`, `<<<` and `<` are the
unsigned machine's, `slt` and `sshiftRight` the signed one's, and the
conversions between the two are the identity. `typeBits`, `typeUMax` and
`typeSignedRange` answer for every tag, as the source's `default` does.

The float and byte domains of `ApplyScalar` are not here, and `Operand`
keeps the fields the integer domain reads.
-/
import Rostam.Wire.Cell

namespace Rostam.Wire

-- ======== ops

/-- The opcodes `isScalarOpcode` lets through. -/
inductive ScalarOp where
  | set | add | mul | min | max
  | and | or | xor | shl | shr
  | stamp
  deriving DecidableEq, Repr

/-- `Operand`: `a` and `stampMs` are `int64`. -/
structure Operand where
  a : BitVec 64
  aux : UInt8
  stampMs : BitVec 64
  deriving DecidableEq, Repr

/-- `OperateStampMs`. -/
def operateStampMs : UInt8 := 0

/-- `OperateStampS`. -/
def operateStampS : UInt8 := 1

-- ======== types

/-- `TypeIsFixedInt`. -/
def typeIsFixedInt (t : CellType) : Bool :=
  match t with
  | .u8 | .u16 | .u32 | .u64 | .i8 | .i16 | .i32 | .i64 => true
  | _ => false

/-- `TypeIsInt`. -/
def typeIsInt (t : CellType) : Bool :=
  match t with
  | .u8 | .u16 | .u32 | .u64 | .i8 | .i16 | .i32 | .i64
  | .uvarint | .ivarint => true
  | _ => false

/-- `TypeIsUnsigned`. -/
def typeIsUnsigned (t : CellType) : Bool :=
  match t with
  | .u8 | .u16 | .u32 | .u64 | .uvarint => true
  | _ => false

/-- `typeUMax`. -/
def typeUMax (t : CellType) : BitVec 64 :=
  match t with
  | .u8 => 255
  | .u16 => 65535
  | .u32 => 4294967295
  | _ => 18446744073709551615

/-- `typeSignedRange`. -/
def typeSignedRange (t : CellType) : BitVec 64 × BitVec 64 :=
  match t with
  | .i8 => (-128, 127)
  | .i16 => (-32768, 32767)
  | .i32 => (-2147483648, 2147483647)
  | _ => (-9223372036854775808, 9223372036854775807)

/-- `typeBits`. -/
def typeBits (t : CellType) : Nat :=
  match t with
  | .u8 | .i8 => 8
  | .u16 | .i16 => 16
  | .u32 | .i32 => 32
  | _ => 64

-- ======== the helpers

/-- `widthMask`. -/
def widthMask (bits : Nat) : BitVec 64 :=
  if 64 ≤ bits then 18446744073709551615 else ((1 : BitVec 64) <<< bits) - 1

/-- `signExtend`. -/
def signExtend (v : BitVec 64) (bits : Nat) : BitVec 64 :=
  if 64 ≤ bits then v else (v <<< (64 - bits)).sshiftRight (64 - bits)

/-- `clampUnsigned`. -/
def clampUnsigned (a max : BitVec 64) : BitVec 64 :=
  if a.slt 0 then 0 else if max < a then max else a

/-- `clampSigned`. -/
def clampSigned (a lo hi : BitVec 64) : BitVec 64 :=
  if a.slt lo then lo else if hi.slt a then hi else a

/-- `addSatUnsigned`. -/
def addSatUnsigned (cur delta max : BitVec 64) : BitVec 64 :=
  if !delta.slt 0 then
    if max - cur < delta then max else cur + delta
  else if cur < -delta then 0
  else cur - -delta

/-- `addSatSigned`. -/
def addSatSigned (cur delta lo hi : BitVec 64) : BitVec 64 :=
  let sum := cur + delta
  if (0 : BitVec 64).slt delta && sum.slt cur then hi
  else if delta.slt 0 && cur.slt sum then lo
  else if sum.slt lo then lo
  else if hi.slt sum then hi
  else sum

/-- `absU64`. -/
def absU64 (x : BitVec 64) : BitVec 64 := if x.slt 0 then -x else x

/-- `bits.Mul64`: the high and the low word of the product. -/
def mul64 (x y : BitVec 64) : BitVec 64 × BitVec 64 :=
  (BitVec.ofNat 64 (x.toNat * y.toNat / 2 ^ 64),
    BitVec.ofNat 64 (x.toNat * y.toNat))

/-- `mulSatUnsigned`. -/
def mulSatUnsigned (cur a max : BitVec 64) : BitVec 64 :=
  if a.slt 0 then 0
  else
    let (hi, lo) := mul64 cur a
    if hi ≠ 0 ∨ max < lo then max else lo

/-- `mulSatSigned`. -/
def mulSatSigned (cur a lo hi : BitVec 64) : BitVec 64 :=
  if cur = 0 ∨ a = 0 then 0
  else
    let neg := cur.slt 0 != a.slt 0
    let (hiBits, loBits) := mul64 (absU64 cur) (absU64 a)
    if neg then
      if hiBits ≠ 0 ∨ absU64 lo < loBits then lo else -loBits
    else if hiBits ≠ 0 ∨ hi < loBits then hi
    else loBits

/-- `storeIntOperand`. -/
def storeIntOperand (t : CellType) (unsigned : Bool) (v : BitVec 64) :
    BitVec 64 :=
  if unsigned then clampUnsigned v (typeUMax t)
  else
    let (lo, hi) := typeSignedRange t
    clampSigned v lo hi

-- ======== bit ops

/-- The `switch` of `applyBitOp`: the bits of the result, within the
width `w`. -/
def bitOpRaw (o : ScalarOp) (w : Nat) (unsigned : Bool)
    (u a : BitVec 64) : Except WireErr (BitVec 64) :=
  let mask := widthMask w
  let cur := u &&& mask
  match o with
  | .and => .ok (cur &&& (a &&& mask))
  | .or => .ok (cur ||| (a &&& mask))
  | .xor => .ok (cur ^^^ (a &&& mask))
  | .shl =>
    if a.slt 0 || (64 : BitVec 64).slt a then .error .operateType
    else if w ≤ a.toNat then .ok 0
    else .ok ((cur <<< a.toNat) &&& mask)
  | .shr =>
    if a.slt 0 || (64 : BitVec 64).slt a then .error .operateType
    else if unsigned then
      if w ≤ a.toNat then .ok 0 else .ok (cur >>> a.toNat)
    else
      let signedCur := signExtend u w
      if w ≤ a.toNat then .ok (if signedCur.slt 0 then mask else 0)
      else .ok (signedCur.sshiftRight a.toNat &&& mask)
  -- `applyInt` sends no other opcode here; `raw` would stay zero.
  | _ => .ok 0

/-- `applyBitOp`. -/
def applyBitOp (o : ScalarOp) (c : Cell) (unsigned : Bool)
    (a : BitVec 64) : Except WireErr Cell :=
  if typeIsFixedInt c.type then do
    let w := typeBits c.type
    let raw ← bitOpRaw o w unsigned c.u a
    if unsigned then .ok { c with u := raw }
    else .ok { c with u := signExtend raw w }
  else .error .operateType

-- ======== applyInt

/-- The `switch` on `op.Aux` of STAMP: the operand it stores. -/
def stampOperand (op : Operand) : Except WireErr (BitVec 64) :=
  if op.aux = operateStampMs then .ok op.stampMs
  else if op.aux = operateStampS then .ok (op.stampMs.sdiv 1000)
  else .error .operateType

/-- `applyInt`. -/
def applyInt (o : ScalarOp) (c : Cell) (op : Operand) : Except WireErr Cell :=
  let unsigned := typeIsUnsigned c.type
  let (lo, hi) := typeSignedRange c.type
  let cur := signExtend c.u (typeBits c.type)
  match o with
  | .set => .ok { c with u := storeIntOperand c.type unsigned op.a }
  | .add =>
    if unsigned then
      .ok { c with u := addSatUnsigned c.u op.a (typeUMax c.type) }
    else .ok { c with u := addSatSigned cur op.a lo hi }
  | .mul =>
    if unsigned then
      .ok { c with u := mulSatUnsigned c.u op.a (typeUMax c.type) }
    else .ok { c with u := mulSatSigned cur op.a lo hi }
  | .min | .max =>
    let wantMin := decide (o = .min)
    if unsigned then
      let v := clampUnsigned op.a (typeUMax c.type)
      .ok (if wantMin == decide (v < c.u) then { c with u := v } else c)
    else
      let v := clampSigned op.a lo hi
      .ok (if wantMin == v.slt cur then { c with u := v } else c)
  | .and | .or | .xor | .shl | .shr => applyBitOp o c unsigned op.a
  | .stamp => do
    let ms ← stampOperand op
    .ok { c with u := storeIntOperand c.type unsigned ms }

end Rostam.Wire
