/-
Cells of operate records: one scalar value and its type, and their data
encoding (sdk/wire/operate_const.go, operate_cell.go).

A type is a tag byte. The sixteen tags of the source are the constructors
of `CellType`; any other byte is `unknown`, which the decoders refuse
where the source does, not when the tag is read.

`Cell` keeps the source's five fields. `u` is the `uint64` of the integer
types (zero- or sign-extended), `f` the bits of the `float64`. A decoder
returns what is behind the value it consumed, where the source returns
how many bytes it consumed.
-/
import Rostam.Lib.Ieee
import Rostam.Lib.Reader
import Rostam.Lib.Uvarint

namespace Rostam.Wire

open Rostam.Lib

-- ======== types

/-- The type tags; `OperateTypeCount` is 16. -/
inductive CellType where
  | u8 | u16 | u32 | u64
  | i8 | i16 | i32 | i64
  | f32 | f64
  | uvarint | ivarint
  | bytes
  | fixed
  | table
  | unset
  | unknown (tag : UInt8) (h : 16 ≤ tag.toNat)
  deriving DecidableEq, Repr

namespace CellType

/-- The type a tag byte names. -/
def ofByte (b : UInt8) : CellType :=
  if h : 16 ≤ b.toNat then .unknown b h
  else
    match b.toNat with
    | 0 => .u8 | 1 => .u16 | 2 => .u32 | 3 => .u64
    | 4 => .i8 | 5 => .i16 | 6 => .i32 | 7 => .i64
    | 8 => .f32 | 9 => .f64 | 10 => .uvarint | 11 => .ivarint
    | 12 => .bytes | 13 => .fixed | 14 => .table | _ => .unset

/-- The tag byte of a type. -/
def toByte : CellType → UInt8
  | .u8 => 0 | .u16 => 1 | .u32 => 2 | .u64 => 3
  | .i8 => 4 | .i16 => 5 | .i32 => 6 | .i64 => 7
  | .f32 => 8 | .f64 => 9 | .uvarint => 10 | .ivarint => 11
  | .bytes => 12 | .fixed => 13 | .table => 14 | .unset => 15
  | .unknown b _ => b

end CellType

/-- The sentinel errors of the operate codec. -/
inductive WireErr where
  | shortArgs
  | operateType
  | operateSchema
  | operateCap
  | operateRecord
  deriving DecidableEq, Repr

/-- `OperateMaxBytesLen`. -/
def operateMaxBytesLen : Nat := 65535

/-- `CountFitsIn`, for counts and remainders that are not negative. -/
def countFitsIn (n remaining minBytesPerElem : Nat) : Bool :=
  1 ≤ minBytesPerElem && n ≤ remaining / minBytesPerElem

/-- One scalar value. `n` is the width of a FIXED. -/
structure Cell where
  type : CellType
  n : UInt8
  u : BitVec 64
  f : BitVec 64
  b : Bytes
  deriving DecidableEq, Repr

/-- `CellWidth`; `none` is the source's -1. -/
def cellWidth (t : CellType) (n : UInt8) : Option Nat :=
  match t with
  | .u8 | .i8 => some 1
  | .u16 | .i16 => some 2
  | .u32 | .i32 | .f32 => some 4
  | .u64 | .i64 | .f64 => some 8
  | .fixed => some n.toNat
  | .unset => some 0
  | _ => none

-- ======== floats

/-- The bits of the one NaN that is stored. -/
def canonicalNaN64 : Nat := 0x7FF8000000000000

def canonicalNaN32 : Nat := 0x7FC00000

/-- `CanonFloat`, on the bits. -/
def canonFloat (t : CellType) (f : Nat) : Nat :=
  let f' := if isNaN64 f then canonicalNaN64 else f
  if t = .f32 then f32ToF64 (f64ToF32 f') else f'

-- ======== varints

/-- `zigzag`. -/
def zigzag (i : BitVec 64) : BitVec 64 := (i <<< 1) ^^^ (i.sshiftRight 63)

/-- `unzigzag`. -/
def unzigzag (u : BitVec 64) : BitVec 64 := (u >>> 1) ^^^ -(u &&& 1)

/-- `binary.Uvarint` where the caller refuses `m <= 0`. -/
def decodeUvarint : Reader WireErr Nat := fun b =>
  match uvarint b with
  | none => .error .shortArgs
  | some r => .ok r

/-- `decodeCanonicalUvarint`. -/
def decodeCanonicalUvarint : Reader WireErr Nat := fun b => do
  let (v, rest) ← decodeUvarint b
  if b.length - rest.length ≠ minUvarintLen v then .error .operateSchema
  else .ok (v, rest)

-- ======== the codec

/-- `AppendCellData`: the data alone, no tag and no width. -/
def appendCellData (c : Cell) : Bytes :=
  match c.type with
  | .u8 | .i8 => leEncode 1 c.u.toNat
  | .u16 | .i16 => leEncode 2 c.u.toNat
  | .u32 | .i32 => leEncode 4 c.u.toNat
  | .u64 | .i64 => leEncode 8 c.u.toNat
  | .f32 => leEncode 4 (f64ToF32 (canonFloat .f32 c.f.toNat))
  | .f64 => leEncode 8 (canonFloat .f64 c.f.toNat)
  | .uvarint => appendUvarint c.u.toNat
  | .ivarint => appendUvarint (zigzag c.u).toNat
  | .bytes => appendUvarint c.b.length ++ c.b
  | .fixed => c.b
  | _ => []

/-- An unsigned integer of `w` bytes. -/
def decodeUint (w : Nat) (t : CellType) (n : UInt8) : Reader WireErr Cell :=
  fun b => do
    let (x, rest) ← readBytes .shortArgs w b
    .ok (⟨t, n, BitVec.ofNat 64 (leDecode x), 0, []⟩, rest)

/-- A signed integer of `w` bytes. -/
def decodeInt (w : Nat) (t : CellType) (n : UInt8) : Reader WireErr Cell :=
  fun b => do
    let (x, rest) ← readBytes .shortArgs w b
    .ok (⟨t, n, (BitVec.ofNat (8 * w) (leDecode x)).signExtend 64, 0, []⟩,
      rest)

/-- `DecodeCellData`. -/
def decodeCellData (t : CellType) (n : UInt8) : Reader WireErr Cell :=
  fun b =>
    match t with
    | .unset => .ok (⟨t, n, 0, 0, []⟩, b)
    | .u8 => decodeUint 1 t n b
    | .i8 => decodeInt 1 t n b
    | .u16 => decodeUint 2 t n b
    | .i16 => decodeInt 2 t n b
    | .u32 => decodeUint 4 t n b
    | .i32 => decodeInt 4 t n b
    | .u64 | .i64 => decodeUint 8 t n b
    | .f32 => do
      let (x, rest) ← readBytes .shortArgs 4 b
      .ok (⟨t, n, 0, BitVec.ofNat 64 (f32ToF64 (leDecode x)), []⟩, rest)
    | .f64 => do
      let (x, rest) ← readBytes .shortArgs 8 b
      .ok (⟨t, n, 0, BitVec.ofNat 64 (leDecode x), []⟩, rest)
    | .uvarint => do
      let (v, rest) ← decodeUvarint b
      .ok (⟨t, n, BitVec.ofNat 64 v, 0, []⟩, rest)
    | .ivarint => do
      let (v, rest) ← decodeUvarint b
      .ok (⟨t, n, unzigzag (BitVec.ofNat 64 v), 0, []⟩, rest)
    | .bytes => do
      let (ln, rest) ← decodeUvarint b
      if operateMaxBytesLen < ln then .error .operateCap
      else do
        let (x, rest) ← readBytes .shortArgs ln rest
        .ok (⟨t, n, 0, 0, x⟩, rest)
    | .fixed =>
      if n = 0 then .error .operateType
      else do
        let (x, rest) ← readBytes .shortArgs n.toNat b
        .ok (⟨t, n, 0, 0, x⟩, rest)
    | _ => .error .operateType

end Rostam.Wire
