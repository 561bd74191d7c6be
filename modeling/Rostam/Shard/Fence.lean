/-
The restore poison fence of one shard directory (shard/pb_fence.go): a
sidecar file whose existence says that a snapshot install began and did
not finish.

The file system calls are taken at the granularity the fence relies on.
`raise` writes a temporary file, renames it into place and syncs the
directory, so it either reports success with the marker in place or
fails with the rename done or not; `lower` removes the marker and syncs,
so it fails with the marker gone or not. Which it was is data of the
call. A shard without a data directory has no fence: every call is a
no-op there.
-/
import Rostam.Lib.Bytes

namespace Rostam.Shard

open Rostam.Lib

-- ======== the checksum

/-- One bit of the reflected CRC-32 division. -/
def crcBit (c : UInt32) : UInt32 :=
  if c % 2 = 1 then (c / 2) ^^^ 0xEDB88320 else c / 2

/-- One byte: eight bits. -/
def crcByte (c : UInt32) (b : UInt8) : UInt32 :=
  (List.range 8).foldl (fun c _ => crcBit c) (c ^^^ b.toUInt32)

/-- `crc32.ChecksumIEEE`. -/
def checksumIEEE (bs : List UInt8) : Nat :=
  (~~~ (bs.foldl crcByte 0xFFFFFFFF)).toNat

-- ======== the marker

/-- `pbFenceMagic`, "PRBFENCE". -/
def pbFenceMagic : Nat := 0x45434e4546425250

/-- `pbFenceVersion`. -/
def pbFenceVersion : Nat := 1

/-- `pbFenceSize`. -/
def pbFenceSize : Nat := 8 + 4 + 8 + 8 + 4

/-- The checksummed part: magic, version, seq, epoch. -/
def fenceBody (seq epoch : Nat) : List UInt8 :=
  leEncode 8 pbFenceMagic ++ leEncode 4 pbFenceVersion
    ++ leEncode 8 seq ++ leEncode 8 epoch

/-- The marker's bytes. -/
def fenceBytes (seq epoch : Nat) : List UInt8 :=
  fenceBody seq epoch ++ leEncode 4 (checksumIEEE (fenceBody seq epoch))

/-- The bytes `[lo, hi)` of a file, as an integer. -/
def field (b : List UInt8) (lo hi : Nat) : Nat :=
  leDecode ((b.take hi).drop lo)

/-- The body checks of `raised`. -/
def fenceReadable (b : List UInt8) : Bool :=
  decide (b.length = pbFenceSize) && decide (field b 0 8 = pbFenceMagic)
    && decide (field b 8 12 = pbFenceVersion)
    && decide (field b 28 32 = checksumIEEE (b.take 28))

-- ======== the fence

/-- `pbRestoreFence`: whether the shard has a directory, and the marker
in it. -/
structure RestoreFence where
  dir : Bool
  file : Option (List UInt8)
  deriving DecidableEq, Repr

/-- How a `raise` went; a failed one may have renamed already. -/
inductive RaiseOutcome where
  | ok
  | err (renamed : Bool)
  deriving DecidableEq, Repr

/-- How a `lower` went; a failed one may have removed already. -/
inductive LowerOutcome where
  | ok
  | err (removed : Bool)
  deriving DecidableEq, Repr

namespace RestoreFence

/-- `raise`: the fence after the call, and whether it reported
success. -/
def raise (f : RestoreFence) (seq epoch : Nat) (out : RaiseOutcome) :
    RestoreFence × Bool :=
  if f.dir = false then (f, true)
  else
    match out with
    | .ok => ({ f with file := some (fenceBytes seq epoch) }, true)
    | .err true => ({ f with file := some (fenceBytes seq epoch) }, false)
    | .err false => (f, false)

/-- `lower`. -/
def lower (f : RestoreFence) (out : LowerOutcome) : RestoreFence × Bool :=
  if f.dir = false then (f, true)
  else
    match out with
    | .ok => ({ f with file := none }, true)
    | .err true => ({ f with file := none }, false)
    | .err false => (f, false)

/-- `raised`: the identity the marker was raised for, and whether it is
up. A marker that cannot be read (`readable`) counts as absent; one
whose body fails a check is up without an identity. -/
def raised (f : RestoreFence) (readable : Bool) : Nat × Nat × Bool :=
  if f.dir = false then (0, 0, false)
  else
    match f.file with
    | none => (0, 0, false)
    | some b =>
      if readable = false then (0, 0, false)
      else if fenceReadable b then (field b 12 20, field b 20 28, true)
      else (0, 0, true)

end RestoreFence

end Rostam.Shard
