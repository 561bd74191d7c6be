/-
Snapshots of a replica's cache: the bytes, writing them and installing
them.

A snapshot is [magic][version][entries][vector section][wasm section]
[trailer]. An entry is [keyLen u16][key][valLen u32][val][expiry u64],
big endian throughout; the trailer is [magic][entryCount u64]
[appliedIndex u64][stamp u64][crc u32]. Older versions have shorter
trailers and no wasm section, and are still read.

The vector store and the op registry are not modelled: their sections
are opaque bytes, and what the receiver makes of them comes in with the
call. The checksum is any function of the bytes it is fed.
-/
import Rostam.Lib.Sim
import Rostam.Shard.Replica

namespace Rostam.Shard

open Rostam.Lib Rostam.Ops Rostam.Cache

-- ======== bytes

def snapshotMagic : Bytes := [0x52, 0x53, 0x53, 0x54]
def trailerMagic : Bytes := [0x54, 0x52, 0x4C, 0x52]
def snapshotVersion : Nat := 5

/-- The trailer's size, by version. -/
def trailerLen (version : Nat) : Nat :=
  if 4 ≤ version then 4 + 8 + 8 + 8 + 4
  else if version = 3 then 4 + 8 + 8 + 4
  else 4 + 8 + 4

/-- `b[i:j]`. -/
def slice (b : Bytes) (i j : Nat) : Bytes := (b.drop i).take (j - i)

def encodeEntry (e : Entry) : Bytes :=
  beEncode 2 e.1.length ++ e.1 ++ beEncode 4 e.2.1.length ++ e.2.1
    ++ beEncode 8 e.2.2

/-- The sections that are opaque here. -/
structure Sections where
  vectors : Bytes
  wasm : Bytes

/-- Everything up to the trailer. -/
def snapshotBody (entries : List Entry) (sec : Sections) : Bytes :=
  snapshotMagic ++ [UInt8.ofNat snapshotVersion] ++ entries.flatMap encodeEntry
    ++ beEncode 4 sec.vectors.length ++ sec.vectors
    ++ beEncode 4 sec.wasm.length ++ sec.wasm

/-- serializeSnapshot: the walk's entries, the sections and the
trailer. -/
def serializeSnapshot (crc : Bytes → BitVec 32) {n : Nat}
    (c : Fin n → Cache.Shard) (env : Fin n → IterEnv) (sec : Sections)
    (appliedIndex : Nat) : Bytes :=
  let entries := iterate c env
  let body := snapshotBody entries sec
  let sealed := beEncode 8 appliedIndex ++ beEncode 8 (lastAppliedStampMs c)
  body ++ trailerMagic ++ beEncode 8 entries.length ++ sealed
    ++ beEncode 4 (crc (body ++ sealed)).toNat

-- ======== install

inductive RestoreErr where
  | badSnapshot
  | crcMismatch
  | version (v : Nat)
  | cache (e : Err)
  | vectors
  | wasm
  deriving DecidableEq, Repr

/-- What the receiver makes of the opaque sections: no store or no
handler, or whether it accepts the bytes. -/
structure Receiver where
  vectors : Option (Bytes → Bool)
  wasm : Option (Bytes → Bool)

/-- One entry off the front of the body. -/
def readEntry (b : Bytes) : Option (Entry × Bytes) := do
  guard (2 ≤ b.length)
  let klen := beDecode (b.take 2)
  let b := b.drop 2
  guard (klen ≤ b.length)
  let key := b.take klen
  let b := b.drop klen
  guard (4 ≤ b.length)
  let vlen := beDecode (b.take 4)
  let b := b.drop 4
  guard (vlen ≤ b.length)
  let val := b.take vlen
  let b := b.drop vlen
  guard (8 ≤ b.length)
  pure ((key, val, beDecode (b.take 8)), b.drop 8)

section Install

variable {σ : Type} (S : Ops.Store σ)

/-- Clear the keys found by the walk. -/
def clearKeys : List Entry → Effect RestoreErr σ Unit
  | [] => pure ()
  | e :: rest => do
    let _ ← (.ofStep fun c =>
      ((S.del e.1 c).1, (S.del e.1 c).2.mapError RestoreErr.cache)
        : Effect RestoreErr σ Bool)
    clearKeys rest

/-- PutAbs of one entry. -/
def install (e : Entry) : Effect RestoreErr σ Unit := .ofStep fun c =>
    ((S.putAbs e.1 e.2.1 e.2.2 c).1,
      match (S.putAbs e.1 e.2.1 e.2.2 c).2 with
      | none => .ok ()
      | some err => .error (.cache err))

/-- The replay loop: `count` entries off the body, each installed as it
is read. What is left of the body comes back. -/
def replayEntries : Nat → Bytes → Effect RestoreErr σ Bytes
  | 0, b => pure b
  | count + 1, b =>
    match readEntry b with
    | none => throw .badSnapshot
    | some (e, b) => do
      install S e
      replayEntries count b

end Install

/-- A section [len u32][bytes], handed to the receiver if not empty. -/
def readSection (accept : Option (Bytes → Bool)) (err : RestoreErr)
    (b : Bytes) : Except RestoreErr Bytes :=
  if b.length < 4 then .error .badSnapshot
  else
    let len := beDecode (b.take 4)
    let b := b.drop 4
    if b.length < len then .error .badSnapshot
    else if len = 0 then .ok b
    else
      match accept with
      | none => .error .badSnapshot
      | some f => if f (b.take len) then .ok (b.drop len) else .error err

/-- What follows the entries, by version. -/
def readSections (rcv : Receiver) (version : Nat) (b : Bytes) :
    Except RestoreErr Unit :=
  if version < 2 then
    if b.length = 0 then .ok () else .error .badSnapshot
  else if version < 5 then
    match rcv.vectors with
    | some f =>
      if b.length = 0 then .ok ()
      else if b.length < 4 then .error .badSnapshot
      else if beDecode (b.take 4) ≠ (b.drop 4).length then
        .error .badSnapshot
      else if f (b.drop 4) then .ok () else .error .vectors
    | none => if b.length = 0 then .ok () else .error .badSnapshot
  else do
    let b ← readSection rcv.vectors .vectors b
    let b ← readSection rcv.wasm .wasm b
    if b.length = 0 then .ok () else .error .badSnapshot

/-- The header and trailer checks: version, entry count, applied index,
stamp and the entries with what follows them. -/
def openSnapshot (crc : Bytes → BitVec 32) (all : Bytes) :
    Except RestoreErr (Nat × Nat × Nat × Nat × Bytes) :=
  if all.length < 5 + 4 + 8 + 4 then .error .badSnapshot
  else if slice all 0 4 ≠ snapshotMagic then .error .badSnapshot
  else
    let version := beDecode (slice all 4 5)
    if version < 1 ∨ snapshotVersion < version then
      .error (.version version)
    else
      let tlen := trailerLen version
      if all.length < 5 + tlen then .error .badSnapshot
      else
        let start := all.length - tlen
        if slice all start (start + 4) ≠ trailerMagic then
          .error .badSnapshot
        else
          let count := beDecode (slice all (start + 4) (start + 12))
          let crcStart := start + tlen - 4
          let expected := beDecode (slice all crcStart (crcStart + 4))
          let index := if 3 ≤ version
            then slice all (start + 12) (start + 20) else []
          let stamp := if 4 ≤ version
            then slice all (start + 20) (start + 28) else []
          if (crc (all.take start ++ index ++ stamp)).toNat ≠ expected then
            .error .crcMismatch
          else
            .ok (version, count, beDecode index, beDecode stamp,
              slice all 5 start)

/-- restoreSnapshot: check, clear what the target's own walk finds,
install the entries, fold the clock in, hand on the sections. -/
def restoreSnapshot (crc : Bytes → BitVec 32) {n : Nat}
    (S : Ops.Store (Fin n → Cache.Shard)) (env : Fin n → IterEnv)
    (rcv : Receiver) (all : Bytes) :
    Effect RestoreErr (Fin n → Cache.Shard) Nat := do
  let (version, count, appliedIndex, stamp, body) ←
    (.ofStep fun c => (c, openSnapshot crc all))
  let keys ← (.ofStep fun c => (c, .ok (iterate c env))
    : Effect RestoreErr (Fin n → Cache.Shard) (List Entry))
  clearKeys S keys
  let rest ← replayEntries S count body
  (.ofStep fun c => (advanceAppliedStamp c stamp, .ok ())
    : Effect RestoreErr (Fin n → Cache.Shard) Unit)
  (.ofStep fun c => (c, readSections rcv version rest)
    : Effect RestoreErr (Fin n → Cache.Shard) Unit)
  pure appliedIndex

end Rostam.Shard
