/-
The resolver and its schema cache (sdk/record/resolve.go).

The cache is a map from the exact bytes of a schema blob to what was
decoded from them. `schemaBlobLen` proposes where a record's blob ends,
without checking it; a look-up with those bytes may hit, and a miss
decodes and stores. Goroutines share one resolver: each look-up and each
store is one critical section, so the caches a call can meet are those
that stores of decoded entries build up, in any order (`Reachable`).
-/
import Rostam.Lib.Memo
import Rostam.Record.Resolve

namespace Rostam.Record

open Rostam.Lib Rostam.Wire

/-- `OperateModeSchema`. -/
def operateModeSchema : UInt8 := 1

/-- `OperateModeDynamic`. -/
def operateModeDynamic : UInt8 := 2

-- ======== blob length

/-- A type tag and, for FIXED, its width, skipped. -/
def scanType : Bytes → Option (UInt8 × Bytes)
  | [] => none
  | tag :: b =>
    if tag = CellType.fixed.toByte then
      match b with
      | [] => none
      | _ :: b => some (tag, b)
    else some (tag, b)

/-- The column loop. -/
def scanCols : Nat → Bytes → Option Bytes
  | 0, b => some b
  | k + 1, b => do
    let (_, b) ← scanType b
    scanCols k b

/-- What a table declares behind its tag. -/
def scanTable (b : Bytes) : Option Bytes := do
  let (_, b) ← scanType b
  let (nCols, b) ← uvarint b
  if operateMaxCols < nCols then none
  else do
    let b ← scanCols nCols b
    let (_, b) ← uvarint b
    match b with
    | [] => none
    | _ :: b => do
      let (_, b) ← uvarint b
      some b

/-- The field loop. -/
def scanFields : Nat → Bytes → Option Bytes
  | 0, b => some b
  | k + 1, b => do
    let (tag, b) ← scanType b
    let b ← if tag = CellType.table.toByte then scanTable b else some b
    scanFields k b

/-- `schemaBlobLen`. -/
def schemaBlobLen (b : Bytes) : Option Nat :=
  if b.length < 4 then none
  else do
    let (nFields, r) ← uvarint (b.drop 3)
    if operateMaxFields < nFields then none
    else do
      let r ← scanFields nFields r
      let (nameBytes, r) ← uvarint r
      if r.length < nameBytes then none
      else some (b.length - r.length + nameBytes)

-- ======== the cache

/-- `Resolver`; without caching there is no map. -/
structure Resolver where
  cache : Option (List (Bytes × SchemaEntry))
  limit : Int
  deriving DecidableEq, Repr

/-- `NewResolver`. -/
def Resolver.new (cacheSize : Int) : Resolver :=
  ⟨if 0 < cacheSize then some [] else none, cacheSize⟩

/-- `lookup`. -/
def Resolver.lookup (r : Resolver) (blob : Bytes) : Option SchemaEntry :=
  r.cache.bind fun c => (c.find? fun x => x.1 = blob).map Prod.snd

/-- `store`. -/
def Resolver.store (r : Resolver) (blob : Bytes) (e : SchemaEntry) :
    Resolver :=
  { r with cache := r.cache.map fun c =>
      let kept := if r.limit ≤ c.length then [] else c
      (blob, e) :: kept.filter fun x => x.1 ≠ blob }

/-- The entry of the schema blob in front of `blob`. -/
def decodeEntry (blob : Bytes) : Except Err SchemaEntry :=
  match decodeSchema blob with
  | .error e => .error (.record (.schemaBlob e))
  | .ok (s, rest) =>
    match s.layout with
    | .error e => .error (.record (.schemaLayout e))
    | .ok l => .ok ⟨s, l, blob.length - rest.length⟩

/-- A computation that shares the resolver. -/
abbrev ResolverM (α : Type) := Stateful Resolver Err α

/-- The cached entry of the blob in front of `blob`, if the proposed cut
is a key. -/
def Resolver.cached (r : Resolver) (blob : Bytes) : Option SchemaEntry :=
  (schemaBlobLen blob).bind fun n => r.lookup (blob.take n)

/-- A miss. -/
def schemaMiss (blob : Bytes) : ResolverM SchemaEntry := do
  let e ← Stateful.of (decodeEntry blob)
  modify fun r => r.store (blob.take e.blobLen) e
  pure e

/-- `schemaFor`. -/
def schemaFor (rec : Bytes) : ResolverM SchemaEntry := do
  let r ← get
  match r.cached rec.tail with
  | some e => pure e
  | none => schemaMiss rec.tail

/-- The caches that any calls, interleaved in any way, build up. -/
inductive Resolver.Reachable : Resolver → Prop where
  | new (cacheSize : Int) : Reachable (.new cacheSize)
  | store {r : Resolver} {blob : Bytes} {e : SchemaEntry}
      (hr : Reachable r) (he : decodeEntry blob = .ok e) :
      Reachable (r.store (blob.take e.blobLen) e)

-- ======== the calls

/-- `checkPathShape`; the first segment, and those behind it. -/
def checkPathShape (p : Path) : Except Err (Segment × List Segment) :=
  match p.segs with
  | [] => .error (.path (.segmentCount 0))
  | seg :: more =>
    if 2 < more.length then
      .error (.path (.segmentCount (more.length + 1)))
    else if seg.kind ≠ .field ∧ seg.kind ≠ .count then
      .error (.path .firstNotField)
    else if seg.kind = .count ∧ more ≠ [] then .error (.path .countNotOnly)
    else if more.head?.any fun s => s.kind ≠ .row then
      .error (.path .secondNotRow)
    else if more.tail.head?.any fun s => s.kind ≠ .col then
      .error (.path .thirdNotColumn)
    else .ok (seg, more)

/-- `Resolve`. -/
def resolve (rec : Bytes) (p : Path) : ResolverM Result := do
  let (seg, more) ← Stateful.of (checkPathShape p)
  match rec with
  | [] => throw (.record .emptyRecord)
  | mode :: body =>
    if mode = operateModeSchema then do
      let e ← schemaFor rec
      Stateful.of (resolveSchema e rec seg more)
    else if mode = operateModeDynamic then
      Stateful.of (resolveDynamic body seg more)
    else throw (.record (.unknownMode mode))

/-- The walk of `RowAbsentProven` once the row is known to be missing. -/
def proveRowAbsent (rec : Bytes) (seg row : Segment) : ResolverM Unit :=
  match rec with
  | [] => throw (.record .emptyRecord)
  | mode :: body =>
    if mode = operateModeSchema then do
      let e ← schemaFor rec
      Stateful.of (proveSchemaRowAbsent e rec seg row)
    else if mode = operateModeDynamic then
      Stateful.of (proveDynamicRowAbsent body seg row)
    else throw (.record (.unknownMode mode))

/-- A path of a field and a row, taken apart. -/
def Path.fieldRow (p : Path) : Option (Segment × Segment) :=
  match p.segs with
  | [seg, row] =>
    if seg.kind = .field ∧ row.kind = .row then some (seg, row) else none
  | _ => none

/-- `RowAbsentProven`. -/
def rowAbsentProven (rec : Bytes) (p : Path) : ResolverM Bool :=
  match p.fieldRow with
  | none => throw (.path .notFieldRow)
  | some (seg, row) => do
    let res ← resolve rec p
    if res ≠ .absent then pure false
    else do
      let fres ← resolve rec ⟨[seg]⟩
      if fres ≠ .table then pure false
      else do
        proveRowAbsent rec seg row
        pure true

end Rostam.Record
