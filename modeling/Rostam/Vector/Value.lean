/-
Payload values and their per-key deadlines (sdk/vtypes/value.go,
vector/metadata.go, vector/record_mutate.go and the map helpers of
vector/hnsw.go).

A Go map is an association list without repeated keys; a nil map and an
empty one are both `∅`, which no reader of a payload tells apart. A range
loop whose result does not depend on the visiting order runs over the
list. `checkRecordValues` returns at the first bad record it meets, so it
takes the order as an argument: Go chooses it anew for every loop.
-/
import Mathlib.Data.List.AList
import Rostam.Lib.Bytes

namespace Rostam.Vector

open Rostam.Lib

/-- A Go map. -/
abbrev Map (κ α : Type) := AList fun _ : κ => α

/-- `vtypes.Value`. A float is its bits. -/
inductive Value where
  | none
  | string (s : Bytes)
  | int (i : Int)
  | float (bits : BitVec 64)
  | bool (b : Bool)
  | strings (ss : List Bytes)
  | ints (is : List Int)
  | floats (fs : List (BitVec 64))
  | geo (lat lon : BitVec 64)
  | record (rec : Bytes)
  deriving DecidableEq, Repr

/-- `ValueKind`, the raw byte of a kind. -/
def Value.kind : Value → Nat
  | .none => 0
  | .string _ => 1
  | .int _ => 2
  | .float _ => 3
  | .bool _ => 4
  | .strings _ => 5
  | .ints _ => 6
  | .floats _ => 7
  | .geo .. => 8
  | .record _ => 9

/-- `Metadata`. -/
abbrev Metadata := Map Bytes Value

/-- The per-key deadlines of a slot, in unix millis. -/
abbrev KeyExpires := Map Bytes UInt64

/-- `contentField`, the reserved payload key `$content`. -/
def contentField : Bytes := [36, 99, 111, 110, 116, 101, 110, 116]

/-- `withContent`. -/
def withContent (payload : Metadata) (content : Bytes) : Metadata :=
  if content = [] then payload
  else payload.insert contentField (.string content)

/-- `contentOf`. -/
def contentOf (payload : Metadata) : Bytes :=
  match payload.lookup contentField with
  | some (.string s) => s
  | _ => []

-- ======== errors

/-- The errors of the write path. `E` holds what a record check or a
record mutator reports. -/
inductive VecErr (E : Type) where
  | dimMismatch
  | duplicateID
  | idNotFound
  | versionConflict
  | collectionFull
  | rateLimited
  | pqDropVecsReadOnly
  | recordTooLarge (key : Bytes) (size : Nat)
  | recordMalformed (key : Bytes) (cause : E)
  | payloadKeyNotRecord (held : Option (Bytes × Nat))
  | recordMutation
  | mutator (e : E)
  deriving DecidableEq, Repr

-- ======== record values

/-- `maxRecordValueBytes`. -/
def maxRecordValueBytes : Nat := 16 * 1024 * 1024

/-- The check of one payload value: the size, then the shape. -/
def checkRecordValue {E : Type} (validateRecord : Bytes → Option E)
    (key : Bytes) : Value → Option (VecErr E)
  | .record rec =>
    if maxRecordValueBytes < rec.length then
      some (.recordTooLarge key rec.length)
    else (validateRecord rec).map (.recordMalformed key)
  | _ => none

/-- The order in which one range loop visits the entries of a map. -/
structure RangeOrder where
  visit : Metadata → List (Sigma fun _ : Bytes => Value)
  perm : ∀ m, (visit m).Perm m.entries

/-- Map loops in the order of the entries. -/
def inOrder : RangeOrder := ⟨fun m => m.entries, fun _ => .refl _⟩

/-- `checkRecordValues`: the first bad record in visiting order. -/
def checkRecordValues {E : Type} (validateRecord : Bytes → Option E)
    (order : RangeOrder) (payload : Metadata) : Option (VecErr E) :=
  (order.visit payload).findSome? fun kv =>
    checkRecordValue validateRecord kv.1 kv.2

-- ======== deadlines

/-- `keyExpired`. -/
def keyExpired (deadline now : UInt64) : Bool :=
  deadline != 0 && decide (deadline ≤ now)

/-- `pruneKeyExpires`: a deadline stays only with its key. -/
def pruneKeyExpires (ke : KeyExpires) (payload : Metadata) : KeyExpires :=
  ke.keys.foldl (fun ke k => if k ∈ payload then ke else ke.erase k) ke

/-- `computeInsertKeyExpires`: a deadline for each present key with a
positive TTL. -/
def computeInsertKeyExpires (now : UInt64) (payload : Metadata)
    (keyTTLMs : Map Bytes Int) : KeyExpires :=
  keyTTLMs.foldl (fun ke k ttlMs =>
    if k ∈ payload ∧ 0 < ttlMs then
      ke.insert k (now + UInt64.ofNat ttlMs.toNat)
    else ke) ∅

/-- The TTL loop of `setPayloadBody`: a TTL that is not positive clears
the deadline of its key. -/
def mergeKeyExpires (now : UInt64) (ke : KeyExpires) (payload : Metadata)
    (keyTTLMs : Map Bytes Int) : KeyExpires :=
  keyTTLMs.foldl (fun ke k ttlMs =>
    if k ∈ payload then
      if 0 < ttlMs then ke.insert k (now + UInt64.ofNat ttlMs.toNat)
      else ke.erase k
    else ke) ke

/-- `liveMeta`: the payload without the keys whose deadline has passed. -/
def liveMeta (payload : Metadata) (ke : KeyExpires) (now : UInt64) :
    Metadata :=
  payload.keys.foldl (fun m k =>
    if keyExpired ((ke.lookup k).getD 0) now then m.erase k else m) payload

-- ======== record mutations

/-- `RecordMutation`, with the bytes to store; `other` is a value outside
the enumeration. -/
inductive RecordMutation where
  | store (rec : Bytes)
  | delete
  | unchanged
  | other
  deriving DecidableEq, Repr

/-- `RecordMutator`: the old record, if there is one, to a mutation. -/
abbrev RecordMutator (E : Type) := Option Bytes → Except E RecordMutation

/-- `recordKeyPastDeadline`: only a stamped apply judges the deadline. -/
def recordKeyPastDeadline (stamped : Bool) (deadline now : UInt64) : Bool :=
  stamped && keyExpired deadline now

/-- `currentRecordValue`. -/
def currentRecordValue {E : Type} (payload : Metadata) (key : Bytes)
    (expired : Bool) : Except (VecErr E) (Option Bytes) :=
  match payload.lookup key with
  | none => .ok none
  | some v =>
    if expired then .ok none
    else
      match v with
      | .record rec => .ok (some rec)
      | v => .error (.payloadKeyNotRecord (some (key, v.kind)))

end Rostam.Vector
