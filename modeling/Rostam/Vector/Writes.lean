/-
The write operations of the index and of a collection without a WAL
(vector/hnsw.go, vector/collection.go, vector/ttl.go).

Every operation comes plain and stamped. The stamped form judges
liveness and computes deadlines on the leader's clock; `Env.now` is that
stamp or the reading the plain form takes under the lock. An operation
returns the index it leaves together with its answer, since a refused one
may have taken a token or dropped columns.
-/
import Rostam.Vector.Hnsw

namespace Rostam.Vector

open Rostam.Lib

variable {F K E : Type}

namespace Hnsw

/-- A change of the collection; the columns that exist may grow with
it. -/
def setStore (h : Hnsw F K) (env : Env) (s : Store F K) : Hnsw F K :=
  { h with
    store := s
    columnBytes :=
      if h.columnBytes = 0 then 0 else h.columnBytes + env.grown }

theorem setStore_store (h : Hnsw F K) (env : Env) (s : Store F K) :
    (h.setStore env s).store = s := rfl

/-- The vector-count quota of `placeLockedAt`. -/
def overCount (cfg : Config) (h : Hnsw F K) (reclaim : Bool) : Bool :=
  decide (0 < cfg.maxVectors
    ∧ cfg.maxVectors ≤ h.store.sizeAfterReclaim reclaim)

/-- The byte quota of `placeLockedAt`, with some bytes in columns. -/
def overBytes (cfg : Config) (h : Hnsw F K) (reclaim : Bool)
    (columns : Nat) : Bool :=
  decide (0 < cfg.maxBytes
    ∧ cfg.maxBytes < h.store.bytesAfterReclaim cfg reclaim + columns
      + estimateInsertBytes cfg.dim cfg.m)

/-- Columns yield to writes: when they put the point over the byte budget
they are dropped. -/
def yieldColumns (cfg : Config) (h : Hnsw F K) (reclaim : Bool) : Hnsw F K :=
  if h.overBytes cfg reclaim h.columnBytes then { h with columnBytes := 0 }
  else h

/-- `placeLockedAt`. The byte budget is judged again once the columns have
yielded. -/
def placeLockedAt (cfg : Config) (fn : Funcs F K E) (h : Hnsw F K)
    (env : Env) (p : Store.Placement F) (now : UInt64) :
    Hnsw F K × Except (VecErr E) UInt64 :=
  if h.store.arena.vecsDropped then (h, .error .pqDropVecsReadOnly)
  else
    let reclaim := (h.store.deadSlot p.id now).isSome
    if h.overCount cfg reclaim then (h, .error .collectionFull)
    else
      let h' := h.yieldColumns cfg reclaim
      if h'.overBytes cfg reclaim h'.columnBytes then
        (h', .error .collectionFull)
      else
        let r := h'.store.commit cfg fn p now
        (h'.setStore env r.1, r.2)

/-- A vector as it is stored. -/
def stored (cfg : Config) (fn : Funcs F K E) (vec : List F) : List F :=
  if cfg.cosine then fn.normalize vec else vec

/-- The arguments of an insert. -/
structure Point (F : Type) where
  id : UInt64
  vec : List F
  ttl : Int
  payload : Metadata
  sparse : SparseVector F

/-- `insertBody`: returns the version and the key deadlines. -/
def insertBody (cfg : Config) (fn : Funcs F K E) (h : Hnsw F K) (env : Env)
    (pt : Point F) (keyTTLMs : Map Bytes Int) (cas : CASCond)
    (now : UInt64) : Hnsw F K × Except (VecErr E) (UInt64 × KeyExpires) :=
  match checkRecordValues fn.validateRecord env.order pt.payload with
  | some e => (h, .error e)
  | none =>
    if pt.vec.length ≠ cfg.dim then (h, .error .dimMismatch)
    else
      let t := take h.bucket env.wall
      let h := { h with bucket := t.2 }
      if t.1 then
        match CASCond.check cas (h.store.currentVersion pt.id now) with
        | some e => (h, .error e)
        | none =>
          let ke := computeInsertKeyExpires now pt.payload keyTTLMs
          let r := h.placeLockedAt cfg fn env
            ⟨pt.id, stored cfg fn pt.vec, pt.ttl, pt.payload, pt.sparse,
              ke, 0⟩ now
          (r.1, r.2.map fun version => (version, ke))
      else (h, .error .rateLimited)

/-- `insertIfAbsentBody`: a live id is left alone. -/
def insertIfAbsentBody (cfg : Config) (fn : Funcs F K E) (h : Hnsw F K)
    (env : Env) (pt : Point F) (keyExpires : KeyExpires) (version : UInt64)
    (now : UInt64) : Hnsw F K × Except (VecErr E) Bool :=
  match checkRecordValues fn.validateRecord env.order pt.payload with
  | some e => (h, .error e)
  | none =>
    if pt.vec.length ≠ cfg.dim then (h, .error .dimMismatch)
    else if (h.store.liveSlot pt.id now).isSome then (h, .ok false)
    else
      let t := take h.bucket env.wall
      let h := { h with bucket := t.2 }
      if t.1 then
        let r := h.placeLockedAt cfg fn env
          ⟨pt.id, stored cfg fn pt.vec, pt.ttl, pt.payload, pt.sparse,
            keyExpires, version⟩ now
        (r.1, r.2.map fun _ => true)
      else (h, .error .rateLimited)

/-- `deleteBody`: a live point loses its deadlines and is tombstoned. -/
def deleteBody (h : Hnsw F K) (id : UInt64) (cas : CASCond) (now : UInt64) :
    Hnsw F K × Except (VecErr E) Bool :=
  match CASCond.check cas (h.store.currentVersion id now) with
  | some e => (h, .error e)
  | none =>
    match h.store.liveSlot id now with
    | none => (h, .ok false)
    | some slot =>
      ({ h with
        store := { h.store with
          arena := h.store.arena.modify slot fun r =>
            { r with expires := 0, keyExpires := ∅ }
          tombstoned := insert slot h.store.tombstoned } }, .ok true)

-- ======== payloads

/-- `maintainBM25OnPayloadChange`. -/
def maintainBM25 (fn : Funcs F K E) (bm25 : Option Bm25Index) (slot : Nat)
    (old new : Metadata) : Option Bm25Index :=
  bm25.map fun bi =>
    if contentOf old = contentOf new then bi
    else
      let bi := if contentOf old = [] then bi
        else bi.remove slot (fn.analyzeCounts (contentOf old))
      if contentOf new = [] then bi
      else bi.add slot (fn.analyzeCounts (contentOf new))

/-- The end of every payload mutation: store the payload and its
deadlines, maintain the indexes, bump the version. -/
def storePayload (fn : Funcs F K E) (h : Hnsw F K) (env : Env) (slot : Nat)
    (payload : Metadata) (ke : KeyExpires) : Hnsw F K :=
  let s := h.store
  h.setStore env { s with
    bm25 := maintainBM25 fn s.bm25 slot (s.arena.slots slot).payload payload
    arena := s.arena.modify slot fun r =>
      { r with payload := payload, keyExpires := ke, version := r.version + 1 }
    payloadIdx := s.payloadIdx.reindex slot (fn.indexKeys payload) }

/-- The gate every payload mutation starts with: a live point whose
version meets the precondition. -/
def payloadGate (h : Hnsw F K) (id : UInt64) (cas : CASCond)
    (now : UInt64) : Except (VecErr E) Nat :=
  match h.store.liveSlot id now with
  | none => .error .idNotFound
  | some slot =>
    match CASCond.check cas (h.store.arena.slots slot).version with
    | some e => .error e
    | none => .ok slot

/-- The version of a slot after its payload was stored. -/
def bumped (h : Hnsw F K) (slot : Nat) : UInt64 :=
  (h.store.arena.slots slot).version + 1

/-- A payload mutation: past the gate the slot's new payload and
deadlines are computed and stored. -/
def payloadOp (fn : Funcs F K E) (h : Hnsw F K) (env : Env) (id : UInt64)
    (cas : CASCond) (now : UInt64)
    (update : Slot F → Metadata × KeyExpires) :
    Hnsw F K × Except (VecErr E) UInt64 :=
  match h.payloadGate id cas now with
  | .error e => (h, .error e)
  | .ok slot =>
    let r := update (h.store.arena.slots slot)
    (h.storePayload fn env slot r.1 r.2, .ok (h.bumped slot))

/-- A payload mutation that brings values from outside checks them
first. -/
def checkedPayloadOp (fn : Funcs F K E) (h : Hnsw F K) (env : Env)
    (brought : Metadata) (id : UInt64) (cas : CASCond) (now : UInt64)
    (update : Slot F → Metadata × KeyExpires) :
    Hnsw F K × Except (VecErr E) UInt64 :=
  match checkRecordValues fn.validateRecord env.order brought with
  | some e => (h, .error e)
  | none => h.payloadOp fn env id cas now update

/-- `setPayloadBody`. -/
def setPayloadBody (fn : Funcs F K E) (h : Hnsw F K) (env : Env)
    (id : UInt64) (patch : Metadata) (keyTTLMs : Map Bytes Int)
    (cas : CASCond) (now : UInt64) : Hnsw F K × Except (VecErr E) UInt64 :=
  h.checkedPayloadOp fn env patch id cas now fun r =>
    let merged := patch ∪ r.payload
    (merged, pruneKeyExpires
      (mergeKeyExpires now r.keyExpires merged keyTTLMs) merged)

/-- `overwritePayloadBody`. -/
def overwritePayloadBody (fn : Funcs F K E) (h : Hnsw F K) (env : Env)
    (id : UInt64) (payload : Metadata) (keyTTLMs : Map Bytes Int)
    (cas : CASCond) (now : UInt64) : Hnsw F K × Except (VecErr E) UInt64 :=
  h.checkedPayloadOp fn env payload id cas now fun _ =>
    (payload, computeInsertKeyExpires now payload keyTTLMs)

/-- `deletePayloadKeysBody`. -/
def deletePayloadKeysBody (fn : Funcs F K E) (h : Hnsw F K) (env : Env)
    (id : UInt64) (keys : List Bytes) (cas : CASCond) (now : UInt64) :
    Hnsw F K × Except (VecErr E) UInt64 :=
  h.payloadOp fn env id cas now fun r =>
    let payload := keys.foldl (fun m k => m.erase k) r.payload
    let ke := keys.foldl (fun m k => m.erase k) r.keyExpires
    (payload, pruneKeyExpires ke payload)

/-- `clearPayloadBody`. -/
def clearPayloadBody (fn : Funcs F K E) (h : Hnsw F K) (env : Env)
    (id : UInt64) (cas : CASCond) (now : UInt64) :
    Hnsw F K × Except (VecErr E) UInt64 :=
  h.payloadOp fn env id cas now fun _ => (∅, ∅)

/-- What `mutatePayloadRecordBody` does with the mutator's answer: the
payload to store, or nothing to do. -/
def mutatedPayload (fn : Funcs F K E) (payload : Metadata) (key : Bytes)
    (held : Bool) : RecordMutation → Except (VecErr E) (Option Metadata)
  | .unchanged => .ok none
  | .delete => .ok (if held then some (payload.erase key) else none)
  | .store rec =>
    match checkRecordValue fn.validateRecord key (.record rec) with
    | some e => .error e
    | none => .ok (some (payload.insert key (.record rec)))
  | .other => .error .recordMutation

/-- `mutatePayloadRecordBody`. A nil mutator, the empty key and the
content key are refused before the lock. -/
def mutatePayloadRecordBody (fn : Funcs F K E) (h : Hnsw F K) (env : Env)
    (id : UInt64) (key : Bytes) (mutator : Option (RecordMutator E))
    (cas : CASCond) (stamped : Bool) (now : UInt64) :
    Hnsw F K × Except (VecErr E) UInt64 :=
  match mutator with
  | none => (h, .error (.payloadKeyNotRecord none))
  | some mutator =>
    if key = [] ∨ key = contentField then
      (h, .error (.payloadKeyNotRecord none))
    else
      match h.payloadGate id cas now with
      | .error e => (h, .error e)
      | .ok slot =>
        let r := h.store.arena.slots slot
        let past := recordKeyPastDeadline stamped
          ((r.keyExpires.lookup key).getD 0) now
        match currentRecordValue r.payload key past with
        | .error e => (h, .error e)
        | .ok old =>
          match mutator old with
          | .error e => (h, .error (.mutator e))
          | .ok act =>
            match mutatedPayload fn r.payload key old.isSome act with
            | .error e => (h, .error e)
            | .ok none => (h, .ok r.version)
            | .ok (some payload) =>
              let ke := if past then r.keyExpires.erase key
                else r.keyExpires
              (h.storePayload fn env slot payload
                (pruneKeyExpires ke payload), .ok (h.bumped slot))

end Hnsw

end Rostam.Vector
