/-
A dense collection without a WAL: its write calls, its sweeper and the
policy a cluster puts on its configuration (vector/collection.go,
vector/ttl.go, vector/collections.go).

An upsert is a delete followed by an insert. The plain form reads the
version for its precondition with a `Get` of its own, so its three parts
read the clock separately; the stamped form lets the delete enforce the
precondition.
-/
import Rostam.Vector.Writes

namespace Rostam.Vector

open Rostam.Lib

variable {F K E : Type}

-- ======== sweeps

namespace Store

/-- The sweep of one slot: a point past its deadline is tombstoned, any
other point that is not loses its keys past theirs. -/
def sweepSlot (fn : Funcs F K E) (now : UInt64) (s : Store F K)
    (slot : Nat) : Store F K :=
  if slot ∈ s.tombstoned then s
  else if s.isExpiredAt slot now then
    { s with
      arena := s.arena.modify slot fun r =>
        { r with expires := 0, keyExpires := ∅ }
      tombstoned := insert slot s.tombstoned }
  else
    let r := s.arena.slots slot
    let payload := liveMeta r.payload r.keyExpires now
    if payload = r.payload then s
    else
      { s with
        arena := s.arena.modify slot fun r =>
          { r with
            payload := payload
            keyExpires := pruneKeyExpires r.keyExpires payload }
        payloadIdx := s.payloadIdx.reindex slot (fn.indexKeys payload) }

/-- `sweepOnce`. -/
def sweepOnce (fn : Funcs F K E) (s : Store F K) (now : UInt64) : Store F K :=
  s.arena.idMap.entries.foldl (fun s e => s.sweepSlot fn now e.2) s

end Store

/-- A tick of the sweeper, which `startSweeper` does not launch when the
configuration suppresses it. -/
def Hnsw.tick (cfg : Config) (fn : Funcs F K E) (h : Hnsw F K) (env : Env)
    (now : UInt64) : Option (Hnsw F K) :=
  if cfg.suppressSweep then none
  else some (h.setStore env (h.store.sweepOnce fn now))

/-- `effectiveClusterConfig`: the log is the durability, so no WAL and no
sweeper. The quotas stay as they are. -/
def effectiveClusterConfig (cfg : Config) : Config :=
  { cfg with wal := false, suppressSweep := true }

/-- `newHNSW`. -/
def Hnsw.new (cfg : Config) (wall : Int) : Hnsw F K where
  store :=
    { arena := ⟨∅, fun _ => ⟨0, [], 0, 0, ∅, ∅, []⟩, [], 0, false⟩
      tombstoned := ∅
      bytesUsed := 0
      payloadIdx := .empty
      sparseIdx := .empty
      bm25 := if cfg.fullText then some .empty else none }
  bucket := newTokenBucket cfg.maxInsertsPerSecond wall
  columnBytes := 0

-- ======== calls

/-- The write calls of a collection. -/
inductive Call (F E : Type) where
  | insert (pt : Hnsw.Point F) (keyTTLMs : Map Bytes Int) (cas : CASCond)
  | insertIfAbsent (pt : Hnsw.Point F) (keyExpires : KeyExpires)
      (version : UInt64)
  | upsert (pt : Hnsw.Point F) (content : Bytes) (keyTTLMs : Map Bytes Int)
      (cas : CASCond)
  | delete (id : UInt64) (cas : CASCond)
  | setPayload (id : UInt64) (patch : Metadata) (keyTTLMs : Map Bytes Int)
      (cas : CASCond)
  | overwritePayload (id : UInt64) (payload : Metadata)
      (keyTTLMs : Map Bytes Int) (cas : CASCond)
  | deletePayloadKeys (id : UInt64) (keys : List Bytes) (cas : CASCond)
  | clearPayload (id : UInt64) (cas : CASCond)
  | mutateRecord (id : UInt64) (key : Bytes)
      (mutator : Option (RecordMutator E)) (cas : CASCond)

/-- What a call answers: a version, or whether it did anything. -/
inductive Answer where
  | version (v : UInt64)
  | did (b : Bool)
  deriving DecidableEq, Repr

/-- The outcome of a call. -/
abbrev Outcome (F K E : Type) := Hnsw F K × Except (VecErr E) Answer

/-- The replacement of an upsert, past the record check: the insert runs
without a precondition on what the delete left. -/
def upsertInsert (cfg : Config) (fn : Funcs F K E) (h : Hnsw F K)
    (env : Env) (pt : Hnsw.Point F) (content : Bytes)
    (keyTTLMs : Map Bytes Int) (now : UInt64) : Outcome F K E :=
  let r := h.insertBody cfg fn env
    { pt with payload := withContent pt.payload content } keyTTLMs none now
  (r.1, r.2.map fun v => .version v.1)

/-- `UpsertCASKeyTTL` and `UpsertCASKeyTTLAt`. -/
def upsert (cfg : Config) (fn : Funcs F K E) (h : Hnsw F K) (env : Env)
    (stamp : Option UInt64) (pt : Hnsw.Point F) (content : Bytes)
    (keyTTLMs : Map Bytes Int) (cas : CASCond) : Outcome F K E :=
  match checkRecordValues fn.validateRecord env.order pt.payload with
  | some e => (h, .error e)
  | none =>
    match stamp with
    | some now =>
      match h.deleteBody pt.id cas now with
      | (h, .error e) => (h, .error e)
      | (h, .ok _) => upsertInsert cfg fn h env pt content keyTTLMs now
    | none =>
      match CASCond.check cas (h.store.currentVersion pt.id (env.clock 0)) with
      | some e => (h, .error e)
      | none =>
        -- The delete has no precondition left to fail.
        let h := (h.deleteBody (E := E) pt.id none (env.clock 1)).1
        upsertInsert cfg fn h env pt content keyTTLMs (env.clock 2)

/-- A write call, plain or under a stamp. -/
def Hnsw.call (cfg : Config) (fn : Funcs F K E) (h : Hnsw F K) (env : Env)
    (stamp : Option UInt64) : Call F E → Outcome F K E
  | .insert pt keyTTLMs cas =>
    let r := h.insertBody cfg fn env pt keyTTLMs cas (env.now stamp 0)
    (r.1, r.2.map fun v => .version v.1)
  | .insertIfAbsent pt keyExpires version =>
    let r := h.insertIfAbsentBody cfg fn env pt keyExpires version
      (env.now stamp 0)
    (r.1, r.2.map .did)
  | .upsert pt content keyTTLMs cas =>
    upsert cfg fn h env stamp pt content keyTTLMs cas
  | .delete id cas =>
    let r := h.deleteBody id cas (env.now stamp 0)
    (r.1, r.2.map .did)
  | .setPayload id patch keyTTLMs cas =>
    let r := h.setPayloadBody fn env id patch keyTTLMs cas (env.now stamp 0)
    (r.1, r.2.map .version)
  | .overwritePayload id payload keyTTLMs cas =>
    let r := h.overwritePayloadBody fn env id payload keyTTLMs cas
      (env.now stamp 0)
    (r.1, r.2.map .version)
  | .deletePayloadKeys id keys cas =>
    let r := h.deletePayloadKeysBody fn env id keys cas (env.now stamp 0)
    (r.1, r.2.map .version)
  | .clearPayload id cas =>
    let r := h.clearPayloadBody fn env id cas (env.now stamp 0)
    (r.1, r.2.map .version)
  | .mutateRecord id key mutator cas =>
    let r := h.mutatePayloadRecordBody fn env id key mutator cas
      stamp.isSome (env.now stamp 0)
    (r.1, r.2.map .version)

end Rostam.Vector
