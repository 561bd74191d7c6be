/-
The dense HNSW index as a store of points: arena, tombstones, quotas and
the write operations (vector/hnsw.go, vector/arena.go, vector/quota.go,
vector/ttl.go).

# What is left out

The graph (nodes, edges, levels, the entry point): it decides what a
search finds, not what a write stores or refuses. Latency and rejection
counters. Slabs grow without failing, so an arena is never poisoned. The
codes of a quantizer matter only once the floats are dropped, where a
slot's vector is what its code reconstructs to.

# What a replica holds

`Store` is what a write reads and changes of the collection itself. A
node has two more things that a write consults: the token bucket, which
runs on its wall clock, and the bytes of the column sidecar, which its
queries build.
-/
import Mathlib.Data.Finset.Card
import Rostam.Vector.Index

namespace Rostam.Vector

open Rostam.Lib

-- ======== configuration

/-- `Config`, as far as the write path reads it. -/
structure Config where
  dim : Nat
  m : Nat
  cosine : Bool
  maxVectors : Int
  maxBytes : Int
  maxInsertsPerSecond : Int
  fullText : Bool
  quantPQ : Bool
  pqDropVecs : Bool
  ivfTrainThreshold : Nat
  suppressSweep : Bool
  wal : Bool
  deriving DecidableEq, Repr

/-- A trained codec: what an encoded vector reconstructs to, and what a
slot without a code does. -/
structure Codec (F : Type) where
  reconstruct : List F → List F
  blank : List F

/-- The pure functions that the write path calls. `normalize` works in
place, so it keeps the length. -/
structure Funcs (F K E : Type) where
  normalize : List F → List F
  normalize_length : ∀ v, (normalize v).length = v.length
  validateRecord : Bytes → Option E
  indexKeys : Metadata → List K
  analyzeCounts : Bytes → Counts
  trainPQ : List (List F) → Codec F

/-- `estimateInsertBytes`. -/
def estimateInsertBytes (dim m : Nat) : Nat := 4 * dim + 12 * m + 32

-- ======== token bucket

/-- `tokenBucket`. Tokens are counted in billionths and the clock in
nanoseconds, so a refill is a product; the source rounds it to a float. -/
structure TokenBucket where
  tokens : Nat
  rate : Nat
  lastRefill : Int
  deriving DecidableEq, Repr

/-- One token. -/
def oneToken : Nat := 1000000000

/-- `newTokenBucket`: no bucket without a positive rate. -/
def newTokenBucket (rate : Int) (now : Int) : Option TokenBucket :=
  if rate ≤ 0 then none else some ⟨rate.toNat * oneToken, rate.toNat, now⟩

/-- The lazy refill of `Take`. -/
def TokenBucket.refill (b : TokenBucket) (now : Int) : TokenBucket :=
  if b.lastRefill < now then
    { b with
      tokens := min (b.tokens + (now - b.lastRefill).toNat * b.rate)
        (b.rate * oneToken)
      lastRefill := now }
  else b

/-- `Take` on a bucket, or on none. -/
def take (b : Option TokenBucket) (now : Int) : Bool × Option TokenBucket :=
  match b with
  | none => (true, none)
  | some b =>
    let b := b.refill now
    if oneToken ≤ b.tokens then
      (true, some { b with tokens := b.tokens - oneToken })
    else (false, some b)

-- ======== arena

/-- What the arena's arrays hold for one slot. -/
structure Slot (F : Type) where
  id : UInt64
  vec : List F
  expires : UInt64
  version : UInt64
  payload : Metadata
  keyExpires : KeyExpires
  sparse : SparseVector F

/-- `arena`. `free` is a stack. -/
structure Arena (F : Type) where
  idMap : Map UInt64 Nat
  slots : Nat → Slot F
  free : List Nat
  capacity : Nat
  vecsDropped : Bool

namespace Arena

variable {F : Type}

/-- `Size`. -/
def size (a : Arena F) : Nat := a.idMap.entries.length

/-- `Slot`. -/
def slot (a : Arena F) (id : UInt64) : Option Nat := a.idMap.lookup id

/-- An update of one slot. -/
def modify (a : Arena F) (slot : Nat) (f : Slot F → Slot F) : Arena F :=
  { a with slots := Function.update a.slots slot (f (a.slots slot)) }

/-- The slot `Insert` takes. -/
def next (a : Arena F) : Nat := a.free.headD a.capacity

/-- `Insert`. -/
def insert {E : Type} (dim : Nat) (a : Arena F) (id : UInt64)
    (vec : List F) : Except (VecErr E) (Nat × Arena F) :=
  if vec.length ≠ dim then .error .dimMismatch
  else if id ∈ a.idMap then .error .duplicateID
  else
    .ok (a.next,
      { a with
        idMap := a.idMap.insert id a.next
        slots := Function.update a.slots a.next ⟨id, vec, 0, 0, ∅, ∅, []⟩
        free := a.free.tail
        capacity := if a.free.isEmpty then a.capacity + 1 else a.capacity })

/-- `Delete`: the slot loses its deadlines and goes to the free list. -/
def delete (a : Arena F) (id : UInt64) : Arena F :=
  match a.slot id with
  | none => a
  | some slot =>
    { a.modify slot fun r => { r with expires := 0, keyExpires := ∅ } with
      idMap := a.idMap.erase id
      free := slot :: a.free }

end Arena

-- ======== store

/-- The collection itself. -/
structure Store (F K : Type) where
  arena : Arena F
  tombstoned : Finset Nat
  bytesUsed : Nat
  payloadIdx : PayloadIndex K
  sparseIdx : SparseIndex F
  bm25 : Option Bm25Index

/-- `hnsw`: the collection, and what a node keeps beside it. -/
structure Hnsw (F K : Type) where
  store : Store F K
  bucket : Option TokenBucket
  columnBytes : Nat

/-- `CASCond`: the expected version, if the precondition is enforced. -/
abbrev CASCond := Option UInt64

/-- `CASCond.check`. -/
def CASCond.check {E : Type} (cas : CASCond) (current : UInt64) :
    Option (VecErr E) :=
  match cas with
  | some expected => if current = expected then none else some .versionConflict
  | none => none

/-- What one call meets on its node: the visiting order of its map
loops, the readings of the clock in unix millis, the bucket's clock, and
the capacity the runtime adds to columns that must grow. -/
structure Env where
  order : RangeOrder
  clock : Nat → UInt64
  wall : Int
  grown : Nat

/-- The clock of one section: the stamp, or the `i`th reading. -/
def Env.now (env : Env) (stamp : Option UInt64) (i : Nat) : UInt64 :=
  stamp.getD (env.clock i)

namespace Store

variable {F K E : Type}

/-- `isExpiredAt`. -/
def isExpiredAt (s : Store F K) (slot : Nat) (now : UInt64) : Bool :=
  keyExpired (s.arena.slots slot).expires now

/-- The slot is tombstoned or past its deadline. -/
def dead (s : Store F K) (slot : Nat) (now : UInt64) : Bool :=
  decide (slot ∈ s.tombstoned) || s.isExpiredAt slot now

/-- The slot of a live id, as `liveLockedAt` judges it. -/
def liveSlot (s : Store F K) (id : UInt64) (now : UInt64) : Option Nat :=
  (s.arena.slot id).filter fun slot => !s.dead slot now

/-- The slot of a dead id. -/
def deadSlot (s : Store F K) (id : UInt64) (now : UInt64) : Option Nat :=
  (s.arena.slot id).filter fun slot => s.dead slot now

/-- `currentVersionLockedAt`: 0 for an id that is not live. -/
def currentVersion (s : Store F K) (id : UInt64) (now : UInt64) : UInt64 :=
  ((s.liveSlot id now).map fun slot => (s.arena.slots slot).version).getD 0

/-- What `Get` returns of a live point. -/
structure View (F : Type) where
  vec : List F
  payload : Metadata
  ttl : UInt64
  sparse : SparseVector F
  version : UInt64

/-- `Get` at one reading of the clock. -/
def get (s : Store F K) (id : UInt64) (now : UInt64) : Option (View F) :=
  (s.liveSlot id now).map fun slot =>
    let r := s.arena.slots slot
    { vec := r.vec
      payload := liveMeta r.payload r.keyExpires now
      ttl := if now < r.expires then r.expires - now else 0
      sparse := r.sparse
      version := r.version }

/-- `Stats.Size`. -/
def liveCount (s : Store F K) : Int := s.arena.size - s.tombstoned.card

-- ======== placement

/-- The bytes in use once the slot of a dead id has been released. -/
def bytesAfterReclaim (cfg : Config) (s : Store F K) (reclaim : Bool) : Nat :=
  if reclaim then s.bytesUsed - estimateInsertBytes cfg.dim cfg.m
  else s.bytesUsed

/-- The vectors left once the slot of a dead id has been released. -/
def sizeAfterReclaim (s : Store F K) (reclaim : Bool) : Nat :=
  if reclaim then s.arena.size - 1 else s.arena.size

/-- Release the slot of a dead id. -/
def reclaim (cfg : Config) (fn : Funcs F K E) (s : Store F K) (id : UInt64)
    (old : Nat) : Store F K :=
  let r := s.arena.slots old
  { s with
    tombstoned := s.tombstoned.erase old
    payloadIdx := s.payloadIdx.reindex old []
    sparseIdx := s.sparseIdx.remove old r.sparse
    bm25 := s.bm25.map fun bi =>
      if contentOf r.payload = [] then bi
      else bi.remove old (fn.analyzeCounts (contentOf r.payload))
    bytesUsed := s.bytesAfterReclaim cfg true
    arena := s.arena.delete id }

/-- A point to place: what the caller gives, its vector normalized, and
the version to set (0 for a fresh point). -/
structure Placement (F : Type) where
  id : UInt64
  stored : List F
  ttl : Int
  payload : Metadata
  sparse : SparseVector F
  keyExpires : KeyExpires
  setVersion : UInt64

/-- The point deadline of a TTL in nanoseconds: its milliseconds from
now, 0 without a TTL. -/
def deadline (now : UInt64) (ttl : Int) : UInt64 :=
  if 0 < ttl then now + UInt64.ofNat (ttl.toNat / 1000000) else 0

/-- The per-slot bookkeeping after `arena.Insert`. -/
def fill (cfg : Config) (fn : Funcs F K E) (s : Store F K)
    (p : Placement F) (slot : Nat) (now : UInt64) : Store F K :=
  { s with
    arena := s.arena.modify slot fun r =>
      { r with
        version := if p.setVersion = 0 then 1 else p.setVersion
        expires := deadline now p.ttl
        payload := p.payload
        keyExpires := pruneKeyExpires p.keyExpires p.payload
        sparse := p.sparse }
    payloadIdx := s.payloadIdx.reindex slot (fn.indexKeys p.payload)
    sparseIdx := s.sparseIdx.add slot p.sparse
    bm25 := s.bm25.map fun bi =>
      if contentOf p.payload = [] then bi
      else bi.add slot (fn.analyzeCounts (contentOf p.payload))
    bytesUsed := s.bytesUsed + estimateInsertBytes cfg.dim cfg.m }

/-- `liveSlotLockedAt`. -/
def liveSlotLocked (s : Store F K) (now : UInt64) (slot : Nat) : Bool :=
  decide (s.liveSlot (s.arena.slots slot).id now = some slot)

/-- `autoTrainLockedPQ` with `PQDropVecs`: train on the live vectors in
slot order, encode them, and drop the floats. -/
def autoTrain (fn : Funcs F K E) (s : Store F K) (now : UInt64) : Store F K :=
  let live := (List.range s.arena.capacity).filter (s.liveSlotLocked now)
  if live.isEmpty then s
  else
    let codec := fn.trainPQ (live.map fun slot => (s.arena.slots slot).vec)
    { s with
      arena := { s.arena with
        vecsDropped := true
        slots := fun slot =>
          let r := s.arena.slots slot
          { r with
            vec := if s.liveSlotLocked now slot then codec.reconstruct r.vec
              else codec.blank } } }

/-- The index has reached its training threshold. The first point only
anchors the graph. -/
def shouldAutoTrain (cfg : Config) (s : Store F K) : Bool :=
  cfg.quantPQ && cfg.pqDropVecs && decide (1 < s.arena.size)
    && decide ((if cfg.ivfTrainThreshold = 0 then 2048
      else cfg.ivfTrainThreshold) ≤ s.arena.size)

/-- `placeLockedAt` past every rejection. -/
def commit (cfg : Config) (fn : Funcs F K E) (s : Store F K)
    (p : Placement F) (now : UInt64) :
    Store F K × Except (VecErr E) UInt64 :=
  let s := match s.deadSlot p.id now with
    | some old => s.reclaim cfg fn p.id old
    | none => s
  match s.arena.insert cfg.dim p.id p.stored with
  | .error e => (s, .error e)
  | .ok (slot, arena) =>
    let s := { s with arena := arena }.fill cfg fn p slot now
    let s := if s.shouldAutoTrain cfg then s.autoTrain fn now else s
    (s, .ok (if p.setVersion = 0 then 1 else p.setVersion))

end Store

end Rostam.Vector
