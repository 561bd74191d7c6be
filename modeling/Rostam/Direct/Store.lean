/-
The direct store: one process, one cache, no replication.

`Put`, `Del`, `PutBatch` and `Call` run concurrently. A read-write call
takes the `opMu` of its routing key's cache shard, or every one of them
when it has no routing key, and its handler then reads and writes the
cache one access at a time: each access is atomic (the cache shard's own
lock), the handler as a whole only as far as the `opMu` it holds reach.

# What the cache is here

A cache shard is a map from keys to a value with its absolute expiry. A
write may be refused, and where the shard evicts it may push out any
keys of its shard; both, and the clock an access reads, are the
environment's (`Env`). The secondary index a handler maintains after its
write is not a value of any key and is left out. Arguments are taken
decoded; a call whose arguments do not decode touches nothing.
-/
import Rostam.Lib.Sections
import Rostam.Ops.Handlers

namespace Rostam.Direct

open Rostam.Lib Rostam.Ops Rostam.Cache Function

-- ======== cache

/-- What the store reads of the cache's configuration. -/
structure Cache where
  hashKey : Key → Nat
  numShards : Nat
  pos : 0 < numShards

/-- The cache shard that owns a key. -/
def Cache.shardIndex (c : Cache) (key : Key) : Nat :=
  c.hashKey key &&& (c.numShards - 1)

/-- One cache call of a handler. `get` is `Get`, `GetWithExpiry` and
`GetWithExpiryInto`, which differ in what they hand back. -/
inductive Access where
  | get (key : Key)
  | put (key : Key) (val : Bytes) (ttl : Nat)
  | putAbs (key : Key) (val : Bytes) (exp : Nat)
  | del (key : Key)
  | flush (shard : Nat)
  deriving DecidableEq, Repr

/-- What a cache call returns: the entry a read finds, the error of a
write, whether a deleted key was there. -/
inductive Res where
  | found (v : Option (Bytes × Nat))
  | wrote (err : Option OpErr)
  | existed (b : Bool)
  deriving DecidableEq, Repr

/-- What the environment decides about a cache call: the clock it reads,
whether it is refused, and which keys it evicts to make room. -/
structure Env where
  now : Nat
  fault : Option OpErr
  evicted : Key → Bool

/-- Drop the keys a write evicted. -/
def evict (s : Entries) (env : Env) : Entries :=
  fun k => if env.evicted k then none else s k

/-- Make room, then store, unless refused on the way. -/
def putAtExpLocked (s : Entries) (env : Env) (key : Key) (v : Bytes × Nat) :
    Entries × Res :=
  match env.fault with
  | some f => (evict s env, .wrote (some f))
  | none => (update (evict s env) key (some v), .wrote none)

/-- An entry expired at the reader's clock is dropped. -/
def getCore (s : Entries) (env : Env) (key : Key) : Entries × Res :=
  match s key with
  | none => (s, .found none)
  | some v =>
    if isExpired v.2 env.now then (update s key none, .found none)
    else (s, .found (some v))

/-- A present key's delete record needs room of its own. -/
def delH (s : Entries) (env : Env) (key : Key) : Entries × Res :=
  match s key with
  | none => (s, .existed false)
  | some _ =>
    match env.fault with
    | some f => (evict s env, .wrote (some f))
    | none => (update (evict s env) key none, .existed true)

/-- shard.flush: the watermark is written first, so a failure leaves the
shard as it was. -/
def flushShard (s : Entries) (env : Env) : Entries × Res :=
  match env.fault with
  | some f => (s, .wrote (some f))
  | none => (fun _ => none, .wrote none)

/-- One cache call on the content of its shard. -/
def Access.run (env : Env) (s : Entries) : Access → Entries × Res
  | .get key => getCore s env key
  | .put key val ttl =>
    putAtExpLocked s env key (val, expiryAtFrom ttl env.now)
  | .putAbs key val exp => putAtExpLocked s env key (val, exp)
  | .del key => delH s env key
  | .flush _ => flushShard s env

/-- The shard a cache call works on. -/
def Access.shard (c : Cache) : Access → Nat
  | .get key => c.shardIndex key
  | .put key _ _ => c.shardIndex key
  | .putAbs key _ _ => c.shardIndex key
  | .del key => c.shardIndex key
  | .flush i => i

/-- The cache as shared memory: a location is a shard. -/
def Cache.memory (c : Cache) : Memory Nat Access Res Env Entries where
  touches acc i := decide (acc.shard c = i)
  write acc env _ s := (acc.run env s).1
  read acc env _ s := (acc.run env s).2
  answer acc env m := (acc.run env (m (acc.shard c))).2
  answer_eq acc env i m h := by rw [of_decide_eq_true h]

-- ======== handlers

/-- What an operation returns to its caller. -/
inductive Reply where
  | err (e : OpErr)
  | bytes (b : Bytes)
  | bool (b : Bool)
  deriving DecidableEq, Repr

/-- Cache calls, then a reply. -/
abbrev Handler := Prog Access Res Reply

/-- Cache calls, then a value or an error. -/
abbrev Steps := ExceptT OpErr (Prog Access Res)

/-- A write of the cache, by its error. -/
def txWrite (acc : Access) : Steps (Option OpErr) := do
  match ← ExceptT.lift (Prog.access acc) with
  | .wrote err => pure err
  | _ => pure none

/-- cache.Flush: every shard in turn, past the ones that failed. -/
def flushEach : List Nat → Option OpErr → Steps (Option OpErr)
  | [], firstErr => pure firstErr
  | i :: is, firstErr => do
    let err ← txWrite (.flush i)
    flushEach is (firstErr <|> err)

/-- The transaction context over the cache, unstamped: every access reads
the clock itself. -/
def cacheTx (c : Cache) : Tx Steps where
  getWithExpiry := fun key => do
    match ← ExceptT.lift (Prog.access (.get key)) with
    | .found v => pure v
    | _ => pure none
  tryPut := fun key val ttl => txWrite (.put key val ttl)
  tryPutAbs := fun key val exp => txWrite (.putAbs key val exp)
  delete := fun key => do
    match ← ExceptT.lift (Prog.access (.del key)) with
    | .existed b => pure b
    | .wrote (some e) => throw e
    | _ => pure false
  flush := do
    let err ← flushEach (List.range c.numShards) none
    orThrow err

/-- The reply to a caller. -/
def replyWith {α : Type} (f : α → Reply) (x : Steps α) : Handler := do
  match ← x.run with
  | .ok a => pure (f a)
  | .error e => pure (.err e)

-- ======== routing

/-- A call of a built-in read-write KV operation, or one whose arguments
do not decode past its routing key. -/
inductive Call where
  | op (o : KvOp)
  | malformed (key : Option Key)

/-- The key extractor of the operation's row in `BuiltinOps`: the leading
key, the first entry's key for put_batch, none for flush. -/
def Call.keyExtractor : Call → Option Key
  | .op o => o.keys.head?
  | .malformed key => key

/-- The operation's handler. -/
def Call.handler (c : Cache) : Call → Handler
  | .op o => replyWith .bytes (o.handle (cacheTx c) 0)
  | .malformed _ => pure (.err (.ops "wire: args too short"))

/-- The `opMu` a call locks before its handler runs: its routing key's
shard's, or all of them in ascending order (`lockAllShards`). No
built-in operation is registered cross-shard. -/
def Call.locks (c : Cache) (op : Call) : List Nat :=
  match op.keyExtractor with
  | some key => [c.shardIndex key]
  | none => List.range c.numShards

-- ======== store

def maxPutBatchSize : Nat := 4096

/-- An invocation of the store. -/
inductive Invocation where
  | put (key : Key) (val : Bytes) (ttl : Nat)
  | del (key : Key)
  | putBatch (entries : List BatchEntry)
  | call (op : Call)

abbrev StoreJob := Job Nat Access Res Reply

/-- callWith: lock, run the handler, unlock. -/
def callWith (c : Cache) (op : Call) : StoreJob :=
  .crit (op.locks c) (op.handler c) .ret

/-- PutBatch's loop: a put_batch call for each chunk, until one fails.
Every round takes at least one entry, so the number of entries bounds
the rounds. -/
def putBatchChunks (c : Cache) : Nat → List BatchEntry → StoreJob
  | 0, _ => .ret (.bytes [])
  | _ + 1, [] => .ret (.bytes [])
  | fuel + 1, e :: es =>
    let chunk := Call.op (.putBatch ((e :: es).take maxPutBatchSize))
    .crit (chunk.locks c) (chunk.handler c) fun reply =>
      match reply with
      | .err err => .ret (.err err)
      | _ => putBatchChunks c fuel ((e :: es).drop maxPutBatchSize)

/-- What an invocation does. -/
def Invocation.job (c : Cache) : Invocation → StoreJob
  | .put key val ttl =>
    .crit [c.shardIndex key]
      (replyWith .bytes (handlePut (cacheTx c) key val ttl)) .ret
  | .del key =>
    .crit [c.shardIndex key] (replyWith .bool ((cacheTx c).delete key)) .ret
  | .putBatch entries => putBatchChunks c entries.length entries
  | .call op => callWith c op

/-- A direct store serving the invocations `inv`, from the cache
contents `m₀`. -/
abbrev DirectStore (ι : Type) := Pool ι Nat Access Res Env Entries Reply

def directStore {ι : Type} (c : Cache) (inv : ι → Invocation)
    (m₀ : Nat → Entries) : DirectStore ι :=
  Pool.start (fun i => (inv i).job c) m₀

/-- One step of one invocation. -/
def DirectStore.step {ι : Type} [DecidableEq ι] (c : Cache) :
    DirectStore ι → ι × Env → Option (DirectStore ι) :=
  Pool.step c.memory

end Rostam.Direct
