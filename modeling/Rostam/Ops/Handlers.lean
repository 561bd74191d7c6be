/-
The built-in KV operations that write, over any transaction context.

A handler sees the store through its transaction context: reads and
writes, a delete, a flush, each a program of some monad in which a
handler can fail. It is written here once, and run on the replicated
caches under an apply stamp, on the map they stand for, and access by
access on the direct store.

The arguments come decoded; derived indexes (the re-posting after a
write) are left out. An operate call carries the record function its
arguments decode to.
-/
import Rostam.Cache.Shard
import Rostam.Lib.Sim

namespace Rostam.Ops

open Rostam.Lib Rostam.Cache

-- ======== contexts

/-- What a handler fails with: an error of the cache, ErrNotFound, or its
own. -/
inductive OpErr where
  | cache (e : Err)
  | notFound
  | ops (text : String)
  deriving DecidableEq, Repr

/-- A transaction context. A read returns the value with its absolute
expiry, `none` for ErrNotFound; a write returns its error. -/
structure Tx (M : Type → Type) where
  getWithExpiry : Key → M (Option (Bytes × Nat))
  tryPut : Key → Bytes → Nat → M (Option OpErr)
  tryPutAbs : Key → Bytes → Nat → M (Option OpErr)
  delete : Key → M Bool
  flush : M Unit

variable {M : Type → Type} [Monad M] [MonadExceptOf OpErr M]

/-- An error ends the handler. -/
def orThrow : Option OpErr → M Unit
  | none => pure ()
  | some e => throw e

namespace Tx

variable (tx : Tx M)

/-- TxContext.Get. -/
def get (key : Key) : M (Option Bytes) := do
  let r ← tx.getWithExpiry key
  pure (r.map Prod.fst)

/-- TxContext.Put. -/
def put (key : Key) (val : Bytes) (ttl : Nat) : M Unit := do
  let err ← tx.tryPut key val ttl
  orThrow err

/-- TxContext.PutAbs. -/
def putAbs (key : Key) (val : Bytes) (exp : Nat) : M Unit := do
  let err ← tx.tryPutAbs key val exp
  orThrow err

/-- TxContext.Expire. -/
def expire (key : Key) (ttl : Nat) : M Unit := do
  match ← tx.get key with
  | none => throw .notFound
  | some v => tx.put key v ttl

end Tx

-- ======== handlers

def flag (b : Bool) : Bytes := if b then [1] else [0]

/-- A stored counter. -/
def counterBytes (n : BitVec 64) : Bytes := beEncode 8 n.toNat

def counterOf (v : Bytes) : BitVec 64 := BitVec.ofNat 64 (beDecode v)

/-- EncodeGetDelResult. -/
def encodeGetDelResult : Option Bytes → Bytes
  | none => [0]
  | some v => 1 :: beEncode 4 v.length ++ v

structure BatchEntry where
  key : Key
  val : Bytes
  ttl : Nat

inductive TtlMode where
  | set
  | createOnly
  | keep
  deriving DecidableEq, Repr

/-- What the record function makes of the stored record. -/
inductive Outcome where
  | checkFailed (resp : Bytes)
  | deleted (resp : Bytes)
  | stored (out resp : Bytes)

section Handlers

variable (tx : Tx M)

def handlePut (key : Key) (val : Bytes) (ttl : Nat) : M Bytes := do
  tx.put key val ttl
  pure []

def handleDel (key : Key) : M Bytes := do
  let existed ← tx.delete key
  pure (flag existed)

def handleFlush : M Bytes := do
  tx.flush
  pure []

def handleExpire (key : Key) (ttl : Nat) : M Bytes := do
  tx.expire key ttl
  pure []

def handleIncr (key : Key) (delta : BitVec 64) : M Bytes := do
  match ← tx.get key with
  | none =>
    tx.put key (counterBytes delta) 0
    pure (counterBytes delta)
  | some v =>
    if v.length ≠ 8 then throw (.ops "ops: incr value is not 8 bytes")
    else
      tx.put key (counterBytes (counterOf v + delta)) 0
      pure (counterBytes (counterOf v + delta))

def handleSetNX (key : Key) (val : Bytes) (ttl : Nat) : M Bytes := do
  match ← tx.get key with
  | none =>
    tx.put key val ttl
    pure [1]
  | some _ => pure [0]

/-- `expected` is there where the source has hasExpected. -/
def handleCAS (key : Key) (val : Bytes) (expected : Option Bytes)
    (ttl : Nat) : M Bytes := do
  let cur ← tx.get key
  if cur ≠ expected then pure [0]
  else
    tx.put key val ttl
    pure [1]

def handleCompareAndDel (key : Key) (expected : Bytes) : M Bytes := do
  let cur ← tx.get key
  if cur ≠ some expected then pure [0]
  else
    let existed ← tx.delete key
    pure (flag existed)

def handleGetDel (key : Key) : M Bytes := do
  match ← tx.get key with
  | none => pure (encodeGetDelResult none)
  | some v =>
    let _ ← tx.delete key
    pure (encodeGetDelResult (some v))

def handleGetSet (key : Key) (val : Bytes) (ttl : Nat) : M Bytes := do
  let old ← tx.get key
  tx.put key val ttl
  pure (encodeGetDelResult old)

def handlePersist (key : Key) : M Bytes := do
  match ← tx.getWithExpiry key with
  | none => pure [0]
  | some (val, exp) =>
    if exp = 0 then pure [0]
    else
      tx.putAbs key val 0
      pure [1]

def handleIncrEx (key : Key) (delta : BitVec 64) (ttl : Nat) : M Bytes := do
  match ← tx.getWithExpiry key with
  | none =>
    tx.put key (counterBytes delta) ttl
    pure (counterBytes delta)
  | some (v, exp) =>
    if v.length ≠ 8 then throw (.ops "ops: incr_ex value is not 8 bytes")
    else
      tx.putAbs key (counterBytes (counterOf v + delta)) exp
      pure (counterBytes (counterOf v + delta))

def handleCAEX (key : Key) (expected : Bytes) (ttl : Nat) : M Bytes := do
  let cur ← tx.get key
  if cur ≠ some expected then pure [0]
  else
    tx.expire key ttl
    pure [1]

/-- The puts of a batch one by one, past a failure, with the first
error. -/
def putBatchLoop : List BatchEntry → Option OpErr → M (Option OpErr)
  | [], first => pure first
  | e :: rest, first => do
    let err ← tx.tryPut e.key e.val e.ttl
    putBatchLoop rest (first <|> err)

def handlePutBatch (entries : List BatchEntry) : M Bytes := do
  let err ← putBatchLoop tx entries none
  orThrow err
  pure (beEncode 4 entries.length)

/-- `run` is applyRecordBytes at the call's arguments. -/
def handleOperate (stamp : Nat) (key : Key) (mode : TtlMode) (ttl : Nat)
    (run : Option Bytes → Nat → Except OpErr Outcome) :
    M Bytes := do
  let cur ← tx.getWithExpiry key
  match run (cur.map Prod.fst) stamp with
  | .error e => throw e
  | .ok (.checkFailed resp) => pure resp
  | .ok (.deleted resp) =>
    if cur.isSome then
      let _ ← tx.delete key
      pure resp
    else pure resp
  | .ok (.stored out resp) =>
    match mode, cur with
    | .set, _ => tx.put key out ttl
    | .createOnly, none => tx.put key out ttl
    | .keep, none => tx.put key out 0
    | _, some (_, exp) => tx.putAbs key out exp
    pure resp

end Handlers

/-- An entry of the log: the operation with its decoded arguments. -/
inductive KvOp where
  | put (key : Key) (val : Bytes) (ttl : Nat)
  | del (key : Key)
  | flush
  | expire (key : Key) (ttl : Nat)
  | incr (key : Key) (delta : BitVec 64)
  | setNX (key : Key) (val : Bytes) (ttl : Nat)
  | cas (key : Key) (val : Bytes) (expected : Option Bytes) (ttl : Nat)
  | cad (key : Key) (expected : Bytes)
  | getdel (key : Key)
  | getset (key : Key) (val : Bytes) (ttl : Nat)
  | persist (key : Key)
  | incrEx (key : Key) (delta : BitVec 64) (ttl : Nat)
  | caex (key : Key) (expected : Bytes) (ttl : Nat)
  | putBatch (entries : List BatchEntry)
  | operate (key : Key) (mode : TtlMode) (ttl : Nat)
      (run : Option Bytes → Nat → Except OpErr Outcome)

/-- The keys an operation names. -/
def KvOp.keys : KvOp → List Key
  | .put key _ _ => [key]
  | .del key => [key]
  | .flush => []
  | .expire key _ => [key]
  | .incr key _ => [key]
  | .setNX key _ _ => [key]
  | .cas key _ _ _ => [key]
  | .cad key _ => [key]
  | .getdel key => [key]
  | .getset key _ _ => [key]
  | .persist key => [key]
  | .incrEx key _ _ => [key]
  | .caex key _ _ => [key]
  | .putBatch entries => entries.map BatchEntry.key
  | .operate key _ _ _ => [key]

/-- The handler of an operation. -/
def KvOp.handle (tx : Tx M) (stamp : Nat) : KvOp → M Bytes
  | .put key val ttl => handlePut tx key val ttl
  | .del key => handleDel tx key
  | .flush => handleFlush tx
  | .expire key ttl => handleExpire tx key ttl
  | .incr key delta => handleIncr tx key delta
  | .setNX key val ttl => handleSetNX tx key val ttl
  | .cas key val expected ttl => handleCAS tx key val expected ttl
  | .cad key expected => handleCompareAndDel tx key expected
  | .getdel key => handleGetDel tx key
  | .getset key val ttl => handleGetSet tx key val ttl
  | .persist key => handlePersist tx key
  | .incrEx key delta ttl => handleIncrEx tx key delta ttl
  | .caex key expected ttl => handleCAEX tx key expected ttl
  | .putBatch entries => handlePutBatch tx entries
  | .operate key mode ttl run => handleOperate tx stamp key mode ttl run

-- ======== stores

variable {σ : Type}

/-- What a transaction context reaches of a cache under an apply stamp. A
read returns the value with its absolute expiry. -/
structure Store (σ : Type) where
  getAt : Key → Nat → σ → σ × Option (Bytes × Nat)
  putAt : Key → Bytes → Nat → Nat → σ → σ × Option Err
  putAbs : Key → Bytes → Nat → σ → σ × Option Err
  del : Key → σ → σ × Except Err Bool
  flush : σ → σ

/-- The context of an entry's handler. What it wrote before it failed
stays written. -/
def Store.tx (S : Store σ) (stamp : Nat) : Tx (Effect OpErr σ) where
  getWithExpiry := fun key => .ofStep fun s =>
    ((S.getAt key stamp s).1, .ok (S.getAt key stamp s).2)
  tryPut := fun key val ttl => .ofStep fun s =>
    ((S.putAt key val ttl stamp s).1,
      .ok ((S.putAt key val ttl stamp s).2.map .cache))
  tryPutAbs := fun key val exp => .ofStep fun s =>
    ((S.putAbs key val exp s).1, .ok ((S.putAbs key val exp s).2.map .cache))
  delete := fun key => .ofStep fun s =>
    ((S.del key s).1, (S.del key s).2.mapError .cache)
  flush := .ofStep fun s => (S.flush s, .ok ())

/-- applyEntryData: the handler of the operation, under the entry's
stamp. -/
def applyEntry (S : Store σ) (stamp : Nat) (op : KvOp) :
    Effect OpErr σ Bytes :=
  op.handle (S.tx stamp) stamp

-- ======== the map

/-- What a cache stands for: the entry of every key, expired or not. -/
abbrev Entries := Key → Option (Bytes × Nat)

namespace Entries

/-- A write takes over the slot of its hash. -/
def put (hash : Key → Nat) (m : Entries) (key : Key) (v : Bytes × Nat) :
    Entries := fun k =>
  if hash k = hash key then (if k = key then some v else none) else m k

/-- The entry a read at clock `t` finds. -/
def read (m : Entries) (key : Key) (t : Nat) : Option (Bytes × Nat) :=
  (m key).filter fun v => !isExpired v.2 t

end Entries

/-- The map as a store. -/
def entriesStore (hash : Key → Nat) : Store Entries where
  getAt := fun key t m => (m, m.read key t)
  putAt := fun key val ttl t m =>
    (m.put hash key (val, expiryAtFrom ttl t), none)
  putAbs := fun key val exp m => (m.put hash key (val, exp), none)
  del := fun key m => (Function.update m key none, .ok (m key).isSome)
  flush := fun _ _ => none

end Rostam.Ops
