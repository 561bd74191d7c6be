/-
A cache: shards side by side, a key's shard picked by its hash.

The mask the source applies to the hash is one below the number of
shards, a power of two, so that masking is the remainder.
-/
import Rostam.Cache.Heap
import Mathlib.Data.List.FinRange

namespace Rostam.Cache

open Rostam.Lib Rostam.Ops

variable {σ : Type} {n : Nat} [NeZero n]

/-- shardForH. -/
def shardFor (n : Nat) [NeZero n] (hash : Key → Nat) (key : Key) : Fin n :=
  Fin.ofNat n (hash key)

/-- Run `f` on the key's shard. -/
def onShard (hash : Key → Nat) (key : Key) (c : Fin n → σ)
    {α : Type} (f : σ → σ × α) : (Fin n → σ) × α :=
  let i := shardFor n hash key
  (Function.update c i (f (c i)).1, (f (c i)).2)

/-- The cache's operations: the shard's, at the key's shard. -/
def groupStore (n : Nat) [NeZero n] (hash : Key → Nat)
    (S : Ops.Store σ) : Ops.Store (Fin n → σ) where
  getAt := fun key t c => onShard hash key c (S.getAt key t)
  putAt := fun key val ttl t c => onShard hash key c (S.putAt key val ttl t)
  putAbs := fun key val exp c => onShard hash key c (S.putAbs key val exp)
  del := fun key c => onShard hash key c (S.del key)
  flush := fun c i => S.flush (c i)

/-- The entries of shard `i`. -/
def shareOf (n : Nat) [NeZero n] (hash : Key → Nat) (m : Entries)
    (i : Fin n) : Entries := fun k =>
  if shardFor n hash k = i then m k else none

-- ======== iteration

/-- An entry as Iterate hands it out: key, value, absolute expiry. -/
abbrev Entry := Key × Bytes × Nat

/-- What a walk over one shard's index reads: the wall clock, and the
order the table keeps its slots in. -/
structure IterEnv where
  now : Nat
  order : List Nat

/-- shard.iterate: every indexed entry that has not expired at the wall
clock. -/
def Shard.iterate (s : Shard) (env : IterEnv) : List Entry :=
  env.order.filterMap fun h =>
    ((s.tab h).bind s.frameAt).bind fun f =>
      if isExpired f.exp env.now || f.tomb then none
      else some (f.key, f.val, f.exp)

/-- Cache.Iterate, shard by shard. -/
def iterate (c : Fin n → Shard) (env : Fin n → IterEnv) : List Entry :=
  (List.finRange n).flatMap fun i => (c i).iterate (env i)

-- ======== clocks

/-- Cache.LastAppliedStampMs: the latest of the shards' clocks. -/
def lastAppliedStampMs (c : Fin n → Shard) : Nat :=
  (List.finRange n).foldl (fun m i => max m (c i).lastAppliedStampMs) 0

/-- Cache.AdvanceAppliedStamp. -/
def advanceAppliedStamp (c : Fin n → Shard) (stamp : Nat) : Fin n → Shard :=
  if stamp = 0 then c else fun i => (c i).advanceStamp stamp

end Rostam.Cache
