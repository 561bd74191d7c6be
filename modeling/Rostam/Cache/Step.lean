/-
A persistent shard as a state machine: client and apply-path operations,
the sweeper, online compaction, and restarts, in any order.

Two ghosts ride along. `clock` is the latest clock at which the shard
has dropped expired entries (a read that removes, a sweep, an open): an
answer at an earlier clock may miss an entry that had not expired then.
`model` is the map the acknowledged writes, deletes and flushes leave,
with no pages under it.
-/
import Rostam.Cache.Compact
import Rostam.Lib.Trace

namespace Rostam.Cache

open Rostam.Lib

inductive Op where
  | put (key val : Bytes) (ttl now : Nat) (env : Shard.EvictEnv)
  | putAt (key val : Bytes) (ttl stamp : Nat) (env : Shard.EvictEnv)
  | putAbs (key val : Bytes) (exp : Nat) (env : Shard.EvictEnv)
  | del (key : Bytes) (env : Shard.EvictEnv)
  | get (key : Bytes) (now : Nat)
  | getAt (key : Bytes) (stamp : Nat)
  | flush
  | sweep (now : Nat) (reached : Nat → Bool)
  | setAppliedIndex
  | relocate (page dropClock : Nat)
  | recycle (page : Nat)
  | reopen (env : Shard.OpenEnv)

structure World where
  shard : Shard
  clock : Nat
  model : Key → Option (Bytes × Nat)

/-- A shard over a directory with no file yet. -/
def Shard.fresh (cfg : Config) : Shard where
  pages := List.replicate cfg.numPages Page.empty
  tab := fun _ => none
  writeIdx := cfg.numPages - 1
  writeSeq := 0
  nextVictim := 0
  flushedThroughSeq := 0
  lastAppliedStampMs := 0
  hdrStamp := 0

/-- The latest clock at which an open drops expired entries. -/
def Shard.openClock (cfg : Config) (s : Shard) (env : Shard.OpenEnv) :
    Nat :=
  if cfg.replicated then s.hdrStamp
  else max env.now (max env.dropNow env.remapNow)

namespace World

def fresh (cfg : Config) : World := ⟨Shard.fresh cfg, 0, fun _ => none⟩

/-- A put with its absolute expiry. -/
def put (cfg : Config) (w : World) (key val : Bytes) (exp : Nat)
    (env : Shard.EvictEnv) : World :=
  let r := w.shard.putAtExp cfg env key val exp
  { w with
    shard := r.1
    model := if r.2 = none then
        Function.update w.model key (some (val, exp))
      else w.model }

def del (cfg : Config) (w : World) (key : Bytes)
    (env : Shard.EvictEnv) : World :=
  let r := w.shard.del cfg env key
  { w with
    shard := r.1
    model := match r.2 with
      | .ok true => Function.update w.model key none
      | _ => w.model }

/-- A read that may remove what it finds expired. -/
def get (cfg : Config) (w : World) (key : Bytes) (now : Nat)
    (allowPhysicalRemove : Bool) : World :=
  { w with
    shard := w.shard.get cfg key now allowPhysicalRemove
    clock := if allowPhysicalRemove then max w.clock now else w.clock }

/-- One step; `none` where the source has no such step: a replicated
sweep runs at a logical clock the shard has reached, and relocation runs
on replicated reject-writes shards only. -/
def step (cfg : Config) (w : World) : Op → Option World
  | .put key val ttl now env =>
    some (w.put cfg key val (expiryAtFrom ttl now) env)
  | .putAt key val ttl stamp env =>
    some (({ w with shard := w.shard.advanceStamp stamp } : World).put
      cfg key val (expiryAtFrom ttl stamp) env)
  | .putAbs key val exp env => some (w.put cfg key val exp env)
  | .del key env => some (w.del cfg key env)
  | .get key now => some (w.get cfg key now (!cfg.replicated))
  | .getAt key stamp =>
    some (({ w with shard := w.shard.advanceStamp stamp } : World).get
      cfg key stamp true)
  | .flush =>
    some { w with shard := w.shard.flush, model := fun _ => none }
  | .sweep now reached =>
    if cfg.replicated = true ∧ w.shard.lastAppliedStampMs < now then none
    else some { w with
      shard := w.shard.sweepIndex now reached
      clock := max w.clock now }
  | .setAppliedIndex =>
    some { w with shard := { w.shard with
      hdrStamp := w.shard.lastAppliedStampMs } }
  | .relocate i dropClock =>
    if cfg.policy = .rejectWrites ∧ cfg.replicated = true
        ∧ dropClock ≤ w.shard.lastAppliedStampMs then
      some { w with shard := w.shard.tryRelocatePage cfg i dropClock }
    else none
  | .recycle i => some { w with shard := w.shard.recycle i }
  | .reopen env =>
    some { w with
      shard := w.shard.reopen cfg env
      clock := max w.clock (w.shard.openClock cfg env) }

end World

end Rostam.Cache
