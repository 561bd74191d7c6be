/-
A replica: a cache that applies the shard's log, with everything that
happens to it in between.

The log's entries carry the leader's stamp, and what the apply path reads
and writes is judged by it. In between come client reads at the node's
own wall clock, sweeps and page reclamation at the logical clock, saves
of the applied index (which put the logical clock in the file headers),
online compaction, and clean restarts over the same files. Replicas may
differ in everything but the hash: the number of shards, the sizes, heap
or mmap pages.
-/
import Rostam.Cache.Compact
import Rostam.Cache.Group
import Rostam.Lib.Trace

namespace Rostam.Shard

open Rostam.Lib Rostam.Ops Rostam.Cache Function

/-- Where the pages are; a heap shard starts with `initial` of them. -/
inductive Backing where
  | mmap
  | heap (initial : Nat)
  deriving DecidableEq, Repr

/-- A replicated reject-writes cache. -/
structure Replica where
  shards : Nat
  pos : NeZero shards
  cfg : Config
  backing : Backing
  policy : cfg.policy = .rejectWrites
  replicated : cfg.replicated = true

instance (R : Replica) : NeZero R.shards := R.pos

/-- An entry of the log: its stamp and its operation. -/
abbrev LogEntry := Nat × KvOp

inductive Event (n : Nat) where
  | apply (e : LogEntry) (env : Cache.Shard.EvictEnv)
  | read (key : Key) (now : Nat)
  | sweep (i : Fin n) (now : Nat) (reached : Nat → Bool)
  | reclaim (i : Fin n) (page stamp : Nat)
  | setAppliedIndex
  | relocate (i : Fin n) (page dropClock : Nat)
  | recycle (i : Fin n) (page : Nat)
  | restart (env : Fin n → Cache.Shard.OpenEnv)

namespace Replica

variable (R : Replica)

/-- One shard as the handlers see it. -/
def shardStore (env : Cache.Shard.EvictEnv) : Ops.Store Cache.Shard :=
  match R.backing with
  | .mmap => Cache.shardStore R.cfg env
  | .heap _ => heapStore R.cfg

/-- The cache as the handlers see it. -/
def store (env : Cache.Shard.EvictEnv) :
    Ops.Store (Fin R.shards → Cache.Shard) :=
  groupStore R.shards R.cfg.hashKey (R.shardStore env)

/-- The cache before the first entry. -/
def fresh : Fin R.shards → Cache.Shard := fun _ =>
  match R.backing with
  | .mmap => Cache.Shard.fresh R.cfg
  | .heap initial => Cache.Shard.freshHeap initial

/-- What GetAt answers. -/
def getAt (c : Fin R.shards → Cache.Shard) (key : Key) (t : Nat) :
    Option (Bytes × Nat) :=
  (c (shardFor R.shards R.cfg.hashKey key)).resolve R.cfg key t

/-- One event; `none` where there is no such event, or where the apply
fails. A sweep, a reclamation and a relocation read the logical clock
once, so they run at a clock the shard has reached. -/
def step (c : Fin R.shards → Cache.Shard) :
    Event R.shards → Option (Fin R.shards → Cache.Shard)
  | .apply e env =>
    match (applyEntry (R.store env) e.1 e.2).exec c with
    | (.ok _, c') => some c'
    | (.error _, _) => none
  | .read key now =>
    let i := shardFor R.shards R.cfg.hashKey key
    some (update c i ((c i).get R.cfg key now (!R.cfg.replicated)))
  | .sweep i now reached =>
    if now ≤ (c i).lastAppliedStampMs then
      some (update c i ((c i).sweepIndex now reached))
    else none
  | .reclaim i page stamp =>
    if R.backing ≠ .mmap ∧ stamp ≤ (c i).lastAppliedStampMs then
      some (update c i ((c i).tryRetireExpiredPage R.cfg page stamp))
    else none
  | .setAppliedIndex =>
    if R.backing = .mmap then
      some fun i => { c i with hdrStamp := (c i).lastAppliedStampMs }
    else none
  | .relocate i page dropClock =>
    if R.backing = .mmap ∧ dropClock ≤ (c i).lastAppliedStampMs then
      some (update c i ((c i).tryRelocatePage R.cfg page dropClock))
    else none
  | .recycle i page =>
    if R.backing = .mmap then
      some (update c i ((c i).recycle page))
    else none
  | .restart env =>
    if R.backing = .mmap then
      some fun i => (c i).reopen R.cfg (env i)
    else none

end Replica

/-- The entries a run applies, in order. -/
def applied {n : Nat} (evs : List (Event n)) : List LogEntry :=
  evs.filterMap fun ev =>
    match ev with
    | .apply e _ => some e
    | _ => none

/-- The map a log leaves, applied entry by entry with no pages under
it. -/
def replay (hash : Key → Nat) (log : List LogEntry) : Entries :=
  log.foldl (fun m e => ((applyEntry (entriesStore hash) e.1 e.2).exec m).2)
    fun _ => none

/-- The stamp of the last entry. -/
def lastStamp (log : List LogEntry) : Nat := (log.getLast?.map Prod.fst).getD 0

end Rostam.Shard
