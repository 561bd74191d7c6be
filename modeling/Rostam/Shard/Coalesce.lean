/-
Coalesced read barriers (shard/readindex_coalesce.go,
cluster/meta_readindex_coalesce.go).

Concurrent callers of `do` share the flights of a barrier body `fn`. The
two coalescers differ in what `fn` answers and in what a caller is told
that gives up waiting; `Coalescer` is their common text. A step is a
section under `c.mu`, the call or the return of `fn`, or an arm of the
follower's `select`, so callers arrive, time out and are scheduled in any
order, and `fn` takes any time and answers anything.

Deadlines are not here: they only bound `fn` and the waits. Five fields are
history and read by nothing: `clock` counts the entries into `do` and the
calls of `fn`, `since` and `starts` say when they were, `leader` is the
caller with the flight slot and `aloft` the batch it has detached.
-/
import Mathlib.Logic.Function.Basic
import Rostam.Lib.Trace

namespace Rostam.Shard

open Function

/-- `readindexBatch` and `metaFrontierBatch`. `result` is set as `done`
is closed. -/
structure FlightBatch (ρ : Type) where
  starts : List Nat := []
  result : Option ρ := none

/-- Where a caller of `do` is. A leader has its `own` result once its own
batch is run. -/
inductive CallerPc (ρ : Type) where
  | out
  | entered
  /-- In `wait`. -/
  | waiting (b : Nat)
  /-- In `runBatch`, before `fn` and inside it. -/
  | ready (b : Nat) (own : Option ρ)
  | flying (b : Nat) (own : Option ρ)
  /-- At the head of `drain`'s loop. -/
  | draining (own : ρ)
  | returned (r : ρ)
  | timedOut (r : ρ)
  deriving DecidableEq

/-- `readindexCoalescer` and `metaFrontierCoalescer`, with the batches
made so far and the callers. -/
structure Coalescer (ι ρ : Type) where
  running : Bool := false
  pending : Option Nat := none
  next : Nat := 0
  batch : Nat → FlightBatch ρ := fun _ => {}
  pc : ι → CallerPc ρ := fun _ => .out
  since : ι → Nat := fun _ => 0
  clock : Nat := 1
  leader : Option ι := none
  aloft : Option Nat := none

inductive CallerStep (ι ρ : Type) where
  | enter (i : ι)
  | register (i : ι)
  | call (i : ι)
  | answer (i : ι) (r : ρ)
  | drain (i : ι)
  | receive (i : ι)
  | timeout (i : ι)

def CallerStep.caller {ι ρ : Type} : CallerStep ι ρ → ι
  | enter i | register i | call i | answer i _ | drain i | receive i
  | timeout i => i

namespace Coalescer

variable {ι ρ : Type} [DecidableEq ι]

/-- `do` under `c.mu`: into the pending batch, a new one if there is
none, and off with it if no flight is running. -/
def register (c : Coalescer ι ρ) (i : ι) : Coalescer ι ρ :=
  let (b, next) := match c.pending with
    | some b => (b, c.next)
    | none => (c.next, c.next + 1)
  if c.running then
    { c with
      next := next
      pending := some b
      pc := update c.pc i (.waiting b) }
  else
    { c with
      next := next
      running := true
      pending := none
      pc := update c.pc i (.ready b none)
      leader := some i
      aloft := some b }

/-- One turn of `drain`'s loop under `c.mu`. -/
def drain (c : Coalescer ι ρ) (i : ι) (own : ρ) : Coalescer ι ρ :=
  match c.pending with
  | none => { c with
      running := false
      pc := update c.pc i (.returned own)
      leader := none }
  | some b => { c with
      pending := none
      pc := update c.pc i (.ready b (some own))
      aloft := some b }

/-- A step; `late` is what `wait` returns on the caller's deadline. -/
def step (late : ρ) (c : Coalescer ι ρ) (l : CallerStep ι ρ) :
    Option (Coalescer ι ρ) :=
  match l, c.pc l.caller with
  | .enter i, .out => some { c with
      pc := update c.pc i .entered
      since := update c.since i c.clock
      clock := c.clock + 1 }
  | .register i, .entered => some (c.register i)
  | .call i, .ready b own => some { c with
      pc := update c.pc i (.flying b own)
      batch := update c.batch b { c.batch b with
        starts := (c.batch b).starts ++ [c.clock] }
      clock := c.clock + 1 }
  | .answer i r, .flying b own => some { c with
      pc := update c.pc i (.draining (own.getD r))
      batch := update c.batch b { c.batch b with result := some r }
      aloft := none }
  | .drain i, .draining own => some (c.drain i own)
  | .receive i, .waiting b => (c.batch b).result.map fun r =>
      { c with pc := update c.pc i (.returned r) }
  | .timeout i, .waiting _ =>
      some { c with pc := update c.pc i (.timedOut late) }
  | _, _ => none

end Coalescer

/-- The errors of the two `wait`s. -/
inductive BarrierErr where
  | linearizableTimeout
  | metaNotLeader
  | other (msg : String)
  deriving DecidableEq, Repr

/-- `readindexCoalescer`: `fn` answers an error or nil. -/
def readindexCoalescer (ι : Type) [DecidableEq ι] :
    Coalescer ι (Option BarrierErr) → CallerStep ι (Option BarrierErr) →
      Option (Coalescer ι (Option BarrierErr)) :=
  Coalescer.step (some .linearizableTimeout)

/-- `metaFrontierCoalescer`: `fn` answers a frontier and an error. -/
def metaFrontierCoalescer (ι : Type) [DecidableEq ι] :
    Coalescer ι (UInt64 × Option BarrierErr) →
      CallerStep ι (UInt64 × Option BarrierErr) →
      Option (Coalescer ι (UInt64 × Option BarrierErr)) :=
  Coalescer.step (0, some .metaNotLeader)

end Rostam.Shard
