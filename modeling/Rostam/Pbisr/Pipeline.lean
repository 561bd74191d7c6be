/-
The in-flight pipeline of one replication engine: the records of writes
awaiting full-ISR commit, the seq-dense FIFO they sit in, and the three
critical-section helpers every resolver funnels through
(shard/pbisr/pb_pipeline.go).

# Records and pointers

The Go FIFO is a ring of `*inflight`. A record outlives its slot — the
waiting `Propose` still holds the pointer after the sweep popped it —
so records live in an append-only table `recs` and a ring slot holds an
index into it. `required` and `hist` are specification fields: the
pending set a record was registered with, and the payload sequence the
proposer had materialized when it registered the record (ending in the
record's own write). No operation reads them.

# The sweep

`sweepLocked` loops `for e.inflightN > 0`, and every iteration that
does not stop pops one slot, so the loop runs at most `inflightN`
times; `sweepN` is that loop with the count as its measure. The commit
fence is passed in as a predicate on the head record, because it reads
engine state (epoch, lease, clock) the pipeline does not own.
-/
import Rostam.Lib.Ring

namespace Rostam.Pbisr

open Rostam.Lib

/-- A node identifier, as the control plane spells it. -/
abbrev NodeID := String

/-- An opaque op payload. -/
abbrev Data := List UInt8

/-- `uint64` subtraction: wraps below zero. -/
def u64Sub (a b : Nat) : Nat := (a + (2 ^ 64 - b % 2 ^ 64)) % 2 ^ 64

/-- The outcomes of a `Propose` other than `nil`. -/
inductive ProposeErr where
  | notPrimary
  | leaseExpired
  | belowMinISR
  | replicationTimeout
  | snapshotPending
  | apply
  deriving DecidableEq, Repr

/-- A shard's durability contract. -/
inductive CommitLevel where
  | fullISR
  | primary
  deriving DecidableEq, Repr

/-- One write awaiting full-ISR commit. `err` is the Go error with
`none` for `nil`, meaningful once `resolved`; `doneCh` is every value
ever sent on the record's channel. -/
structure Inflight where
  epoch : Nat
  seq : Nat
  required : List NodeID
  pending : List NodeID
  hist : List Data
  resolved : Bool
  err : Option ProposeErr
  doneCh : List (Option ProposeErr)
  deriving DecidableEq, Repr

/-- The record resolved as committed. -/
def Inflight.acked (r : Inflight) : Bool := r.resolved && r.err.isNone

/-- Drop `peer` from the pending set. -/
def Inflight.removePending (r : Inflight) (peer : NodeID) : Inflight :=
  { r with pending := r.pending.erase peer }

/-- The first resolution wins; later ones are no-ops. -/
def Inflight.resolve (r : Inflight) (err : Option ProposeErr) : Inflight :=
  if r.resolved then r
  else { r with resolved := true, err := err, doneCh := r.doneCh ++ [err] }

/-- The pipeline fields of an engine. `baseSeq` is the seq of the
record at the ring head while the ring is not empty. -/
structure Pipeline where
  ring : RingBuf (Option Nat)
  baseSeq : Nat
  recs : List Inflight
  committed : Nat

/-- `pipelineWindow`: at most this many writes in flight per shard. -/
def pipelineWindow : Nat := 256

/-- A pipeline with nothing in flight. -/
def Pipeline.new : Pipeline where
  ring := RingBuf.vacant pipelineWindow none (by decide)
  baseSeq := 0
  recs := []
  committed := 0

namespace Pipeline

/-- Update the record a pointer names. -/
def modifyRec (pl : Pipeline) (i : Nat) (f : Inflight → Inflight) :
    Pipeline :=
  { pl with recs := pl.recs.modify i f }

/-- `resolveLocked`: the exactly-once resolution latch. -/
def resolveLocked (pl : Pipeline) (i : Nat) (err : Option ProposeErr) :
    Pipeline :=
  pl.modifyRec i fun r => r.resolve err

/-- `markCommittedLocked`: `committed` is a running maximum. -/
def markCommittedLocked (pl : Pipeline) (seq : Nat) : Pipeline :=
  if pl.committed < seq then { pl with committed := seq } else pl

/-- `popInflightHeadLocked`. -/
def popInflightHeadLocked (pl : Pipeline) : Pipeline :=
  { pl with ring := pl.ring.pop none, baseSeq := pl.baseSeq + 1 }

/-- `inflightAtLocked`: the record of `seq`, by its dense offset. -/
def inflightAtLocked (pl : Pipeline) (seq : Nat) : Option Nat :=
  if pl.ring.count = 0 ∨ seq < pl.baseSeq then none
  else if pl.ring.count ≤ seq - pl.baseSeq then none
  else pl.ring.get (seq - pl.baseSeq)

/-- `registerInflightLocked`, less the two watermarks it also moves
(they are engine fields). `none` is the Go panic on a seq that does
not continue the FIFO. -/
def registerInflightLocked (pl : Pipeline) (rec : Inflight) :
    Option Pipeline :=
  if pl.ring.count = 0 then
    some { pl with
      ring := pl.ring.pushGrow (some pl.recs.length) none
      baseSeq := rec.seq
      recs := pl.recs ++ [rec] }
  else if rec.seq = pl.baseSeq + pl.ring.count then
    some { pl with
      ring := pl.ring.pushGrow (some pl.recs.length) none
      recs := pl.recs ++ [rec] }
  else none

/-- The record at the FIFO head, with its pointer. -/
def head? (pl : Pipeline) : Option (Nat × Inflight) :=
  match pl.ring.get 0 with
  | some i => (pl.recs[i]?).map fun r => (i, r)
  | none => none

/-- One committable head: committed behind the fence, else failed. -/
def commitHead (pl : Pipeline) (fence : Nat → Bool) (i : Nat)
    (r : Inflight) : Pipeline :=
  if fence r.epoch then
    (pl.markCommittedLocked r.seq).resolveLocked i none
  else pl.resolveLocked i (some .leaseExpired)

/-- The sweep loop, `n` iterations at most. -/
def sweepN (level : CommitLevel) (fence : Nat → Bool) :
    Nat → Pipeline → Pipeline
  | 0, pl => pl
  | n + 1, pl =>
    match pl.head? with
    | none => pl
    | some (i, r) =>
      if r.resolved then
        sweepN level fence n pl.popInflightHeadLocked
      else if r.pending = [] ∨ level = .primary then
        sweepN level fence n (pl.commitHead fence i r).popInflightHeadLocked
      else pl

/-- `sweepLocked`: advance the commit frontier from the FIFO head. -/
def sweepLocked (pl : Pipeline) (level : CommitLevel)
    (fence : Nat → Bool) : Pipeline :=
  sweepN level fence pl.ring.count pl

/-- Apply `f` to every in-flight record. -/
def mapInflight (pl : Pipeline) (f : Inflight → Inflight) : Pipeline :=
  pl.ring.toList.foldl (fun acc slot =>
    match slot with
    | some i => acc.modifyRec i f
    | none => acc) pl

/-- Resolve FAILED every in-flight record that `p` selects. -/
def failWhere (pl : Pipeline) (p : Inflight → Bool) (err : ProposeErr) :
    Pipeline :=
  pl.mapInflight fun r => if p r then r.resolve (some err) else r

/-- `flushEpochLocked`: fail the records of superseded epochs, then
sweep. -/
def flushEpochLocked (pl : Pipeline) (minEpoch : Nat)
    (level : CommitLevel) (fence : Nat → Bool) : Pipeline :=
  (pl.failWhere (fun r => r.epoch < minEpoch) .leaseExpired).sweepLocked
    level fence

/-- Pop every slot (`installSnapshot`'s `for e.inflightN > 0`). -/
def popAll (pl : Pipeline) : Pipeline :=
  pl.ring.count.repeat popInflightHeadLocked pl

end Pipeline

end Rostam.Pbisr
