/-
The primary side of an ISR grow (shard/pbisr/pb_grow.go,
pb_snapshot.go): the learner catch-up as its critical sections, the
atomic flip, and the learner upkeep.

`StartLearnerCatchup` is one goroutine, so at most one catch-up runs on
an engine and `grow` is its program counter. A step that waits on the
target is split at the wait: the answer (`none` for a transport error or
a context that ran out) is an input of the next step. `growCancel` ends
an attempt between any two sections, which is also what the per-chunk
re-fence of `shipSnapshot` does.
-/
import Rostam.Pbisr.Write

namespace Rostam.Pbisr

open Rostam.Lib

/-- `growBackfillBatch`. -/
def growBackfillBatch : Nat := 256

/-- `maxGrowSnapshotRounds`. -/
def maxGrowSnapshotRounds : Nat := 3

/-- `needsSnapshot`: the states only a full state transfer exits. -/
def needsSnapshot : GrowErr → Bool
  | .ringEvicted | .diverged | .unverifiable => true
  | _ => false

/-- The frame a ring entry replays as. -/
def RingEntry.frame (ent : RingEntry) : ReplicateMsg where
  epoch := ent.epoch
  seq := ent.seq
  prevSeq := ent.seq - 1
  prevEpoch := ent.prevEpoch
  data := ent.data

/-- The loop of `ringDeltaLocked` from `s`, `n` seqs at most: a missing
seq fails it, the first epoch change ends it. -/
def ringRun (b : Backlog) (runEpoch : Option Nat) :
    Nat → Nat → Option (List ReplicateMsg)
  | _, 0 => some []
  | s, n + 1 =>
    match b.entryAt s with
    | none => none
    | some ent =>
      if runEpoch.any fun E => ent.epoch ≠ E then some []
      else (ringRun b (some ent.epoch) (s + 1) n).map (ent.frame :: ·)

/-- `ringDeltaLocked`: the retained writes `[frm, upTo]`, truncated at the
newest entry and at the first epoch change; `none` is ring-cold. -/
def ringDeltaLocked (b : Backlog) (frm upTo : Nat) :
    Option (List ReplicateMsg) :=
  if upTo < frm then some []
  else
    match b.span with
    | none => none
    | some (oldest, newest) =>
      if frm < oldest then none
      else ringRun b none frm (min upTo newest + 1 - frm)

namespace Engine

-- ======== the catch-up

/-- Move the catch-up to another phase. -/
def growTo (e : Engine) (g : Catchup) (ph : CatchupPhase) : Engine :=
  { e with grow := some { g with phase := ph } }

/-- The attempt is over. -/
def growEnd (e : Engine) : Engine := { e with grow := none }

/-- `catchupOnce` returned an error: the snapshot rounds take it, or it
ends the attempt. -/
def growFail (e : Engine) (g : Catchup) (err : GrowErr) : Engine :=
  if needsSnapshot err ∧ e.snapCapable = true then
    e.growTo g (.fallback err)
  else e.growEnd

/-- `StartLearnerCatchup` begins, reading the epoch it grows at. -/
def growStart (e : Engine) (peer : NodeID) : Option Engine :=
  match e.grow with
  | none => some { e with
      grow := some ⟨peer, maxGrowSnapshotRounds, none, .handshake e.epoch⟩ }
  | some _ => none

/-- The answer to `CatchupRequest`. -/
def growHandshake (e : Engine) (res : Option CatchupInfoMsg) : Option Engine :=
  match e.grow with
  | some g@⟨_, _, _, .handshake E⟩ =>
    match res with
    | none => some e.growEnd
    | some info =>
      if E < info.epoch then some e.growEnd
      else if info.ok = false then some (e.growFail g .unverifiable)
      else some (e.growTo g (.check E info.frontierSeq info.frontierEpoch))
  | _ => none

/-- `checkCatchupDivergenceLocked`: `true` when the target provably
holds no prefix of this primary's history. -/
def catchupDiverged (e : Engine) (k kEpoch : Nat) : Bool :=
  if e.frontier.1 < k then true
  else if k = e.frontier.1 then kEpoch ≠ e.frontier.2
  else (e.backlog.entryAt (k + 1)).any fun ent => ent.prevEpoch ≠ kEpoch

/-- The log-matching gate before anything is shipped. -/
def growCheck (e : Engine) : Option Engine :=
  match e.grow with
  | some g@⟨_, _, _, .check E k kEpoch⟩ =>
    if e.catchupDiverged k kEpoch then some (e.growFail g .diverged)
    else some (e.growTo g (.backfill E k pipelineWindow))
  | _ => none

/-- What one `backfillLearner` round decides under `e.mu`. -/
inductive Round where
  | fail (err : GrowErr)
  | caughtUp
  | send (msgs : List ReplicateMsg) (last : Nat)

/-- One `backfillLearner` round: fence, measure the gap to `lastSeq`,
cut the next delta. `none` is the Go index panic on an empty delta. -/
def backfillRound (e : Engine) (E k gap : Nat) : Option Round :=
  if e.epoch ≠ E ∨ e.leaseEpoch ≠ E then some (.fail .epochChanged)
  else if u64Sub e.lastSeq k ≤ gap then some .caughtUp
  else
    match ringDeltaLocked e.backlog (k + 1)
        (min (k + growBackfillBatch) e.lastSeq) with
    | none => some (.fail .ringEvicted)
    | some msgs => (msgs.getLast?).map fun m => .send msgs m.seq

/-- A backfill round, up to its synchronous ship. -/
def growBackfill (e : Engine) : Option (Engine × List ReplicateMsg) :=
  match e.grow with
  | some g@⟨_, _, _, .backfill E k gap⟩ =>
    (e.backfillRound E k gap).map fun r =>
      match r with
      | .fail err => (e.growFail g err, [])
      | .caughtUp => (e.growTo g (.flip E k), [])
      | .send msgs last => (e.growTo g (.await E k gap last), msgs)
  | _ => none

/-- The cumulative ack of a backfill round. -/
def growAck (e : Engine) (res : Option AckMsg) : Option Engine :=
  match e.grow with
  | some g@⟨_, _, _, .await E k gap last⟩ =>
    match res with
    | none => some e.growEnd
    | some ack =>
      if E < ack.epoch then some e.growEnd
      else if ack.seq ≤ k ∨ last < ack.seq then
        some (e.growFail g .diverged)
      else some (e.growTo g (.backfill E ack.seq gap))
  | _ => none

-- ======== the flip

/-- `createLearnerSenderLocked` and the ship-set entry: the fresh
sender holds the final delta before the learner is visible. -/
def flipInstall (e : Engine) (peer : NodeID) (E k : Nat)
    (delta : List ReplicateMsg) : Engine :=
  { e.setSender peer ⟨some (E, k), delta, 0⟩ with
    learners := if peer ∈ e.learners then e.learners
      else e.learners ++ [peer]
    abandonedLearners := fun p =>
      if p = peer then none else e.abandonedLearners p
    learnerTeardown := e.learnerTeardown.filter fun p => p ≠ peer
    grow := none }

/-- One turn of `flipLearner` under both locks, on the seq tail
`lastSeq`: resume the backfill on an overrun or a short delta, else
flip. -/
def flipLearner (e : Engine) (now : Nat) : Option Engine :=
  match e.stage, e.grow with
  | .idle, some g@⟨peer, _, _, .flip E k⟩ =>
    if e.closed then some e.growEnd
    else if e.epoch ≠ E ∨ e.leaseEpoch ≠ E ∨ e.leaseExpiry ≤ now then
      some e.growEnd
    else if pipelineWindow < u64Sub e.lastSeq k then
      some (e.growTo g (.backfill E k pipelineWindow))
    else
      match ringDeltaLocked e.backlog (k + 1) e.lastSeq with
      | none => some (e.growFail g .ringEvicted)
      | some delta =>
        if delta.length ≠ u64Sub e.lastSeq k then
          some (e.growTo g (.backfill E k 0))
        else some (e.flipInstall peer E k delta)
  | _, _ => none

-- ======== the snapshot rounds

/-- The loop head of the snapshot rounds: the epoch is read once, and
the rounds are bounded. -/
def growFallback (e : Engine) : Option Engine :=
  match e.grow with
  | some g@⟨_, n, se, .fallback _⟩ =>
    match n with
    | 0 => some e.growEnd
    | n + 1 =>
      let E := se.getD e.epoch
      some { e with grow := some { g with
        rounds := n, snapEpoch := some E, phase := .snapshot E } }
  | _ => none

/-- `takeSnapshot`: serialize the FSM with its log identity, both locks
held. `ok` is the serializer's outcome. -/
def takeSnapshot (e : Engine) (ok : Bool) (now : Nat) :
    Option (Engine × Option Snapshot) :=
  match e.stage, e.grow with
  | .idle, some g@⟨_, _, _, .snapshot E⟩ =>
    if e.closed ∨ e.epoch ≠ E ∨ e.leaseEpoch ≠ E
        ∨ e.leaseExpiry ≤ now ∨ ok = false then
      some (e.growEnd, none)
    else some (e.growTo g (.ship E),
      some ⟨E, e.frontier.1, e.frontier.2, e.fsm⟩)
  | _, _ => none

/-- The end of `shipSnapshot`: an accepted transfer re-runs
`catchupOnce` at the epoch read then. -/
def growShipped (e : Engine) (res : Option AckMsg) : Option Engine :=
  match e.grow with
  | some g@⟨_, _, _, .ship E⟩ =>
    match res with
    | none => some e.growEnd
    | some ack =>
      if E < ack.epoch ∨ ack.ok = false then some e.growEnd
      else some (e.growTo g (.handshake e.epoch))
  | _ => none

-- ======== learner upkeep

/-- `AbortLearnerCatchup`. -/
def abortLearnerCatchup (e : Engine) (peer : NodeID) : Engine :=
  { e.dropPeerLocked peer with
    learners := e.learners.filter fun p => p ≠ peer
    learnerTeardown := e.learnerTeardown.filter fun p => p ≠ peer }

/-- `ReclaimOrphanLearners`: drop the senders an epoch advance
parked. -/
def reclaimOrphanLearners (e : Engine) : Engine :=
  { e.dropSenders (fun p => p ∉ e.learnerTeardown) with
    learnerTeardown := [] }

/-- `TeardownLearners`: drop every learner's sender, parked or not. -/
def teardownLearners (e : Engine) : Engine :=
  { e.dropSenders (fun p => p ∉ e.learners ∧ p ∉ e.learnerTeardown) with
    learners := []
    learnerTeardown := [] }

end Engine

end Rostam.Pbisr
