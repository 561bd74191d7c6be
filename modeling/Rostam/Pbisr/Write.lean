/-
The primary's write path: `proposeSequenced` as the separate critical
sections it runs, the completion callbacks, and the two reconciles that
move the effective ISR (shard/pbisr/engine.go, pb_pipeline.go,
pb_grow.go).

`proposeSequenced` holds `writeMu` throughout but `e.mu` only in parts:
the fence (`fence`), the local apply with `e.mu` released
(`applyLocal`), the registration (`register`), one submission per owed
peer (`submitNext`), and the closing sweep of `CommitPrimary`
(`submitDone`). Each is one step; anything that takes only `e.mu` may
run between two of them.
-/
import Rostam.Pbisr.Engine

namespace Rostam.Pbisr

open Rostam.Lib

-- ======== peer sets

/-- `distinctPeers`: every distinct ISR member other than `self`, in
first-occurrence order. -/
def distinctPeers (self : NodeID) (isr : List NodeID) : List NodeID :=
  isr.foldl (fun peers m =>
    if m = self ∨ m ∈ peers then peers else peers ++ [m]) []

/-- `intersectPeers`: narrowing only. -/
def intersectPeers (peers keep : List NodeID) : List NodeID :=
  peers.filter fun p => p ∈ keep

namespace Engine

/-- The required set of a proposal that captured `epoch` and read
`isr`: the distinct peers, narrowed by a live override of that epoch. -/
def requiredPeers (e : Engine) (epoch : Nat) (isr : List NodeID) :
    List NodeID :=
  if e.effISREpoch = epoch then
    intersectPeers (distinctPeers e.nodeID isr) e.effISR
  else distinctPeers e.nodeID isr

/-- `learnerShipSetLocked`: the learners that are not required peers of
this write. -/
def learnerShipSetLocked (e : Engine) (peers : List NodeID) : List NodeID :=
  e.learners.filter fun l => l ∉ peers

/-- `windowFullLocked`, with the Go wrap of `lastSeq - committed`. -/
def windowFullLocked (e : Engine) : Bool :=
  pipelineWindow ≤ u64Sub e.lastSeq e.pl.committed

-- ======== sequencing

/-- Why the fence section of `proposeSequenced` turned a proposal
away: a sentinel, or the window retry. -/
inductive Refusal where
  | err (e : ProposeErr)
  | retry
  deriving DecidableEq, Repr

/-- Steps (a0)–(c): the checks made under `writeMu` and `e.mu`, on the
control-plane reads taken before the locks. `none` admits the
proposal. -/
def proposeRefusal (e : Engine) (primary : NodeID) (isr : List NodeID)
    (minISR now : Nat) : Option Refusal :=
  if e.poisoned then some (.err .snapshotPending)
  else if primary ≠ e.nodeID then some (.err .notPrimary)
  else if e.leaseEpoch ≠ e.epoch ∨ e.leaseExpiry ≤ now then
    some (.err .leaseExpired)
  else if isr.length < minISR then some (.err .belowMinISR)
  else if e.windowFullLocked then some .retry
  else none

/-- The fence section: an admitted proposal captures the epoch and
keeps `writeMu`. -/
def fence (e : Engine) (primary : NodeID) (isr : List NodeID)
    (minISR : Nat) (data : Data) (now : Nat) : Engine :=
  match e.proposeRefusal primary isr minISR now with
  | some _ => e
  | none => { e with stage := .fenced e.epoch isr data }

/-- Step (d): the local apply, outside `e.mu`. A failed apply burns no
seq and gives `writeMu` back. -/
def applyLocal (e : Engine) (ok : Bool) : Option Engine :=
  match e.stage with
  | .fenced epoch isr data =>
    if ok then
      some { e with
        fsm := e.fsm ++ [data], stage := .applied epoch isr data }
    else some { e with stage := .idle }
  | _ => none

/-- The frame of the write that extends this node's frontier under
`epoch`. -/
def nextFrame (e : Engine) (epoch : Nat) (data : Data) : ReplicateMsg where
  epoch := epoch
  seq := e.frontier.1 + 1
  prevSeq := e.frontier.1
  prevEpoch := e.frontier.2
  data := data

/-- The ring entry of a frame. -/
def entryOf (m : ReplicateMsg) : RingEntry :=
  ⟨m.epoch, m.seq, m.prevEpoch, m.data⟩

/-- The record of a frame, as `proposeSequenced` registers it. -/
def recordOf (e : Engine) (m : ReplicateMsg) (peers : List NodeID) :
    Inflight where
  epoch := m.epoch
  seq := m.seq
  required := peers
  pending := peers
  hist := e.fsm
  resolved := false
  err := none
  doneCh := []

/-- Step (e), the state it registers: assign the seq, retain the write,
push the record. `none` is the non-dense panic. -/
def registerWith (e : Engine) (m : ReplicateMsg) (peers : List NodeID) :
    Option Engine :=
  (e.pl.registerInflightLocked (e.recordOf m peers)).map fun pl =>
    { e with
      backlog := e.backlog.append (entryOf m)
      pl := pl
      lastSeq := if e.lastSeq < m.seq then m.seq else e.lastSeq
      lastSeqEpoch := if e.lastSeq < m.seq then m.epoch else e.lastSeqEpoch
      epochAt := setEpochAt e.epochAt m.seq m.epoch
      stage := .submitting m peers (e.learnerShipSetLocked peers)
        (!peers.isEmpty) }

/-- Step (e): register the applied proposal; a write nobody else must
hold commits in the same section. -/
def register (e : Engine) (now : Nat) : Option Engine :=
  match e.stage with
  | .applied epoch isr data =>
    let peers := e.requiredPeers epoch isr
    (e.registerWith (e.nextFrame epoch data) peers).map fun e' =>
      if peers.isEmpty then e'.sweepLocked now else e'
  | _ => none

-- ======== submission

/-- A submission the transport took. -/
def post (e : Engine) (peer : NodeID) (msgs : List ReplicateMsg) :
    Engine :=
  { e with outbox := e.outbox ++ [(peer, msgs)] }

/-- `submitPeerLocked`: through the peer's channel, or inline when
nothing is queued and the transport takes it (`inlined`). A full
channel blocks (`none`). -/
def submitPeerLocked (e : Engine) (peer : NodeID) (msg : ReplicateMsg)
    (inlined : Bool) : Option Engine :=
  if e.closed then some e
  else
    let s := (e.peerQ peer).getD ⟨none, [], 0⟩
    if s.pendingCount = 0 ∧ inlined = true then
      some ((e.setSender peer { s.hand msg with taken := s.taken + 1 }).post
        peer [msg])
    else if s.pendingCount < pipelineWindow then
      some (e.setSender peer (s.hand msg))
    else none

/-- `submitLearnerLocked`: a non-blocking send; a full channel abandons
the grow. -/
def submitLearnerLocked (e : Engine) (peer : NodeID)
    (msg : ReplicateMsg) : Engine :=
  if e.closed then e
  else
    match e.peerQ peer with
    | none => e
    | some s =>
      if s.pendingCount < pipelineWindow then
        e.setSender peer (s.hand msg)
      else
        { e.dropPeerLocked peer with
          learners := e.learners.filter fun l => l ≠ peer
          abandonedLearners := fun p =>
            if p = peer then some msg.seq else e.abandonedLearners p }

/-- Step (f): hand the frame to the next required peer, or, once those
are served, to the next learner. -/
def submitNext (e : Engine) (inlined : Bool) : Option Engine :=
  match e.stage with
  | .submitting msg (p :: ps) ls v =>
    (e.submitPeerLocked p msg inlined).map fun e' =>
      { e' with stage := .submitting msg ps ls v }
  | .submitting msg [] (l :: ls) v =>
    some { e.submitLearnerLocked l msg with
      stage := .submitting msg [] ls v }
  | _ => none

/-- The end of `proposeSequenced`: under `CommitPrimary` a write with
voters commits on the local apply; `writeMu` is released. -/
def submitDone (e : Engine) (now : Nat) : Option Engine :=
  match e.stage with
  | .submitting _ [] [] v =>
    if v = true ∧ e.commitLevel = .primary then
      some ({ e with stage := .idle }.sweepLocked now)
    else some { e with stage := .idle }
  | _ => none

-- ======== the senders

/-- `pbGroupBatchMax`. -/
def pbGroupBatchMax : Nat := 64

/-- `pbGroupBytesMax`. -/
def pbGroupBytesMax : Nat := 2 ^ 20

/-- The frames of one submission: uniform-epoch and seq-dense. -/
def groupable : List ReplicateMsg → Bool
  | [] => false
  | [_] => true
  | a :: b :: rest =>
    b.epoch == a.epoch && b.seq == a.seq + 1 && groupable (b :: rest)

/-- `runSender`: take the next `n` frames off the channel and submit
them as one message or one group. How far the greedy drain got before
the channel ran dry is the label's choice of `n`. -/
def senderTake (e : Engine) (peer : NodeID) (n : Nat) : Option Engine :=
  match e.peerQ peer with
  | some s =>
    let msgs := (s.handed.drop s.taken).take n
    if n ≤ s.pendingCount ∧ n ≤ pbGroupBatchMax ∧ groupable msgs = true
        ∧ (n = 1 ∨ (msgs.map (·.data.length)).sum ≤ pbGroupBytesMax) then
      some ((e.setSender peer { s with taken := s.taken + n }).post peer msgs)
    else none
  | none => none

-- ======== completions

/-- `ackInflightLocked`: H6-exact matching, then the sweep. -/
def ackInflightLocked (e : Engine) (peer : NodeID) (ack : AckMsg)
    (now : Nat) : Engine :=
  match e.pl.inflightAtLocked ack.seq with
  | some i =>
    (e.setPl (e.pl.modifyRec i fun r =>
      if ack.ok = true ∧ ack.epoch = r.epoch ∧ ack.seq = r.seq then
        r.removePending peer
      else r)).sweepLocked now
  | none => e.sweepLocked now

/-- The completion of one frame: `none` is a transport error. -/
def completeSend (e : Engine) (peer : NodeID) (msg : ReplicateMsg)
    (res : Option AckMsg) (now : Nat) : Engine :=
  match res with
  | some ack =>
    if ack.ok = true ∧ ack.epoch = msg.epoch ∧ ack.seq = msg.seq then
      ((e.notePeerSuccessLocked peer).creditPeerAckedLocked peer
        ack.seq).ackInflightLocked peer ack now
    else failSend
  | none => failSend
where
  /-- Everything but an exact ack dooms the record it belongs to. -/
  failSend : Engine :=
    let e' := e.notePeerFailureLocked peer
    match e'.pl.inflightAtLocked msg.seq with
    | some i =>
      if (e'.pl.recs[i]?).any fun r => r.epoch = msg.epoch then
        (e'.setPl (e'.pl.resolveLocked i
          (some .replicationTimeout))).sweepLocked now
      else e'
    | none => e'

/-- The seq through which a group's cumulative ack credits its peer. -/
def creditThrough (epoch firstSeq lastSeq : Nat) (res : Option AckMsg) :
    Nat :=
  match res with
  | some ack =>
    if ack.ok = true ∧ ack.epoch = epoch ∧ ack.seq = lastSeq then lastSeq
    else if ack.ok = false ∧ ack.epoch = epoch
        ∧ u64Sub firstSeq 1 ≤ ack.seq ∧ ack.seq < lastSeq then ack.seq
    else u64Sub firstSeq 1
  | none => u64Sub firstSeq 1

/-- What a group completion does to the record of one seq. -/
def creditSeq (peer : NodeID) (epoch credit : Nat) (pl : Pipeline)
    (s : Nat) : Pipeline :=
  match pl.inflightAtLocked s with
  | some i => pl.modifyRec i fun r =>
    if r.epoch ≠ epoch then r
    else if s ≤ credit then r.removePending peer
    else r.resolve (some .replicationTimeout)
  | none => pl

/-- The peer's counters after a group completion: a full group clears
the wedge counter, any credit raises the high-water. -/
def noteGroupLocked (e : Engine) (peer : NodeID)
    (firstSeq lastSeq credit : Nat) : Engine :=
  let e' := if credit = lastSeq then e.notePeerSuccessLocked peer
    else e.notePeerFailureLocked peer
  if firstSeq ≤ credit then e'.creditPeerAckedLocked peer credit else e'

/-- The one completion of a group `[firstSeq, lastSeq]`. -/
def completeGroupSend (e : Engine) (peer : NodeID)
    (epoch firstSeq lastSeq : Nat) (res : Option AckMsg) (now : Nat) :
    Engine :=
  let credit := creditThrough epoch firstSeq lastSeq res
  let e' := e.noteGroupLocked peer firstSeq lastSeq credit
  (e'.setPl ((List.range' firstSeq (lastSeq + 1 - firstSeq)).foldl
    (creditSeq peer epoch credit) e'.pl)).sweepLocked now

/-- The one completion of a submission. `none` is a transport error,
from the callback or from the submit call itself. -/
def complete (e : Engine) (peer : NodeID) (msgs : List ReplicateMsg)
    (res : Option AckMsg) (now : Nat) : Option Engine :=
  if (peer, msgs) ∈ e.outbox then
    let e' := { e with outbox := e.outbox.erase (peer, msgs) }
    match msgs with
    | [] => none
    | [m] => some (e'.completeSend peer m res now)
    | m :: m' :: rest => some (e'.completeGroupSend peer m.epoch m.seq
        ((m' :: rest).getLast (by simp)).seq res now)
  else none

-- ======== waiters

/-- A proposer past sequencing that has not returned yet. -/
def waiting (e : Engine) (i : Nat) : Bool :=
  decide (i < e.pl.recs.length) && !(e.returned.map Prod.fst).contains i

/-- Tell the proposer of record `i` its outcome. -/
def returnTo (e : Engine) (i : Nat) (err : Option ProposeErr) : Engine :=
  { e with returned := e.returned ++ [(i, err)] }

/-- `Propose`'s wait: return what the record's channel carries. -/
def awaitDone (e : Engine) (i : Nat) : Option Engine :=
  if e.waiting i then
    match (e.pl.recs[i]?).bind fun r => r.doneCh.head? with
    | some err => some (e.returnTo i err)
    | none => none
  else none

/-- `Propose`'s deadline branch: time the record out and return the
outcome read back, which a commit that won the race keeps nil. -/
def ctxDone (e : Engine) (i : Nat) : Option Engine :=
  if e.waiting i then
    let e' := e.setPl (e.pl.resolveLocked i (some .replicationTimeout))
    match e'.pl.recs[i]? with
    | some r => some (e'.returnTo i r.err)
    | none => none
  else none

-- ======== the ISR reconciles

/-- Keep only the pending peers that are still members. -/
def narrowTo (keep : List NodeID) (r : Inflight) : Inflight :=
  { r with pending := r.pending.filter fun p => p ∈ keep }

/-- `ShrinkISR`: install the committed narrowing as the override of
`E`, narrow the in-flight records of `E`, drop the senders of the
removed peers, sweep. A no-op off the leased current epoch. -/
def shrinkISR (e : Engine) (E : Nat) (newISR : List NodeID) (now : Nat) :
    Engine :=
  if E ≠ e.epoch ∨ e.leaseEpoch ≠ E then e
  else
    let e' := { e with
      effISR := newISR
      effISREpoch := E
      pl := e.pl.mapInflight fun r =>
        if r.epoch = E then narrowTo newISR r else r }
    (e'.dropSenders fun p => p ∈ newISR).sweepLocked now

/-- `GrowISR`: install the committed widening as the override of `E`,
for future writes only. -/
def growISR (e : Engine) (E : Nat) (newISR : List NodeID) : Engine :=
  if E ≠ e.epoch ∨ e.leaseEpoch ≠ E then e
  else { e with effISR := newISR, effISREpoch := E }

end Engine

end Rostam.Pbisr
