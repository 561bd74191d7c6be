/-
The read barriers over one Raft group: `Store.verifyLeaderAndCatchUp` of
a shard, and `Node.metaReadBarrier` of the catalogue.

Both rest on one body (`verifyLeaderAndCatchUpBody`, and the same again
as `metaLeaderFrontier`): confirm leadership with a quorum, take the
commit index, and either find the state machine's command frontier at or
past it or wait for a barrier entry to drain. A shard's callers share
bodies through `readindexCoalescer`; a follower of the catalogue shares,
through `metaFrontierCoalescer`, bodies that run on the node it forwards
to, and then polls its own state machine. The two coalescers are the same
code.

Every statement that reads shared state is a step of its own, so
elections, commits and snapshots come in between anywhere. `VerifyLeader`
hears its quorum one node at a time. Deadlines, and errors of the wire,
are steps that end a body or a call at any point. A restart takes the
calls of its node with it.

`began` and `since` are read by no step: the group as it was when a call
began, and when a flight was detached.
-/
import Rostam.Lib.Raft
import Rostam.Lib.Trace

namespace Rostam.Cluster.ReadIndex

open Lib.Raft (Group Quorums)

variable {ι α κ : Type} [DecidableEq ι] [DecidableEq α] [DecidableEq κ]

-- ======== the body

/-- What a body returns: the command frontier, `errMetaNotLeader` (for a
shard `NotLeaderError`), or any other error. -/
inductive Outcome where
  | frontier (f : Nat)
  | notLeader
  | failed
  deriving DecidableEq, Repr

/-- How far a body is. -/
inductive Body (ι : Type) where
  | called
  | verifying (term : Nat) (heard : List ι)
  | verified (term : Nat)
  | captured (term ci : Nat)
  | behind (term : Nat)
  | draining (term index : Nat)
  | drained
  | done (o : Outcome)
  deriving DecidableEq, Repr

inductive Act (ι : Type) where
  | verifyLeader
  | hear (q : ι)
  | confirm
  | commitIndex
  | appliedIndex
  | barrier
  | resolve
  | fail (o : Outcome)
  deriving DecidableEq, Repr

/-- One statement of a body that runs on node `m`. -/
def Body.step (Q : Quorums ι) (S : Group ι α) (m : ι) :
    Body ι → Act ι → Option (Group ι α × Body ι)
  | .called, .verifyLeader =>
    if (S.node m).role = .leader then
      some (S, .verifying (S.node m).term [])
    else some (S, .done .notLeader)
  -- a node that has moved on to a later term turns the heartbeat away
  | .verifying term heard, .hear q =>
    if (S.node q).term ≤ term then some (S, .verifying term (q :: heard))
    else none
  | .verifying term heard, .confirm =>
    if Q.ok heard = true ∧ (S.node m).role = .leader
        ∧ (S.node m).term = term then some (S, .verified term)
    else none
  | .verified term, .commitIndex =>
    some (S, .captured term (S.node m).commit)
  | .captured term ci, .appliedIndex =>
    if ci ≤ (S.node m).frontier then
      some (S, .done (.frontier (S.node m).frontier))
    else some (S, .behind term)
  | .behind _, .barrier =>
    if (S.node m).role = .leader then
      (Lib.Raft.step Q S (.append m none)).map fun S' =>
        (S', .draining (S.node m).term ((S.node m).log.length + 1))
    else some (S, .done .notLeader)
  | .draining term index, .resolve =>
    if index ≤ (S.node m).applied
        ∧ ((S.node m).log[index - 1]?).map (·.term) = some term then
      some (S, .drained)
    else none
  | .drained, .appliedIndex =>
    some (S, .done (.frontier (S.node m).frontier))
  | .done _, .fail _ => none
  | _, .fail (.frontier _) => none
  | _, .fail o => some (S, .done o)
  | _, _ => none

-- ======== the calls

/-- The two coalescers of a node: `Store.readindex`, `Node.metaFrontier`. -/
inductive Door where
  | store
  | catalog
  deriving DecidableEq, Repr

inductive Stage (ι : Type) where
  /-- In a batch of the coalescer. -/
  | queued (d : Door)
  /-- `metaReadBarrier` on a leader. -/
  | leading (b : Body ι)
  /-- `metaReadBarrierFollower` without a frontier. -/
  | fetching
  | polling (frontier : Nat)
  | returned (ok : Bool)
  /-- The process went down. -/
  | dead
  deriving DecidableEq, Repr

structure Call (ι : Type) where
  node : ι
  stage : Stage ι
  deriving DecidableEq, Repr

/-- A batch that runs, on node `site`. -/
structure Flight (ι α κ : Type) where
  members : List κ
  site : ι
  body : Body ι
  since : Group ι α

structure Barriers (ι α κ : Type) where
  raft : Group ι α
  call : κ → Option (Call ι)
  began : κ → Group ι α
  flight : Door → ι → Option (Flight ι α κ)
  pending : Door → ι → Option (List κ)

def Barriers.blank : Barriers ι α κ :=
  ⟨.blank, fun _ => none, fun _ => .blank, fun _ _ => none,
    fun _ _ => none⟩

inductive Event (ι α κ : Type) where
  | raft (e : Lib.Raft.Event ι α)
  | verifyLeaderAndCatchUp (c : κ) (n : ι)
  | metaReadBarrier (c : κ) (n : ι)
  | fetch (c : κ) (target : ι)
  | flight (d : Door) (n : ι) (a : Act ι)
  | lead (c : κ) (a : Act ι)
  | conclude (c : κ)
  | publish (d : Door) (n : ι) (target : ι)
  | poll (c : κ)
  | giveUp (c : κ)

namespace Barriers

variable (S : Barriers ι α κ)

def setStage (c : κ) (n : ι) (s : Stage ι) : Barriers ι α κ :=
  { S with call := Function.update S.call c (some ⟨n, s⟩) }

def setFlight (d : Door) (n : ι) (f : Option (Flight ι α κ)) :
    Barriers ι α κ :=
  { S with flight := fun d' n' =>
      if d' = d ∧ n' = n then f else S.flight d' n' }

def setPending (d : Door) (n : ι) (b : Option (List κ)) : Barriers ι α κ :=
  { S with pending := fun d' n' =>
      if d' = d ∧ n' = n then b else S.pending d' n' }

/-- A call begins. -/
def start (c : κ) (n : ι) (s : Stage ι) : Barriers ι α κ :=
  { S.setStage c n s with
    began := Function.update S.began c S.raft }

/-- The node whose body a flight of `n` runs: its own, or that of the
leader it forwards to. -/
def site (d : Door) (n target : ι) : ι :=
  match d with
  | .store => n
  | .catalog => target

/-- `readindexCoalescer.do` up to where the caller waits or leads. -/
def join (d : Door) (c : κ) (n target : ι) : Barriers ι α κ :=
  let batch := (S.pending d n).getD [] ++ [c]
  match S.flight d n with
  | some _ => S.setPending d n (some batch)
  | none => (S.setPending d n none).setFlight d n
      (some ⟨batch, site d n target, .called, S.raft⟩)

/-- What the result of a flight makes of a caller. -/
def result (d : Door) (o : Outcome) : Stage ι :=
  match d, o with
  | .store, .frontier _ => .returned true
  | .store, _ => .returned false
  | .catalog, .frontier f => .polling f
  | .catalog, _ => .fetching

/-- The callers that still wait for their batch learn its result. -/
def tell (d : Door) (n : ι) (members : List κ) (o : Outcome) :
    Barriers ι α κ :=
  { S with call := fun c =>
      if c ∈ members ∧ (S.call c) = some ⟨n, .queued d⟩ then
        some ⟨n, result d o⟩
      else S.call c }

/-- `runBatch` publishes and `drain` detaches the next batch, if any. -/
def publish (d : Door) (n target : ι) (members : List κ) (o : Outcome) :
    Barriers ι α κ :=
  match S.pending d n with
  | none => (S.tell d n members o).setFlight d n none
  | some batch => ((S.tell d n members o).setPending d n none).setFlight d n
      (some ⟨batch, site d n target, .called, S.raft⟩)

/-- Node `q` goes down: its calls and coalescers are gone, and whoever
forwarded to it gets an error. -/
def down (q : ι) : Barriers ι α κ :=
  { S with
    call := fun c => (S.call c).map fun k =>
      if k.node = q then { k with stage := .dead } else k
    flight := fun d n => if n = q then none else
      (S.flight d n).map fun F =>
        if F.site = q then { F with body := .done .failed } else F
    pending := fun d n => if n = q then none else S.pending d n }

end Barriers

def crashed : Lib.Raft.Event ι α → Option ι
  | .restart q _ => some q
  | _ => none

/-- One step; `peers n` is the number of meta peers node `n` is
configured with. -/
def step (Q : Quorums ι) (peers : ι → Nat) (S : Barriers ι α κ) :
    Event ι α κ → Option (Barriers ι α κ)
  | .raft e =>
    (Lib.Raft.step Q S.raft e).map fun R =>
      match crashed e with
      | some q => { S.down q with raft := R }
      | none => { S with raft := R }
  | .verifyLeaderAndCatchUp c n =>
    if S.call c = none then
      some ((S.start c n (.queued .store)).join .store c n n)
    else none
  | .metaReadBarrier c n =>
    if S.call c = none then
      if peers n ≤ 1 then some (S.start c n (.returned true))
      else if (S.raft.node n).role = .leader then
        some (S.start c n (.leading .called))
      else some (S.start c n .fetching)
    else none
  | .fetch c target =>
    match S.call c with
    | some ⟨n, .fetching⟩ =>
      -- a leader that resolves to the caller itself is no leader yet
      if target = n then none
      else some ((S.setStage c n (.queued .catalog)).join .catalog c n target)
    | _ => none
  | .flight d n a =>
    match S.flight d n with
    | some F =>
      (F.body.step Q S.raft F.site a).map fun r =>
        { S.setFlight d n (some { F with body := r.2 }) with
          raft := r.1 }
    | none => none
  | .lead c a =>
    match S.call c with
    | some ⟨n, .leading b⟩ =>
      (b.step Q S.raft n a).map fun r =>
        { S.setStage c n (.leading r.2) with raft := r.1 }
    | _ => none
  | .conclude c =>
    match S.call c with
    | some ⟨n, .leading (.done o)⟩ =>
      match o with
      | .frontier _ => some (S.setStage c n (.returned true))
      | .notLeader => some (S.setStage c n .fetching)
      | .failed => some (S.setStage c n (.returned false))
    | _ => none
  | .publish d n target =>
    match S.flight d n with
    | some F =>
      match F.body with
      | .done o => some (S.publish d n target F.members o)
      | _ => none
    | none => none
  | .poll c =>
    match S.call c with
    | some ⟨n, .polling f⟩ =>
      if f ≤ (S.raft.node n).frontier then
        some (S.setStage c n (.returned true))
      else none
    | _ => none
  | .giveUp c =>
    match S.call c with
    | some ⟨n, .queued _⟩ | some ⟨n, .fetching⟩ | some ⟨n, .polling _⟩ =>
      some (S.setStage c n (.returned false))
    | _ => none

end Rostam.Cluster.ReadIndex
