/-
One shard's migration to a target owner set (cluster/migrate.go).

# The world

The parts of the cluster that a migration reads and writes, for one
shard: the placement committed to meta-Raft, each node's routing view of
it, the voters of the shard's group, the nodes that host its store, and
each node's applied and last log index. What Raft does by itself
(replication, elections) is `progress`: it may set the indexes to
anything and is constrained in no other way, and any candidate may be
the one that answers as the leader.

`reached` is a specification field: the nodes that were seen, since their
store was created, to have applied up to the leader's log end as it was
when the wait began.

# A run

`MigrateShard` is one coordinator with a program counter. A sub-call
returns nil, or an error after which it may or may not have taken
effect. Query calls answer a zero status on a transport error: a leader
that does not answer is not found, and a last index that is not answered
is zero. The coordinator may stop anywhere; `start` runs it again with
the same target, until it has returned nil.

The coordinator runs in the process of a node, so its crash is that
node's restart. `newNode` does not read the committed placement: it sets
the routing view to what `computePlacement` makes of the static peer
list, and opens the store only if that makes the node an owner.

The meta-less deployment, where the routing views are all there is, is
left out: without a committed placement there is nothing to compare.
-/
import Mathlib.Data.Finset.Basic
import Rostam.Lib.Trace

namespace Rostam.Cluster.Migrate

variable {ν : Type} [DecidableEq ν]

-- ======== owners

/-- `subtract`: the elements of `a` not in `b`. -/
def subtract (a b : List ν) : List ν := a.filter fun x => x ∉ b

/-- `union`: the unique elements of both, in order. -/
def union (a b : List ν) : List ν := (a ++ b).eraseDups

-- ======== states

/-- How a sub-call ended. -/
inductive CallOut where
  | ok
  | err (took : Bool)
  deriving DecidableEq, Repr

/-- Whether a sub-call took effect. -/
def CallOut.took : CallOut → Bool
  | .ok => true
  | .err took => took

/-- Where `MigrateShard` stands. `cur` is the owner set it read, `rest`
the nodes a loop has not finished. -/
inductive MigratePc (ν : Type) where
  | idle
  | confirm
  | findLeader (cur : List ν)
  | addOwner (cur : List ν) (leader : ν) (rest : List ν)
  | addVoter (cur : List ν) (leader : ν) (rest : List ν)
  | capture (cur : List ν) (leader : ν)
  | wait (cur : List ν) (seen logEnd : Nat)
  | commitUnion (cur : List ν)
  | commitTarget (cur : List ν)
  | release (rest : List ν)
  | transfer (rest : List ν)
  | newLeader (rest : List ν)
  | removeVoter (rest : List ν)
  | removeOwner (rest : List ν)
  | returned
  deriving DecidableEq, Repr

/-- One shard, and the coordinator that migrates it. -/
structure MigrateState (ν : Type) where
  placement : List ν
  view : ν → List ν
  voters : Finset ν
  hosts : Finset ν
  applied : ν → Nat
  lastIndex : ν → Nat
  reached : Finset ν
  pc : MigratePc ν

/-- What happens next. -/
inductive MigrateEvent (ν : Type) where
  | start (read : Option ν)
  | crash (node : ν)
  | timeout
  | leader (id : ν)
  | call (out : CallOut)
  | status (answered : Bool)
  | caughtUp
  | isLeader (lead : Bool)
  | commit (out : CallOut) (pushed : Finset ν)
  | progress (applied lastIndex : ν → Nat)

/-- The call: its target, the nodes of the `MigrationCluster`, and the
owners that `computePlacement` gives the shard. -/
structure Migration (ν : Type) where
  target : List ν
  known : ν → Bool
  computed : List ν

namespace Migration

variable (m : Migration ν)

/-- The owners to add to those that were read. -/
def gained (cur : List ν) : List ν := subtract m.target cur

/-- The owners to release from those that were read. -/
def lost (cur : List ν) : List ν := subtract cur m.target

-- ======== steps

/-- The gain loop: the next owner, or the wait. -/
def gainNext (cur : List ν) (leader : ν) : List ν → MigratePc ν
  | [] => .capture cur leader
  | rest => .addOwner cur leader rest

/-- The release loop: the next owner, or the end. -/
def releaseNext : List ν → MigratePc ν
  | [] => .returned
  | rest => .release rest

/-- The checks in front, and the diff against the owners that were
read. -/
def start (s : MigrateState ν) (read : Option ν) : MigrateState ν :=
  if m.target = [] ∨ m.target.any (fun id => !m.known id) then s
  else
    let cur := read.elim [] s.view
    if m.gained cur = [] ∧ m.lost cur = [] then { s with pc := .confirm }
    else { s with pc := .findLeader cur }

/-- The node that runs the coordinator stops and starts again. -/
def restart (s : MigrateState ν) (node : ν) : MigrateState ν :=
  let s := { s with
    view := fun n => if n = node then m.computed else s.view n
    pc := .idle }
  if node ∈ m.computed then { s with hosts := insert node s.hosts }
  -- the files stay on disk, but no store is opened
  else { s with
    hosts := s.hosts.erase node
    reached := s.reached.erase node }

/-- `commitPlacement`: the views are pushed, to whom they reach, only
after the commit was acknowledged. -/
def commitPlacement (s : MigrateState ν) (owners : List ν) (out : CallOut)
    (pushed : Finset ν) (next : MigratePc ν) : MigrateState ν :=
  match out with
  | .ok => { s with
      placement := owners
      view := fun n => if n ∈ pushed then owners else s.view n
      pc := next }
  | .err took => { s with
      placement := if took then owners else s.placement
      pc := .idle }

/-- A sub-call that returned: on to the next one, or out. -/
def after (s : MigrateState ν) (out : CallOut) (next : MigratePc ν) :
    MigrateState ν :=
  match out with
  | .ok => { s with pc := next }
  | .err _ => { s with pc := .idle }

/-- `addOwner` on `b`: it hosts the shard. -/
def callAddOwner (s : MigrateState ν) (b : ν) (out : CallOut) :
    MigrateState ν :=
  if out.took then { s with hosts := insert b s.hosts } else s

/-- `addVoter` on the leader. -/
def callAddVoter (s : MigrateState ν) (b : ν) (out : CallOut) :
    MigrateState ν :=
  if out.took then { s with voters := insert b s.voters } else s

/-- `removeVoter` on the leader. -/
def callRemoveVoter (s : MigrateState ν) (a : ν) (out : CallOut) :
    MigrateState ν :=
  if out.took then { s with voters := s.voters.erase a } else s

/-- `removeOwner` on `a`: its store is closed and deleted. -/
def callRemoveOwner (s : MigrateState ν) (a : ν) (out : CallOut) :
    MigrateState ν :=
  if out.took then
    { s with hosts := s.hosts.erase a, reached := s.reached.erase a }
  else s

/-- The wait is over: every gained replica has applied what was read as
the leader's log end. -/
def caughtUp (s : MigrateState ν) (cur : List ν) (seen logEnd : Nat) :
    Option (MigrateState ν) :=
  if ∀ b ∈ m.gained cur, seen ≤ s.applied b then
    some { s with
      reached := s.reached ∪
        ((m.gained cur).filter fun b => logEnd ≤ s.applied b).toFinset
      pc := .commitUnion cur }
  else none

/-- A sub-call of the gain or the release loop. -/
def call (s : MigrateState ν) (out : CallOut) : Option (MigrateState ν) :=
  match s.pc with
  | .addOwner cur leader (b :: rest) =>
    some (after (callAddOwner s b out) out (.addVoter cur leader (b :: rest)))
  | .addVoter cur leader (b :: rest) =>
    some (after (callAddVoter s b out) out (gainNext cur leader rest))
  | .transfer rest => some (after s out (.newLeader rest))
  | .removeVoter (a :: rest) =>
    some (after (callRemoveVoter s a out) out (.removeOwner (a :: rest)))
  | .removeOwner (a :: rest) =>
    some (after (callRemoveOwner s a out) out (releaseNext rest))
  | _ => none

/-- One step. -/
def step (s : MigrateState ν) (e : MigrateEvent ν) : Option (MigrateState ν) :=
  match e with
  | .progress applied lastIndex =>
    some { s with applied := applied, lastIndex := lastIndex }
  | .start read =>
    match s.pc with
    | .idle => some (m.start s read)
    | _ => none
  | .crash node =>
    match s.pc with
    | .returned => none
    | _ => some (m.restart s node)
  | .timeout =>
    match s.pc with
    | .findLeader _ | .wait .. | .newLeader _ =>
      some { s with pc := .idle }
    | _ => none
  | .leader id =>
    match s.pc with
    | .findLeader cur =>
      if id ∈ cur ∧ m.known id then
        some { s with pc := gainNext cur id (m.gained cur) }
      else none
    | .newLeader rest =>
      if id ∈ m.target ∧ m.known id then
        some { s with pc := .removeVoter rest }
      else none
    | _ => none
  | .status answered =>
    match s.pc with
    | .capture cur leader =>
      let seen := if answered then s.lastIndex leader else 0
      some { s with pc := .wait cur seen (s.lastIndex leader) }
    | _ => none
  | .caughtUp =>
    match s.pc with
    | .wait cur seen logEnd => m.caughtUp s cur seen logEnd
    | _ => none
  | .isLeader lead =>
    match s.pc with
    | .release (a :: rest) =>
      if m.known a then
        some { s with pc := if lead then .transfer (a :: rest)
          else .newLeader (a :: rest) }
      else none
    | _ => none
  | .call out => call s out
  | .commit out pushed =>
    match s.pc with
    | .confirm =>
      some (commitPlacement s m.target out pushed .returned)
    | .commitUnion cur =>
      some (commitPlacement s (union cur (m.gained cur)) out pushed
        (.commitTarget cur))
    | .commitTarget cur =>
      some (commitPlacement s m.target out pushed (releaseNext (m.lost cur)))
    | _ => none

end Migration

/-- A shard at rest: its placement, its voters and its hosts are the same
nodes, and no routing view says otherwise. -/
structure MigrateState.Settled (s : MigrateState ν) : Prop where
  idle : s.pc = .idle
  voters : s.voters = s.placement.toFinset
  hosts : s.hosts = s.placement.toFinset
  views : ∀ n, s.view n = [] ∨ s.view n = s.placement

end Rostam.Cluster.Migrate
