/-
One Raft group.

Elections, replication and commitment are the standard ones. A message
carries a prefix of its leader's log rather than a window of it with the
entry before: what a follower's consistency check establishes about the
rest is there to begin with. Messages stay on the wire, so they arrive
late, twice, out of order or never. Any family of lists that meet
pairwise will do for the quorums.

A node's commit index is its own knowledge: a leader moves it over an
entry of its own term that a quorum has acknowledged, a follower takes
over what its leader knew when it sent, and a new leader starts from what
it knew as a follower. Entries are commands, or something the state
machine never sees (a no-op, a configuration). `frontier` is the index of
the last command the state machine was handed. A node restarts from what
it has stored of its state machine, without a commit index.

`book` and `committed` are read by no step: the log of each term's
leader, and the prefixes leaders have committed with the term they did so
in.
-/
import Mathlib.Data.List.Infix
import Mathlib.Logic.Function.Basic

namespace Rostam.Lib.Raft

open Function

variable {ι α : Type} [DecidableEq ι] [DecidableEq α]

-- ======== the state

structure Entry (α : Type) where
  term : Nat
  cmd : Option α
  deriving DecidableEq, Repr

inductive Role where
  | follower
  | candidate
  | leader
  deriving DecidableEq, Repr

structure Node (α : Type) where
  term : Nat
  role : Role
  log : List (Entry α)
  commit : Nat
  applied : Nat
  fsm : List α
  frontier : Nat

/-- A request for votes, with the log of the candidate. -/
structure Request (ι α : Type) where
  node : ι
  term : Nat
  log : List (Entry α)
  deriving DecidableEq, Repr

/-- A vote granted, with the log of the voter. -/
structure Vote (ι α : Type) where
  voter : ι
  req : Request ι α
  log : List (Entry α)
  deriving DecidableEq, Repr

/-- What a leader sends: a prefix of its log and its commit index. -/
structure Append (α : Type) where
  term : Nat
  log : List (Entry α)
  commit : Nat
  deriving DecidableEq, Repr

structure Ack (ι : Type) where
  node : ι
  term : Nat
  upTo : Nat
  deriving DecidableEq, Repr

structure Group (ι α : Type) where
  node : ι → Node α
  requests : List (Request ι α)
  votes : List (Vote ι α)
  sent : List (Append α)
  snaps : List (Append α)
  acks : List (Ack ι)
  book : Nat → Option (ι × List (Entry α))
  committed : List (Nat × List (Entry α))

/-- The lists of nodes that are quorums. -/
structure Quorums (ι : Type) where
  ok : List ι → Bool
  meet : ∀ a b, ok a = true → ok b = true → ∃ x, x ∈ a ∧ x ∈ b

def Node.blank : Node α := ⟨0, .follower, [], 0, 0, [], 0⟩

def Group.blank : Group ι α :=
  ⟨fun _ => .blank, [], [], [], [], [], fun _ => none, []⟩

-- ======== the logs

/-- The commands of a log. -/
def cmds (l : List (Entry α)) : List α := l.filterMap Entry.cmd

/-- The index of the last command, counted from 1. -/
def lastCmd : List (Entry α) → Nat
  | [] => 0
  | e :: rest =>
    if lastCmd rest = 0 then if e.cmd.isSome then 1 else 0
    else lastCmd rest + 1

def lastTerm (l : List (Entry α)) : Nat := (l.getLast?.map Entry.term).getD 0

/-- The candidate's log `c` is at least as up to date as `l`. -/
def upToDate (c l : List (Entry α)) : Bool :=
  decide (lastTerm l < lastTerm c)
    || decide (lastTerm l = lastTerm c) && decide (l.length ≤ c.length)

/-- What a follower makes of a leader's prefix: it keeps a log that
agrees with it, and otherwise drops what does not. -/
def merge (l m : List (Entry α)) : List (Entry α) :=
  if m <+: l then l else m

-- ======== the steps

inductive Event (ι α : Type) where
  | campaign (n : ι)
  | grant (q : ι) (req : Request ι α)
  | win (n : ι) (quorum : List ι)
  | observe (q : ι) (term : Nat)
  | append (n : ι) (cmd : Option α)
  | send (n : ι) (k : Nat)
  | receive (q : ι) (m : Append α)
  | commit (n : ι) (i : Nat) (quorum : List ι)
  | apply (q : ι)
  | snapshot (n : ι)
  | install (q : ι) (m : Append α)
  | restart (q : ι) (k : Nat)

namespace Group

variable (S : Group ι α)

def set (q : ι) (x : Node α) : Group ι α :=
  { S with node := update S.node q x }

/-- Node `q` accepts messages of `term`. -/
def accepts (q : ι) (term : Nat) : Prop := (S.node q).term ≤ term
    ∧ ¬ ((S.node q).role = .leader ∧ (S.node q).term = term)

instance (q : ι) (term : Nat) : Decidable (S.accepts q term) :=
  inferInstanceAs (Decidable (_ ∧ _))

def acked (q : ι) (term k : Nat) : Bool := S.acks.any fun a =>
    decide (a.node = q) && decide (a.term = term) && decide (k ≤ a.upTo)

def votedFor (q n : ι) (term : Nat) : Bool :=
  S.votes.any fun v => decide (v.voter = q) && decide (v.req.node = n)
    && decide (v.req.term = term)

end Group

/-- The node with entries up to and with the next one applied. -/
def Node.applyNext (x : Node α) : Node α :=
  match x.log[x.applied]? with
  | some ⟨_, some c⟩ => { x with
      applied := x.applied + 1
      fsm := x.fsm ++ [c]
      frontier := x.applied + 1 }
  | _ => { x with applied := x.applied + 1 }

/-- One step; `none` where it is not enabled. -/
def step (Q : Quorums ι) (S : Group ι α) : Event ι α → Option (Group ι α)
  | .campaign n =>
    let x := S.node n
    let req : Request ι α := ⟨n, x.term + 1, x.log⟩
    some { S.set n { x with term := x.term + 1, role := .candidate } with
      requests := req :: S.requests
      votes := ⟨n, req, x.log⟩ :: S.votes }
  | .grant q req =>
    let x := S.node q
    if req ∈ S.requests ∧ x.term ≤ req.term
        ∧ (∀ v ∈ S.votes, v.voter = q → v.req.term ≠ req.term)
        ∧ upToDate req.log x.log = true then
      some { S.set q { x with term := req.term, role := .follower } with
        votes := ⟨q, req, x.log⟩ :: S.votes }
    else none
  | .win n quorum =>
    let x := S.node n
    if x.role = .candidate ∧ Q.ok quorum = true
        ∧ (∀ q ∈ quorum, S.votedFor q n x.term = true) then
      some { S.set n { x with role := .leader } with
        acks := ⟨n, x.term, x.log.length⟩ :: S.acks
        book := update S.book x.term (some (n, x.log)) }
    else none
  | .observe q term =>
    let x := S.node q
    if x.term < term then
      some (S.set q { x with term := term, role := .follower })
    else none
  | .append n cmd =>
    let x := S.node n
    if x.role = .leader then
      let log := x.log ++ [⟨x.term, cmd⟩]
      some { S.set n { x with log := log } with
        acks := ⟨n, x.term, log.length⟩ :: S.acks
        book := update S.book x.term (some (n, log)) }
    else none
  | .send n k =>
    let x := S.node n
    if x.role = .leader then
      some { S with sent := ⟨x.term, x.log.take k, x.commit⟩ :: S.sent }
    else none
  | .receive q m =>
    let x := S.node q
    if m ∈ S.sent ∧ S.accepts q m.term then
      some { S.set q { x with
          term := m.term
          role := .follower
          log := merge x.log m.log
          commit := max x.commit (min m.commit m.log.length) } with
        acks := ⟨q, m.term, m.log.length⟩ :: S.acks }
    else none
  | .commit n i quorum =>
    let x := S.node n
    if x.role = .leader ∧ x.commit < i ∧ i ≤ x.log.length
        ∧ lastTerm (x.log.take i) = x.term ∧ Q.ok quorum = true
        ∧ (∀ q ∈ quorum, S.acked q x.term i = true) then
      some { S.set n { x with commit := i } with
        committed := (x.term, x.log.take i) :: S.committed }
    else none
  | .apply q =>
    let x := S.node q
    if x.applied < x.commit then some (S.set q x.applyNext) else none
  | .snapshot n =>
    let x := S.node n
    if x.role = .leader then
      some { S with snaps :=
        ⟨x.term, x.log.take x.applied, x.applied⟩ :: S.snaps }
    else none
  | .install q m =>
    let x := S.node q
    if m ∈ S.snaps ∧ S.accepts q m.term ∧ x.applied < m.log.length then
      some { S.set q { x with
          term := m.term
          role := .follower
          log := merge x.log m.log
          applied := m.log.length
          fsm := cmds m.log
          frontier := max x.frontier (lastCmd m.log) } with
        acks := ⟨q, m.term, m.log.length⟩ :: S.acks }
    else none
  | .restart q k =>
    let x := S.node q
    if k ≤ x.applied then
      some (S.set q { x with
        role := .follower
        commit := 0
        applied := k
        fsm := cmds (x.log.take k)
        frontier := lastCmd (x.log.take k) })
    else none

end Rostam.Lib.Raft
