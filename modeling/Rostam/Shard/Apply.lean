/-
The applied index of a shard's state machine: fsm.Apply and
fsm.ApplyBatch over the lifetimes of a process (shard/fsm.go,
apply_class.go).

What applyEntryData does to the state is a parameter, with an environment
of its own at each attempt, so an entry may succeed, fail or find its
module not resident as it likes. After a blocked attempt the machine
waits; the wait ends with another attempt or, where there is none left,
with the shutdown of the store. A process that is killed while it waits
leaves what a shutdown leaves. A fatal error on a replicated shard ends
the process.

The header is the applied index in the mmap file, which outlives the
process. A cache on the heap has none: it reads zero, and a restart
begins with an empty cache.

`runs` and `past` are not in the source. They remember the calls of
applyEntryData whose effects the cache at hand has seen, and every moment
the machine went through: one after each of these calls, and one after
each change of an index.

# What is left out

A process that dies while a handler runs or before its entry is recorded:
the source documents that a batch is applied again then. The durability
of a header that was written. The hooks, which only observe.
-/
import Rostam.Lib.Bytes

namespace Rostam.Shard.Apply

open Rostam.Lib

-- ======== errors

/-- What `errors.Is` finds in the chain of an error. -/
inductive Sentinel where
  | moduleNotResident
  | logEntryVersion
  | opNotRegistered
  | applyReadOnly
  | noGroupBinding
  | full
  | cannotEvict
  | flushNotDurable
  | reuseBarrier
  | applyAbandoned
  | other
  deriving DecidableEq, Repr

/-- An error, as the sentinels it wraps. -/
abbrev ApplyErr := List Sentinel

inductive ApplyClass where
  | advance
  | fatal
  | retry
  deriving DecidableEq, Repr

/-- `classifyApplyErr`. -/
def classifyApplyErr : Option ApplyErr → ApplyClass
  | none => .advance
  | some e =>
    if .moduleNotResident ∈ e then .retry
    else if .logEntryVersion ∈ e then .fatal
    else if .opNotRegistered ∈ e then .fatal
    else if .applyReadOnly ∈ e then .fatal
    else if .noGroupBinding ∈ e then .fatal
    else if .full ∈ e ∨ .cannotEvict ∈ e then .fatal
    else if .flushNotDurable ∈ e then .fatal
    else if .reuseBarrier ∈ e then .fatal
    else .advance

/-- `ApplyResponse`. -/
structure ApplyResponse where
  result : Bytes
  err : Option ApplyErr
  deriving DecidableEq, Repr

/-- `&ApplyResponse{}`. -/
def noResponse : ApplyResponse := ⟨[], none⟩

def abandonedResponse : ApplyResponse := ⟨[], some [.applyAbandoned]⟩

-- ======== machine

/-- A log entry; one that is not a command is a configuration. -/
structure Log (E : Type) where
  index : Nat
  command : Bool
  data : E
  deriving DecidableEq

/-- An entry on its way to the machine, and what each attempt to apply it
will meet: the first, and one after each wait. -/
structure Delivery (E Env : Type) where
  log : Log E
  first : Env
  more : List Env

/-- A shard: its cache's backing, whether it is replicated, and its
handlers. -/
structure Cfg (σ E Env : Type) where
  mmap : Bool
  replicated : Bool
  applyEntryData : Env → E → σ → σ × ApplyResponse

/-- A call of `applyEntryData`: the entry, what it met and what it
returned. -/
structure Run (E Env : Type) where
  log : Log E
  env : Env
  response : ApplyResponse
  deriving DecidableEq

/-- The machine at some moment. `header` is `cache.AppliedIndex()`,
`applied` the index in memory. -/
structure Moment (σ E Env : Type) where
  life : Nat
  header : Nat
  applied : Nat
  state : σ
  runs : List (Run E Env)
  deriving DecidableEq

/-- The state machine. -/
structure Fsm (σ E Env : Type) extends Moment σ E Env where
  abandoned : Bool
  halted : Bool
  past : List (Moment σ E Env)

variable {σ E Env : Type}

namespace Fsm

/-- Remember the moment. -/
def note (f : Fsm σ E Env) : Fsm σ E Env :=
  { f with past := f.past ++ [f.toMoment] }

/-- A call of `applyEntryData`. -/
def exec (cfg : Cfg σ E Env) (l : Log E) (env : Env) (f : Fsm σ E Env) :
    Fsm σ E Env × ApplyResponse :=
  let x := cfg.applyEntryData env l.data f.state
  (note { f with state := x.1, runs := f.runs ++ [⟨l, env, x.2⟩] }, x.2)

/-- `cache.SetAppliedIndex`; nothing on the heap. -/
def setAppliedIndex (cfg : Cfg σ E Env) (idx : Nat) (f : Fsm σ E Env) :
    Fsm σ E Env :=
  if cfg.mmap then { f with header := idx }.note else f

/-- `advanceApplied`. -/
def advanceApplied (idx : Nat) (f : Fsm σ E Env) : Fsm σ E Env :=
  if idx ≤ f.applied then f else { f with applied := idx }.note

/-- The process exits. -/
def halt (f : Fsm σ E Env) : Fsm σ E Env := { f with halted := true }

def abandon (f : Fsm σ E Env) : Fsm σ E Env := { f with abandoned := true }

end Fsm

-- ======== one entry

/-- How `applyWithRetry` ends: with a verdict, or still blocked when the
store closes. -/
inductive Outcome where
  | verdict (r : ApplyResponse)
  | blocked (r : ApplyResponse)

/-- `applyWithRetry` from the first wait on. -/
def rerun (cfg : Cfg σ E Env) (l : Log E) :
    List Env → Fsm σ E Env → ApplyResponse → Fsm σ E Env × Outcome
  | [], f, r => (f, .blocked r)
  | env :: more, f, _ =>
    let x := f.exec cfg l env
    if classifyApplyErr x.2.err ≠ .retry then (x.1, .verdict x.2)
    else rerun cfg l more x.1 x.2

/-- `applyWithRetry`. -/
def applyWithRetry (cfg : Cfg σ E Env) (d : Delivery E Env)
    (beforeFirstWait : Fsm σ E Env → Fsm σ E Env) (f : Fsm σ E Env) :
    Fsm σ E Env × Outcome :=
  let x := f.exec cfg d.log d.first
  if classifyApplyErr x.2.err ≠ .retry then (x.1, .verdict x.2)
  else rerun cfg d.log d.more (beforeFirstWait x.1) x.2

/-- The gate before `fireFatalApply`. -/
def isFatal (cfg : Cfg σ E Env) (r : ApplyResponse) : Bool :=
  r.err.isSome && cfg.replicated && classifyApplyErr r.err = .fatal

/-- `fsm.Apply`; the deferred advance runs at the end of the last
branch. -/
def apply (cfg : Cfg σ E Env) (d : Delivery E Env) (f : Fsm σ E Env) :
    Fsm σ E Env × ApplyResponse :=
  if f.abandoned then (f, abandonedResponse)
  else if d.log.index ≤ f.header then
    (f.advanceApplied d.log.index, noResponse)
  else
    match applyWithRetry cfg d id f with
    | (f, .blocked r) => (f.abandon, r)
    | (f, .verdict r) =>
      if isFatal cfg r then (f.halt, r)
      else ((f.setAppliedIndex cfg d.log.index).advanceApplied d.log.index, r)

-- ======== batches

/-- Record what was applied before a wait or a halt. -/
def recordPrefix (cfg : Cfg σ E Env) (cacheApplied appliedPrefix : Nat)
    (f : Fsm σ E Env) : Fsm σ E Env :=
  if cacheApplied < appliedPrefix then
    (f.setAppliedIndex cfg appliedPrefix).advanceApplied appliedPrefix
  else f

/-- The loop of `ApplyBatch` and what follows it. A response that was not
set is `none`. -/
def batchLoop (cfg : Cfg σ E Env) (cacheApplied : Nat) :
    List (Delivery E Env) → (maxIdx appliedPrefix : Nat) → Fsm σ E Env →
      Fsm σ E Env × List (Option ApplyResponse)
  | [], maxIdx, _, f =>
    if 0 < maxIdx then
      ((if cacheApplied < maxIdx then f.setAppliedIndex cfg maxIdx else f)
        |>.advanceApplied maxIdx, [])
    else (f, [])
  | d :: ds, maxIdx, appliedPrefix, f =>
    if !d.log.command || d.log.index ≤ cacheApplied then
      let x := batchLoop cfg cacheApplied ds (max maxIdx d.log.index)
        (max appliedPrefix d.log.index) f
      (x.1, some noResponse :: x.2)
    else
      match applyWithRetry cfg d
          (recordPrefix cfg cacheApplied appliedPrefix) f with
      | (f, .blocked r) => (f.abandon, some r :: ds.map fun _ => none)
      | (f, .verdict r) =>
        if isFatal cfg r then
          ((recordPrefix cfg cacheApplied appliedPrefix f).halt,
            some r :: ds.map fun _ => none)
        else
          let x := batchLoop cfg cacheApplied ds
            (max maxIdx d.log.index) (max appliedPrefix d.log.index) f
          (x.1, some r :: x.2)

/-- `fsm.ApplyBatch`. -/
def applyBatch (cfg : Cfg σ E Env) (ds : List (Delivery E Env))
    (f : Fsm σ E Env) : Fsm σ E Env × List (Option ApplyResponse) :=
  if f.abandoned then (f, ds.map fun _ => some abandonedResponse)
  else batchLoop cfg f.header ds 0 f.header f

-- ======== lifetimes

/-- What raft calls. -/
inductive Call (E Env : Type) where
  | apply (d : Delivery E Env)
  | applyBatch (ds : List (Delivery E Env))

/-- What a call delivers. -/
def Call.deliveries : Call E Env → List (Delivery E Env)
  | .apply d => [d]
  | .applyBatch ds => ds

/-- A call, on a process that is still there. -/
def call (cfg : Cfg σ E Env) (f : Fsm σ E Env) :
    Call E Env → Fsm σ E Env × List (Option ApplyResponse)
  | .apply d => let x := apply cfg d f; (x.1, [some x.2])
  | .applyBatch ds => applyBatch cfg ds f

/-- The calls of a lifetime; none after the process exits. -/
def live (cfg : Cfg σ E Env) (calls : List (Call E Env))
    (f : Fsm σ E Env) : Fsm σ E Env :=
  calls.foldl (fun f c => if f.halted then f else (call cfg f c).1) f

/-- A new process: over the file of the old one, or over nothing. -/
def restart (cfg : Cfg σ E Env) (init : σ) (f : Fsm σ E Env) :
    Fsm σ E Env :=
  Fsm.note <| if cfg.mmap then
    { f with
      applied := 0, abandoned := false, halted := false
      life := f.life + 1 }
  else ⟨⟨f.life + 1, 0, 0, init, []⟩, false, false, f.past⟩

/-- Before the first start. -/
def Fsm.fresh (init : σ) : Fsm σ E Env :=
  ⟨⟨0, 0, 0, init, []⟩, false, false, []⟩

/-- The lifetimes one after the other. -/
def run (cfg : Cfg σ E Env) (init : σ) (lives : List (List (Call E Env)))
    (f : Fsm σ E Env) : Fsm σ E Env :=
  lives.foldl (fun f calls => live cfg calls (restart cfg init f)) f

/-- What raft promises for a lifetime: consecutive entries of the log,
from an entry before which every command is in the header; Apply sees
commands only. -/
def Delivers (log : List (Log E)) (f : Fsm σ E Env)
    (calls : List (Call E Env)) : Prop :=
  (∃ before after, log = before
      ++ ((calls.flatMap Call.deliveries).map Delivery.log ++ after)
    ∧ ∀ l ∈ before, l.command = true → l.index ≤ f.header)
  ∧ ∀ d, Call.apply d ∈ calls → d.log.command = true

/-- The promise, lifetime by lifetime. -/
def DeliversAll (cfg : Cfg σ E Env) (init : σ) (log : List (Log E)) :
    List (List (Call E Env)) → Fsm σ E Env → Prop
  | [], _ => True
  | calls :: lives, f =>
    Delivers log (restart cfg init f) calls ∧ DeliversAll cfg init log lives
        (live cfg calls (restart cfg init f))

end Rostam.Shard.Apply
