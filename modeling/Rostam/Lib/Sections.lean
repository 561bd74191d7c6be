/-
Critical sections over a table of locks, one lock a location.

A job is a sequence of critical sections; a section names the locks it
takes, in order, and a program that then reads and writes the shared
memory one access at a time. A pool runs any number of jobs, one step
of one job at a time, so two sections interleave wherever their locks
let them.

`Job.Tidy` is the discipline at one location: the job touches it in at
most one of its sections, and in that one under its lock.
-/
import Mathlib.Algebra.Order.Ring.Nat
import Mathlib.Data.List.Induction
import Mathlib.Data.List.Infix

namespace Rostam.Lib

open Function

-- ======== programs

/-- A program over shared memory: the accesses it makes, each chosen by
the answers to the ones before. -/
inductive Prog (A R α : Type) where
  | done (a : α)
  | call (acc : A) (k : R → Prog A R α)

namespace Prog

variable {A R α β : Type} {P : A → Prop}

/-- Go on with `f` from the program's outcome. -/
def bind : Prog A R α → (α → Prog A R β) → Prog A R β
  | done a, f => f a
  | call acc k, f => call acc fun r => (k r).bind f

instance : Monad (Prog A R) where
  pure := done
  bind := bind

/-- One access, and its answer. -/
def access (acc : A) : Prog A R R := call acc done

/-- Every access the program can make, on every path, meets `P`. -/
def All (P : A → Prop) : Prog A R α → Prop
  | done _ => True
  | call acc k => P acc ∧ ∀ r, (k r).All P

theorem all_pure (a : α) : (pure a : Prog A R α).All P := trivial

/-- A sequence makes the accesses of both parts. -/
theorem all_bind {f : α → Prog A R β} {p : Prog A R α} (hp : p.All P)
    (hf : ∀ a, (f a).All P) : (p >>= f).All P := by
  induction p with
  | done a => exact hf a
  | call acc k ih => exact ⟨hp.1, fun r => ih r (hp.2 r)⟩

theorem All.imp {Q : A → Prop} (h : ∀ a, P a → Q a) {p : Prog A R α}
    (hp : p.All P) : p.All Q := by
  induction p with
  | done a => trivial
  | call acc k ih => exact ⟨h acc hp.1, fun r => ih r (hp.2 r)⟩

/-- The complete runs of a program: its accesses with their answers, and
the outcome they lead to. -/
inductive Ran : Prog A R α → List (A × R) → α → Prop
  | done (a : α) : Ran (.done a) [] a
  | call {acc : A} {k : R → Prog A R α} {r : R} {xs : List (A × R)}
      {a : α} : Ran (k r) xs a → Ran (.call acc k) ((acc, r) :: xs) a

end Prog

/-- A job: critical sections one after the other, and what it returns. -/
inductive Job (L A R α : Type) where
  | ret (a : α)
  | crit (locks : List L) (body : Prog A R α) (next : α → Job L A R α)

/-- The complete runs of a job. -/
inductive Job.Ran {L A R α : Type} :
    Job L A R α → List (A × R) → α → Prop
  | ret (a : α) : Ran (.ret a) [] a
  | crit {locks : List L} {body : Prog A R α} {next : α → Job L A R α}
      {xs ys : List (A × R)} {a b : α} :
      body.Ran xs a → Ran (next a) ys b →
      Ran (.crit locks body next) (xs ++ ys) b

-- ======== memory

/-- Shared memory by location. An access touches some locations, turns
the content of each into another one, and answers with what it read at
any of them; `C` is what the environment decides about it. -/
structure Memory (L A R C E : Type) where
  touches : A → L → Bool
  write : A → C → L → E → E
  read : A → C → L → E → R
  answer : A → C → (L → E) → R
  answer_eq : ∀ a c l m, touches a l = true → answer a c m = read a c l (m l)

/-- One access of a run, with who made it and what it was answered. -/
structure Event (ι A R C : Type) where
  thread : ι
  acc : A
  choice : C
  res : R

namespace Memory

variable {L A R C E ι : Type} [DecidableEq R] (M : Memory L A R C E)

/-- Replay accesses on the content of one location, checking that each
is answered as it was. -/
def replay (l : L) : E → List (Event ι A R C) → Option E
  | e, [] => some e
  | e, ev :: rest =>
    if M.read ev.acc ev.choice l e = ev.res then
      replay l (M.write ev.acc ev.choice l e) rest
    else none

theorem replay_append (l : L) (ys : List (Event ι A R C)) :
    ∀ (e : E) (xs : List (Event ι A R C)), M.replay l e (xs ++ ys)
        = (M.replay l e xs).bind fun e' => M.replay l e' ys := by
  intro e xs
  induction xs generalizing e with
  | nil => rfl
  | cons x xs ih =>
    simp only [List.cons_append, replay]
    split
    · exact ih _
    · rfl

end Memory

-- ======== pool

/-- Where a job stands: between sections, on its way into one or in it,
or on its way out. -/
inductive Pc (L A R α : Type) where
  | idle (t : Job L A R α)
  | lock (held todo : List L) (body : Prog A R α)
      (next : α → Job L A R α)
  | unlock (held : List L) (rest : Job L A R α)

namespace Pc

variable {L A R α : Type}

/-- The locks it holds. -/
def held : Pc L A R α → List L
  | idle _ => []
  | lock h _ _ _ => h
  | unlock h _ => h

/-- The complete runs of what is left. -/
def Ran : Pc L A R α → List (A × R) → α → Prop
  | idle t, xs, b => t.Ran xs b
  | lock _ _ body next, zs, b =>
    ∃ xs a ys, body.Ran xs a ∧ (next a).Ran ys b ∧ zs = xs ++ ys
  | unlock _ rest, xs, b => rest.Ran xs b

end Pc

/-- A pool of jobs over one memory. `log` keeps every access in the
order they took effect. -/
structure Pool (ι L A R C E α : Type) where
  pc : ι → Pc L A R α
  owner : L → Option ι
  mem : L → E
  log : List (Event ι A R C)

namespace Pool

variable {ι L A R C E α : Type} [DecidableEq ι] [DecidableEq L]

/-- The pool before any job has moved. -/
def start (job : ι → Job L A R α) (m₀ : L → E) : Pool ι L A R C E α where
  pc i := .idle (job i)
  owner _ := none
  mem := m₀
  log := []

/-- Move job `i`'s program counter. -/
def setPc (s : Pool ι L A R C E α) (i : ι) (p : Pc L A R α) :
    Pool ι L A R C E α :=
  { s with pc := update s.pc i p }

/-- Job `i` performs an access: it takes effect at once, everywhere it
touches. -/
def perform (M : Memory L A R C E) (s : Pool ι L A R C E α) (i : ι)
    (acc : A) (c : C) : Pool ι L A R C E α :=
  { s with
    mem := fun l =>
      if M.touches acc l then M.write acc c l (s.mem l) else s.mem l
    log := s.log ++ [⟨i, acc, c, M.answer acc c s.mem⟩] }

/-- One step of one job; the environment's choice is read only by an
access. A lock that is taken keeps the job where it is. -/
def step (M : Memory L A R C E) (s : Pool ι L A R C E α) (x : ι × C) :
    Option (Pool ι L A R C E α) :=
  match s.pc x.1 with
  | .idle (.ret _) => none
  | .idle (.crit locks body next) =>
    some (s.setPc x.1 (.lock [] locks body next))
  | .lock held (k :: todo) body next =>
    match s.owner k with
    | some _ => none
    | none =>
      some (({ s with owner := update s.owner k (some x.1) }
        : Pool ι L A R C E α).setPc x.1 (.lock (held ++ [k]) todo body next))
  | .lock held [] (.done a) next =>
    some (s.setPc x.1 (.unlock held (next a)))
  | .lock held [] (.call acc k) next =>
    some ((s.perform M x.1 acc x.2).setPc x.1
      (.lock held [] (k (M.answer acc x.2 s.mem)) next))
  | .unlock (k :: held) rest =>
    some (({ s with owner := update s.owner k none }
      : Pool ι L A R C E α).setPc x.1 (.unlock held rest))
  | .unlock [] rest => some (s.setPc x.1 (.idle rest))

/-- Job `i`'s own accesses. -/
def own (s : Pool ι L A R C E α) (i : ι) : List (Event ι A R C) :=
  s.log.filter fun ev => decide (ev.thread = i)

/-- Job `i`'s accesses that touch `l`. -/
def part (M : Memory L A R C E) (s : Pool ι L A R C E α) (l : L)
    (i : ι) : List (Event ι A R C) :=
  s.log.filter fun ev => decide (ev.thread = i) && M.touches ev.acc l

end Pool

-- ======== discipline

section Discipline

variable {ι L A R C E α : Type} [DecidableEq ι] [DecidableEq L]
variable (M : Memory L A R C E) (l : L)

/-- The program never touches `l`. -/
def Prog.Avoids {β : Type} (p : Prog A R β) : Prop :=
  p.All fun acc => M.touches acc l = false

/-- The job never touches `l`. -/
def Job.Avoids : Job L A R α → Prop
  | ret _ => True
  | crit _ body next => body.Avoids M l ∧ ∀ x, (next x).Avoids

/-- The job touches `l` in one of its sections at most, and there under
its lock. -/
def Job.Tidy : Job L A R α → Prop
  | ret _ => True
  | crit locks body next =>
    (body.Avoids M l ∧ ∀ x, (next x).Tidy)
      ∨ (l ∈ locks ∧ ∀ x, (next x).Avoids M l)

namespace Pc

/-- What is left never touches `l`. -/
def Avoids : Pc L A R α → Prop
  | idle t => t.Avoids M l
  | lock _ _ body next => body.Avoids M l ∧ ∀ x, (next x).Avoids M l
  | unlock _ rest => rest.Avoids M l

/-- What is left keeps the discipline. -/
def Tidy : Pc L A R α → Prop
  | idle t => t.Tidy M l
  | lock held todo body next =>
    (body.Avoids M l ∧ ∀ x, (next x).Tidy M l)
      ∨ (l ∈ held ++ todo ∧ ∀ x, (next x).Avoids M l)
  | unlock _ rest => rest.Tidy M l

/-- In the one section that may touch `l`, with its lock. -/
def Inside : Pc L A R α → Prop
  | lock held _ _ next => l ∈ held ∧ ∀ x, (next x).Avoids M l
  | _ => False

end Pc

omit [DecidableEq L] in
theorem Job.Avoids.tidy {t : Job L A R α} (h : t.Avoids M l) : t.Tidy M l := by
  induction t with
  | ret a => trivial
  | crit locks body next ih => exact .inl ⟨h.1, fun x => ih x (h.2 x)⟩

omit [DecidableEq L] in
/-- Whoever is inside a section holds its lock. -/
theorem Pc.Inside.held_mem {M : Memory L A R C E} {l : L}
    {p : Pc L A R α} (h : p.Inside M l) : l ∈ p.held := by
  cases p with
  | idle t => exact h.elim
  | lock held todo body next => exact h.1
  | unlock held rest => exact h.elim

end Discipline

end Rostam.Lib
