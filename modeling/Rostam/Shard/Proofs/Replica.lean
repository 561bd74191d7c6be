/-
Replicas of one log agree.

From the last entry's stamp on, a replica's shards back their shares of
the map the log leaves (`Holds`), whatever else has happened to it: an
applied entry moves the map, and every other event leaves it alone. Two
replicas of one log then read alike, since both read as the map does.
-/
import Rostam.Cache.Proofs.Backs
import Rostam.Cache.Proofs.Group
import Rostam.Cache.Proofs.HeapBacks
import Rostam.Cache.Proofs.Restart
import Rostam.Shard.Replica

namespace Rostam.Shard

open Rostam.Lib Rostam.Ops Rostam.Cache

/-- A run recycles no page but those that are safe to empty. -/
def Replica.RecyclesSafely (R : Replica)
    (c : Fin R.shards → Cache.Shard) : Event R.shards → Prop
  | .recycle i page =>
    (∃ p : Page, (c i).pages[page]? = some p ∧ p.retired = true) →
      (c i).SafeToEmpty R.cfg page
  | _ => True

variable {R : Replica} {c c' : Fin R.shards → Cache.Shard} {t t' : Nat}
  {m : Entries}

/-- A shard backs a map from clock `t` on. -/
def Replica.Backs (R : Replica) (t : Nat) (s : Cache.Shard)
    (m : Entries) : Prop :=
  match R.backing with
  | .mmap => Cache.Backs R.cfg t s m
  | .heap _ => HeapBacks R.cfg t s m

/-- The shards back their shares of a map from clock `t` on. -/
def Replica.Holds (R : Replica) (t : Nat)
    (c : Fin R.shards → Cache.Shard) (m : Entries) : Prop :=
  Shares R.shards R.cfg.hashKey (fun _ => R.Backs) t c m

section Shards

variable {s : Cache.Shard}

theorem Replica.Backs.mono (hb : R.Backs t s m) (ht : t ≤ t') :
    R.Backs t' s m := by
  unfold Replica.Backs at hb ⊢
  split at hb
  · exact Cache.Backs.mono hb ht
  · exact HeapBacks.mono hb ht

/-- From clock `t` on the shard reads as the map does. -/
theorem Replica.Backs.resolve (hb : R.Backs t s m) (ht : t ≤ t')
    (key : Key) : s.resolve R.cfg key t' = m.read key t' := by
  unfold Replica.Backs at hb
  split at hb
  · exact Cache.Backs.resolve hb ht key
  · exact HeapBacks.read hb key t' ht

theorem Replica.Backs.clock (hb : R.Backs t s m) :
    s.lastAppliedStampMs ≤ t := by
  unfold Replica.Backs at hb
  split at hb
  · exact Cache.Backs.clock hb
  · exact HeapBacks.clock hb

theorem Replica.Backs.sweep (hb : R.Backs t s m) {now : Nat}
    (hnow : now ≤ t) (reached : Nat → Bool) :
    R.Backs t (s.sweepIndex now reached) m := by
  unfold Replica.Backs at hb ⊢
  split at hb
  · exact Cache.Backs.sweep hb hnow reached
  · exact HeapBacks.sweep hb hnow reached

/-- The shards are a store that refines the map. -/
theorem Replica.refines (R : Replica) (env : Cache.Shard.EvictEnv) :
    Refines (R.store env) R.cfg.hashKey R.Holds := by
  apply refines_group
  intro _
  unfold Replica.shardStore Replica.Backs
  cases R.backing with
  | mmap => exact refines_shardStore R.policy env
  | heap initial => exact refines_heapStore R.cfg

end Shards

theorem Replica.Holds.shard (hc : R.Holds t c m) (i : Fin R.shards) :
    R.Backs t (c i) (shareOf R.shards R.cfg.hashKey m i) := hc i

theorem Replica.Holds.mono (hc : R.Holds t c m) (ht : t ≤ t') :
    R.Holds t' c m := fun i => (hc.shard i).mono ht

/-- From `t` on the replica reads as the map does. -/
theorem Replica.Holds.getAt (hc : R.Holds t c m) (ht : t ≤ t')
    (key : Key) : R.getAt c key t' = m.read key t' := by
  unfold Replica.getAt
  rw [(hc.shard (shardFor R.shards R.cfg.hashKey key)).resolve ht,
    read_shareOf]

/-- A step of one shard that its map does not see. -/
theorem Replica.Holds.set (hc : R.Holds t c m) {i : Fin R.shards}
    {s : Cache.Shard} (hs : ∀ m, R.Backs t (c i) m → R.Backs t s m) :
    R.Holds t (Function.update c i s) m :=
  hc.update (hs _ (hc i)) fun _ _ => rfl

/-- A new cache holds the empty map. -/
theorem Replica.holds_fresh (R : Replica) :
    R.Holds 0 R.fresh fun _ => none := by
  intro i
  rw [shareOf_none]
  unfold Replica.Backs Replica.fresh
  cases R.backing with
  | mmap => exact backs_fresh R.cfg 0
  | heap initial => exact heapBacks_fresh R.cfg 0 initial

/-- An applied entry is the map's entry at its stamp. -/
theorem Replica.Holds.apply {e : LogEntry} {env : Cache.Shard.EvictEnv}
    (hc : R.Holds t c m) (ht : t ≤ e.1)
    (hstep : R.step c (.apply e env) = some c') :
    R.Holds e.1 c'
      ((applyEntry (entriesStore R.cfg.hashKey) e.1 e.2).exec m).2 := by
  simp only [Replica.step] at hstep
  split at hstep
  · next resp c₁ hx =>
    injection hstep with hstep
    subst hstep
    obtain ⟨resp', m', hm, hc', _⟩ :=
      (R.refines env).sim_applyEntry e.2 c m resp c₁ (hc.mono ht) hx
    rw [hm]
    exact hc'
  · cases hstep

/-- Whatever else happens to a replica does not show from `t` on. -/
theorem Replica.Holds.other {ev : Event R.shards} (hc : R.Holds t c m)
    (hsafe : R.RecyclesSafely c ev)
    (hev : ∀ e env, ev ≠ .apply e env)
    (hstep : R.step c ev = some c') : R.Holds t c' m := by
  cases ev with
  | apply e env => exact absurd rfl (hev e env)
  | read key now =>
    cases hstep
    refine hc.set fun m hb => ?_
    -- a replicated shard's client reads remove nothing
    have hget : (c (shardFor R.shards R.cfg.hashKey key)).get R.cfg key
        now (!R.cfg.replicated) =
        c (shardFor R.shards R.cfg.hashKey key) := by
      rw [R.replicated]
      unfold Cache.Shard.get
      split
      · rw [Bool.not_true, Bool.and_false]
        rfl
      · rfl
    rw [hget]
    exact hb
  | sweep i now reached =>
    obtain ⟨hnow, rfl⟩ := guarded hstep
    exact hc.set fun m hb => hb.sweep (hnow.trans hb.clock) reached
  | reclaim i page stamp =>
    obtain ⟨hguard, rfl⟩ := guarded hstep
    refine hc.set fun m hb => ?_
    have hstamp := hguard.2.trans hb.clock
    unfold Replica.Backs at hb ⊢
    split at hb
    · next hmmap => exact absurd hmmap hguard.1
    · exact HeapBacks.reclaim hb hstamp
  | setAppliedIndex =>
    obtain ⟨_, _, _, _, _, _⟩ := R
    obtain ⟨rfl, rfl⟩ := guarded hstep
    exact fun i => Cache.Backs.persistStamp (hc.shard i)
  | relocate i page dropClock =>
    obtain ⟨_, _, _, _, hpol, _⟩ := R
    obtain ⟨⟨rfl, _⟩, rfl⟩ := guarded hstep
    exact hc.set fun m hb => Cache.Backs.relocate hpol hb page dropClock
  | recycle i page =>
    obtain ⟨_, _, _, _, _, _⟩ := R
    obtain ⟨rfl, rfl⟩ := guarded hstep
    exact hc.set fun m hb => Cache.Backs.recycle hb hsafe
  | restart env =>
    obtain ⟨_, _, _, _, _, hrep⟩ := R
    obtain ⟨rfl, rfl⟩ := guarded hstep
    exact fun i => Cache.Backs.reopen (hc.shard i) hrep (env i)

-- ======== runs

theorem applied_append {n : Nat} (evs : List (Event n)) (ev : Event n) :
    applied (evs ++ [ev]) = applied evs ++
      (match ev with | .apply e _ => [e] | _ => []) := by
  unfold applied
  rw [List.filterMap_append]
  cases ev <;> rfl

/-- A log's stamps do not go back. -/
def Stamped (log : List LogEntry) : Prop := log.Pairwise fun a b => a.1 ≤ b.1

theorem Stamped.of_prefix {log log' : List LogEntry} (h : Stamped log)
    (hpre : log' <+: log) : Stamped log' :=
  List.Pairwise.sublist hpre.sublist h

theorem lastStamp_concat (log : List LogEntry) (e : LogEntry) :
    lastStamp (log ++ [e]) = e.1 := by
  unfold lastStamp
  rw [List.getLast?_concat]
  rfl

/-- One more entry of the log. -/
theorem replay_concat (hash : Key → Nat) (log : List LogEntry) (e : LogEntry) :
    replay hash (log ++ [e])
      = ((applyEntry (entriesStore hash) e.1 e.2).exec (replay hash log)).2 :=
  List.foldl_concat ..

/-- The next stamp is not below the last one. -/
theorem Stamped.lastStamp_le {log : List LogEntry} {e : LogEntry}
    (h : Stamped (log ++ [e])) : lastStamp log ≤ e.1 := by
  unfold lastStamp
  cases hl : log.getLast? with
  | none => exact Nat.zero_le _
  | some a =>
    obtain ⟨_, _, hcross⟩ := List.pairwise_append.mp h
    exact hcross a (List.mem_of_getLast? hl) e List.mem_cons_self

/-- What holds at the start, follows an entry of the log that is applied,
and is left alone by everything else holds in every run. -/
theorem Replica.reach_entries {log : List LogEntry}
    {P : (Fin R.shards → Cache.Shard) → List LogEntry → Prop}
    {c₀ : Fin R.shards → Cache.Shard} (hstart : P c₀ [])
    (happly : ∀ {c c' l e env}, P c l → l ++ [e] <+: log →
      R.step c (.apply e env) = some c' → P c' (l ++ [e]))
    (hother : ∀ {c c' l ev}, P c l → R.RecyclesSafely c ev →
      (∀ e env, ev ≠ .apply e env) → R.step c ev = some c' → P c' l)
    {evs : List (Event R.shards)}
    (hr : Reach R.step R.RecyclesSafely c₀ evs c)
    (hlog : applied evs <+: log) : P c (applied evs) := by
  revert hlog
  refine hr.invariant
    (P := fun evs c => applied evs <+: log → P c (applied evs))
    (fun _ => hstart) ?_
  intro evs c ev c' _ ih hsafe hstep hlog
  by_cases hev : ∀ e env, ev ≠ .apply e env
  · have happ : applied (evs ++ [ev]) = applied evs := by
      rw [applied_append]
      cases ev with
      | apply e env => exact absurd rfl (hev e env)
      | _ => exact List.append_nil _
    rw [happ] at hlog ⊢
    exact hother (ih hlog) hsafe hev hstep
  · simp only [ne_eq, not_forall, not_not] at hev
    obtain ⟨e, env, rfl⟩ := hev
    have happ : applied (evs ++ [.apply e env]) = applied evs ++ [e] :=
      applied_append evs _
    rw [happ] at hlog ⊢
    exact happly (ih ((List.prefix_append _ _).trans hlog)) hlog hstep

/-- The same for what is said of the map the log leaves. -/
theorem Replica.reach_rule
    {P : Nat → (Fin R.shards → Cache.Shard) → Entries → Prop}
    (hstart : P 0 R.fresh fun _ => none)
    (happly : ∀ {t c c' m e env}, P t c m → t ≤ e.1 →
      R.step c (.apply e env) = some c' → P e.1 c'
        ((applyEntry (entriesStore R.cfg.hashKey) e.1 e.2).exec m).2)
    (hother : ∀ {t c c' m ev}, P t c m → R.RecyclesSafely c ev →
      (∀ e env, ev ≠ .apply e env) → R.step c ev = some c' → P t c' m)
    {evs : List (Event R.shards)}
    (hr : Reach R.step R.RecyclesSafely R.fresh evs c)
    (hs : Stamped (applied evs)) :
    P (lastStamp (applied evs)) c
      (replay R.cfg.hashKey (applied evs)) := by
  refine Replica.reach_entries
    (P := fun c l => P (lastStamp l) c (replay R.cfg.hashKey l))
    hstart ?_ (fun hc hsafe hev => hother hc hsafe hev) hr List.prefix_rfl
  intro c c' l e env hc hl hstep
  rw [lastStamp_concat, replay_concat]
  exact happly hc (hs.of_prefix hl).lastStamp_le hstep

/-- In every run a replica holds the map of the entries it has
applied. -/
theorem Replica.reach_holds {evs : List (Event R.shards)}
    (hr : Reach R.step R.RecyclesSafely R.fresh evs c)
    (hs : Stamped (applied evs)) :
    R.Holds (lastStamp (applied evs)) c
      (replay R.cfg.hashKey (applied evs)) :=
  Replica.reach_rule R.holds_fresh (fun hc ht => hc.apply ht)
    (fun hc hsafe hev => hc.other hsafe hev) hr hs

/-- Two replicas that have applied one log, each with whatever else
happened to it in between, read alike from the last stamp on: as the map
the log leaves. -/
theorem replicas_agree (A B : Replica) (hhash : A.cfg.hashKey = B.cfg.hashKey)
    (log : List LogEntry) (hs : Stamped log)
    {as : List (Event A.shards)} {a : Fin A.shards → Cache.Shard}
    (ha : Reach A.step A.RecyclesSafely A.fresh as a)
    (hla : applied as = log)
    {bs : List (Event B.shards)} {b : Fin B.shards → Cache.Shard}
    (hb : Reach B.step B.RecyclesSafely B.fresh bs b)
    (hlb : applied bs = log) (key : Key) (t : Nat)
    (ht : lastStamp log ≤ t) :
    A.getAt a key t = B.getAt b key t
      ∧ A.getAt a key t = (replay A.cfg.hashKey log).read key t := by
  subst hla
  have hA := (A.reach_holds ha hs).getAt ht key
  have hB : B.getAt b key t =
      (replay B.cfg.hashKey (applied as)).read key t := by
    rw [← hlb] at hs ht ⊢
    exact (B.reach_holds hb hs).getAt ht key
  rw [← hhash] at hB
  exact ⟨hA.trans hB.symm, hA⟩

/-- A persistent replica with one shard. -/
def onMmap : Replica :=
  ⟨1, ⟨by decide⟩, twoPages .rejectWrites true, .mmap, rfl, rfl⟩

/-- A replica with two heap shards. -/
def onHeap : Replica :=
  ⟨2, ⟨by decide⟩, twoPages .rejectWrites true, .heap 1, rfl, rfl⟩

/-- Key 1 expires at 100; key 2 is counted up twice. -/
def countTwice : List LogEntry :=
  [(10, .put [1] [7] 90), (150, .incr [2] 5), (150, .incr [2] 5)]

/-- A run on `onMmap` that sweeps, saves its clock and restarts between
the two counts. -/
def countOnMmap : List (Event onMmap.shards) :=
  [.apply (10, .put [1] [7] 90) noRescue, .apply (150, .incr [2] 5) noRescue,
    .sweep 0 150 fun _ => true, .setAppliedIndex,
    .restart fun _ => ⟨7, true, 7, 7⟩,
    .apply (150, .incr [2] 5) noRescue]

/-- A run on `onHeap` with a client whose clock is far ahead. -/
def countOnHeap : List (Event onHeap.shards) :=
  [.apply (10, .put [1] [7] 90) noRescue, .read [1] 1000,
    .apply (150, .incr [2] 5) noRescue,
    .apply (150, .incr [2] 5) noRescue]

def Event.isRecycle {n : Nat} : Event n → Bool
  | .recycle _ _ => true
  | _ => false

theorem recyclesSafely_of_not {R : Replica}
    (c : Fin R.shards → Cache.Shard) (ev : Event R.shards)
    (h : (!ev.isRecycle) = true) : R.RecyclesSafely c ev := by
  cases ev with
  | recycle i page => cases h
  | _ => trivial

theorem replicas_agree_countTwice :
    ∃ (a : Fin onMmap.shards → Cache.Shard)
      (b : Fin onHeap.shards → Cache.Shard),
      Reach onMmap.step onMmap.RecyclesSafely onMmap.fresh countOnMmap a
      ∧ Reach onHeap.step onHeap.RecyclesSafely onHeap.fresh countOnHeap b
      ∧ onMmap.getAt a [2] 150 = onHeap.getAt b [2] 150
      ∧ onHeap.getAt b [2] 150 = some ([0, 0, 0, 0, 0, 0, 0, 10], 0) := by
  obtain ⟨a, ha⟩ : ∃ a, exec onMmap.step (fun _ ev => !ev.isRecycle)
      onMmap.fresh countOnMmap = some a := ⟨_, rfl⟩
  obtain ⟨b, hb, hread⟩ : ∃ b, exec onHeap.step
      (fun _ ev => !ev.isRecycle) onHeap.fresh countOnHeap = some b
      ∧ onHeap.getAt b [2] 150 =
        some ([0, 0, 0, 0, 0, 0, 0, 10], 0) := ⟨_, rfl, by decide⟩
  have hra := exec_reach (K := onMmap.RecyclesSafely) recyclesSafely_of_not ha
  have hrb := exec_reach (K := onHeap.RecyclesSafely) recyclesSafely_of_not hb
  have hstamped : Stamped countTwice := by
    unfold Stamped countTwice
    simp
  exact ⟨a, b, hra, hrb,
    (replicas_agree onMmap onHeap rfl countTwice hstamped hra rfl hrb rfl
      [2] 150 (by decide)).1, hread⟩

end Rostam.Shard
