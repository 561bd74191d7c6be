/-
A coalesced barrier is never older than its caller.

Over every run of a coalescer a caller that does not time out gets the
result of a call of `fn` made after it entered `do`, one `fn` runs at a
time and each batch's once, and a batch someone waits on is run by the
caller that holds the flight slot, whatever the others do.

`Sound` is the invariant: the slot is one caller's, the batch it runs is
detached, callers only ever join a batch whose `fn` was not called. A
section moves one caller and at most the batch it runs, so for every
section each clause is settled by the few it leans on.
-/
import Rostam.Shard.Coalesce

namespace Rostam.Shard

open Rostam.Lib Function

variable {ι ρ : Type} {b k : Nat}

/-- The caller holds the flight slot. -/
@[grind]
def CallerPc.leads : CallerPc ρ → Bool
  | .ready .. | .flying .. | .draining _ => true
  | _ => false

namespace Coalescer

/-- A call of `fn` made after `i` entered has answered `r`. -/
def Gave (c : Coalescer ι ρ) (i : ι) (r : ρ) : Prop :=
  ∃ b t, (c.batch b).starts = [t] ∧ (c.batch b).result = some r
    ∧ c.since i < t

structure Sound (c : Coalescer ι ρ) : Prop where
  running : c.running = true ↔ c.leader ≠ none
  leader : ∀ i, (c.pc i).leads = true ↔ c.leader = some i
  pending : ∀ b, c.pending = some b → c.running = true ∧ b < c.next
    ∧ (c.batch b).starts = [] ∧ c.aloft ≠ some b
  aloft : ∀ b, c.aloft = some b → c.running = true ∧ b < c.next
    ∧ (c.batch b).result = none
  starts : ∀ b, (c.batch b).starts = [] ∧ (c.batch b).result = none
    ∨ b < c.next ∧ ∃ t, (c.batch b).starts = [t]
      ∧ ((c.batch b).result = none → c.aloft = some b)
  since : ∀ i, c.since i < c.clock
  waiting : ∀ i b, c.pc i = .waiting b → b < c.next
    ∧ (∀ t ∈ (c.batch b).starts, c.since i < t)
    ∧ ((c.batch b).result ≠ none ∨ c.pending = some b ∨ c.aloft = some b)
  ready : ∀ i b own, c.pc i = .ready b own → c.aloft = some b
    ∧ (c.batch b).starts = []
  flying : ∀ i b own, c.pc i = .flying b own → c.aloft = some b
    ∧ ∃ t, (c.batch b).starts = [t] ∧ c.since i < t
  draining : ∀ i r, c.pc i = .draining r → c.aloft = none
  own : ∀ i b r, c.pc i = .ready b (some r) ∨ c.pc i = .flying b (some r)
    ∨ c.pc i = .draining r ∨ c.pc i = .returned r → c.Gave i r

variable [DecidableEq ι] {c c' : Coalescer ι ρ} {late r : ρ} {i j : ι}

-- ======== the steps

theorem Sound.enter (hs : c.Sound) (hpc : c.pc i = .out) : ({ c with
      pc := update c.pc i .entered
      since := update c.since i c.clock
      clock := c.clock + 1 } : Coalescer ι ρ).Sound := by
  obtain ⟨running, leader, pending, aloft, starts, since, waiting, ready,
    flying, draining, own⟩ := hs
  constructor <;> grind [update_apply, Gave]

/-- A follower joins a batch that is not detached. -/
theorem Sound.wait (hs : c.Sound) (hpc : c.pc i = .entered)
    (hr : c.running = true) (hb : c.pending = some b
      ∧ k = c.next ∨ c.pending = none ∧ b = c.next ∧ k = c.next + 1) :
    ({ c with
      next := k
      pending := some b
      pc := update c.pc i (.waiting b) } : Coalescer ι ρ).Sound := by
  obtain ⟨running, leader, pending, aloft, starts, since, waiting, ready,
    flying, draining, own⟩ := hs
  constructor <;> grind [update_apply, Gave]

/-- A caller takes the free slot, with a batch of its own. -/
theorem Sound.lead (hs : c.Sound) (hr : c.running = false) : ({ c with
      next := c.next + 1
      running := true
      pending := none
      pc := update c.pc i (.ready c.next none)
      leader := some i
      aloft := some c.next } : Coalescer ι ρ).Sound := by
  obtain ⟨running, leader, pending, aloft, starts, since, waiting, ready,
    flying, draining, own⟩ := hs
  constructor <;> grind [update_apply, Gave]

theorem Sound.register (hs : c.Sound) (hpc : c.pc i = .entered) :
    (c.register i).Sound := by
  cases hp : c.pending with
  | none =>
    cases hr : c.running with
    | true =>
      simp only [Coalescer.register, hp, hr]
      exact hr ▸ hs.wait hpc hr (.inr ⟨hp, rfl, rfl⟩)
    | false =>
      simp only [Coalescer.register, hp, hr]
      exact hs.lead hr
  | some b =>
    have hr := (hs.pending b hp).1
    simp only [Coalescer.register, hp, hr]
    exact hr ▸ hs.wait hpc hr (.inl ⟨hp, rfl⟩)

/-- `fn` is called later than every caller of the batch entered. -/
theorem Sound.call {o : Option ρ} (hs : c.Sound)
    (hpc : c.pc i = .ready b o) :
    ({ c with
      pc := update c.pc i (.flying b o)
      batch := update c.batch b { c.batch b with
        starts := (c.batch b).starts ++ [c.clock] }
      clock := c.clock + 1 } : Coalescer ι ρ).Sound := by
  obtain ⟨running, leader, pending, aloft, starts, since, waiting, ready,
    flying, draining, own⟩ := hs
  have hnil := (ready i b o hpc).2
  have hcall : (c.batch b).starts ++ [c.clock] = [c.clock] := by simp [hnil]
  rw [hcall]
  have hgave : ∀ j r, c.Gave j r → ({ c with
      pc := update c.pc i (.flying b o)
      batch := update c.batch b { c.batch b with starts := [c.clock] }
      clock := c.clock + 1 } : Coalescer ι ρ).Gave j r := by
    rintro j r ⟨x, t, ht, hr, hlt⟩
    exact ⟨x, t, by grind [update_apply], by grind [update_apply], hlt⟩
  constructor <;> grind [update_apply]

/-- `fn` answers its caller. -/
theorem Sound.answer {o : Option ρ} (hs : c.Sound)
    (hpc : c.pc i = .flying b o) (r : ρ) :
    ({ c with
      pc := update c.pc i (.draining (o.getD r))
      batch := update c.batch b { c.batch b with result := some r }
      aloft := none } : Coalescer ι ρ).Sound := by
  obtain ⟨running, leader, pending, aloft, starts, since, waiting, ready,
    flying, draining, own⟩ := hs
  obtain ⟨hup, t, ht, hlt⟩ := flying i b o hpc
  have hnone := (aloft b hup).2.2
  have hgave : ∀ j x, c.Gave j x ∨ j = i ∧ x = r → ({ c with
      pc := update c.pc i (.draining (o.getD r))
      batch := update c.batch b { c.batch b with result := some r }
      aloft := none } : Coalescer ι ρ).Gave j x := by
    rintro j x (⟨y, t, ht, hr, hlt⟩ | ⟨rfl, rfl⟩)
    · exact ⟨y, t, by grind [update_apply], by grind [update_apply], hlt⟩
    · exact ⟨b, t, by simp [ht], by simp, hlt⟩
  have hown : c.Gave i (o.getD r) ∨ o.getD r = r := by
    cases o with
    | none => exact .inr rfl
    | some x => exact .inl (own i b x (.inr (.inl hpc)))
  constructor <;> grind [update_apply]

/-- The slot goes on to the pending batch, or is freed. -/
theorem Sound.drain {o : ρ} (hs : c.Sound) (hpc : c.pc i = .draining o) :
    (c.drain i o).Sound := by
  obtain ⟨running, leader, pending, aloft, starts, since, waiting, ready,
    flying, draining, own⟩ := hs
  unfold Coalescer.drain
  split
  · constructor <;> grind [update_apply, Gave]
  · constructor <;> grind [update_apply, Gave]

/-- A follower gets the result of its batch. -/
theorem Sound.receive (hs : c.Sound) (hpc : c.pc i = .waiting b)
    (hr : (c.batch b).result = some r) :
    ({ c with pc := update c.pc i (.returned r) } : Coalescer ι ρ).Sound := by
  obtain ⟨running, leader, pending, aloft, starts, since, waiting, ready,
    flying, draining, own⟩ := hs
  have hgave : c.Gave i r := by
    rcases starts b with h | ⟨-, t, ht, -⟩
    · rw [h.2] at hr
      cases hr
    · exact ⟨b, t, ht, hr, (waiting i b hpc).2.1 t (by simp [ht])⟩
  constructor <;> grind [update_apply, Gave]

theorem Sound.timeout (hs : c.Sound) (hpc : c.pc i = .waiting b) :
    ({ c with pc := update c.pc i (.timedOut r) } : Coalescer ι ρ).Sound := by
  obtain ⟨running, leader, pending, aloft, starts, since, waiting, ready,
    flying, draining, own⟩ := hs
  constructor <;> grind [update_apply, Gave]

/-- Every step keeps what a coalescer knows. -/
theorem step_sound {l : CallerStep ι ρ} (hs : c.Sound)
    (h : c.step late l = some c') : c'.Sound := by
  unfold step at h
  split at h
  · next hpc =>
    cases h
    exact hs.enter hpc
  · next hpc =>
    cases h
    exact hs.register hpc
  · next hpc =>
    cases h
    exact hs.call hpc
  · next hpc =>
    cases h
    exact hs.answer hpc _
  · next hpc =>
    cases h
    exact hs.drain hpc
  · next hpc =>
    obtain ⟨r, hr, rfl⟩ := Option.map_eq_some_iff.mp h
    exact hs.receive hpc hr
  · next hpc =>
    cases h
    exact hs.timeout hpc
  · cases h

theorem reach_sound {tr : List (CallerStep ι ρ)}
    (hr : Reach (step late) Free {} tr c) : c.Sound := by
  refine hr.stateInvariant ?_ fun _ _ _ hs _ => step_sound hs
  constructor <;> simp [CallerPc.leads]

-- ======== who runs a batch

/-- The steps of `j` alone, with `fn` answering `r`, bring batch `b` its
result. -/
def Ends (late : ρ) (j : ι) (r : ρ) (b : Nat) (c : Coalescer ι ρ) : Prop :=
  ∃ tr, (∀ l ∈ tr, l = .call j ∨ l = .answer j r ∨ l = .drain j)
    ∧ ((exec (step late) (fun _ _ => true) c tr).bind fun c =>
      (c.batch b).result) = some r

theorem ends_aloft {o : Option ρ}
    (hpc : c.pc j = .ready b o ∨ c.pc j = .flying b o) :
    Ends late j r b c := by
  rcases hpc with hpc | hpc
  · refine ⟨[.call j, .answer j r], by simp, ?_⟩
    simp [exec, step, CallerStep.caller, hpc]
  · refine ⟨[.answer j r], by simp, ?_⟩
    simp [exec, step, CallerStep.caller, hpc]

/-- The slot's holder comes to the pending batch after the one it runs. -/
theorem ends_pending (hl : (c.pc j).leads = true) (hp : c.pending = some b) :
    Ends late j r b c := by
  cases hpc : c.pc j with
  | ready x o =>
    refine ⟨[.call j, .answer j r, .drain j, .call j, .answer j r],
      by simp, ?_⟩
    simp [exec, step, CallerStep.caller, hpc, Coalescer.drain, hp]
  | flying x o =>
    refine ⟨[.answer j r, .drain j, .call j, .answer j r], by simp, ?_⟩
    simp [exec, step, CallerStep.caller, hpc, Coalescer.drain, hp]
  | draining o =>
    refine ⟨[.drain j, .call j, .answer j r], by simp, ?_⟩
    simp [exec, step, CallerStep.caller, hpc, Coalescer.drain, hp]
  | _ =>
    rw [hpc] at hl
    cases hl

/-- Some caller is there to serve a batch without a result. -/
theorem Sound.served (hs : c.Sound) (hpc : c.pc i = .waiting b)
    (hn : (c.batch b).result = none) : ∃ j, ∀ r, Ends late j r b c := by
  obtain ⟨-, -, hb⟩ := hs.waiting i b hpc
  have hb := hb.resolve_left fun h => h hn
  have hrun : c.running = true :=
    hb.elim (fun h => (hs.pending b h).1) fun h => (hs.aloft b h).1
  obtain ⟨j, hj⟩ := Option.ne_none_iff_exists'.mp (hs.running.mp hrun)
  have hl := (hs.leader j).mpr hj
  refine ⟨j, fun r => ?_⟩
  rcases hb with hp | hup
  · exact ends_pending hl hp
  · cases hpc : c.pc j with
    | ready x o =>
      cases (hs.ready j x o hpc).1.symm.trans hup
      exact ends_aloft (.inl hpc)
    | flying x o =>
      cases (hs.flying j x o hpc).1.symm.trans hup
      exact ends_aloft (.inr hpc)
    | draining o => cases (hs.draining j o hpc).symm.trans hup
    | _ =>
      rw [hpc] at hl
      cases hl

/-- What a coalescer promises: nobody gets a result older than itself, one
`fn` runs at a time, a batch's `fn` once, and a batch waited on has a
caller that runs it. -/
structure Promise (late : ρ) (c : Coalescer ι ρ) : Prop where
  fresh : ∀ i r, c.pc i = .returned r →
    ∃ b t, (c.batch b).starts = [t] ∧ (c.batch b).result = some r
      ∧ c.since i < t
  single : ∀ b b', (c.batch b).starts ≠ [] → (c.batch b).result = none →
    (c.batch b').starts ≠ [] → (c.batch b').result = none → b = b'
  once : ∀ b, (c.batch b).starts.length ≤ 1
    ∧ ((c.batch b).result ≠ none → (c.batch b).starts.length = 1)
  served : ∀ i b, c.pc i = .waiting b → (c.batch b).result = none →
    ∃ j, ∀ r, Ends late j r b c

theorem Sound.promise (hs : c.Sound) : c.Promise late where
  fresh := fun i r hpc => hs.own i 0 r (.inr (.inr (.inr hpc)))
  single := by
    intro b b' hb hn hb' hn'
    obtain ⟨-, _, -, hup⟩ := (hs.starts b).resolve_left fun h => hb h.1
    obtain ⟨-, _, -, hup'⟩ := (hs.starts b').resolve_left fun h => hb' h.1
    exact Option.some_inj.mp ((hup hn).symm.trans (hup' hn'))
  once := by
    intro b
    rcases hs.starts b with h | ⟨-, t, ht, -⟩
    · simp [h.1, h.2]
    · simp [ht]
  served := fun _ _ => hs.served

end Coalescer

/-- Coalesced read barriers, of either kind: over every run each caller
that does not time out gets the answer of an `fn` called after it
entered, one `fn` runs at a time, a batch's once, and no batch with a
caller is left without one that runs it. -/
theorem coalesced_barrier_fresh {ι : Type} [DecidableEq ι] :
    (∀ tr c, Reach (readindexCoalescer ι) Free {} tr c →
      c.Promise (some .linearizableTimeout))
    ∧ ∀ tr c, Reach (metaFrontierCoalescer ι) Free {} tr c →
      c.Promise (0, some .metaNotLeader) :=
  ⟨fun _ _ h => (Coalescer.reach_sound h).promise,
    fun _ _ h => (Coalescer.reach_sound h).promise⟩

/-- The second caller enters while the first one's flight is up, and gets
the answer of the flight after it. -/
theorem coalesced_barrier_fresh_behind :
    ∃ tr c,
    Reach (readindexCoalescer Bool) Free {} tr c
      ∧ c.pc false = .returned (some (.other "lost"))
      ∧ c.Promise (some .linearizableTimeout) := by
  obtain ⟨c, hr, hp⟩ : ∃ c, Reach (readindexCoalescer Bool) Free {}
      [.enter true, .register true, .call true, .enter false,
        .register false, .answer true none, .drain true, .call true,
        .answer true (some (.other "lost")), .receive false] c
      ∧ c.pc false = .returned (some (.other "lost")) := by
    apply exec_free
    decide
  exact ⟨_, c, hr, hp, coalesced_barrier_fresh.1 _ c hr⟩

end Rostam.Shard
