/-
Whole runs of a shard: the index is sound in every state, and lets go of
nothing it should keep in every run that empties only pages safe to
empty.
-/
import Rostam.Cache.Proofs.Writes
import Rostam.Cache.Proofs.Relocate
import Rostam.Cache.Proofs.Reopen

namespace Rostam.Cache

open Rostam.Lib Shard Function

variable {cfg : Config} {s s' : Shard} {clock c : Nat} {w w' : World}

-- ======== reads and sweeps

/-- A read drops the slot it finds expired, or nothing. -/
theorem get_drop (key : Key) (now : Nat) (allow : Bool) :
    s.get cfg key now allow = s
      ∨ ∃ f, s.findKey cfg key = some f ∧ isExpired f.exp now = true
        ∧ allow = true
        ∧ s.get cfg key now allow = s.tombstone (cfg.hashKey key) := by
  unfold Shard.get
  split
  · next f hf =>
    split
    · next hcond =>
      rw [Bool.and_eq_true] at hcond
      exact Or.inr ⟨f, hf, hcond.1, hcond.2, rfl⟩
    · exact Or.inl rfl
  · exact Or.inl rfl

theorem get_sound (hs : s.Sound cfg) (key : Key) (now : Nat)
    (allow : Bool) : (s.get cfg key now allow).Sound cfg := by
  rcases get_drop key now allow with he | ⟨f, _, _, _, he⟩ <;> rw [he]
  · exact hs
  · apply hs.drop
    intro h r ht
    by_cases hh : h = cfg.hashKey key
    · rw [hh, update_self] at ht
      cases ht
    · rw [update_of_ne hh] at ht
      exact ht

theorem get_gone (hs : s.Sound cfg) {key : Key} {now : Nat} {allow : Bool}
    (hg : s.Gone cfg clock) (hnow : allow = true → now ≤ clock) :
    (s.get cfg key now allow).Gone cfg clock := by
  rcases get_drop key now allow with he | ⟨f, hf, hexp, ha, he⟩ <;> rw [he]
  · exact hg
  · apply hg.drop hs.toIndexed
    intro h r f' ht hnone hf'
    -- the dropped slot is the one the expired entry was read from
    by_cases hh : h = cfg.hashKey key
    · subst hh
      unfold findKey at hf
      rw [ht, Option.bind_some, hf', Option.filter_eq_some_iff] at hf
      obtain ⟨heq, _⟩ := hf
      injection heq with heq
      rw [heq]
      exact isExpired_mono (hnow ha) hexp
    · rw [update_of_ne hh, ht] at hnone
      cases hnone

theorem sweepIndex_sound (hs : s.Sound cfg) (now : Nat)
    (reached : Nat → Bool) : (s.sweepIndex now reached).Sound cfg := by
  apply hs.drop
  intro h r ht
  exact (Option.filter_eq_some_iff.mp ht).1

theorem sweepIndex_gone (hs : s.Sound cfg) (hg : s.Gone cfg clock)
    {now : Nat} (hnow : now ≤ clock) (reached : Nat → Bool) :
    (s.sweepIndex now reached).Gone cfg clock := by
  apply hg.drop hs.toIndexed
  intro h r f ht hnone hf
  rw [ht, Option.filter_eq_none_iff] at hnone
  have hdrop := hnone r rfl
  rw [hf, Option.map_some, Option.getD_some] at hdrop
  have hexp : isExpired f.exp now = true := by
    cases he : isExpired f.exp now with
    | true => rfl
    | false => rw [he] at hdrop; simp at hdrop
  exact isExpired_mono hnow hexp

-- ======== flushes

/-- A flush leaves no frame above its floor. -/
theorem log_flush (hs : s.Ordered) : s.flush.log = ∅ := by
  ext ⟨r, f⟩
  constructor
  · rintro ⟨hf, hfl⟩
    have hle : f.seq ≤ s.writeSeq := hs.seq_le r f hf
    have hlt : s.writeSeq < f.seq := hfl
    omega
  · intro hx
    cases hx

theorem flush_sound (hs : s.Sound cfg) : s.flush.Sound cfg := { hs with
  current := fun h r ht => by cases ht
  floor_le := le_rfl
  vacated := fun i p hp hret h r ht => by cases ht }

theorem flush_gone (hs : s.Ordered) : s.flush.Gone cfg clock := by
  intro h r f _ hn
  have hmem : (r, f) ∈ s.flush.log := hn.mem
  rw [log_flush hs] at hmem
  cases hmem

-- ======== steps

/-- A shard is sound whatever the logical clock says. -/
theorem Shard.Sound.stamp {a b : Nat} (hs : s.Sound cfg) :
    ({ s with lastAppliedStampMs := a, hdrStamp := b } : Shard).Sound cfg where
  inj := hs.inj
  current := hs.current
  seq_le := hs.seq_le
  floor_le := hs.floor_le
  opened := hs.opened
  vacated := hs.vacated
  unretired := hs.unretired

/-- The step empties only a page that is safe to empty. -/
def World.EmptiesSafely (cfg : Config) (w : World) : Op → Prop
  | .put key val _ _ _ | .putAt key val _ _ _ | .putAbs key val _ _ =>
    ∀ v, w.shard.victim cfg (entrySpan key.length val.length) = some v →
      w.shard.SafeToEmpty cfg v
  | .del key _ =>
    ∀ v, w.shard.victim cfg (entrySpan key.length 0) = some v →
      w.shard.SafeToEmpty cfg v
  | .recycle i =>
    (∃ p : Page, w.shard.pages[i]? = some p ∧ p.retired = true) →
      w.shard.SafeToEmpty cfg i
  | _ => True

def Op.isWrite : Op → Bool
  | .put .. | .putAt .. | .putAbs .. | .del .. => true
  | _ => false

/-- A put or a delete, at whatever stamp, writes the record of its key,
and the map follows. -/
theorem step_write {op : Op} (hs : w.shard.Sound cfg)
    (hop : op.isWrite = true) (hstep : w.step cfg op = some w') :
    ∃ stamp env need g b,
      Wrote cfg env { w.shard with lastAppliedStampMs := stamp } need g
        w'.shard b
      ∧ w'.clock = w.clock
      ∧ w'.model = (if b then update w.model g.key
          (if g.tomb then none else some (g.val, g.exp)) else w.model)
      ∧ (w.EmptiesSafely cfg op → ∀ v, w.shard.victim cfg need = some v →
          w.shard.SafeToEmpty cfg v) := by
  cases op with
  | put | putAt | putAbs =>
    cases hstep
    refine ⟨_, _, _, _, _, putAtExp_wrote .., rfl, ?_, id⟩
    simp only [World.put, Option.isNone_iff_eq_none]
    rfl
  | del key env =>
    cases hstep
    exact ⟨_, _, _, _, _, del_wrote env hs key, rfl, match_found .., id⟩
  | _ => cases hop

/-- Every step keeps the index sound. -/
theorem step_sound {op : Op} (hs : w.shard.Sound cfg)
    (hstep : w.step cfg op = some w') : w'.shard.Sound cfg := by
  cases op with
  | put | putAt | putAbs | del =>
    obtain ⟨_, _, _, _, _, hw, _⟩ := step_write hs rfl hstep
    exact hw.sound hs.stamp
  | get key now =>
    cases hstep
    exact get_sound hs key now _
  | getAt key stamp =>
    cases hstep
    exact get_sound hs.stamp key stamp true
  | flush =>
    cases hstep
    exact flush_sound hs
  | sweep now reached =>
    simp only [World.step] at hstep
    split at hstep
    · cases hstep
    · cases hstep
      exact sweepIndex_sound hs now reached
  | setAppliedIndex =>
    cases hstep
    exact hs.stamp
  | relocate i dropClock =>
    obtain ⟨hguard, rfl⟩ := guarded hstep
    exact (tryRelocatePage_unseen hs hguard.1 i dropClock).sound
  | recycle i =>
    cases hstep
    exact recycle_sound hs i
  | reopen env =>
    cases hstep
    exact (reopened cfg env hs.inj).sound

/-- A step that empties safely lets go of nothing it should keep. -/
theorem step_gone {op : Op} (hs : w.shard.Sound cfg)
    (hg : w.shard.Gone cfg w.clock) (hsafe : w.EmptiesSafely cfg op)
    (hstep : w.step cfg op = some w') : w'.shard.Gone cfg w'.clock := by
  cases op with
  | put | putAt | putAbs | del =>
    obtain ⟨_, _, _, _, _, hw, hc, _, hv⟩ := step_write hs rfl hstep
    rw [hc]
    exact hw.gone hs.stamp hg (hv hsafe)
  | get key now =>
    cases hstep
    show (w.shard.get cfg key now (!cfg.replicated)).Gone cfg
      (if !cfg.replicated then max w.clock now else w.clock)
    split
    · exact get_gone hs (hg.mono (le_max_left _ _))
        fun _ => le_max_right _ _
    · next hno => exact get_gone hs hg fun ha => absurd ha hno
  | getAt key stamp =>
    cases hstep
    have hg' : (w.shard.advanceStamp stamp).Gone cfg
        (max w.clock stamp) := hg.mono (le_max_left _ _)
    exact get_gone hs.stamp hg' fun _ => le_max_right _ _
  | flush =>
    cases hstep
    exact flush_gone hs.toOrdered
  | sweep now reached =>
    simp only [World.step] at hstep
    split at hstep
    · cases hstep
    · cases hstep
      exact sweepIndex_gone hs (hg.mono (le_max_left _ _))
        (le_max_right _ _) reached
  | setAppliedIndex =>
    cases hstep
    exact hg
  | relocate i dropClock =>
    obtain ⟨hguard, rfl⟩ := guarded hstep
    exact (tryRelocatePage_unseen hs hguard.1 i dropClock).gone _ hg
  | recycle i =>
    cases hstep
    exact recycle_gone hs hg hsafe
  | reopen env =>
    cases hstep
    exact (reopened cfg env hs.inj).gone.mono (le_max_right _ _)

-- ======== runs

theorem frameAt_fresh (r : Ref) : (Shard.fresh cfg).frameAt r = none := by
  unfold frameAt Shard.fresh
  rw [List.getElem?_replicate]
  split
  · rfl
  · rfl

theorem fresh_sound : (Shard.fresh cfg).Sound cfg where
  inj := by
    intro r f r' f' hf
    rw [frameAt_fresh] at hf
    cases hf
  current := fun h r ht => by cases ht
  seq_le := by
    intro r f hf
    rw [frameAt_fresh] at hf
    cases hf
  floor_le := le_rfl
  opened := by
    intro p hp
    rw [List.eq_of_mem_replicate (List.mem_of_getElem? hp)]
    rfl
  vacated := fun i p hp hret h r ht => by cases ht
  unretired := by
    intro _ i p hp
    rw [List.eq_of_mem_replicate (List.mem_of_getElem? hp)]
    rfl

theorem fresh_gone : (Shard.fresh cfg).Gone cfg clock := by
  intro h r f _ hn
  have hf : (Shard.fresh cfg).frameAt r = some f := hn.mem.1
  rw [frameAt_fresh] at hf
  cases hf

/-- The index is sound in every state of every run. -/
theorem reach_sound {K : World → Op → Prop} {ops : List Op}
    (hr : Reach (World.step cfg) K (World.fresh cfg) ops w) :
    w.shard.Sound cfg :=
  hr.stateInvariant (P := fun w => w.shard.Sound cfg) fresh_sound
    fun _ _ _ hs _ hstep => step_sound hs hstep

/-- In a run that empties only pages safe to empty, nothing that should
be found is lost. -/
theorem reach_gone {K : World → Op → Prop}
    (hK : ∀ w op, K w op → w.EmptiesSafely cfg op) {ops : List Op}
    (hr : Reach (World.step cfg) K (World.fresh cfg) ops w) :
    w.shard.Gone cfg w.clock := by
  refine (hr.stateInvariant (P := fun w =>
    w.shard.Sound cfg ∧ w.shard.Gone cfg w.clock) ⟨fresh_sound, fresh_gone⟩
    ?_).2
  rintro w op w' ⟨hs, hg⟩ hk hstep
  exact ⟨step_sound hs hstep, step_gone hs hg (hK w op hk) hstep⟩

-- ======== restarts

/-- Past every clock at which entries were dropped, a reopened shard
resolves what the shard resolved before Close. -/
theorem resolve_reopen (hs : s.Sound cfg) (hg : s.Gone cfg clock)
    (env : OpenEnv) (hc : clock ≤ c) (hopen : s.openClock cfg env ≤ c)
    (key : Key) :
    (s.reopen cfg env).resolve cfg key c = s.resolve cfg key c := by
  have hr := reopened cfg env hs.inj
  ext v
  rw [resolve_iff_live hr.sound.toIndexed hr.gone hopen,
    resolve_iff_live hs.toIndexed hg hc]
  constructor
  · rintro ⟨hl, he⟩
    exact ⟨hr.live key v hl, he⟩
  · rintro ⟨hl, he⟩
    refine ⟨hr.kept key v hl ?_, he⟩
    rw [Bool.eq_false_iff]
    intro hexp
    rw [isExpired_mono hopen hexp] at he
    cases he

/-- At any clock past the drops before Close, a reopened shard resolves
nothing the shard did not resolve. -/
theorem resolve_of_reopen (hs : s.Sound cfg) (hg : s.Gone cfg clock)
    {env : OpenEnv} (hc : clock ≤ c) {key : Key} {v : Bytes × Nat}
    (hres : (s.reopen cfg env).resolve cfg key c = some v) :
    s.resolve cfg key c = some v := by
  have hr := reopened cfg env hs.inj
  obtain ⟨hl, he⟩ := live_of_resolve hr.sound.toIndexed hres
  exact resolve_of_live hs.toIndexed hg hc (hr.live key v hl) he

end Rostam.Cache
