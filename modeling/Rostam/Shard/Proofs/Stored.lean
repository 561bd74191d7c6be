/-
What a run leaves on a replica's shards.

Every entry a shard holds was put there under its own key, within the
length limits; so it is on its key's shard, and a walk over the index
finds it there. On a persistent shard this is said of the live entries,
which an open may bring back into the index, on a heap shard of the
slots.
-/
import Rostam.Cache.Proofs.Slots
import Rostam.Shard.Proofs.Replica

namespace Rostam.Shard

open Rostam.Lib Rostam.Ops Rostam.Cache Cache.Shard Function

variable {cfg : Config} {s s' : Cache.Shard} {t : Nat} {m : Entries}
  {P : Key → Bytes × Nat → Prop}

-- ======== persistent shards

/-- Every live entry meets `P`. -/
def LiveAll (cfg : Config) (P : Key → Bytes × Nat → Prop)
    (s : Cache.Shard) : Prop :=
  ∀ key v, s.Live cfg key v → P key v

/-- Only the frames count. -/
theorem LiveAll.of_log (h : LiveAll cfg P s) (hlog : s'.log = s.log) :
    LiveAll cfg P s' :=
  fun key v hl => h key v ((live_congr cfg hlog key v).mp hl)

theorem LiveAll.get (h : LiveAll cfg P s) (key : Key) (now : Nat)
    (allow : Bool) : LiveAll cfg P (s.get cfg key now allow) := by
  rcases get_drop key now allow with he | ⟨f, _, _, _, he⟩ <;> rw [he]
  · exact h
  · exact h.of_log rfl

/-- A put or a delete keeps to `P` if what it writes does. -/
theorem LiveAll.wrote {env : EvictEnv} {need : Nat} {g : Frame} {b : Bool}
    (hw : Wrote cfg env s need g s' b) (h : LiveAll cfg P s)
    (hs : s.Sound cfg) (hpol : cfg.policy = .rejectWrites)
    (hP : g.tomb = false → g.key.length ≤ maxKeyLen →
      g.val.length ≤ maxValueLen → P g.key (g.val, g.exp)) :
    LiveAll cfg P s' := by
  rcases hw.reject hs hpol with ⟨_, i, n, _, rfl⟩
    | ⟨_, i, t, hr, hlen, _, rfl⟩
  · exact h.of_log rfl
  · intro k v hl
    rw [live_write hr.sound.toOrdered hr.lt rfl] at hl
    rcases hl with ⟨htomb, hk, hv⟩ | ⟨_, hl⟩
    · rw [← hk, hv]
      exact hP htomb hlen.1 hlen.2
    · exact h k v ((live_congr cfg rfl k v).mp hl)

theorem LiveAll.flush (hs : s.Sound cfg) : LiveAll cfg P s.flush := by
  rintro key v ⟨r, f, hn, _⟩
  have hmem : (r, f) ∈ s.flush.log := hn.mem
  rw [log_flush hs.toOrdered] at hmem
  cases hmem

-- ======== heap shards

/-- Every slot holds a value that meets `P`. -/
def SlotAll (P : Key → Bytes × Nat → Prop) (s : Cache.Shard) : Prop :=
  ∀ h f, s.slot h = some f → f.tomb = false ∧ P f.key (f.val, f.exp)

/-- Dropping entries adds none. -/
theorem SlotAll.of_drops {t : Nat} (h : SlotAll P s) (hd : Drops t s s') :
    SlotAll P s' := by
  intro x f hf
  rcases hd x with ⟨_, hslot⟩ | ⟨hnone, _⟩
  · rw [hslot] at hf
    exact h x f hf
  · unfold Cache.Shard.slot at hf
    rw [hnone] at hf
    cases hf

/-- A put adds its own entry only. -/
theorem SlotAll.putAtExp (h : SlotAll P s) (hs : s.Slots cfg) {key : Key}
    {val : Bytes} {exp : Nat} (hP : key.length ≤ maxKeyLen →
      val.length ≤ maxValueLen → P key (val, exp))
    (hok : (s.putAtExpHeap cfg key val exp).2 = none) :
    SlotAll P (s.putAtExpHeap cfg key val exp).1 := by
  unfold putAtExpHeap at hok ⊢
  split at hok
  · cases hok
  · next u i hfind =>
    obtain ⟨hi, htab, _, hframe⟩ := findOrMakeHeapPage_ok hfind
    dsimp only at hok ⊢
    split at hok
    · cases hok
    · next hlen =>
      rw [if_neg hlen]
      obtain ⟨hu, hslot⟩ := hs.of_frames
        { u with writeSeq := u.writeSeq + 1 } htab
        fun r f hf => (hframe r).trans hf
      intro x f hf
      rw [slot_put hu hi] at hf
      split at hf
      · injection hf with hf
        rw [← hf]
        exact ⟨rfl, hP (by omega) (by omega)⟩
      · rw [hslot] at hf
        exact h x f hf

theorem SlotAll.del (h : SlotAll P s) (key : Key) :
    SlotAll P (s.delHeap cfg key).1 := by
  unfold delHeap
  split
  · exact h
  · intro x f hf
    rw [slot_tombstone] at hf
    split at hf
    · cases hf
    · exact h x f hf

-- ======== caches

/-- Every entry of the shard meets `P`. -/
def Replica.Keeps (R : Replica) (P : Key → Bytes × Nat → Prop)
    (s : Cache.Shard) : Prop :=
  match R.backing with
  | .mmap => LiveAll R.cfg P s
  | .heap _ => SlotAll P s

/-- What every entry of shard `i` meets: it is at home, and fits. -/
def Replica.Fits (R : Replica) (i : Fin R.shards) (key : Key)
    (v : Bytes × Nat) : Prop :=
  shardFor R.shards R.cfg.hashKey key = i ∧ key.length ≤ maxKeyLen
    ∧ v.1.length ≤ maxValueLen

/-- The cache holds a map from clock `t` on, every entry at home. -/
def Replica.HoldsAtHome (R : Replica) (t : Nat)
    (c : Fin R.shards → Cache.Shard) (m : Entries) : Prop :=
  R.Holds t c m ∧ ∀ i, R.Keeps (R.Fits i) (c i)

section Keeps

variable {R : Replica} {env : EvictEnv}

theorem Replica.Keeps.getAt (hk : R.Keeps P s) (key : Key) :
    R.Keeps P ((R.shardStore env).getAt key t s).1 := by
  obtain ⟨_, _, cfg, _ | _, _, _⟩ := R
  · have hadv : LiveAll cfg P (s.advanceStamp t) := LiveAll.of_log hk rfl
    exact hadv.get key t true
  · have hadv : SlotAll P (s.advanceStamp t) := hk
    exact hadv.of_drops (drops_get cfg t _ key true)

/-- A put keeps to `P` if its entry meets it. -/
theorem Replica.Keeps.putAbs (hk : R.Keeps P s) (hb : R.Backs t s m)
    {key : Key} {val : Bytes} {exp : Nat}
    (hP : key.length ≤ maxKeyLen → val.length ≤ maxValueLen → P key (val, exp))
    (hok : ((R.shardStore env).putAbs key val exp s).2 = none) :
    R.Keeps P ((R.shardStore env).putAbs key val exp s).1 := by
  obtain ⟨_, _, _, _ | _, hpol, _⟩ := R
  · exact LiveAll.wrote (putAtExp_wrote ..) hk (Backs.sound hb) hpol
      fun _ => hP
  · exact SlotAll.putAtExp hk (HeapBacks.slots hb) hP hok

theorem Replica.Keeps.del (hk : R.Keeps P s) (hb : R.Backs t s m)
    (key : Key) : R.Keeps P ((R.shardStore env).del key s).1 := by
  obtain ⟨_, _, _, _ | _, hpol, _⟩ := R
  · have hs := Backs.sound hb
    exact LiveAll.wrote (del_wrote _ hs key) hk hs hpol
      fun htomb => by cases htomb
  · exact SlotAll.del hk key

theorem Replica.Keeps.flush (hb : R.Backs t s m) :
    R.Keeps P ((R.shardStore env).flush s) := by
  obtain ⟨_, _, _, _ | _, _, _⟩ := R
  · exact LiveAll.flush (Backs.sound hb)
  · intro h f hf
    cases hf

/-- A stamped put is a put at the advanced clock. -/
theorem Replica.shardStore_putAt (key : Key) (val : Bytes) (ttl : Nat) :
    (R.shardStore env).putAt key val ttl t s =
      (R.shardStore env).putAbs key val (expiryAtFrom ttl t)
        (s.advanceStamp t) := by
  unfold Replica.shardStore
  split
  · rfl
  · rfl

theorem Replica.Keeps.advanceStamp (hk : R.Keeps P s) :
    R.Keeps P (s.advanceStamp t) := by
  obtain ⟨_, _, _, _ | _, _, _⟩ := R
  · exact LiveAll.of_log hk rfl
  · exact hk

theorem Replica.Backs.advanceStamp (hb : R.Backs t s m) :
    R.Backs t (s.advanceStamp t) m := by
  obtain ⟨_, _, _, _ | _, _, _⟩ := R
  · exact Cache.Backs.advanceStamp hb le_rfl
  · exact HeapBacks.advanceStamp hb

end Keeps

section Runs

variable {R : Replica} {c c' : Fin R.shards → Cache.Shard}

variable {i : Fin R.shards}

/-- One shard replaced by one that keeps to its own. -/
theorem Replica.keeps_update {x : Cache.Shard}
    (hk : ∀ i, R.Keeps (R.Fits i) (c i)) (hx : R.Keeps (R.Fits i) x) :
    ∀ j, R.Keeps (R.Fits j) (update c i x j) := by
  intro j
  by_cases hj : j = i
  · subst hj
    rw [update_self]
    exact hx
  · rw [update_of_ne hj]
    exact hk j

/-- The handlers' operations keep every entry at home. -/
theorem Replica.refines_atHome (R : Replica) (env : EvictEnv) :
    Refines (R.store env) R.cfg.hashKey R.HoldsAtHome where
  getAt := by
    rintro t c m key ⟨hc, hk⟩
    obtain ⟨hc', hv⟩ := (R.refines env).getAt key hc
    exact ⟨⟨hc', Replica.keeps_update hk ((hk _).getAt key)⟩, hv⟩
  putAt := by
    rintro t c m key val ttl ⟨hc, hk⟩ hok
    refine ⟨(R.refines env).putAt key val ttl hc hok,
      Replica.keeps_update hk ?_⟩
    have hok' : ((R.shardStore env).putAt key val ttl t
        (c (shardFor R.shards R.cfg.hashKey key))).2 = none := hok
    rw [Replica.shardStore_putAt] at hok' ⊢
    exact (hk _).advanceStamp.putAbs (hc _).advanceStamp
      (fun h₁ h₂ => ⟨rfl, h₁, h₂⟩) hok'
  putAbs := by
    rintro t c m key val exp ⟨hc, hk⟩ hok
    exact ⟨(R.refines env).putAbs key val exp hc hok, Replica.keeps_update hk
        ((hk _).putAbs (hc _) (fun h₁ h₂ => ⟨rfl, h₁, h₂⟩) hok)⟩
  del := by
    rintro t c m key b ⟨hc, hk⟩ hok
    exact ⟨(R.refines env).del key b hc hok,
      Replica.keeps_update hk ((hk _).del (hc _) key)⟩
  flush := by
    rintro t c m ⟨hc, hk⟩
    exact ⟨(R.refines env).flush hc,
      fun i => Replica.Keeps.flush (hc i)⟩

/-- An applied entry keeps every key at home. -/
theorem Replica.HoldsAtHome.apply {e : LogEntry} {env : EvictEnv}
    (hc : R.HoldsAtHome t c m) (ht : t ≤ e.1)
    (hstep : R.step c (.apply e env) = some c') :
    R.HoldsAtHome e.1 c'
      ((applyEntry (entriesStore R.cfg.hashKey) e.1 e.2).exec m).2 := by
  simp only [Replica.step] at hstep
  split at hstep
  · next resp c₁ hx =>
    injection hstep with hstep
    subst hstep
    obtain ⟨resp', m', hm, hc', _⟩ :=
      (R.refines_atHome env).sim_applyEntry e.2 c m resp c₁
        ⟨hc.1.mono ht, hc.2⟩ hx
    rw [hm]
    exact hc'
  · cases hstep

/-- What happens between entries moves none of them. -/
theorem Replica.keeps_other {ev : Event R.shards}
    (hc : R.HoldsAtHome t c m) (hsafe : R.RecyclesSafely c ev)
    (hev : ∀ e env, ev ≠ .apply e env)
    (hstep : R.step c ev = some c') : ∀ i, R.Keeps (R.Fits i) (c' i) := by
  obtain ⟨hh, hk⟩ := hc
  obtain ⟨_, _, cfg, backing, hpol, _⟩ := R
  cases ev with
  | apply e env => exact absurd rfl (hev e env)
  | read key now =>
    cases hstep
    refine Replica.keeps_update hk ?_
    cases backing with
    | mmap => exact LiveAll.get (hk _) key now _
    | heap => exact SlotAll.of_drops (hk _) (drops_get cfg now _ key _)
  | sweep i now reached =>
    obtain ⟨hnow, rfl⟩ := guarded hstep
    refine Replica.keeps_update hk ?_
    cases backing with
    | mmap => exact LiveAll.of_log (hk i) rfl
    | heap =>
      exact SlotAll.of_drops (hk i)
        (drops_sweep (HeapBacks.slots (hh i)) (Nat.le_refl now) reached)
  | reclaim i page stamp =>
    obtain ⟨hguard, rfl⟩ := guarded hstep
    refine Replica.keeps_update hk ?_
    cases backing with
    | mmap => exact absurd rfl hguard.1
    | heap =>
      exact SlotAll.of_drops (hk i)
        (drops_reclaim (HeapBacks.slots (hh i)) (Nat.le_refl stamp))
  | setAppliedIndex =>
    obtain ⟨rfl, rfl⟩ := guarded hstep
    exact fun i => LiveAll.of_log (hk i) rfl
  | relocate i page dropClock =>
    obtain ⟨⟨rfl, _⟩, rfl⟩ := guarded hstep
    have hu := tryRelocatePage_unseen (Backs.sound (hh i)) hpol page dropClock
    exact Replica.keeps_update hk
      fun key v hl => hk i key v ((hu.live key v).mp hl)
  | recycle i page =>
    obtain ⟨rfl, rfl⟩ := guarded hstep
    refine Replica.keeps_update hk ?_
    have hs := Backs.sound (hh i)
    rcases recycle_cases hs page with he | ⟨he, _, _, hret⟩
    · rw [he]
      exact hk i
    · exact fun key v hl => hk i key v (live_emptied hs (hsafe hret) he hl)
  | restart env =>
    obtain ⟨rfl, rfl⟩ := guarded hstep
    exact fun i key v hl => hk i key v
      ((reopened cfg (env i) (Backs.sound (hh i)).inj).live key v hl)

theorem Replica.holdsAtHome_fresh (R : Replica) :
    R.HoldsAtHome 0 R.fresh fun _ => none := by
  refine ⟨R.holds_fresh, fun i => ?_⟩
  unfold Replica.Keeps Replica.fresh
  cases R.backing with
  | mmap =>
    rintro key v ⟨r, f, hn, _⟩
    have hf : (Cache.Shard.fresh R.cfg).frameAt r = some f := hn.mem.1
    rw [frameAt_fresh] at hf
    cases hf
  | heap initial =>
    intro h f hf
    cases hf

theorem Replica.HoldsAtHome.other {ev : Event R.shards}
    (hc : R.HoldsAtHome t c m) (hsafe : R.RecyclesSafely c ev)
    (hev : ∀ e env, ev ≠ .apply e env)
    (hstep : R.step c ev = some c') : R.HoldsAtHome t c' m :=
  ⟨hc.1.other hsafe hev hstep, Replica.keeps_other hc hsafe hev hstep⟩

/-- In every run every entry is at home. -/
theorem Replica.reach_atHome {evs : List (Event R.shards)}
    (hr : Reach R.step R.RecyclesSafely R.fresh evs c)
    (hs : Stamped (applied evs)) :
    R.HoldsAtHome (lastStamp (applied evs)) c
      (replay R.cfg.hashKey (applied evs)) :=
  Replica.reach_rule R.holdsAtHome_fresh (fun hc ht => hc.apply ht)
    (fun hc hsafe hev => hc.other hsafe hev) hr hs

/-- An entry's fields fit their widths. -/
structure EntryFits (e : Entry) : Prop where
  key : e.1.length ≤ maxKeyLen
  val : e.2.1.length ≤ maxValueLen
  exp : e.2.2 < 2 ^ 64

/-- A replica's cache as its writes leave it: slots point at values of
keys of their hash and shard, and lengths and expiries fit their
fields. -/
structure Replica.Stored (R : Replica) (c : Fin R.shards → Cache.Shard) :
    Prop where
  slots : ∀ i, (c i).Slots R.cfg
  home : ∀ i h f, (c i).slot h = some f →
    shardFor R.shards R.cfg.hashKey f.key = i
  value : ∀ i h f, (c i).slot h = some f → f.tomb = false
  fits : ∀ i h f, (c i).slot h = some f → EntryFits f.content

theorem Replica.HoldsAtHome.slots (hc : R.HoldsAtHome t c m)
    (i : Fin R.shards) : (c i).Slots R.cfg := by
  have hb := hc.1.shard i
  obtain ⟨_, _, _, _ | _, _, _⟩ := R
  · intro h r hr
    obtain ⟨f, hn, _⟩ := (Backs.sound hb).current h r hr
    exact ⟨f, hn.mem.1, hn.key_eq⟩
  · exact HeapBacks.slots hb

/-- What a slot holds is a value, at home. -/
theorem Replica.HoldsAtHome.slot (hc : R.HoldsAtHome t c m)
    {h : Nat} {f : Frame}
    (hf : (c i).slot h = some f) :
    f.tomb = false ∧ R.Fits i f.key (f.val, f.exp) := by
  have hb := hc.1.shard i
  have hk := hc.2 i
  obtain ⟨_, _, cfg, _ | _, _, _⟩ := R
  · obtain ⟨r, hr, hfr⟩ := Option.bind_eq_some_iff.mp hf
    obtain ⟨f', hn, htomb⟩ := (Backs.sound hb).current h r hr
    have hf' : (c i).frameAt r = some f' := hn.mem.1
    rw [hfr] at hf'
    injection hf' with hf'
    subst hf'
    have hh : cfg.hashKey f.key = h := hn.key_eq
    rw [← hh] at hn
    exact ⟨htomb, hk f.key _ ⟨r, f, hn, htomb, rfl, rfl⟩⟩
  · exact hk h f hf

/-- A run leaves a cache as the walks expect it. -/
theorem Replica.HoldsAtHome.stored (hc : R.HoldsAtHome t c m)
    (hexp : ∀ i h f, (c i).slot h = some f → f.exp < 2 ^ 64) :
    R.Stored c where
  slots := hc.slots
  home := fun _ _ _ hf => (hc.slot hf).2.1
  value := fun _ _ _ hf => (hc.slot hf).1
  fits := fun i h f hf =>
    ⟨(hc.slot hf).2.2.1, (hc.slot hf).2.2.2, hexp i h f hf⟩

/-- The slot of a hash holds a key of that hash. -/
theorem Replica.Stored.hash_eq (hc : R.Stored c)
    {h : Nat} {f : Frame} (hf : (c i).slot h = some f) :
    R.cfg.hashKey f.key = h := by
  obtain ⟨r, hr, hfr⟩ := Option.bind_eq_some_iff.mp hf
  obtain ⟨f', hf', hh⟩ := hc.slots i h r hr
  rw [hfr] at hf'
  injection hf' with hf'
  rw [hf']
  exact hh

end Runs

end Rostam.Shard
