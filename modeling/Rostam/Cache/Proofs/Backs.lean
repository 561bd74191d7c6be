/-
A shard and the map it stands for.

A persistent shard backs a map from clock `t` on if its live entries that
have not expired by then are the map's. It then refines the map's
operations, and what happens behind a handler's back (sweeps, restarts,
online compaction) does not show.
-/
import Rostam.Cache.Heap
import Rostam.Cache.Proofs.Run
import Rostam.Ops.Proofs.Handlers

namespace Rostam.Cache

open Rostam.Lib Rostam.Ops Shard Function

variable {cfg : Config} {s s' : Shard} {t t' : Nat} {m : Entries}

variable {i : Nat}

-- ======== persistent shards

/-- From clock `t` on the shard's live entries are the map's. -/
structure Backs (cfg : Config) (t : Nat) (s : Shard) (m : Entries) :
    Prop where
  sound : s.Sound cfg
  gone : s.Gone cfg t
  clock : s.lastAppliedStampMs ≤ t
  header : s.hdrStamp ≤ t
  live : ∀ key v, isExpired v.2 t = false → (s.Live cfg key v ↔ m key = some v)

theorem isExpired_false_mono {exp c c' : Nat} (hc : c ≤ c')
    (h : isExpired exp c' = false) : isExpired exp c = false := by
  rw [Bool.eq_false_iff] at h ⊢
  exact fun he => h (isExpired_mono hc he)

theorem Backs.mono (hb : Backs cfg t s m) (ht : t ≤ t') :
    Backs cfg t' s m where
  sound := hb.sound
  gone := hb.gone.mono ht
  clock := hb.clock.trans ht
  header := hb.header.trans ht
  live := fun key v hv => hb.live key v (isExpired_false_mono ht hv)

/-- From `t` on the shard reads as the map does. -/
theorem Backs.resolve (hb : Backs cfg t s m) (ht : t ≤ t') (key : Key) :
    s.resolve cfg key t' = m.read key t' := by
  ext v
  rw [resolve_iff_live hb.sound.toIndexed hb.gone ht]
  unfold Entries.read
  rw [Option.filter_eq_some_iff, Bool.not_eq_true']
  constructor
  · rintro ⟨hl, he⟩
    exact ⟨(hb.live key v (isExpired_false_mono ht he)).mp hl, he⟩
  · rintro ⟨hm, he⟩
    exact ⟨(hb.live key v (isExpired_false_mono ht he)).mpr hm, he⟩

/-- A shard with the same log backs the same map. -/
theorem Backs.of_log (hb : Backs cfg t s m) (hs : s'.Sound cfg)
    (hg : s'.Gone cfg t) (hc : s'.lastAppliedStampMs ≤ t)
    (hh : s'.hdrStamp ≤ t) (hlog : s'.log = s.log) :
    Backs cfg t s' m where
  sound := hs
  gone := hg
  clock := hc
  header := hh
  live := by
    intro key v hv
    rw [← hb.live key v hv]
    unfold Shard.Live Shard.Newest
    rw [hlog]

theorem Backs.advanceStamp (hb : Backs cfg t s m) (ht : t' ≤ t) :
    Backs cfg t (s.advanceStamp t') m :=
  hb.of_log hb.sound.stamp hb.gone (max_le hb.clock ht) hb.header rfl

/-- A read leaves the map as it is. -/
theorem Backs.getAt (hb : Backs cfg t s m) (ht : t' ≤ t) (key : Key) :
    Backs cfg t (s.get cfg key t' true) m := by
  have hs := get_sound hb.sound key t' true
  have hg : (s.get cfg key t' true).Gone cfg t :=
    get_gone hb.sound hb.gone fun _ => ht
  rcases get_drop key t' true with he | ⟨f, _, _, _, he⟩ <;> rw [he] at hs hg ⊢
  · exact hb
  · exact hb.of_log hs hg hb.clock hb.header rfl

/-- A frame written is the map's write of it, or its removal. -/
theorem Backs.write {g : Frame} {tab : Nat → Option Ref}
    {m' : Entries} (hb : Backs cfg t s m) (hr : Ready cfg s i)
    (hseq : g.seq = s.writeSeq + 1) (ht : Points cfg s i g tab)
    (hm : ∀ key v, isExpired v.2 t = false → (m' key = some v ↔
      g.tomb = false ∧ g.key = key ∧ v = (g.val, g.exp)
        ∨ cfg.hashKey g.key ≠ cfg.hashKey key ∧ m key = some v)) :
    Backs cfg t (s.write i g tab) m' := { hb with
  sound := hr.sound.write hr.lt hr.unretired hseq ht
  gone := hb.gone.write hr.sound.toOrdered hr.lt hseq ht
  live := by
    intro key v hv
    rw [live_write hr.sound.toOrdered hr.lt hseq, hm key v hv,
      hb.live key v hv] }

theorem Backs.setWriteIdx (hb : Backs cfg t s m)
    (hs : ({ s with writeIdx := i } : Shard).Sound cfg) :
    Backs cfg t { s with writeIdx := i } m :=
  hb.of_log hs hb.gone hb.clock hb.header rfl

/-- A put that succeeds is a put on the map. -/
theorem Backs.putAtExp (hpol : cfg.policy = .rejectWrites)
    {env : EvictEnv} (hb : Backs cfg t s m) (key : Key) (val : Bytes)
    (exp : Nat) (hok : (s.putAtExp cfg env key val exp).2 = none) :
    Backs cfg t (s.putAtExp cfg env key val exp).1
      (m.put cfg.hashKey key (val, exp)) := by
  have hw := putAtExp_wrote cfg env s key val exp
  rw [hok] at hw
  rcases hw.reject hb.sound hpol with ⟨hno, _⟩ | ⟨_, i, t, hr, _, ht, he⟩
  · cases hno
  · rw [he]
    refine (hb.setWriteIdx hr.sound).write hr rfl ht ?_
    intro k v _
    unfold Entries.put
    constructor
    · intro hk
      split at hk
      · split at hk
        · next hkey =>
          injection hk with hk
          exact Or.inl ⟨rfl, hkey.symm, hk.symm⟩
        · cases hk
      · next hne => exact Or.inr ⟨fun h => hne h.symm, hk⟩
    · rintro (⟨_, hkey, hv⟩ | ⟨hne, hk⟩)
      · have hkey' : key = k := hkey
        rw [if_pos (by rw [hkey']), if_pos hkey'.symm, hv]
      · rw [if_neg fun h => hne h.symm]
        exact hk

/-- The slot of a live entry that has not expired is there. -/
theorem Backs.findKey (hb : Backs cfg t s m) {key : Key} {v : Bytes × Nat}
    (hv : isExpired v.2 t = false) (hm : m key = some v) :
    ∃ f, s.findKey cfg key = some f := by
  have hres := hb.resolve (Nat.le_refl t) key
  unfold Entries.read at hres
  rw [hm, Option.filter_some, hv, Bool.not_false, if_pos rfl] at hres
  unfold Shard.resolve at hres
  obtain ⟨f, hf, _⟩ := Option.bind_eq_some_iff.mp hres
  exact ⟨f, hf⟩

/-- A delete that succeeds is one on the map. -/
theorem Backs.del (hpol : cfg.policy = .rejectWrites) {env : EvictEnv}
    (hb : Backs cfg t s m) (key : Key) {b : Bool}
    (hok : (s.del cfg env key).2 = .ok b) :
    Backs cfg t (s.del cfg env key).1 (update m key none) := by
  have hupdate : ∀ k v, update m key none k = some v ↔
      k ≠ key ∧ m k = some v := by
    intro k v
    by_cases hk : k = key
    · subst hk
      rw [update_self]
      constructor
      · intro h
        cases h
      · rintro ⟨hne, _⟩
        exact absurd rfl hne
    · rw [update_of_ne hk]
      exact ⟨fun h => ⟨hk, h⟩, And.right⟩
  rcases del_cases env hb.sound key with
    ⟨hnone, he⟩ | ⟨e, he⟩ | ⟨u, i, ⟨f, hf⟩, hfind, ⟨e, he⟩ | ⟨tab, _, ht, he⟩⟩
  · -- no slot of this key: nothing live to remove
    rw [he]
    refine ⟨hb.sound, hb.gone, hb.clock, hb.header, ?_⟩
    intro k v hv
    rw [hb.live k v hv, hupdate]
    refine ⟨fun hm => ⟨?_, hm⟩, And.right⟩
    intro hk
    subst hk
    obtain ⟨f, hf⟩ := hb.findKey hv hm
    rw [hnone] at hf
    cases hf
  · rw [he] at hok
    cases hok
  · rw [he] at hok
    cases hok
  · rw [he]
    have hr := findOrMakePage_ready hb.sound hfind
    obtain rfl := findOrMakePage_reject hpol hfind
    refine (hb.setWriteIdx hr.sound).write hr rfl ht ?_
    intro k v hv
    rw [hupdate]
    constructor
    · rintro ⟨hk, hm⟩
      right
      refine ⟨fun hh => hk ?_, hm⟩
      -- the slot of the hash is the deleted key's
      obtain ⟨r, f', hn, _, hkey, _⟩ := (hb.live k v hv).mpr hm
      obtain ⟨r₀, htab, hf₀⟩ := Option.bind_eq_some_iff.mp hf
      obtain ⟨hf₀, hkey₀⟩ := Option.filter_eq_some_iff.mp hf₀
      obtain ⟨f₁, hn₁, _⟩ := hb.sound.current _ r₀ htab
      have hf₁ : s.frameAt r₀ = some f₁ := hn₁.mem.1
      rw [hf₀] at hf₁
      injection hf₁ with hf₁
      have hsame : cfg.hashKey key = cfg.hashKey k := hh
      rw [← hsame] at hn
      have heq : (r, f') = (r₀, f₁) := hn.unique hb.sound.inj.injOn hn₁
      injection heq with _ hff
      rw [← hkey, hff, ← hf₁]
      exact of_decide_eq_true hkey₀
    · rintro (⟨htomb, _⟩ | ⟨hne, hm⟩)
      · cases htomb
      · exact ⟨fun hk => hne (by rw [hk]; rfl), hm⟩

/-- Behind a flush the map is empty. -/
theorem Backs.flush (hb : Backs cfg t s m) :
    Backs cfg t s.flush fun _ => none := { hb with
  sound := flush_sound hb.sound
  gone := flush_gone hb.sound.toOrdered
  live := by
    intro key v _
    constructor
    · rintro ⟨r, f, hn, _⟩
      have hmem : (r, f) ∈ s.flush.log := hn.mem
      rw [log_flush hb.sound.toOrdered] at hmem
      cases hmem
    · intro h
      cases h }

/-- A persistent reject-writes shard refines the map. -/
theorem refines_shardStore (hpol : cfg.policy = .rejectWrites)
    (env : EvictEnv) :
    Refines (shardStore cfg env) cfg.hashKey (Backs cfg) where
  getAt := fun key hb =>
    ⟨(hb.advanceStamp le_rfl).getAt le_rfl key, hb.resolve le_rfl key⟩
  putAt := fun key val _ hb hok =>
    (hb.advanceStamp le_rfl).putAtExp hpol key val _ hok
  putAbs := fun key val exp hb hok => hb.putAtExp hpol key val exp hok
  del := fun key _ hb hok => hb.del hpol key hok
  flush := fun hb => hb.flush

-- ======== behind the back

theorem relocateFrames_stamps (cfg : Config) (dropClock src : Nat)
    (l : List (Ref × Frame)) (s : Shard) (pinned : Bool) :
    (relocateFrames cfg dropClock src s pinned l).1.lastAppliedStampMs =
        s.lastAppliedStampMs
      ∧ (relocateFrames cfg dropClock src s pinned l).1.hdrStamp =
        s.hdrStamp := by
  induction l generalizing s pinned with
  | nil => exact ⟨rfl, rfl⟩
  | cons x l ih =>
    unfold relocateFrames
    split
    · exact ih s pinned
    · split
      · exact ih s true
      · split
        · exact ih s true
        · next dst _ => exact ih (s.moveFrame cfg dst x.2) pinned

theorem relocate_stamps (cfg : Config) (s : Shard) (i dropClock : Nat) :
    (s.tryRelocatePage cfg i dropClock).lastAppliedStampMs =
        s.lastAppliedStampMs
      ∧ (s.tryRelocatePage cfg i dropClock).hdrStamp = s.hdrStamp := by
  unfold tryRelocatePage
  split
  · exact ⟨rfl, rfl⟩
  · split
    · exact ⟨rfl, rfl⟩
    · next p _ =>
      split
      · exact ⟨rfl, rfl⟩
      · have h := relocateFrames_stamps cfg dropClock i (pageWalk i p) s false
        dsimp only
        split
        · exact h
        · exact h

theorem recycle_stamps (s : Shard) (i : Nat) :
    (s.recycle i).lastAppliedStampMs = s.lastAppliedStampMs
      ∧ (s.recycle i).hdrStamp = s.hdrStamp := by
  unfold Shard.recycle
  split
  · split
    · exact ⟨rfl, rfl⟩
    · exact ⟨rfl, rfl⟩
  · exact ⟨rfl, rfl⟩

/-- A sweep at an earlier clock is not seen. -/
theorem Backs.sweep (hb : Backs cfg t s m) {now : Nat}
    (hnow : now ≤ t) (reached : Nat → Bool) :
    Backs cfg t (s.sweepIndex now reached) m :=
  hb.of_log (sweepIndex_sound hb.sound now reached)
    (sweepIndex_gone hb.sound hb.gone hnow reached) hb.clock hb.header rfl

/-- A replicated shard drops nothing at an open that is not expired. -/
theorem Backs.reopen (hb : Backs cfg t s m) (hrep : cfg.replicated = true)
    (env : OpenEnv) : Backs cfg t (s.reopen cfg env) m := by
  have hr := reopened cfg env hb.sound.inj
  have hopen : s.openClock cfg env ≤ t := by
    unfold Shard.openClock
    rw [hrep]
    exact hb.header
  obtain ⟨h₁, h₂⟩ := reopen_stamps s env
  refine ⟨hr.sound, hr.gone.mono hopen, ?_, ?_, ?_⟩
  · rw [h₁]
    exact hb.header
  · rw [h₂]
    exact hb.header
  · intro key v hv
    rw [← hb.live key v hv]
    exact ⟨hr.live key v,
      fun hl => hr.kept key v hl (isExpired_false_mono hopen hv)⟩

theorem Backs.persistStamp (hb : Backs cfg t s m) :
    Backs cfg t { s with hdrStamp := s.lastAppliedStampMs } m :=
  hb.of_log hb.sound.stamp hb.gone hb.clock hb.clock rfl

/-- Relocation is not seen. -/
theorem Backs.relocate (hpol : cfg.policy = .rejectWrites)
    (hb : Backs cfg t s m) (i dropClock : Nat) :
    Backs cfg t (s.tryRelocatePage cfg i dropClock) m := by
  have hu := tryRelocatePage_unseen hb.sound hpol i dropClock
  obtain ⟨h₁, h₂⟩ := relocate_stamps cfg s i dropClock
  refine ⟨hu.sound, hu.gone t hb.gone, ?_, ?_, ?_⟩
  · rw [h₁]
    exact hb.clock
  · rw [h₂]
    exact hb.header
  · intro key v hv
    rw [hu.live, hb.live key v hv]

/-- Nor is the recycling of a page that is safe to empty. -/
theorem Backs.recycle (hb : Backs cfg t s m)
    (hsafe : (∃ p : Page, s.pages[i]? = some p ∧ p.retired = true) →
      s.SafeToEmpty cfg i) : Backs cfg t (s.recycle i) m := by
  rcases recycle_cases hb.sound i with he | ⟨he, htab, hvac, hret⟩
  · rw [he]
    exact hb
  · obtain ⟨h₁, h₂⟩ := recycle_stamps s i
    refine ⟨hb.sound.emptied he, hb.gone.emptied hb.sound (hsafe hret) he,
      ?_, ?_, ?_⟩
    · rw [h₁]
      exact hb.clock
    · rw [h₂]
      exact hb.header
    · intro key v hv
      rw [← hb.live key v hv]
      refine ⟨live_emptied hb.sound (hsafe hret) he, fun hl => ?_⟩
      -- a live entry has its slot, and no slot points into the page
      obtain ⟨f, hf⟩ := hb.findKey hv ((hb.live key v hv).mp hl)
      obtain ⟨r, htab₀, hfr⟩ := Option.bind_eq_some_iff.mp hf
      obtain ⟨f₁, hn₁, _⟩ := hb.sound.current _ r htab₀
      obtain ⟨r₂, f₂, hn₂, hrest⟩ := hl
      have heq : (r, f₁) = (r₂, f₂) := hn₁.unique hb.sound.inj.injOn hn₂
      injection heq with hrr _
      subst hrr
      exact ⟨r, f₂, newest_emptied he hn₂ (hvac _ r htab₀), hrest⟩

/-- A new shard backs the empty map. -/
theorem backs_fresh (cfg : Config) (t : Nat) :
    Backs cfg t (Shard.fresh cfg) fun _ => none where
  sound := fresh_sound
  gone := fresh_gone
  clock := Nat.zero_le _
  header := Nat.zero_le _
  live := by
    intro key v _
    constructor
    · rintro ⟨r, f, hn, _⟩
      have hf : (Shard.fresh cfg).frameAt r = some f := hn.mem.1
      rw [frameAt_fresh] at hf
      cases hf
    · intro h
      cases h

end Rostam.Cache
