/-
A heap shard and the map it stands for.

Nothing is ever rebuilt from a heap shard's pages, so its slots are all
there is: it backs a map from clock `t` on if every key reads alike from
then on. A slot changes hands with a write, goes with a delete, and is
dropped by a read, a sweep or a page's reclamation only once its entry
has expired; `Drops` says the last once for all three.
-/
import Rostam.Cache.Heap
import Rostam.Cache.Proofs.Moves
import Rostam.Ops.Proofs.Handlers

namespace Rostam.Cache

open Rostam.Lib Rostam.Ops Shard Function

variable {cfg : Config} {s s' : Shard} {t t' : Nat} {m : Entries}

/-- Every slot points at an entry of its hash. -/
def Shard.Slots (cfg : Config) (s : Shard) : Prop := ∀ h r, s.tab h = some r →
    ∃ f, s.frameAt r = some f ∧ cfg.hashKey f.key = h

/-- From clock `t` on the shard reads as the map does. -/
structure HeapBacks (cfg : Config) (t : Nat) (s : Shard) (m : Entries) :
    Prop where
  slots : s.Slots cfg
  clock : s.lastAppliedStampMs ≤ t
  read : ∀ key t', t ≤ t' → s.resolve cfg key t' = m.read key t'

theorem HeapBacks.mono (hb : HeapBacks cfg t s m) (ht : t ≤ t') :
    HeapBacks cfg t' s m where
  slots := hb.slots
  clock := hb.clock.trans ht
  read := fun key u hu => hb.read key u (ht.trans hu)

/-- What a read of `key` at clock `c` makes of the slot's entry. -/
def Frame.seenAs (key : Key) (c : Nat) (f : Frame) : Option (Bytes × Nat) :=
  if f.key = key ∧ isExpired f.exp c = false then some (f.val, f.exp)
  else none

/-- A read sees its slot and nothing else. -/
theorem resolve_slot (key : Key) (c : Nat) : s.resolve cfg key c =
      (s.slot (cfg.hashKey key)).bind (Frame.seenAs key c) := by
  unfold resolve findKey Shard.slot
  cases s.tab (cfg.hashKey key) with
  | none => rfl
  | some r =>
    rw [Option.bind_some, Option.bind_some]
    cases s.frameAt r with
    | none => rfl
    | some f =>
      rw [Option.bind_some]
      unfold Frame.seenAs
      by_cases hk : f.key = key
      · cases he : isExpired f.exp c <;> simp [Option.filter, hk, he]
      · simp [Option.filter, hk]

/-- `s'` has lost slots of `s` whose entries have expired at `t`, and
nothing else. -/
def Drops (t : Nat) (s s' : Shard) : Prop :=
  ∀ h, s'.tab h = s.tab h ∧ s'.slot h = s.slot h
    ∨ s'.tab h = none ∧ ∀ f, s.slot h = some f → isExpired f.exp t = true

/-- What has expired is not seen later either. -/
theorem seenAs_expired {key : Key} {f : Frame} (ht : t ≤ t')
    (he : isExpired f.exp t = true) : f.seenAs key t' = none := by
  unfold Frame.seenAs
  rw [if_neg]
  rintro ⟨_, hl⟩
  rw [isExpired_mono ht he] at hl
  cases hl

/-- A shard that only dropped what has expired backs the same map. -/
theorem HeapBacks.drop (hb : HeapBacks cfg t s m)
    (hc : s'.lastAppliedStampMs ≤ t) (hd : Drops t s s') :
    HeapBacks cfg t s' m where
  slots := by
    intro h r hr
    rcases hd h with ⟨htab, hslot⟩ | ⟨hnone, _⟩
    · have hr₀ := hr
      rw [htab] at hr₀
      obtain ⟨f, hf, hh⟩ := hb.slots h r hr₀
      refine ⟨f, ?_, hh⟩
      unfold Shard.slot at hslot
      rw [hr, hr₀] at hslot
      exact hslot.trans hf
    · rw [hnone] at hr
      cases hr
  clock := hc
  read := by
    intro key u hu
    rw [← hb.read key u hu, resolve_slot, resolve_slot]
    rcases hd (cfg.hashKey key) with ⟨_, hslot⟩ | ⟨hnone, hexp⟩
    · rw [hslot]
    · have hslot : s'.slot (cfg.hashKey key) = none := by
        unfold Shard.slot
        rw [hnone]
        rfl
      rw [hslot]
      cases hs : s.slot (cfg.hashKey key) with
      | none => rfl
      | some f =>
        rw [Option.bind_some, seenAs_expired hu (hexp f hs)]
        rfl

-- ======== drops

theorem HeapBacks.advanceStamp (hb : HeapBacks cfg t s m) :
    HeapBacks cfg t (s.advanceStamp t) m :=
  hb.drop (max_le hb.clock le_rfl) fun _ => Or.inl ⟨rfl, rfl⟩

theorem slot_of_findKey {key : Key} {f : Frame}
    (hf : s.findKey cfg key = some f) :
    s.slot (cfg.hashKey key) = some f ∧ f.key = key := by
  obtain ⟨r, hr, hfr⟩ := Option.bind_eq_some_iff.mp hf
  obtain ⟨hfr, hk⟩ := Option.filter_eq_some_iff.mp hfr
  refine ⟨?_, of_decide_eq_true hk⟩
  unfold Shard.slot
  rw [hr]
  exact hfr

/-- A tombstone empties its own slot only. -/
theorem slot_tombstone (h h' : Nat) :
    (s.tombstone h).slot h' = if h' = h then none else s.slot h' := by
  unfold Shard.slot tombstone
  dsimp only
  split
  · next he =>
    rw [he, update_self]
    rfl
  · next he =>
    rw [update_of_ne he]
    rfl

theorem drops_refl (t : Nat) (s : Shard) : Drops t s s :=
  fun _ => Or.inl ⟨rfl, rfl⟩

/-- A read drops nothing that is still alive. -/
theorem drops_get (cfg : Config) (t : Nat) (s : Shard) (key : Key)
    (allow : Bool) : Drops t s (s.get cfg key t allow) := by
  unfold Shard.get
  split
  · next f hf =>
    split
    · next hcond =>
      obtain ⟨hslot, _⟩ := slot_of_findKey hf
      rw [Bool.and_eq_true] at hcond
      intro h
      by_cases hh : h = cfg.hashKey key
      · subst hh
        right
        refine ⟨update_self .., fun g hg => ?_⟩
        rw [hslot] at hg
        injection hg with hg
        rw [← hg]
        exact hcond.1
      · left
        refine ⟨update_of_ne hh .., ?_⟩
        rw [slot_tombstone, if_neg hh]
    · exact drops_refl t s
  · exact drops_refl t s

/-- A sweep drops nothing that is still alive. -/
theorem drops_sweep (hs : s.Slots cfg) {now : Nat} (hnow : now ≤ t)
    (reached : Nat → Bool) : Drops t s (s.sweepIndex now reached) := by
  intro h
  cases htab : s.tab h with
  | none =>
    left
    have hnone : (s.sweepIndex now reached).tab h = none := by
      show Option.filter _ (s.tab h) = none
      rw [htab]
      rfl
    refine ⟨hnone, ?_⟩
    unfold Shard.slot
    rw [hnone, htab]
    rfl
  | some r =>
    obtain ⟨f, hf, _⟩ := hs h r htab
    have hsweep : (s.sweepIndex now reached).tab h =
        if reached h = true ∧ isExpired f.exp now = true then none
        else some r := by
      show Option.filter _ (s.tab h) = _
      rw [htab, Option.filter_some, hf, Option.map_some, Option.getD_some]
      cases reached h <;> cases isExpired f.exp now <;> rfl
    rw [hsweep]
    split
    · next hcond =>
      right
      refine ⟨rfl, fun g hg => ?_⟩
      unfold Shard.slot at hg
      rw [htab, Option.bind_some, hf] at hg
      injection hg with hg
      rw [← hg]
      exact isExpired_mono hnow hcond.2
    · next hcond =>
      left
      refine ⟨rfl, ?_⟩
      unfold Shard.slot
      rw [hsweep, if_neg hcond, htab]
      rfl

/-- A page is reclaimed only once its current entries have expired. -/
theorem drops_reclaim (hs : s.Slots cfg) {i stamp : Nat} (hstamp : stamp ≤ t) :
    Drops t s (s.tryRetireExpiredPage cfg i stamp) := by
  unfold tryRetireExpiredPage
  split
  · exact drops_refl t s
  · next p hp =>
    split
    · exact drops_refl t s
    · next hskip =>
      simp only [Bool.or_eq_true, not_or, Bool.not_eq_true,
        List.any_eq_false, Bool.and_eq_true, decide_eq_true_eq,
        not_and, Bool.not_eq_eq_eq_not] at hskip
      obtain ⟨_, hdead⟩ := hskip
      intro h
      cases htab : s.tab h with
      | none =>
        left
        have hnone : drainSlots cfg s.tab (pageWalk i p) h = none := by
          cases hd : drainSlots cfg s.tab (pageWalk i p) h with
          | none => rfl
          | some r =>
            obtain ⟨hr, _⟩ := (drainSlots_iff _ _).mp hd
            rw [htab] at hr
            cases hr
        refine ⟨hnone, ?_⟩
        unfold Shard.slot
        dsimp only
        rw [hnone, htab]
        rfl
      | some r =>
        obtain ⟨f, hf, hh⟩ := hs h r htab
        by_cases hpage : r.page = i
        · -- the slot points into the page: its entry has expired
          have hmem : (r, f) ∈ pageWalk i p := by
            rw [mem_pageWalk]
            refine ⟨hpage, ?_⟩
            unfold Shard.frameAt at hf
            rw [hpage, hp] at hf
            exact hf
          right
          constructor
          · show drainSlots cfg s.tab (pageWalk i p) h = none
            cases hd : drainSlots cfg s.tab (pageWalk i p) h with
            | none => rfl
            | some r' =>
              obtain ⟨hr', hout⟩ := (drainSlots_iff _ _).mp hd
              rw [htab] at hr'
              injection hr' with hr'
              subst hr'
              exact absurd hh (hout f hmem)
          · intro g hg
            unfold Shard.slot at hg
            rw [htab, Option.bind_some, hf] at hg
            cases hg
            have hcur : s.tab (cfg.hashKey f.key) = some r := by
              rw [hh]
              exact htab
            have hexp := hdead (r, f) hmem hcur
            rw [Bool.not_true, Bool.not_eq_false] at hexp
            exact isExpired_mono hstamp hexp
        · left
          have hkept : drainSlots cfg s.tab (pageWalk i p) h = some r := by
            rw [drainSlots_iff]
            refine ⟨htab, fun g hg => ?_⟩
            exact absurd (mem_pageWalk.mp hg).1 hpage
          refine ⟨hkept, ?_⟩
          unfold Shard.slot
          dsimp only
          rw [hkept, htab, Option.bind_some, Option.bind_some]
          unfold Shard.frameAt
          rw [List.getElem?_set_ne fun h => hpage h.symm]

theorem reclaim_stamp (cfg : Config) (s : Shard) (i stamp : Nat) :
    (s.tryRetireExpiredPage cfg i stamp).lastAppliedStampMs =
      s.lastAppliedStampMs := by
  unfold tryRetireExpiredPage
  split
  · rfl
  · split
    · rfl
    · rfl

theorem get_stamp (cfg : Config) (s : Shard) (key : Key) (now : Nat)
    (allow : Bool) :
    (s.get cfg key now allow).lastAppliedStampMs =
      s.lastAppliedStampMs := by
  unfold Shard.get
  split
  · split
    · rfl
    · rfl
  · rfl

theorem HeapBacks.getAt (hb : HeapBacks cfg t s m) (key : Key) :
    HeapBacks cfg t (s.get cfg key t true) m :=
  hb.drop ((get_stamp cfg s key t true).le.trans hb.clock)
    (drops_get cfg t s key true)

theorem HeapBacks.sweep (hb : HeapBacks cfg t s m) {now : Nat}
    (hnow : now ≤ t) (reached : Nat → Bool) :
    HeapBacks cfg t (s.sweepIndex now reached) m :=
  hb.drop hb.clock (drops_sweep hb.slots hnow reached)

/-- A reclaimed page had nothing that is still alive. -/
theorem HeapBacks.reclaim (hb : HeapBacks cfg t s m) {i stamp : Nat}
    (hstamp : stamp ≤ t) :
    HeapBacks cfg t (s.tryRetireExpiredPage cfg i stamp) m :=
  hb.drop ((reclaim_stamp cfg s i stamp).le.trans hb.clock)
    (drops_reclaim hb.slots hstamp)

-- ======== the map

variable {key : Key}

/-- The map the slots spell. -/
def Shard.entries (cfg : Config) (s : Shard) : Entries := fun key =>
  (s.findKey cfg key).map fun f => (f.val, f.exp)

/-- A read of the shard is a read of its map. -/
theorem resolve_entries (key : Key) (t : Nat) :
    s.resolve cfg key t = (s.entries cfg).read key t := by
  unfold resolve Shard.entries Entries.read
  dsimp only
  cases s.findKey cfg key with
  | none => rfl
  | some f =>
    rw [Option.bind_some, Option.map_some, Option.filter_some]
    cases isExpired f.exp t <;> rfl

theorem entries_slot (key : Key) :
    s.entries cfg key = (s.slot (cfg.hashKey key)).bind fun f =>
      if f.key = key then some (f.val, f.exp) else none := by
  unfold Shard.entries findKey Shard.slot
  cases s.tab (cfg.hashKey key) with
  | none => rfl
  | some r =>
    rw [Option.bind_some, Option.bind_some]
    cases s.frameAt r with
    | none => rfl
    | some f => by_cases hk : f.key = key <;> simp [Option.filter, hk]

/-- A frame in its slot is a put on the map. -/
theorem entries_of_put {g : Frame} (hslot : ∀ h, s'.slot h =
      if h = cfg.hashKey g.key then some g else s.slot h) :
    s'.entries cfg = (s.entries cfg).put cfg.hashKey g.key (g.val, g.exp) := by
  funext k
  unfold Entries.put
  rw [entries_slot, hslot]
  split
  · rw [Option.bind_some]
    by_cases hk : k = g.key
    · rw [if_pos hk.symm, if_pos hk]
    · rw [if_neg fun h => hk h.symm, if_neg hk]
  · rw [entries_slot]

/-- An emptied slot is a delete on the map. -/
theorem entries_of_del {f : Frame} (hf : s.findKey cfg key = some f)
    (hslot : ∀ h, s'.slot h = if h = cfg.hashKey key then none else s.slot h) :
    s'.entries cfg = update (s.entries cfg) key none := by
  obtain ⟨hs, hkey⟩ := slot_of_findKey hf
  funext k
  rw [entries_slot, hslot]
  by_cases hk : k = key
  · rw [hk, update_self, if_pos rfl]
    rfl
  · rw [update_of_ne hk, entries_slot]
    split
    · next hh =>
      -- the slot was the deleted key's
      rw [hh, hs, Option.bind_some, hkey, if_neg fun h => hk h.symm]
      rfl
    · rfl

theorem entries_of_findKey (hf : s.findKey cfg key = none) :
    s.entries cfg = update (s.entries cfg) key none := by
  funext k
  by_cases hk : k = key
  · rw [hk, update_self]
    unfold Shard.entries
    rw [hf]
    rfl
  · rw [update_of_ne hk]

/-- A shard with the same slots and frames spells the same map. -/
theorem Shard.Slots.of_frames (hs : s.Slots cfg) (s' : Shard)
    (htab : s'.tab = s.tab)
    (hframe : ∀ r f, s.frameAt r = some f → s'.frameAt r = some f) :
    s'.Slots cfg ∧ ∀ h, s'.slot h = s.slot h := by
  constructor
  · intro h r hr
    rw [htab] at hr
    obtain ⟨f, hf, hh⟩ := hs h r hr
    exact ⟨f, hframe r f hf, hh⟩
  · intro h
    unfold Shard.slot
    rw [htab]
    cases hr : s.tab h with
    | none => rfl
    | some r =>
      obtain ⟨f, hf, _⟩ := hs h r hr
      rw [Option.bind_some, Option.bind_some, hf]
      exact hframe r f hf

theorem Shard.Slots.tombstone (hs : s.Slots cfg) (h : Nat) :
    (s.tombstone h).Slots cfg :=
  (forall_update_iff s.tab fun h o => ∀ r, o = some r → ∃ f,
    s.frameAt r = some f ∧ cfg.hashKey f.key = h).mpr
      ⟨fun _ hr => (by cases hr), fun h' _ => hs h'⟩

-- ======== writes

/-- The page a write goes to; the frames stay where they are. -/
theorem findOrMakeHeapPage_ok {need i : Nat}
    (hfind : s.findOrMakeHeapPage cfg need = .ok (s', i)) :
    i < s'.pages.length ∧ s'.tab = s.tab
      ∧ s'.lastAppliedStampMs = s.lastAppliedStampMs
      ∧ ∀ r, s'.frameAt r = s.frameAt r := by
  unfold findOrMakeHeapPage at hfind
  split at hfind
  · cases hfind
  · split at hfind
    · next hroom =>
      injection hfind with hfind
      injection hfind with hs hi
      subst hs
      subst hi
      refine ⟨?_, rfl, rfl, fun _ => rfl⟩
      cases hp : s.pages[s.writeIdx]? with
      | none => rw [hp] at hroom; cases hroom
      | some p => exact (List.getElem?_eq_some_iff.mp hp).1
    · split at hfind
      · next j hj =>
        injection hfind with hfind
        injection hfind with hs hi
        subst hs
        subst hi
        unfold firstHeapPageWithRoom at hj
        rw [List.findIdx?_eq_some_iff_getElem] at hj
        obtain ⟨hlt, _⟩ := hj
        exact ⟨hlt, rfl, rfl, fun _ => rfl⟩
      · split at hfind
        · injection hfind with hfind
          injection hfind with hs hi
          subst hs
          subst hi
          refine ⟨?_, rfl, rfl, fun r => ?_⟩
          · dsimp only
            rw [List.length_append]
            exact Nat.lt_add_one _
          · -- the page more has no frames
            unfold Shard.frameAt
            rw [List.getElem?_append]
            split
            · rfl
            · next hlt =>
              rw [List.getElem?_eq_none (Nat.not_lt.mp hlt)]
              cases hq : [Page.empty][r.page - s.pages.length]? with
              | none => rfl
              | some p =>
                have hp : p = Page.empty := by
                  have := List.mem_of_getElem? hq
                  rw [List.mem_singleton] at this
                  exact this
                rw [hp]
                rfl
        · cases hfind

/-- The slots after an entry is appended and its slot pointed at it. -/
theorem slot_put {i : Nat} {g : Frame} (hs : s.Slots cfg)
    (hi : i < s.pages.length) (h : Nat) :
    ((s.append i g).upsert (cfg.hashKey g.key) (s.tailRef i)).slot h =
      if h = cfg.hashKey g.key then some g else s.slot h := by
  have hframe : ∀ r f, s.frameAt r = some f →
      (s.append i g).frameAt r = some f :=
    fun r f hf => (frameAt_append hi).mpr (Or.inl hf)
  unfold Shard.slot
  split
  · next he =>
    have htab : ((s.append i g).upsert (cfg.hashKey g.key)
        (s.tailRef i)).tab h = some (s.tailRef i) := by
      rw [he]
      exact update_self ..
    rw [htab]
    exact (frameAt_append hi).mpr (Or.inr ⟨rfl, rfl⟩)
  · next he =>
    have htab : ((s.append i g).upsert (cfg.hashKey g.key)
        (s.tailRef i)).tab h = s.tab h := update_of_ne he ..
    rw [htab]
    cases hr : s.tab h with
    | none => rfl
    | some r =>
      obtain ⟨f, hf, _⟩ := hs h r hr
      rw [Option.bind_some, Option.bind_some, hf]
      exact hframe r f hf

/-- A put keeps the slots in order. -/
theorem slots_put {i : Nat} {g : Frame} (hs : s.Slots cfg)
    (hi : i < s.pages.length) :
    ((s.append i g).upsert (cfg.hashKey g.key) (s.tailRef i)).Slots
      cfg := by
  intro h r hr
  have hr' : update s.tab (cfg.hashKey g.key)
      (some (s.tailRef i)) h = some r := hr
  by_cases he : h = cfg.hashKey g.key
  · rw [he, update_self] at hr'
    injection hr' with hr'
    subst hr'
    exact ⟨g, (frameAt_append hi).mpr (Or.inr ⟨rfl, rfl⟩), he.symm⟩
  · rw [update_of_ne he] at hr'
    obtain ⟨f, hf, hh⟩ := hs h r hr'
    exact ⟨f, (frameAt_append hi).mpr (Or.inl hf), hh⟩

/-- The map after the write, from a shard with the same slots and frames. -/
theorem Shard.Slots.put (hs : s.Slots cfg) {u : Shard} (htab : u.tab = s.tab)
    (hframe : ∀ r f, s.frameAt r = some f → u.frameAt r = some f) {i : Nat}
    (hi : i < u.pages.length) (g : Frame)
    (hs' : s' = (u.append i g).upsert (cfg.hashKey g.key) (u.tailRef i)) :
    s'.Slots cfg ∧ s'.entries cfg
      = (s.entries cfg).put cfg.hashKey g.key (g.val, g.exp) := by
  obtain ⟨hu, hslot⟩ := hs.of_frames u htab hframe
  subst hs'
  refine ⟨slots_put hu hi, entries_of_put fun h => ?_⟩
  rw [slot_put hu hi, hslot]

/-- A write on the map, read. -/
theorem read_put (m : Entries) (key k : Key) (val : Bytes) (exp c : Nat) :
    (m.put cfg.hashKey key (val, exp)).read k c =
      if cfg.hashKey k = cfg.hashKey key then
        (if key = k ∧ isExpired exp c = false then some (val, exp)
          else none)
      else m.read k c := by
  unfold Entries.read Entries.put
  by_cases hh : cfg.hashKey k = cfg.hashKey key
  · rw [if_pos hh, if_pos hh]
    by_cases hk : k = key
    · cases he : isExpired exp c <;> simp [Option.filter, hk, he]
    · have hk' : ¬ key = k := fun h => hk h.symm
      simp [Option.filter, hk, hk']
  · rw [if_neg hh, if_neg hh]

theorem read_del (m : Entries) (key k : Key) (c : Nat) :
    Entries.read (update m key none) k c =
      if k = key then none else m.read k c := by
  unfold Entries.read
  rw [update_apply]
  split <;> rfl

/-- A put that succeeds is a put on the map. -/
theorem HeapBacks.putAtExp (hb : HeapBacks cfg t s m) (key : Key)
    (val : Bytes) (exp : Nat)
    (hok : (s.putAtExpHeap cfg key val exp).2 = none) :
    HeapBacks cfg t (s.putAtExpHeap cfg key val exp).1
      (m.put cfg.hashKey key (val, exp)) := by
  unfold putAtExpHeap at hok ⊢
  split at hok
  · cases hok
  · next u i hfind =>
    obtain ⟨hi, htab, hclock, hframe⟩ := findOrMakeHeapPage_ok hfind
    dsimp only at hok ⊢
    split at hok
    · cases hok
    · next hlen =>
      rw [if_neg hlen]
      obtain ⟨hslots, hput⟩ := hb.slots.put
        (u := { u with writeSeq := u.writeSeq + 1 }) htab
        (fun r f hf => (hframe r).trans hf) hi ⟨key, val, exp, _, false⟩ rfl
      refine ⟨hslots, hclock.le.trans hb.clock, fun k c hc => ?_⟩
      rw [resolve_entries, hput, read_put, read_put, ← resolve_entries,
        hb.read k c hc]

/-- A delete of the shard is one on the map. -/
theorem HeapBacks.del (hb : HeapBacks cfg t s m) (key : Key) :
    HeapBacks cfg t (s.delHeap cfg key).1 (update m key none) := by
  unfold delHeap
  split
  · next hnone =>
    refine ⟨hb.slots, hb.clock, fun k c hc => ?_⟩
    rw [resolve_entries, entries_of_findKey hnone, read_del, read_del,
      ← resolve_entries, hb.read k c hc]
  · next f hf =>
    refine ⟨hb.slots.tombstone _, hb.clock, fun k c hc => ?_⟩
    rw [resolve_entries, entries_of_del hf (slot_tombstone _), read_del,
      read_del, ← resolve_entries, hb.read k c hc]

/-- Behind a flush the map is empty. -/
theorem HeapBacks.flush (hb : HeapBacks cfg t s m) :
    HeapBacks cfg t s.flush fun _ => none where
  slots := by
    intro h r hr
    cases hr
  clock := hb.clock
  read := fun _ _ _ => rfl

/-- A heap shard refines the map. -/
theorem refines_heapStore (cfg : Config) :
    Refines (heapStore cfg) cfg.hashKey (HeapBacks cfg) where
  getAt := fun key hb =>
    ⟨hb.advanceStamp.getAt key, hb.read key _ le_rfl⟩
  putAt := fun key val _ hb hok =>
    hb.advanceStamp.putAtExp key val _ hok
  putAbs := fun key val exp hb hok => hb.putAtExp key val exp hok
  del := fun key _ hb _ => hb.del key
  flush := fun hb => hb.flush

theorem heapBacks_fresh (cfg : Config) (t initial : Nat) :
    HeapBacks cfg t (freshHeap initial) fun _ => none where
  slots := by
    intro h r hr
    cases hr
  clock := Nat.zero_le _
  read := fun _ _ _ => rfl

end Rostam.Cache
