/-
The durable watermark and the data below it.

# The layers

- `Kept` (mapping and history): an earlier state `a` of the shard, less
  the pages recycled since, tells the first `n` writes, and everything the
  shard has beyond it is told too.
- `Tracks` (disk and mapping): each OS page on disk is an earlier image of
  the mapping, no life is ahead, and each page header names the life the
  mapping is in.
- `Stored` (disk and `a`): the frames of `a` are on every OS page, and
  the bounds on disk reach past them.
- `Calling`: how far the watermark call in progress has brought its
  snapshot towards `Stored`.

`Kept` and `Stored` hold of `base` throughout; a call that passes its
bounds msync makes its snapshot the new base. What the rebuild finds then
lies between the base and the shard.

# The condition

Recycling destroys what is on a page before the next call makes up for
it. The runs kept recycle a page only when it was retired in the base
already, and no key's newest record there hides an older one elsewhere.
-/
import Rostam.Cache.Proofs.Told

namespace Rostam.Cache

open Rostam.Lib Shard Function

variable {cfg : Config} {r r' : Region} {a b s : Shard} {n : Nat}

-- ======== placing

/-- Frames are placed one behind the other. -/
theorem place_append (off : Nat) (l l' : List Frame) : place off (l ++ l') =
      place off l ++ place (off + (l.map Frame.size).sum) l' := by
  induction l generalizing off with
  | nil => rfl
  | cons f l ih =>
    simp only [List.cons_append, place, List.map_cons, List.sum_cons]
    rw [ih, Nat.add_assoc]

/-- More frames leave the first where they are. -/
theorem place_mono {l l' : List Frame} (h : l <+: l') :
    place 0 l <+: place 0 l' := by
  obtain ⟨l₂, rfl⟩ := h
  rw [place_append]
  exact List.prefix_append _ _

theorem place_map_snd (off : Nat) (l : List Frame) :
    (place off l).map Prod.snd = l := by
  induction l generalizing off with
  | nil => rfl
  | cons f l ih =>
    rw [place, List.map_cons, ih]

/-- A placed frame is within the bounds of all. -/
theorem place_bounds {off : Nat} {l : List Frame} {p : Placed}
    (hp : p ∈ place off l) :
    off ≤ p.1 ∧ p.stop ≤ off + (l.map Frame.size).sum := by
  induction l generalizing off with
  | nil => cases hp
  | cons f l ih =>
    rw [List.map_cons, List.sum_cons]
    rcases List.mem_cons.mp hp with rfl | hp
    · exact ⟨le_rfl, by unfold Placed.stop; dsimp only; omega⟩
    · have h := ih hp
      omega

/-- The bytes on page `i`. -/
def Shard.tailOf (s : Shard) (i : Nat) : Nat :=
  ((s.framesOf i).map Frame.size).sum

/-- A page only grows. -/
theorem Grown.framesOf (hg : Grown a b) (i : Nat) :
    a.framesOf i <+: b.framesOf i := by
  unfold Shard.framesOf
  cases hp : a.pages[i]? with
  | none => exact List.nil_prefix
  | some p =>
    obtain ⟨q, hq, hpre, _⟩ := hg.page i p hp
    rw [hq]
    exact hpre

theorem Grown.tailOf (hg : Grown a b) (i : Nat) : a.tailOf i ≤ b.tailOf i := by
  unfold Shard.tailOf
  obtain ⟨l, hl⟩ := hg.framesOf i
  rw [← hl, List.map_append, List.sum_append]
  omega

theorem tails_eq (r : Region) (i : Nat) :
    r.tails i = r.world.shard.tailOf i := by
  unfold Region.tails Shard.tailOf Shard.framesOf
  cases r.world.shard.pages[i]? with
  | none => rfl
  | some p => rfl

/-- Recycling empties one page. -/
theorem framesOf_recycle {i : Nat} {p : Page}
    (hp : s.pages[i]? = some p) (hret : p.retired = true) (j : Nat) :
    (s.recycle i).framesOf j = if j = i then [] else s.framesOf j := by
  rw [recycle_eq hp hret]
  unfold Shard.framesOf
  split
  · next hj =>
    rw [hj, List.getElem?_set_self (List.getElem?_eq_some_iff.mp hp).1]
    rfl
  · next hj => rw [List.getElem?_set_ne (Ne.symm hj)]

-- ======== invariants

/-- The image has the frames of `a`, in the lives the pages are in. -/
def Image.Carries (img : Image) (lives : Nat → Nat) (a : Shard) : Prop :=
  ∀ i p, p ∈ place 0 (a.framesOf i) → img.has i (lives i) p = true

/-- An earlier shard `a` tells the first `n` writes, and the shard tells
what it has beyond it. -/
structure Kept (cfg : Config) (hist : List Done) (w : World) (a : Shard)
    (n : Nat) : Prop where
  known : Known cfg hist n w.clock a
  le : n ≤ hist.length
  grown : Grown a w.shard
  late : LateTold cfg hist n a w.shard

/-- The disk follows the mapping. -/
structure Tracks (cfg : Config) (disk : Nat → Image) (lives : Nat → Nat)
    (s : Shard) : Prop where
  life : ∀ i, ((disk (cfg.headerOs i)).extents i).life = lives i
  life_le : ∀ i j, ((disk j).extents i).life ≤ lives i
  placed : ∀ i j, ((disk j).extents i).life = lives i →
    ((disk j).extents i).placed <+: place 0 (s.framesOf i)

/-- Both watermarks are of calls that began within the first `n`
writes. -/
def Image.MarkedBy (img : Image) (n : Nat) : Prop :=
  img.appliedIndex.since ≤ n ∧ img.pbFrontier.since ≤ n

/-- The frames of `a` are on disk, within bounds. -/
structure Stored (cfg : Config) (disk : Nat → Image)
    (lives bounds : Nat → Nat) (a : Shard) : Prop where
  frames : ∀ j, (disk j).Carries lives a
  bound : ∀ i, a.tailOf i ≤ bounds i
  header : ∀ i, a.tailOf i ≤ ((disk (cfg.headerOs i)).extents i).bound

/-- How far a call is with its snapshot. -/
structure Calling (cfg : Config) (r : Region) (c : SyncCall) : Prop where
  kept : Kept cfg r.hist r.world c.snap c.since
  grown : Grown r.base c.snap
  since_le : r.baseSince ≤ c.since
  -- a page of the snapshot is as it was, or was recycled since
  snaps : ∀ i, (c.snaps i).2 = r.lives i ∧ (c.snaps i).1 = c.snap.tailOf i
    ∨ (c.snaps i).2 < r.lives i ∧ c.snap.tailOf i = 0
  frames : ∀ j, c.phase = .data ∧ c.pending j = true
    ∨ (r.disk j).Carries r.lives c.snap
  bound : c.phase = .bounds → ∀ i, c.snap.tailOf i ≤ r.bounds i
  header : c.phase = .bounds → ∀ i, c.pending (cfg.headerOs i) = true
      ∨ c.snap.tailOf i ≤ ((r.disk (cfg.headerOs i)).extents i).bound
  stamp : c.phase = .stamp → r.baseSince = c.since

structure Region.Inv (cfg : Config) (r : Region) : Prop where
  known : Known cfg r.hist r.hist.length r.world.clock r.world.shard
  length : r.world.shard.pages.length = cfg.numPages
  floor : r.world.shard.flushedThroughSeq = 0
  base : Kept cfg r.hist r.world r.base r.baseSince
  tracks : Tracks cfg r.disk r.lives r.world.shard
  marked : r.image.MarkedBy r.baseSince
  onDisk : ∀ j, (r.disk j).MarkedBy r.baseSince
  stored : Stored cfg r.disk r.lives r.bounds r.base
  calling : ∀ c, r.call = some c → Calling cfg r c

/-- Page `i` was retired in `a`, and no newest record of `a` on it hides
another. -/
def Shard.Recyclable (cfg : Config) (a : Shard) (i : Nat) : Prop :=
  (∃ p : Page, a.pages[i]? = some p ∧ p.retired = true) ∧ a.SafeToEmpty cfg i

/-- The condition on recycling: the base had the page for recycling
already. -/
def Region.RecyclesStored (cfg : Config) (r : Region) : Act → Prop
  | .recycle i => r.base.Recyclable cfg i
  | _ => True

-- ======== operations

/-- The mapping carries what it had earlier. -/
theorem image_carries (hg : Grown a r.world.shard) :
    r.image.Carries r.lives a := by
  intro i p hp
  unfold Image.has
  rw [Bool.and_eq_true]
  constructor
  · exact decide_eq_true rfl
  · exact decide_eq_true ((place_mono (hg.framesOf i)).subset hp)

/-- What was kept is kept through a step. -/
theorem Kept.step {w w' : World} {hist ds : List Done}
    (hk : Kept cfg hist w a n)
    (hnow : Known cfg hist hist.length w.clock w.shard)
    (hst : Stepped cfg hist w.clock w'.clock w.shard w'.shard ds) :
    Kept cfg (hist ++ ds) w' a n where
  known := (hk.known.append ds hk.le).mono hst.clock_le
  le := by
    rw [List.length_append]
    exact hk.le.trans (Nat.le_add_right _ _)
  grown := hk.grown.trans hst.grown
  late := hk.late.step hk.le hnow hst

/-- The shard moves on by one operation. -/
theorem Region.Inv.ran {w : World} {ds : List Done} (hi : r.Inv cfg)
    (hst : Stepped cfg r.hist r.world.clock w.clock r.world.shard w.shard ds) :
    ({ r with world := w, hist := r.hist ++ ds } : Region).Inv cfg := { hi with
  known := hst.known
  length := hst.grown.length.trans hi.length
  floor := hst.grown.floor.trans hi.floor
  base := hi.base.step hi.known hst
  tracks :=
    { life := hi.tracks.life
      life_le := hi.tracks.life_le
      placed := fun i j hl => (hi.tracks.placed i j hl).trans
        (place_mono (hst.grown.framesOf i)) }
  calling := by
    intro c hc
    have h := hi.calling c hc
    exact ⟨h.kept.step hi.known hst, h.grown, h.since_le, h.snaps,
      h.frames, h.bound, h.header, h.stamp⟩ }

-- ======== write-backs

/-- Some OS pages are written back. -/
def Rewritten (r : Region) (disk : Nat → Image) : Prop :=
  ∀ j, disk j = r.disk j ∨ disk j = r.image

section Rewritten

variable {disk : Nat → Image}

/-- A write-back takes the mapping to disk. -/
theorem Tracks.rewritten (ht : Tracks cfg r.disk r.lives r.world.shard)
    (hw : Rewritten r disk) :
    Tracks cfg disk r.lives r.world.shard where
  life := by
    intro i
    rcases hw (cfg.headerOs i) with h | h <;> rw [h]
    · exact ht.life i
    · rfl
  life_le := by
    intro i j
    rcases hw j with h | h <;> rw [h]
    · exact ht.life_le i j
    · exact le_rfl
  placed := by
    intro i j
    rcases hw j with h | h <;> rw [h]
    · exact ht.placed i j
    · exact fun _ => List.prefix_refl _

theorem markedBy_rewritten (hm : r.image.MarkedBy n)
    (hd : ∀ j, (r.disk j).MarkedBy n) (hw : Rewritten r disk) (j : Nat) :
    (disk j).MarkedBy n := by
  rcases hw j with h | h <;> rw [h]
  · exact hd j
  · exact hm

/-- What is stored stays stored through a write-back. -/
theorem Stored.rewritten (hs : Stored cfg r.disk r.lives r.bounds a)
    (hg : Grown a r.world.shard) (hw : Rewritten r disk) :
    Stored cfg disk r.lives r.bounds a where
  frames := by
    intro j
    rcases hw j with h | h <;> rw [h]
    · exact hs.frames j
    · exact image_carries hg
  bound := hs.bound
  header := by
    intro i
    rcases hw (cfg.headerOs i) with h | h <;> rw [h]
    · exact hs.header i
    · exact hs.bound i

end Rewritten

theorem rewritten_update (r : Region) (j : Nat) :
    Rewritten r (update r.disk j r.image) := by
  intro k
  by_cases hk : k = j
  · right
    rw [hk, update_self]
  · left
    rw [update_of_ne hk]

theorem rewritten_pending (r : Region) (pending : Nat → Bool) :
    Rewritten r fun j => if pending j then r.image else r.disk j := by
  intro j
  by_cases hp : pending j = true
  · exact Or.inr (if_pos hp)
  · exact Or.inl (if_neg hp)

/-- What a call has, after a write-back of OS page `j`. -/
theorem Calling.writeback {c : SyncCall} (hc : Calling cfg r c) (j : Nat) :
    Calling cfg (r.writeback j)
      { c with pending := update c.pending j false } := { hc with
  frames := by
    intro k
    show c.phase = .data ∧ update c.pending j false k = true
      ∨ (update r.disk j r.image k).Carries r.lives c.snap
    by_cases hk : k = j
    · right
      rw [hk, update_self]
      exact image_carries hc.kept.grown
    · rw [update_of_ne hk, update_of_ne hk]
      exact hc.frames k
  header := by
    intro hph i
    show update c.pending j false (cfg.headerOs i) = true ∨ c.snap.tailOf i ≤
        ((update r.disk j r.image (cfg.headerOs i)).extents i).bound
    by_cases hk : cfg.headerOs i = j
    · right
      rw [hk, update_self]
      exact hc.bound hph i
    · rw [update_of_ne hk, update_of_ne hk]
      exact hc.header hph i }

/-- The OS writes back a page. -/
theorem Region.Inv.writeback (hi : r.Inv cfg) (j : Nat) :
    (r.writeback j).Inv cfg := { hi with
  tracks := hi.tracks.rewritten (rewritten_update r j)
  onDisk := markedBy_rewritten hi.marked hi.onDisk (rewritten_update r j)
  stored := hi.stored.rewritten hi.base.grown (rewritten_update r j)
  calling := by
    intro c hc
    obtain ⟨c₀, hc₀, rfl⟩ := Option.map_eq_some_iff.mp hc
    exact (hi.calling c₀ hc₀).writeback j }

-- ======== calls

/-- A call that begins has nothing on disk yet. -/
theorem Region.Inv.start (hi : r.Inv cfg) (kind : CallKind)
    (value epoch : Nat) : (r.start kind value epoch).Inv cfg := { hi with
  calling := by
    intro c hc
    cases hc
    refine ⟨⟨hi.known, le_rfl,
      grown_of_pages rfl le_rfl rfl, ?_⟩, hi.base.grown,
      hi.base.le, ?_, fun _ => Or.inl ⟨rfl, rfl⟩, ?_, ?_, ?_⟩
    · intro x f hf hlt
      have hle : f.seq ≤ r.world.shard.writeSeq := hi.known.sound.seq_le x f hf
      exact absurd hlt (Nat.not_lt.mpr hle)
    · exact fun i => Or.inl ⟨rfl, tails_eq r i⟩
    · exact fun hph => by cases hph
    · exact fun hph => by cases hph
    · exact fun hph => by cases hph }

/-- The header's clock is not part of any of it. -/
theorem Region.Inv.stampClock (hi : r.Inv cfg) (x : Nat) :
    ({ r with world := { r.world with
      shard := { r.world.shard with hdrStamp := x } } } : Region).Inv cfg := by
  have hg : Grown r.world.shard { r.world.shard with hdrStamp := x } :=
    grown_of_pages rfl le_rfl rfl
  refine ⟨hi.known.stamp, hi.length, hi.floor,
    ⟨hi.base.known, hi.base.le, hi.base.grown.trans hg, hi.base.late⟩,
    ⟨hi.tracks.life, hi.tracks.life_le, hi.tracks.placed⟩,
    hi.marked, hi.onDisk, hi.stored, ?_⟩
  intro c hc
  have h := hi.calling c hc
  exact ⟨⟨h.kept.known, h.kept.le, h.kept.grown.trans hg, h.kept.late⟩,
    h.grown, h.since_le, h.snaps, h.frames, h.bound, h.header, h.stamp⟩

section Call

variable {c : SyncCall} (hi : r.Inv cfg) (hc : Calling cfg r c)

include hi in
/-- A failed msync ends the call. -/
theorem Region.Inv.abort : ({ r with call := none } : Region).Inv cfg where
  known := hi.known
  length := hi.length
  floor := hi.floor
  base := hi.base
  tracks := hi.tracks
  marked := hi.marked
  onDisk := hi.onDisk
  stored := hi.stored
  calling := fun c hc => by cases hc

include hc in
/-- The frames are on disk from the data msync on. -/
theorem Calling.carries (hph : c.phase ≠ .data) (j : Nat) :
    (r.disk j).Carries r.lives c.snap := by
  rcases hc.frames j with ⟨hd, _⟩ | hcar
  · exact absurd hd hph
  · exact hcar

include hc in
/-- What an msync leaves on disk of the snapshot. -/
theorem Calling.carries_synced (j : Nat) :
    (if c.pending j then r.image else r.disk j).Carries r.lives
      c.snap := by
  split
  · exact image_carries hc.kept.grown
  · next hno =>
    rcases hc.frames j with ⟨_, hp⟩ | hcar
    · exact absurd hp hno
    · exact hcar

include hc in
/-- The bounds projected reach past the snapshot. -/
theorem Calling.projected (i : Nat) :
    c.snap.tailOf i ≤ r.projectedBounds c i := by
  unfold Region.projectedBounds
  cases c.kind with
  | setAppliedIndex =>
    rw [tails_eq]
    exact hc.kept.grown.tailOf i
  | setPBFrontier =>
    rcases hc.snaps i with ⟨hl, ht⟩ | ⟨_, ht⟩
    · rw [if_pos hl.symm]
      exact le_of_eq ht.symm
    · rw [ht]
      exact Nat.zero_le _

include hi hc in
/-- Behind the data msync the snapshot's frames are on disk. -/
theorem Region.Inv.syncedData : ({ r with
      disk := fun j => if c.pending j then r.image else r.disk j
      call := some { c with phase := .project } } : Region).Inv cfg where
  known := hi.known
  length := hi.length
  floor := hi.floor
  base := hi.base
  tracks := hi.tracks.rewritten (rewritten_pending r c.pending)
  marked := hi.marked
  onDisk := markedBy_rewritten hi.marked hi.onDisk
    (rewritten_pending r c.pending)
  stored := hi.stored.rewritten hi.base.grown (rewritten_pending r c.pending)
  calling := by
    intro c' hc'
    injection hc' with hc'
    subst hc'
    refine ⟨hc.kept, hc.grown, hc.since_le, hc.snaps,
      fun j => Or.inr (hc.carries_synced j), ?_, ?_, ?_⟩
    · exact fun hph => by cases hph
    · exact fun hph => by cases hph
    · exact fun hph => by cases hph

include hi hc in
theorem Region.Inv.project (hph : c.phase = .project) : ({ r with
      bounds := r.projectedBounds c
      call := some { c with
        phase := .bounds, pending := fun _ => true } } : Region).Inv cfg where
  known := hi.known
  length := hi.length
  floor := hi.floor
  base := hi.base
  tracks := hi.tracks
  marked := hi.marked
  onDisk := hi.onDisk
  stored :=
    { frames := hi.stored.frames
      bound := fun i => (hc.grown.tailOf i).trans (hc.projected i)
      header := hi.stored.header }
  calling := by
    intro c' hc'
    injection hc' with hc'
    subst hc'
    refine ⟨hc.kept, hc.grown, hc.since_le, hc.snaps,
      fun j => Or.inr ?_, ?_, ?_, ?_⟩
    · exact hc.carries (by rw [hph]; intro h; cases h) j
    · exact fun _ => hc.projected
    · exact fun _ _ => Or.inl rfl
    · exact fun h => by cases h

include hi hc in
/-- Behind the bounds msync the snapshot is the base. -/
theorem Region.Inv.syncedBounds (hph : c.phase = .bounds) : ({ r with
      disk := fun j => if c.pending j then r.image else r.disk j
      call := some { c with phase := .stamp }
      base := c.snap
      baseSince := c.since } : Region).Inv cfg := { hi with
  base := hc.kept
  tracks := hi.tracks.rewritten (rewritten_pending r c.pending)
  marked := ⟨hi.marked.1.trans hc.since_le, hi.marked.2.trans hc.since_le⟩
  onDisk := by
    intro j
    have hm := markedBy_rewritten hi.marked hi.onDisk
      (rewritten_pending r c.pending) j
    exact ⟨hm.1.trans hc.since_le, hm.2.trans hc.since_le⟩
  stored :=
    { frames := hc.carries_synced
      bound := hc.bound hph
      header := by
        intro i
        dsimp only
        split
        · exact hc.bound hph i
        · next hno =>
          rcases hc.header hph i with hp | hle
          · exact absurd hp hno
          · exact hle }
  calling := by
    intro c' hc'
    injection hc' with hc'
    subst hc'
    refine ⟨hc.kept, grown_of_pages rfl le_rfl rfl,
      le_rfl, hc.snaps, fun j => Or.inr (hc.carries_synced j),
      ?_, ?_, fun _ => rfl⟩
    · exact fun h => by cases h
    · exact fun h => by cases h }

include hi hc in
/-- The watermark stamped is of the call the base is of. -/
theorem Region.Inv.stamp (hph : c.phase = .stamp) : (r.stamp c).Inv cfg := by
  have ha := hi.abort
  have hsince : c.since ≤ r.baseSince := le_of_eq (hc.stamp hph).symm
  unfold Region.stamp
  cases c.kind with
  | setAppliedIndex =>
    exact ⟨ha.known, ha.length, ha.floor, ha.base, ha.tracks,
      ⟨hsince, ha.marked.2⟩, ha.onDisk, ha.stored, fun c hc => by cases hc⟩
  | setPBFrontier =>
    exact ⟨ha.known, ha.length, ha.floor, ha.base, ha.tracks,
      ⟨ha.marked.1, hsince⟩, ha.onDisk, ha.stored, fun c hc => by cases hc⟩

end Call

-- ======== recycling

/-- A page that can be recycled can be later. -/
theorem Grown.recyclable {i : Nat} (hg : Grown a b) (ha : a.Ordered)
    (hr : a.Recyclable cfg i) : b.Recyclable cfg i := by
  obtain ⟨⟨p, hp, hret⟩, hsafe⟩ := hr
  exact ⟨⟨p, hg.retired hp hret, hret⟩, hg.safeToEmpty ha hp hret hsafe⟩

section Recycle

variable {i : Nat}

theorem tailOf_recycle (hr : a.Recyclable cfg i) (j : Nat) :
    (a.recycle i).tailOf j = if j = i then 0 else a.tailOf j := by
  obtain ⟨⟨p, hp, hret⟩, _⟩ := hr
  unfold Shard.tailOf
  rw [framesOf_recycle hp hret]
  split
  · rfl
  · rfl

/-- A recycled page was not needed. -/
theorem Kept.recycle {w : World} {hist : List Done}
    (hk : Kept cfg hist w a n) (hr : a.Recyclable cfg i) :
    Kept cfg hist { w with shard := w.shard.recycle i } (a.recycle i)
      n := by
  have hrw := hk.grown.recyclable hk.known.sound.toOrdered hr
  obtain ⟨⟨p, hp, hret⟩, hsafe⟩ := hr
  obtain ⟨⟨q, hq, hqret⟩, _⟩ := hrw
  refine ⟨hk.known.recycle fun _ => hsafe, hk.le, hk.grown.recycle hp hret, ?_⟩
  intro x f hf hlt
  rw [recycle_eq hp hret] at hlt
  apply hk.late x f _ hlt
  -- what is left after recycling was there before
  have hne : x.page ≠ i := by
    intro hx
    rw [recycle_eq hq hqret] at hf
    unfold frameAt at hf
    rw [hx, List.getElem?_set_self (List.getElem?_eq_some_iff.mp hq).1] at hf
    cases hf
  rw [recycle_eq hq hqret] at hf
  unfold frameAt at hf ⊢
  rw [List.getElem?_set_ne (Ne.symm hne)] at hf
  exact hf

/-- An image that carried the shard carries what is left of it. -/
theorem Image.Carries.recycle {img : Image} {lives : Nat → Nat} {l : Nat}
    (hc : img.Carries lives a) (hr : a.Recyclable cfg i) :
    img.Carries (update lives i l) (a.recycle i) := by
  obtain ⟨⟨p, hp, hret⟩, _⟩ := hr
  intro j x hx
  rw [framesOf_recycle hp hret] at hx
  split at hx
  · cases hx
  · next hj =>
    rw [update_of_ne hj]
    exact hc j x hx

theorem Stored.recycle {disk : Nat → Image} {lives bounds : Nat → Nat}
    {l : Nat} (hs : Stored cfg disk lives bounds a)
    (hr : a.Recyclable cfg i) :
    Stored cfg disk (update lives i l)
      (update bounds i 0) (a.recycle i) where
  frames := fun j => (hs.frames j).recycle hr
  bound := by
    intro j
    rw [tailOf_recycle hr]
    split
    · exact Nat.zero_le _
    · next hj =>
      rw [update_of_ne hj]
      exact hs.bound j
  header := by
    intro j
    rw [tailOf_recycle hr]
    split
    · exact Nat.zero_le _
    · exact hs.header j

/-- The region with a page's extent reset, before its header is
msynced. -/
def Region.reset (r : Region) (i : Nat) : Region :=
  { r with
    world := { r.world with shard := r.world.shard.recycle i }
    lives := update r.lives i (r.lives i + 1)
    bounds := update r.bounds i 0
    call := r.call.map fun c => { c with snap := c.snap.recycle i }
    base := r.base.recycle i }

theorem Calling.reset {c : SyncCall} (hc : Calling cfg r c)
    (hb : r.base.Ordered) (hr : r.base.Recyclable cfg i) :
    Calling cfg (r.reset i) { c with snap := c.snap.recycle i } := by
  have hrc := hc.grown.recyclable hb hr
  obtain ⟨⟨p, hp, hret⟩, _⟩ := hr
  refine ⟨hc.kept.recycle hrc, hc.grown.recycle hp hret, hc.since_le,
    ?_, ?_, ?_, ?_, hc.stamp⟩
  · intro j
    show (c.snaps j).2 = update r.lives i _ j
        ∧ (c.snaps j).1 = (c.snap.recycle i).tailOf j
      ∨ (c.snaps j).2 < update r.lives i _ j
        ∧ (c.snap.recycle i).tailOf j = 0
    rw [tailOf_recycle hrc]
    by_cases hj : j = i
    · right
      rw [if_pos hj, hj, update_self]
      rcases hc.snaps i with ⟨hl, _⟩ | ⟨hl, _⟩
      · exact ⟨by omega, rfl⟩
      · exact ⟨by omega, rfl⟩
    · rw [if_neg hj, update_of_ne hj]
      exact hc.snaps j
  · intro j
    rcases hc.frames j with hp | hcar
    · exact Or.inl hp
    · exact Or.inr (hcar.recycle hrc)
  · intro hph j
    show (c.snap.recycle i).tailOf j ≤ update r.bounds i 0 j
    rw [tailOf_recycle hrc]
    split
    · exact Nat.zero_le _
    · next hj =>
      rw [update_of_ne hj]
      exact hc.bound hph j
  · intro hph j
    show _ ∨ (c.snap.recycle i).tailOf j ≤
      ((r.disk (cfg.headerOs j)).extents j).bound
    rw [tailOf_recycle hrc]
    split
    · exact Or.inr (Nat.zero_le _)
    · exact hc.header hph j

/-- The old life is behind on every OS page but the header's. -/
theorem Tracks.recycle {p : Page}
    (ht : Tracks cfg r.disk r.lives r.world.shard)
    (hp : r.world.shard.pages[i]? = some p) (hret : p.retired = true) :
    Tracks cfg (update r.disk (cfg.headerOs i) (r.reset i).image)
      (r.reset i).lives (r.reset i).world.shard := by
  have hother : ∀ j k, j ≠ i →
      ((r.disk k).extents j).life = (r.reset i).lives j →
      ((r.disk k).extents j).placed <+:
        place 0 ((r.reset i).world.shard.framesOf j) := by
    intro j k hj hl
    show _ <+: place 0 ((r.world.shard.recycle i).framesOf j)
    rw [framesOf_recycle hp hret, if_neg hj]
    apply ht.placed j k
    rw [hl]
    exact update_of_ne hj ..
  have hlives : ∀ j, r.lives j ≤ (r.reset i).lives j := by
    intro j
    show r.lives j ≤ update r.lives i (r.lives i + 1) j
    by_cases hj : j = i
    · rw [hj, update_self]
      omega
    · rw [update_of_ne hj]
  refine ⟨?_, ?_, ?_⟩
  · intro j
    by_cases hk : cfg.headerOs j = cfg.headerOs i
    · rw [hk, update_self]
      rfl
    · have hj : j ≠ i := fun h => hk (by rw [h])
      rw [update_of_ne hk, ht.life j]
      exact (update_of_ne hj ..).symm
  · intro j k
    by_cases hk : k = cfg.headerOs i
    · rw [hk, update_self]
      exact le_rfl
    · rw [update_of_ne hk]
      exact (ht.life_le j k).trans (hlives j)
  · intro j k
    by_cases hk : k = cfg.headerOs i
    · rw [hk, update_self]
      exact fun _ => List.prefix_refl _
    · rw [update_of_ne hk]
      by_cases hj : j = i
      · intro hl
        have hlt : (r.reset i).lives j = r.lives j + 1 := by
          rw [hj]
          exact update_self ..
        have hle := ht.life_le j k
        omega
      · exact hother j k hj

/-- A page is recycled. -/
theorem Region.Inv.recycle (hi : r.Inv cfg)
    (hr : r.base.Recyclable cfg i) : (r.recycle cfg i).Inv cfg := by
  have hb := hi.base.known.sound.toOrdered
  have hrw := hi.base.grown.recyclable hb hr
  have hbase := hi.base.recycle hr
  obtain ⟨⟨q, hq, hqret⟩, hsafe⟩ := hrw
  refine ⟨hi.known.recycle fun _ => hsafe, ?_, ?_, hbase,
    hi.tracks.recycle hq hqret, hi.marked, ?_, ?_, ?_⟩
  · show (r.world.shard.recycle i).pages.length = cfg.numPages
    rw [recycle_eq hq hqret]
    exact (List.length_set ..).trans hi.length
  · show (r.world.shard.recycle i).flushedThroughSeq = 0
    rw [recycle_eq hq hqret]
    exact hi.floor
  · intro j
    have hm : (r.reset i).image.MarkedBy r.baseSince := hi.marked
    have hd : ∀ j, ((r.reset i).disk j).MarkedBy r.baseSince := hi.onDisk
    exact markedBy_rewritten hm hd
      (rewritten_update (r.reset i) (cfg.headerOs i)) j
  · have hst : Stored cfg (r.reset i).disk (r.reset i).lives
        (r.reset i).bounds (r.base.recycle i) := hi.stored.recycle hr
    exact hst.rewritten hbase.grown
      (rewritten_update (r.reset i) (cfg.headerOs i))
  · intro c hc
    obtain ⟨c₁, hc₁, rfl⟩ := Option.map_eq_some_iff.mp hc
    obtain ⟨c₀, hc₀, rfl⟩ := Option.map_eq_some_iff.mp hc₁
    exact ((hi.calling c₀ hc₀).reset hb hr).writeback (cfg.headerOs i)

end Recycle

-- ======== runs

theorem fresh_framesOf (i : Nat) : (Shard.fresh cfg).framesOf i = [] := by
  unfold Shard.framesOf Shard.fresh
  rw [List.getElem?_replicate]
  split
  · rfl
  · rfl

theorem fresh_known : Known cfg [] 0 0 (Shard.fresh cfg) where
  sound := fresh_sound
  gone := fresh_gone
  live := by
    rintro key v ⟨x, f, hn, _⟩
    have hf : (Shard.fresh cfg).frameAt x = some f := hn.mem.1
    rw [frameAt_fresh] at hf
    cases hf
  bare := fun h _ => Or.inl fun k d hk => absurd hk (Nat.not_lt_zero k)

theorem fresh_inv : (Region.fresh cfg).Inv cfg where
  known := fresh_known
  length := List.length_replicate
  floor := rfl
  base :=
    { known := fresh_known
      le := le_rfl
      grown := grown_of_pages rfl le_rfl rfl
      late := by
        intro x f hf
        have hf' : (Shard.fresh cfg).frameAt x = some f := hf
        rw [frameAt_fresh] at hf'
        cases hf' }
  tracks :=
    { life := fun _ => rfl
      life_le := fun _ _ => le_rfl
      placed := fun _ _ _ => List.nil_prefix }
  marked := ⟨le_rfl, le_rfl⟩
  onDisk := fun _ => ⟨le_rfl, le_rfl⟩
  stored := by
    have htail : ∀ i, (Shard.fresh cfg).tailOf i = 0 := by
      intro i
      unfold Shard.tailOf
      rw [fresh_framesOf]
      rfl
    refine ⟨fun j i p hp => ?_, fun i => le_of_eq (htail i),
      fun i => le_of_eq (htail i)⟩
    have hp' : p ∈ place 0 ((Shard.fresh cfg).framesOf i) := hp
    rw [fresh_framesOf] at hp'
    cases hp'
  calling := fun c hc => by cases hc

/-- One step of a run that recycles only what is stored. -/
theorem Region.Inv.step {act : Act} (hpol : cfg.policy = .rejectWrites)
    (hi : r.Inv cfg) (hK : r.RecyclesStored cfg act)
    (hstep : r.step cfg act = some r') : r'.Inv cfg := by
  cases act with
  | op o =>
    simp only [Region.step] at hstep
    obtain ⟨hguard, hstep⟩ := Option.ite_none_left_eq_some.mp hstep
    obtain ⟨w, hw, rfl⟩ := Option.map_eq_some_iff.mp hstep
    apply hi.ran
    apply step_told hpol hi.known _ hw
    cases hplain : o.isPlain with
    | true => rfl
    | false =>
      exfalso
      apply hguard
      rw [hplain]
      exact Bool.or_true _
  | recycle i =>
    simp only [Region.step] at hstep
    split at hstep
    · cases hstep
    · split at hstep
      · obtain ⟨-, rfl⟩ := guarded hstep
        exact hi.recycle hK
      · cases hstep
  | writeback j =>
    cases hstep
    exact hi.writeback j
  | setAppliedIndex idx =>
    simp only [Region.step] at hstep
    obtain ⟨-, rfl⟩ := barred hstep
    exact (hi.stampClock _).start .setAppliedIndex idx 0
  | setPBFrontier seq epoch =>
    simp only [Region.step] at hstep
    obtain ⟨-, rfl⟩ := barred hstep
    exact hi.start .setPBFrontier seq epoch
  | synced =>
    obtain ⟨c, hc, hstep⟩ := Option.bind_eq_some_iff.mp hstep
    have hcall := hi.calling c hc
    unfold Region.synced at hstep
    split at hstep
    · cases hstep
      exact hi.syncedData hcall
    · next hph =>
      cases hstep
      exact hi.syncedBounds hcall hph
    · cases hstep
  | project =>
    obtain ⟨c, hc, hstep⟩ := Option.bind_eq_some_iff.mp hstep
    obtain ⟨hph, rfl⟩ := guarded hstep
    exact hi.project (hi.calling c hc) hph
  | stamp =>
    obtain ⟨c, hc, hstep⟩ := Option.bind_eq_some_iff.mp hstep
    obtain ⟨hph, rfl⟩ := guarded hstep
    exact hi.stamp (hi.calling c hc) hph
  | abort =>
    cases hstep
    exact hi.abort

/-- The invariant holds throughout a run. -/
theorem reach_inv (hpol : cfg.policy = .rejectWrites) {acts : List Act}
    (hr : Reach (Region.step cfg) (Region.RecyclesStored cfg)
      (Region.fresh cfg) acts r) : r.Inv cfg :=
  hr.stateInvariant (P := Region.Inv cfg) fresh_inv
    fun _ _ _ hi hK hstep => hi.step hpol hK hstep

end Rostam.Cache
