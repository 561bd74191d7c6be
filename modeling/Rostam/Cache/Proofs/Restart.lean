/-
What a restart recovers.

On a reject-writes shard nothing is ever taken off a page, and a restart
recovers what the shard resolved, at every clock past the ones at which
it dropped expired entries. Where pages are emptied, under eviction or by
online compaction, this holds as long as no emptied page held the newest
record of a key of which an older copy stays behind. Neither path looks:
a page drained or recycled with a key's newest value or delete record
brings the older copy back at the next open.
-/
import Rostam.Cache.Proofs.Run

namespace Rostam.Cache

open Rostam.Lib Shard Function

variable {cfg : Config} {s : Shard} {c : Nat} {w w' : World}

variable {op : Op} {a b d : Bytes}

-- ======== pages safe to empty

/-- The check of `SafeToEmpty` over the frames: a newest record of page
`i` leaves only delete records, or copies under a later one. -/
def Shard.safeToEmptyCheck (cfg : Config) (s : Shard) (i : Nat) : Bool :=
  let l := s.logList (walk s.pages)
  l.all fun x => x.1.page != i
    || l.any (fun y => hashOf cfg y == hashOf cfg x
        && decide (seqOf x < seqOf y))
    || l.all fun y => y.1.page == i || hashOf cfg y != hashOf cfg x
        || y.2.tomb || l.any fun z => z.1.page != i
          && hashOf cfg z == hashOf cfg x && decide (seqOf y < seqOf z)

theorem safeToEmpty_of_check {i : Nat}
    (hc : s.safeToEmptyCheck cfg i = true) : s.SafeToEmpty cfg i := by
  intro h x y hx hpage hy
  simp only [safeToEmptyCheck, List.all_eq_true, List.any_eq_true,
    Bool.or_eq_true, Bool.and_eq_true, bne_iff_ne, beq_iff_eq,
    decide_eq_true_eq, mem_logList] at hc
  rcases hc x hx.mem with (hoff | ⟨z, hz, hhash, hlt⟩) | hall
  · exact absurd hpage hoff
  · have hle := hx.le z hz (hhash.trans hx.key_eq)
    omega
  · rcases hall y hy.mem.1 with
      ((hon | hne) | htomb) | ⟨z, hz, ⟨hoff, hhash⟩, hlt⟩
    · exact absurd hon hy.mem.2
    · exact absurd (hy.key_eq.trans hx.key_eq.symm) hne
    · exact htomb
    · have hle := hy.le z ⟨hz, hoff⟩ (hhash.trans hx.key_eq)
      omega

/-- The check of `EmptiesSafely`. -/
def World.emptiesSafelyCheck (cfg : Config) (w : World) : Op → Bool
  | .put key val _ _ _ | .putAt key val _ _ _ | .putAbs key val _ _ =>
    ((w.shard.victim cfg (entrySpan key.length val.length)).map
      (w.shard.safeToEmptyCheck cfg)).getD true
  | .del key _ =>
    ((w.shard.victim cfg (entrySpan key.length 0)).map
      (w.shard.safeToEmptyCheck cfg)).getD true
  | .recycle i => w.shard.safeToEmptyCheck cfg i
  | _ => true

theorem emptiesSafely_of_check (hc : w.emptiesSafelyCheck cfg op = true) :
    w.EmptiesSafely cfg op := by
  have hvictim : ∀ need, ((w.shard.victim cfg need).map
        (w.shard.safeToEmptyCheck cfg)).getD true = true →
      ∀ v, w.shard.victim cfg need = some v → w.shard.SafeToEmpty cfg v := by
    intro need hcheck v hv
    rw [hv] at hcheck
    exact safeToEmpty_of_check hcheck
  cases op with
  | put => exact hvictim _ hc
  | putAt => exact hvictim _ hc
  | putAbs => exact hvictim _ hc
  | del => exact hvictim _ hc
  | recycle i => exact fun _ => safeToEmpty_of_check hc
  | _ => trivial

-- ======== eviction

/-- In a run of puts and deletes whose evictions drain only pages safe
to empty, a reopened shard resolves nothing that was not resolved just
before Close. -/
theorem reopen_after_eviction {ops : List Op} (hr : Reach (World.step cfg)
      (fun w op => op.isWrite = true ∧ w.EmptiesSafely cfg op)
      (World.fresh cfg) ops w)
    (env : OpenEnv) (key : Key) (c : Nat) (v : Bytes × Nat)
    (hres : (w.shard.reopen cfg env).resolve cfg key c = some v) :
    w.shard.resolve cfg key c = some v := by
  have hclock : w.clock = 0 := by
    refine hr.invariant (P := fun _ w => w.clock = 0) rfl ?_
    intro _ _ _ _ hr h0 hk hstep
    obtain ⟨_, _, _, _, _, _, hc, _⟩ := step_write (reach_sound hr) hk.1 hstep
    exact hc.trans h0
  have hg : w.shard.Gone cfg w.clock := reach_gone (fun _ _ hk => hk.2) hr
  exact resolve_of_reopen (reach_sound hr) hg (by omega) hres

theorem resolve_of_tab_none {key : Key} (ht : s.tab (cfg.hashKey key) = none) :
    s.resolve cfg key c = none := by
  unfold resolve findKey
  rw [ht]
  rfl

-- ----------------------------------------------------- runs on two pages

/-- An injective stand-in for the key hash. -/
def keyCode (key : Key) : Nat :=
  key.foldr (fun b n => 257 * n + (b.toNat + 1)) 0

theorem keyCode_injective : Injective keyCode := by
  intro a
  induction a with
  | nil =>
    intro b h
    cases b with
    | nil => rfl
    | cons y b =>
      simp only [keyCode, List.foldr_nil, List.foldr_cons] at h
      omega
  | cons x a ih =>
    intro b h
    cases b with
    | nil =>
      simp only [keyCode, List.foldr_nil, List.foldr_cons] at h
      omega
    | cons y b =>
      have hx := x.toNat_lt
      have hy := y.toNat_lt
      simp only [keyCode, List.foldr_cons] at h
      have hxy : x.toNat = y.toNat := by omega
      have hab : keyCode a = keyCode b := by
        unfold keyCode
        omega
      rw [UInt8.toNat_inj.mp hxy, ih hab]

/-- Two pages of a mebibyte, the smallest page there is. -/
def twoPages (policy : Policy) (replicated : Bool) : Config where
  hashKey := keyCode
  pageSize := 2 ^ 20
  numPages := 2
  policy := policy
  replicated := replicated
  relocatingEviction := false

def noRescue : EvictEnv := ⟨0, fun _ => false⟩

/-- A value of which one page holds one. -/
def large (x : UInt8) : Bytes := List.replicate 600000 x

theorem length_large (x : UInt8) : (large x).length = 600000 :=
  List.length_replicate

section Runs

-- Concrete runs and openings are evaluated: the values alone stay as
-- they are.
attribute [local simp] exec Op.isWrite World.step World.put World.del
  World.fresh World.emptiesSafelyCheck Shard.fresh Shard.victim Shard.del
  Shard.contest putAtExp findOrMakePage firstPageWithRoom evictUntilFits
  nextNonEmptyPage evictVictim drainPage drainSlots append upsert tombstone
  tailRef findKey frameAt resolve isExpired expiryAtFrom reopen attach
  rebuildIndexFromPages stripDeadSlots indexedSeqAtLeast safeToEmptyCheck
  logList walk pageWalk hashOf seqOf retire twoPages keyCode
  Config.freeTail Config.maxEntryBytes Page.tail Page.empty Page.isEmpty
  Frame.size entrySpan pageHdrSize entryHeaderSize maxKeyLen maxValueLen
  List.replicate List.findIdx? List.findIdx?.go List.range
  List.range.loop Option.filter

/-- Two versions of key 1, then key 2: the second version's page is the
one drained. -/
def evictNewest (a b d : Bytes) : List Op :=
  [.put [1] a 0 0 noRescue, .put [1] b 0 0 noRescue, .put [2] d 0 0 noRescue]

theorem evictNewest_exec (ha : a.length = 600000)
    (hb : b.length = 600000) (hd : d.length = 600000) :
    ∃ w, exec (World.step (twoPages .ringbufEvict false))
        (fun _ op => op.isWrite)
        (World.fresh (twoPages .ringbufEvict false))
        (evictNewest a b d) = some w
      ∧ w.shard.pages = [⟨[⟨[2], d, 0, 3, false⟩], false⟩,
        ⟨[⟨[1], a, 0, 1, false⟩], false⟩]
      ∧ w.shard.tab 2 = none ∧ w.shard.flushedThroughSeq = 0 := by
  simp [evictNewest, ha, hb, hd]

/-- The drained version's older copy is what the next open finds. -/
theorem evicted_version_returns :
    ∃ (ops : List Op) (w : World) (env : OpenEnv) (v : Bytes × Nat),
      Reach (World.step (twoPages .ringbufEvict false))
        (fun _ op => op.isWrite = true)
        (World.fresh (twoPages .ringbufEvict false)) ops w
      ∧ w.shard.resolve (twoPages .ringbufEvict false) [1] 0 = none
      ∧ (w.shard.reopen (twoPages .ringbufEvict false) env).resolve
          (twoPages .ringbufEvict false) [1] 0 = some v := by
  obtain ⟨w, hexec, hpages, htab, hfloor⟩ := evictNewest_exec
    (length_large 1) (length_large 2) (length_large 3)
  refine ⟨_, w, ⟨0, false, 0, 0⟩, (large 1, 0),
    exec_reach (fun _ _ hop => hop) hexec, ?_, ?_⟩
  · exact resolve_of_tab_none htab
  · generalize large 1 = a at hpages
    generalize large 3 = d at hpages
    simp [hpages, hfloor]

/-- Three keys on two pages: the drained page holds the only copy of
key 2. -/
def evictOnly (a b d : Bytes) : List Op :=
  [.put [1] a 0 0 noRescue, .put [2] b 0 0 noRescue, .put [3] d 0 0 noRescue]

theorem evictOnly_exec (ha : a.length = 600000)
    (hb : b.length = 600000) (hd : d.length = 600000) :
    ∃ w, exec (World.step (twoPages .ringbufEvict false))
        (fun w op => op.isWrite && w.emptiesSafelyCheck
          (twoPages .ringbufEvict false) op)
        (World.fresh (twoPages .ringbufEvict false))
        (evictOnly a b d) = some w
      ∧ w.shard.pages = [⟨[⟨[3], d, 0, 3, false⟩], false⟩,
        ⟨[⟨[1], a, 0, 1, false⟩], false⟩]
      ∧ w.shard.flushedThroughSeq = 0 := by
  simp [evictOnly, ha, hb, hd]

theorem reopen_after_eviction_only :
    ∃ (ops : List Op) (w : World) (env : OpenEnv) (v : Bytes × Nat),
      Reach (World.step (twoPages .ringbufEvict false))
        (fun w op => op.isWrite = true
          ∧ w.EmptiesSafely (twoPages .ringbufEvict false) op)
        (World.fresh (twoPages .ringbufEvict false)) ops w
      ∧ (w.shard.reopen (twoPages .ringbufEvict false) env).resolve
          (twoPages .ringbufEvict false) [1] 0 = some v
      ∧ w.shard.resolve (twoPages .ringbufEvict false) [1] 0 = some v := by
  obtain ⟨w, hexec, hpages, hfloor⟩ := evictOnly_exec
    (length_large 1) (length_large 2) (length_large 3)
  have hr : Reach (World.step (twoPages .ringbufEvict false))
      (fun w op => op.isWrite = true
        ∧ w.EmptiesSafely (twoPages .ringbufEvict false) op)
      (World.fresh (twoPages .ringbufEvict false))
      (evictOnly (large 1) (large 2) (large 3)) w := by
    apply exec_reach _ hexec
    intro w op hk
    rw [Bool.and_eq_true] at hk
    exact ⟨hk.1, emptiesSafely_of_check hk.2⟩
  have hres : (w.shard.reopen (twoPages .ringbufEvict false)
      ⟨0, false, 0, 0⟩).resolve (twoPages .ringbufEvict false) [1] 0 =
      some (large 1, 0) := by
    generalize large 1 = a at hpages
    generalize large 3 = d at hpages
    simp [hpages, hfloor]
  exact ⟨_, w, ⟨0, false, 0, 0⟩, _, hr, hres,
    reopen_after_eviction hr _ _ _ _ hres⟩

-- ======== online compaction

def Op.isCompaction : Op → Bool
  | .relocate .. | .recycle .. => true
  | _ => false

/-- No compaction step changes what a key resolves to, at any clock. -/
theorem resolve_compaction (hs : w.shard.Sound cfg)
    (hop : op.isCompaction = true) (hstep : w.step cfg op = some w')
    (key : Key) (c : Nat) :
    w'.shard.resolve cfg key c = w.shard.resolve cfg key c := by
  cases op with
  | relocate i dropClock =>
    obtain ⟨hguard, rfl⟩ := guarded hstep
    apply resolve_congr
    exact (tryRelocatePage_unseen hs hguard.1 i dropClock).content _
  | recycle i =>
    cases hstep
    apply resolve_congr
    rw [slot_recycle hs]
  | _ => cases hop

/-- Compaction steps are invisible to reads in every run; in a run whose
recycled pages were safe to empty they are invisible to a restart too,
at every clock past those at which expired entries were dropped. -/
theorem compaction_unseen (cfg : Config) :
    (∀ ops w op w', Reach (World.step cfg) Free (World.fresh cfg) ops w →
      op.isCompaction = true → w.step cfg op = some w' → ∀ key c,
        w'.shard.resolve cfg key c = w.shard.resolve cfg key c)
    ∧ ∀ ops w, Reach (World.step cfg)
        (fun w op => w.EmptiesSafely cfg op) (World.fresh cfg) ops w →
      ∀ env key c, w.clock ≤ c → w.shard.openClock cfg env ≤ c →
        (w.shard.reopen cfg env).resolve cfg key c =
          w.shard.resolve cfg key c := by
  constructor
  · intro ops w op w' hr hop hstep
    exact resolve_compaction (reach_sound hr) hop hstep
  · intro ops w hr env key c hc hopen
    have hg : w.shard.Gone cfg w.clock := reach_gone (fun _ _ hk => hk) hr
    exact resolve_reopen (reach_sound hr) hg env hc hopen key

/-- Key 1 on the last page; key 2 and both delete records on the first;
key 3 moves the write cursor back. -/
def deleteThenMove (a b d : Bytes) : List Op :=
  [.put [1] a 0 0 noRescue, .put [2] b 0 0 noRescue, .del [1] noRescue,
    .del [2] noRescue, .put [3] d 0 0 noRescue]

def deletesPage (b : Bytes) : Page :=
  ⟨[⟨[2], b, 0, 2, false⟩, ⟨[1], [], 0, 3, true⟩,
    ⟨[2], [], 0, 4, true⟩], false⟩

def oldPage (a d : Bytes) : Page :=
  ⟨[⟨[1], a, 0, 1, false⟩, ⟨[3], d, 0, 5, false⟩], false⟩

theorem deleteThenMove_exec (ha : a.length = 600000)
    (hb : b.length = 600000) (hd : d.length = 448480) :
    ∃ w, exec (World.step (twoPages .rejectWrites true))
        (fun _ _ => true) (World.fresh (twoPages .rejectWrites true))
        (deleteThenMove a b d) = some w
      ∧ w.shard.pages = [deletesPage b, oldPage a d]
      ∧ w.shard.tab 2 = none ∧ w.shard.tab 3 = none
      ∧ w.shard.writeIdx = 1 ∧ w.shard.flushedThroughSeq = 0
      ∧ w.clock = 0 := by
  simp [deleteThenMove, ha, hb, hd, deletesPage, oldPage]

/-- What an open finds of key 1 on the page that was left. -/
theorem reopen_oldPage {a d : Bytes} (hp : s.pages = [Page.empty, oldPage a d])
    (hfloor : s.flushedThroughSeq = 0) :
    (s.reopen (twoPages .rejectWrites true) ⟨0, false, 0, 0⟩).resolve
      (twoPages .rejectWrites true) [1] 0 = some (a, 0) := by
  simp [hp, hfloor, oldPage]

/-- On a replicated reject-writes shard a page with nothing live on it
can be retired, and then recycled. -/
theorem step_relocate_dead {i : Nat} {p : Page}
    (hopen : i ≠ w.shard.writeIdx) (hp : w.shard.pages[i]? = some p)
    (hret : p.retired = false) (hne : p.frames ≠ [])
    (hdead : ∀ x ∈ pageWalk i p, w.shard.tab
      (hashOf (twoPages .rejectWrites true) x) ≠ some x.1) :
    w.step (twoPages .rejectWrites true) (.relocate i 0) =
      some { w with shard := w.shard.retire i } := by
  simp only [World.step]
  rw [if_pos ⟨rfl, rfl, Nat.zero_le _⟩,
    tryRelocatePage_dead hopen hp hret hne hdead]

/-- The recycled page held the delete record of key 1: its value is back
after the next open. -/
theorem recycled_delete_returns :
    ∃ (ops : List Op) (w : World) (env : OpenEnv) (v : Bytes × Nat),
      Reach (World.step (twoPages .rejectWrites true)) Free
        (World.fresh (twoPages .rejectWrites true)) ops w
      ∧ w.clock = 0
      ∧ w.shard.resolve (twoPages .rejectWrites true) [1] 0 = none
      ∧ (w.shard.reopen (twoPages .rejectWrites true) env).resolve
          (twoPages .rejectWrites true) [1] 0 = some v := by
  obtain ⟨w, hexec, hp, h2, h3, hw, hfloor, hclock⟩ := deleteThenMove_exec
    (d := List.replicate 448480 3) (length_large 1) (length_large 2)
    List.length_replicate
  have hr : Reach (World.step (twoPages .rejectWrites true)) Free
      (World.fresh (twoPages .rejectWrites true)) _ w :=
    exec_reach (fun _ _ _ => trivial) hexec
  have hdead : ∀ x ∈ pageWalk 0 (deletesPage (large 2)), w.shard.tab
      (hashOf (twoPages .rejectWrites true) x) ≠ some x.1 := by
    intro x hx
    have hhash : hashOf (twoPages .rejectWrites true) x = 2
        ∨ hashOf (twoPages .rejectWrites true) x = 3 := by
      simp only [pageWalk, deletesPage, List.zipIdx_cons, List.zipIdx_nil,
        List.map_cons, List.map_nil, List.mem_cons, List.not_mem_nil,
        or_false] at hx
      rcases hx with rfl | rfl | rfl
      · exact Or.inr rfl
      · exact Or.inl rfl
      · exact Or.inr rfl
    rcases hhash with hh | hh
    · rw [hh, h2]
      exact (Option.some_ne_none _).symm
    · rw [hh, h3]
      exact (Option.some_ne_none _).symm
  have hretire := step_relocate_dead (p := deletesPage (large 2))
    (by rw [hw]; decide) (by rw [hp]; rfl) rfl (List.cons_ne_nil _ _) hdead
  have hrec : (w.shard.retire 0).recycle 0 = { w.shard with
      pages := [Page.empty, oldPage (large 1)
        (List.replicate 448480 3)] } := by
    simp only [recycle, retire, hp, List.modify_zero_cons,
      List.getElem?_cons_zero, List.set_cons_zero, if_true]
  refine ⟨_, { w with shard := (w.shard.retire 0).recycle 0 },
    ⟨0, false, 0, 0⟩, (large 1, 0),
    (hr.step (.relocate 0 0) trivial hretire).step (.recycle 0) trivial rfl,
    hclock, ?_, ?_⟩
  · rw [hrec]
    exact resolve_of_tab_none h2
  · rw [hrec]
    exact reopen_oldPage rfl hfloor

/-- Two versions of key 1, each on a page of its own. -/
theorem overwrite_exec {a b : Bytes} (ha : a.length = 600000)
    (hb : b.length = 600000) :
    ∃ w, exec (World.step (twoPages .rejectWrites true))
        (World.emptiesSafelyCheck (twoPages .rejectWrites true))
        (World.fresh (twoPages .rejectWrites true))
        [.put [1] a 0 0 noRescue, .put [1] b 0 0 noRescue] = some w
      ∧ w.shard.pages = [⟨[⟨[1], b, 0, 2, false⟩], false⟩,
        ⟨[⟨[1], a, 0, 1, false⟩], false⟩]
      ∧ w.shard.tab 2 = some ⟨0, 0⟩ ∧ w.shard.writeIdx = 0
      ∧ w.shard.flushedThroughSeq = 0 ∧ w.clock = 0
      ∧ w.shard.hdrStamp = 0 := by
  simp [ha, hb]

/-- The superseded version's page is recycled: key 1 reads the same
before and after, and after a restart. -/
theorem compaction_unseen_overwrite :
    ∃ (ops : List Op) (w w' : World) (env : OpenEnv),
      Reach (World.step (twoPages .rejectWrites true))
        (fun w op => w.EmptiesSafely (twoPages .rejectWrites true) op)
        (World.fresh (twoPages .rejectWrites true)) ops w
      ∧ w.step (twoPages .rejectWrites true) (.recycle 1) = some w'
      ∧ w'.shard.resolve (twoPages .rejectWrites true) [1] 0 =
        w.shard.resolve (twoPages .rejectWrites true) [1] 0
      ∧ (w'.shard.reopen (twoPages .rejectWrites true) env).resolve
          (twoPages .rejectWrites true) [1] 0 =
        w'.shard.resolve (twoPages .rejectWrites true) [1] 0 := by
  obtain ⟨w, hexec, hp, h2, hw, hfloor, hclock, hstamp⟩ :=
    overwrite_exec (length_large 1) (length_large 2)
  have hr : Reach (World.step (twoPages .rejectWrites true))
      (fun w op => w.EmptiesSafely (twoPages .rejectWrites true) op)
      (World.fresh (twoPages .rejectWrites true)) _ w :=
    exec_reach (fun _ _ hk => emptiesSafely_of_check hk) hexec
  have hretire : w.step (twoPages .rejectWrites true) (.relocate 1 0) =
      some { w with shard := w.shard.retire 1 } := by
    apply step_relocate_dead (p := ⟨[⟨[1], large 1, 0, 1, false⟩], false⟩)
    · rw [hw]
      decide
    · rw [hp]
      rfl
    · rfl
    · exact List.cons_ne_nil _ _
    · intro x hx
      rw [List.mem_singleton.mp hx]
      show w.shard.tab 2 ≠ _
      rw [h2]
      decide
  have hsafe : (w.shard.retire 1).SafeToEmpty
      (twoPages .rejectWrites true) 1 := by
    apply safeToEmpty_of_check
    generalize large 1 = a at hp
    generalize large 2 = b at hp
    simp [hp, hfloor]
  have hr₁ := hr.step (Op.relocate 1 0) trivial hretire
  have hr₂ := hr₁.step (Op.recycle 1) (fun _ => hsafe) rfl
  obtain ⟨hread, hrestart⟩ := compaction_unseen (twoPages .rejectWrites true)
  refine ⟨_, _, _, ⟨0, false, 0, 0⟩, hr₁, rfl, ?_, ?_⟩
  · exact hread _ _ (.recycle 1) _ (hr₁.mono fun _ _ _ => trivial) rfl
      rfl _ _
  · apply hrestart _ _ hr₂
    · exact hclock.le
    · show ((w.shard.retire 1).recycle 1).hdrStamp ≤ 0
      have hkeep : ((w.shard.retire 1).recycle 1).hdrStamp =
          w.shard.hdrStamp := by
        unfold recycle
        split
        · split <;> rfl
        · rfl
      rw [hkeep]
      exact hstamp.le

end Runs

-- ======== warm restart

/-- The shard holds what the acknowledged operations left, up to entries
that had expired when they were dropped. -/
structure Holds (cfg : Config) (s : Shard) (clock : Nat)
    (model : Key → Option (Bytes × Nat)) : Prop where
  live : ∀ key v, s.Live cfg key v → model key = some v
  kept : ∀ key v, model key = some v →
    s.Live cfg key v ∨ isExpired v.2 clock = true

section Refine

variable {model : Key → Option (Bytes × Nat)} {clock : Nat}

theorem Holds.mono {clock' : Nat} (hh : Holds cfg s clock model)
    (hc : clock ≤ clock') : Holds cfg s clock' model := by
  refine ⟨hh.live, fun key v hm => ?_⟩
  rcases hh.kept key v hm with hl | hexp
  · exact Or.inl hl
  · exact Or.inr (isExpired_mono hc hexp)

/-- A frame written refines the update of its key, or its removal. -/
theorem Holds.write {i : Nat} {g : Frame} {t : Nat → Option Ref}
    (hinj : Injective cfg.hashKey)
    (hh : Holds cfg s clock model) (hs : s.Ordered)
    (hi : i < s.pages.length) (hseq : g.seq = s.writeSeq + 1) :
    Holds cfg (s.write i g t) clock (update model g.key
      (if g.tomb then none else some (g.val, g.exp))) where
  live := by
    intro k v hl
    rcases (live_write hs hi hseq).mp hl with ⟨htomb, hk, hv⟩ | ⟨hne, hl⟩
    · rw [← hk, update_self, htomb, hv]
      rfl
    · have hkey : k ≠ g.key := fun h => hne (by rw [h])
      rw [update_of_ne hkey]
      exact hh.live k v hl
  kept := by
    intro k v hm
    by_cases hkey : k = g.key
    · rw [hkey, update_self] at hm
      split at hm
      · cases hm
      · next htomb =>
        injection hm with hv
        left
        exact (live_write hs hi hseq).mpr
          (Or.inl ⟨Bool.eq_false_iff.mpr htomb, hkey.symm, hv.symm⟩)
    · rw [update_of_ne hkey] at hm
      rcases hh.kept k v hm with hl | hexp
      · left
        refine (live_write hs hi hseq).mpr (Or.inr ⟨fun h => ?_, hl⟩)
        exact hkey (hinj h).symm
      · exact Or.inr hexp

variable (hinj : Injective cfg.hashKey) (hpol : cfg.policy = .rejectWrites)

include hinj hpol

/-- A put or a delete refines that of the map. -/
theorem write_holds {env : EvictEnv} {need : Nat} {g : Frame} {b : Bool}
    (hw : Wrote cfg env s need g s' b) (hs : s.Sound cfg)
    (hh : Holds cfg s clock model) :
    Holds cfg s' clock (if b then update model g.key
      (if g.tomb then none else some (g.val, g.exp)) else model) := by
  rcases hw.reject hs hpol with ⟨rfl, i, n, _, rfl⟩
    | ⟨rfl, i, t, hready, _, _, rfl⟩
  · exact ⟨hh.live, hh.kept⟩
  · have hh' : Holds cfg { s with writeIdx := i } clock model :=
      ⟨hh.live, hh.kept⟩
    exact hh'.write hinj hready.sound.toOrdered hready.lt rfl

omit hinj hpol in
/-- Dropping slots is not seen by the log. -/
theorem get_holds (hh : Holds cfg s clock model) (key : Key) (now : Nat)
    (allow : Bool) : Holds cfg (s.get cfg key now allow) clock model := by
  rcases get_drop key now allow with he | ⟨f, _, _, _, he⟩ <;> rw [he]
  · exact hh
  · exact ⟨hh.live, hh.kept⟩

omit hinj hpol in
theorem flush_holds (hs : s.Ordered) :
    Holds cfg s.flush clock (fun _ => none) := by
  refine ⟨fun key v hl => ?_, fun key v hm => by cases hm⟩
  obtain ⟨r, f, hn, _⟩ := hl
  have hmem : (r, f) ∈ s.flush.log := hn.mem
  rw [log_flush hs] at hmem
  cases hmem

omit hinj hpol in
theorem reopen_holds (hd : s.Distinct) (hh : Holds cfg s clock model)
    (env : OpenEnv) :
    Holds cfg (s.reopen cfg env) (max clock (s.openClock cfg env))
      model := by
  have hr := reopened cfg env hd
  refine ⟨fun key v hl => hh.live key v (hr.live key v hl),
    fun key v hm => ?_⟩
  rcases hh.kept key v hm with hl | hexp
  · cases he : isExpired v.2 (s.openClock cfg env) with
    | false => exact Or.inl (hr.kept key v hl he)
    | true => exact Or.inr (isExpired_mono (le_max_right _ _) he)
  · exact Or.inr (isExpired_mono (le_max_left _ _) hexp)

/-- Every step but compaction's refines the map. -/
theorem step_holds {op : Op} (hs : w.shard.Sound cfg)
    (hh : Holds cfg w.shard w.clock w.model)
    (hop : op.isCompaction = false) (hstep : w.step cfg op = some w') :
    Holds cfg w'.shard w'.clock w'.model := by
  cases op with
  | put | putAt | putAbs | del =>
    obtain ⟨_, _, _, _, _, hw, hc, hm, _⟩ := step_write hs rfl hstep
    rw [hc, hm]
    exact write_holds hinj hpol hw hs.stamp ⟨hh.live, hh.kept⟩
  | get key now =>
    cases hstep
    apply get_holds
    show Holds cfg w.shard
      (if !cfg.replicated then max w.clock now else w.clock) w.model
    split
    · exact hh.mono (le_max_left _ _)
    · exact hh
  | getAt key stamp =>
    cases hstep
    have hm := hh.mono (le_max_left w.clock stamp)
    have hh' : Holds cfg (w.shard.advanceStamp stamp)
        (max w.clock stamp) w.model := ⟨hm.live, hm.kept⟩
    exact get_holds hh' key stamp true
  | flush =>
    cases hstep
    exact flush_holds hs.toOrdered
  | sweep now reached =>
    simp only [World.step] at hstep
    split at hstep
    · cases hstep
    · cases hstep
      have hh' := hh.mono (le_max_left w.clock now)
      exact ⟨hh'.live, hh'.kept⟩
  | setAppliedIndex =>
    cases hstep
    exact ⟨hh.live, hh.kept⟩
  | relocate => cases hop
  | recycle => cases hop
  | reopen env =>
    cases hstep
    exact reopen_holds hs.inj hh env

end Refine

/-- A frame's sequence is above that of every frame of `s` and above its
flush floor. -/
def Shard.Outranks (s : Shard) (f : Frame) : Prop :=
  (∀ r' f', s.frameAt r' = some f' → f'.seq < f.seq)
    ∧ s.flushedThroughSeq < f.seq

theorem outranks_of_seq (hs : s.Ordered) {f : Frame}
    (hseq : f.seq = s.writeSeq + 1) : s.Outranks f := by
  constructor
  · intro r' f' hf'
    have hle := hs.seq_le r' f' hf'
    omega
  · have hle := hs.floor_le
    omega

/-- What a put or a delete adds outranks what was there. -/
theorem step_outranks (hpol : cfg.policy = .rejectWrites) {r : Ref}
    {f : Frame} (hs : w.shard.Sound cfg) (hop : op.isWrite = true)
    (hstep : w.step cfg op = some w') (hf : w'.shard.frameAt r = some f) :
    w.shard.frameAt r = some f ∨ w.shard.Outranks f := by
  obtain ⟨x, _, _, _, _, hw, _⟩ := step_write hs hop hstep
  rcases hw.reject hs.stamp hpol with ⟨_, i, n, _, he⟩
    | ⟨_, i, t, hready, _, _, he⟩ <;> rw [he] at hf
  · exact Or.inl hf
  · rcases (frameAt_write hready.lt).mp hf with hf | ⟨_, hf⟩
    · exact Or.inl hf
    · subst hf
      exact Or.inr (outranks_of_seq hs.toOrdered rfl)

/-- A reject-writes shard that is not compacted online empties no
page. -/
theorem emptiesSafely_reject (hpol : cfg.policy = .rejectWrites)
    {op : Op} (hop : op.isCompaction = false) :
    w.EmptiesSafely cfg op := by
  have hvictim : ∀ need, w.shard.victim cfg need = none := by
    intro need
    unfold Shard.victim
    rw [hpol]
    split
    · rfl
    · split <;> rfl
  cases op with
  | put | putAt | putAbs | del =>
    intro v hv
    rw [hvictim] at hv
    cases hv
  | recycle => cases hop
  | _ => trivial

theorem reach_holds (hinj : Injective cfg.hashKey)
    (hpol : cfg.policy = .rejectWrites) {ops : List Op}
    (hr : Reach (World.step cfg) (fun _ op => op.isCompaction = false)
      (World.fresh cfg) ops w) :
    Holds cfg w.shard w.clock w.model := by
  refine (hr.stateInvariant (P := fun w => w.shard.Sound cfg
    ∧ Holds cfg w.shard w.clock w.model) ⟨fresh_sound, ?_⟩ ?_).2
  · refine ⟨fun key v hl => ?_, fun key v hm => by cases hm⟩
    obtain ⟨r, f, hn, _⟩ := hl
    have hf : (Shard.fresh cfg).frameAt r = some f := hn.mem.1
    rw [frameAt_fresh] at hf
    cases hf
  · rintro w op w' ⟨hs, hh⟩ hop hstep
    exact ⟨step_sound hs hstep, step_holds hinj hpol hs hh hop hstep⟩

/-- Past the drops, a shard that holds the map resolves what is in it
and not expired. -/
theorem Holds.resolve_eq {model : Key → Option (Bytes × Nat)}
    {clock : Nat} (hh : Holds cfg s clock model) (hi : s.Indexed cfg)
    (hg : s.Gone cfg clock) (hc : clock ≤ c) (key : Key) :
    s.resolve cfg key c = (model key).filter fun v => !isExpired v.2 c := by
  ext v
  rw [resolve_iff_live hi hg hc, Option.filter_eq_some_iff, Bool.not_eq_true']
  constructor
  · rintro ⟨hl, he⟩
    exact ⟨hh.live key v hl, he⟩
  · rintro ⟨hm, he⟩
    rcases hh.kept key v hm with hl | hexp
    · exact ⟨hl, he⟩
    · rw [isExpired_mono hc hexp] at he
      cases he

/-- A reject-writes shard that is not compacted online: in any run, with
any restarts in it, a reopened shard resolves every key as before Close
and as the acknowledged operations left it, at every clock past those at
which expired entries were dropped; a key they left nothing for resolves
to nothing at any clock; and every later write outranks what is framed
and the flush floor. -/
theorem warm_restart (hinj : Injective cfg.hashKey)
    (hpol : cfg.policy = .rejectWrites) {ops : List Op}
    (hr : Reach (World.step cfg) (fun _ op => op.isCompaction = false)
      (World.fresh cfg) ops w)
    (env : OpenEnv) (hw : w.step cfg (.reopen env) = some w') :
    (∀ key c, w'.clock ≤ c →
      w'.shard.resolve cfg key c = w.shard.resolve cfg key c
      ∧ w'.shard.resolve cfg key c =
        (w.model key).filter fun v => !isExpired v.2 c)
    ∧ (∀ key c, w.model key = none → w'.shard.resolve cfg key c = none)
    ∧ ∀ ops' w₁ op w₂ r f,
      Reach (World.step cfg) (fun _ op => op.isCompaction = false) w' ops' w₁ →
      op.isWrite = true → w₁.step cfg op = some w₂ →
      w₂.shard.frameAt r = some f →
      w₁.shard.frameAt r = some f ∨ w₁.shard.Outranks f := by
  have hs : w.shard.Sound cfg := reach_sound hr
  have hg : w.shard.Gone cfg w.clock :=
    reach_gone (fun _ _ hop => emptiesSafely_reject hpol hop) hr
  have hr' := hr.step (Op.reopen env) rfl hw
  have hs' : w'.shard.Sound cfg := reach_sound hr'
  have hg' : w'.shard.Gone cfg w'.clock :=
    reach_gone (fun _ _ hop => emptiesSafely_reject hpol hop) hr'
  have hh' : Holds cfg w'.shard w'.clock w'.model := reach_holds hinj hpol hr'
  injection hw with hw
  have hmodel : w'.model = w.model := by rw [← hw]
  have hclock : w'.clock = max w.clock (w.shard.openClock cfg env) := by
    rw [← hw]
  have hshard : w'.shard = w.shard.reopen cfg env := by rw [← hw]
  rw [hmodel] at hh'
  refine ⟨fun key c hc => ⟨?_, ?_⟩, fun key c hm => ?_, ?_⟩
  · rw [hclock, max_le_iff] at hc
    rw [hshard]
    exact resolve_reopen hs hg env hc.1 hc.2 key
  · exact hh'.resolve_eq hs'.toIndexed hg' hc key
  · cases hres : w'.shard.resolve cfg key c with
    | none => rfl
    | some v =>
      have hl := (live_of_resolve hs'.toIndexed hres).1
      rw [hh'.live key v hl] at hm
      cases hm
  · intro ops' w₁ op w₂ r f hr₁ hop hstep hf
    have hs₁ : w₁.shard.Sound cfg :=
      hr₁.stateInvariant (P := fun w => w.shard.Sound cfg) hs'
        fun _ _ _ hs _ hstep => step_sound hs hstep
    exact step_outranks hpol hs₁ hop hstep hf

/-- Two keys, one deleted, then a restart that compacts the file. -/
def keepOne : List Op := [.put [1] [7] 0 0 noRescue, .put [2] [8] 0 0 noRescue,
    .del [2] noRescue]

theorem warm_restart_keepOne :
    ∃ (w w' : World) (env : OpenEnv),
      Reach (World.step (twoPages .rejectWrites false))
        (fun _ op => op.isCompaction = false)
        (World.fresh (twoPages .rejectWrites false)) keepOne w
      ∧ w.step (twoPages .rejectWrites false) (.reopen env) = some w'
      ∧ w'.shard.resolve (twoPages .rejectWrites false) [1] 5 = some ([7], 0)
      ∧ w'.shard.resolve (twoPages .rejectWrites false) [2] 5 = none := by
  obtain ⟨w, hexec, hclock, h1, h2⟩ : ∃ w,
      exec (World.step (twoPages .rejectWrites false))
        (fun _ op => !op.isCompaction)
        (World.fresh (twoPages .rejectWrites false)) keepOne = some w
      ∧ w.clock = 0 ∧ w.model [1] = some ([7], 0)
      ∧ w.model [2] = none := ⟨_, rfl, rfl, rfl, rfl⟩
  have hr : Reach (World.step (twoPages .rejectWrites false))
      (fun _ op => op.isCompaction = false)
      (World.fresh (twoPages .rejectWrites false)) keepOne w :=
    exec_reach (fun _ _ hop => Bool.not_eq_true' _ ▸ hop) hexec
  obtain ⟨hsame, hnone, _⟩ := warm_restart keyCode_injective rfl hr
    ⟨5, true, 5, 5⟩ rfl
  refine ⟨w, _, ⟨5, true, 5, 5⟩, hr, rfl, ?_, hnone [2] 5 h2⟩
  rw [(hsame [1] 5 (by show max w.clock 5 ≤ 5; omega)).2, h1]
  rfl

/-- Key 1 expires at 100; a later stamp moves the logical clock past
that, and a sweep drops its slot. -/
def sweptEarly : List Op :=
  [.putAt [1] [7] 90 10 noRescue, .putAt [2] [8] 0 200 noRescue,
    .sweep 200 fun _ => true]

/-- At a clock before a drop the index and a rebuilt one differ. A
replicated rebuild brings back, at clock 50, an entry a sweep dropped at
200; a rebuild at 200 of a shard that is not replicated drops one that
had not expired at 50. -/
theorem restart_before_drop :
    (∃ w w' : World,
      Reach (World.step (twoPages .rejectWrites true))
        (fun _ op => op.isCompaction = false)
        (World.fresh (twoPages .rejectWrites true)) sweptEarly w
      ∧ w.step (twoPages .rejectWrites true)
          (.reopen ⟨0, false, 0, 0⟩) = some w'
      ∧ w.shard.resolve (twoPages .rejectWrites true) [1] 50 = none
      ∧ w'.shard.resolve (twoPages .rejectWrites true) [1] 50 =
        some ([7], 100))
    ∧ ∃ w w' : World, Reach (World.step (twoPages .rejectWrites false))
        (fun _ op => op.isCompaction = false)
        (World.fresh (twoPages .rejectWrites false))
        [.put [1] [7] 90 10 noRescue] w
      ∧ w.step (twoPages .rejectWrites false)
          (.reopen ⟨200, false, 200, 200⟩) = some w'
      ∧ w.shard.resolve (twoPages .rejectWrites false) [1] 50 = some ([7], 100)
      ∧ w'.shard.resolve (twoPages .rejectWrites false) [1] 50 = none := by
  have hops : ∀ (u : World) (op : Op), (!op.isCompaction) = true →
      op.isCompaction = false := by
    intro u op hop
    simpa using hop
  constructor
  · exact ⟨_, _, exec_reach hops rfl, rfl, rfl, rfl⟩
  · exact ⟨_, _, exec_reach hops rfl, rfl, rfl, rfl⟩

end Rostam.Cache
