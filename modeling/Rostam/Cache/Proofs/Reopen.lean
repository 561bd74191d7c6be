/-
What an open recovers.

The rebuild is the contest of `Rostam.Lib.Newest` over the frames above
the flush floor, so it finds the newest frame of every hash whatever the
page order. Cold compaction keeps the frames the rebuilt index points at
and rebuilds over them: one frame a hash, so nothing older is left to be
found.
-/
import Mathlib.Data.List.Nodup
import Rostam.Cache.Proofs.Steps

namespace Rostam.Cache

open Rostam.Lib Shard Function

variable {cfg : Config} {s u : Shard} {clock c : Nat}

variable {x : Ref × Frame} {now : Nat}

-- ======== rebuild

/-- The frames the rebuild considers. -/
def Shard.logList (s : Shard) (l : List (Ref × Frame)) : List (Ref × Frame) :=
  l.filter fun x => decide (s.flushedThroughSeq < x.2.seq)

/-- The shard with the slots of a contest's winners. -/
def Shard.withBest (s : Shard) (best : Nat → Option (Ref × Frame))
    (n : Nat) : Shard :=
  { s with tab := fun h => (best h).map Prod.fst, writeSeq := n }

/-- The rebuild's slots are the contest's winners, as it goes. -/
theorem contest_withBest {best : Nat → Option (Ref × Frame)} {n : Nat}
    (hbest : ∀ h y, best h = some y → s.frameAt y.1 = some y.2)
    (hx : s.flushedThroughSeq < x.2.seq) :
    Shard.contest cfg (s.withBest best n) x =
      s.withBest (Lib.contest (hashOf cfg) seqOf best x) (max n x.2.seq) := by
  have hseen : ({ s.withBest best n with
        writeSeq := max n x.2.seq } : Shard).indexedSeqAtLeast
          (cfg.hashKey x.2.key) x.2.seq =
      ((best (hashOf cfg x)).map
        fun b => decide (seqOf x ≤ seqOf b)).getD false := by
    unfold indexedSeqAtLeast
    show (((best (hashOf cfg x)).map Prod.fst).bind fun r =>
      (s.frameAt r).map fun f => decide (x.2.seq ≤ f.seq)).getD false = _
    cases hb : best (hashOf cfg x) with
    | none => rfl
    | some y =>
      rw [Option.map_some, Option.bind_some, hbest _ y hb]
      rfl
  have hfl : ¬ x.2.seq ≤ (s.withBest best n).flushedThroughSeq :=
    Nat.not_le.mpr hx
  unfold Shard.contest Lib.contest
  rw [if_neg hfl]
  show (if ({ s.withBest best n with
      writeSeq := max n x.2.seq } : Shard).indexedSeqAtLeast
        (cfg.hashKey x.2.key) x.2.seq = true then _ else _) = _
  rw [hseen]
  split
  · rfl
  · unfold withBest upsert
    congr 1
    funext h
    by_cases hh : h = hashOf cfg x
    · subst hh
      simp [hashOf]
    · have hne : h ≠ cfg.hashKey x.2.key := hh
      rw [update_of_ne hne, update_of_ne hh]

theorem best_framed {best : Nat → Option (Ref × Frame)}
    (hbest : ∀ h y, best h = some y → s.frameAt y.1 = some y.2)
    (hx : s.frameAt x.1 = some x.2) :
    ∀ h y, Lib.contest (hashOf cfg) seqOf best x h = some y →
      s.frameAt y.1 = some y.2 := by
  intro h y hy
  unfold Lib.contest at hy
  split at hy
  · exact hbest h y hy
  · by_cases hh : h = hashOf cfg x
    · subst hh
      rw [update_self] at hy
      cases hy
      exact hx
    · rw [update_of_ne hh] at hy
      exact hbest h y hy

/-- The rebuild's walk is the contest over the frames above the
floor. -/
theorem foldl_contest (cfg : Config) (l : List (Ref × Frame))
    (hl : ∀ x ∈ l, s.frameAt x.1 = some x.2)
    (best : Nat → Option (Ref × Frame)) (n : Nat)
    (hbest : ∀ h y, best h = some y → s.frameAt y.1 = some y.2) :
    l.foldl (Shard.contest cfg) (s.withBest best n) = s.withBest
        ((s.logList l).foldl (Lib.contest (hashOf cfg) seqOf) best)
        (((s.logList l).map seqOf).foldl max n) := by
  induction l generalizing best n with
  | nil => rfl
  | cons x l ih =>
    have hrest : ∀ y ∈ l, s.frameAt y.1 = some y.2 := fun y hy =>
      hl y (List.mem_cons_of_mem x hy)
    rw [List.foldl_cons]
    by_cases hx : s.flushedThroughSeq < x.2.seq
    · have hlog : s.logList (x :: l) = x :: s.logList l := by
        simp [logList, hx]
      rw [contest_withBest hbest hx, hlog, List.foldl_cons,
        List.map_cons, List.foldl_cons]
      exact ih hrest _ _ (best_framed hbest (hl x List.mem_cons_self))
    · have hlog : s.logList (x :: l) = s.logList l := by
        simp [logList, hx]
      have hskip : Shard.contest cfg (s.withBest best n) x =
          s.withBest best n := by
        unfold Shard.contest
        exact if_pos (by simpa [withBest] using hx)
      rw [hskip, hlog]
      exact ih hrest best n hbest

theorem le_foldl_max (l : List Nat) (n : Nat) :
    n ≤ l.foldl max n ∧ ∀ m ∈ l, m ≤ l.foldl max n := by
  induction l generalizing n with
  | nil => exact ⟨Nat.le_refl n, fun m hm => by cases hm⟩
  | cons a l ih =>
    obtain ⟨hn, hl⟩ := ih (max n a)
    refine ⟨le_trans (le_max_left n a) hn, fun m hm => ?_⟩
    rcases List.mem_cons.mp hm with hm | hm
    · subst hm
      exact le_trans (le_max_right n m) hn
    · exact hl m hm

/-- What a rebuild at clock `now` makes of a shard without slots. -/
structure Rebuilt (cfg : Config) (s : Shard) (now : Nat) (u : Shard) :
    Prop where
  eq : u = { s with tab := u.tab, writeSeq := u.writeSeq }
  current : ∀ h r, u.tab h = some r →
    ∃ f, s.Newest cfg h (r, f) ∧ f.tomb = false
  gone : ∀ h, u.tab h = none → ∀ r f, s.Newest cfg h (r, f) →
    f.tomb = true ∨ cfg.replicated = false ∧ isExpired f.exp now = true
  writeSeq_le : s.writeSeq ≤ u.writeSeq
  log_le : ∀ x ∈ s.log, seqOf x ≤ u.writeSeq

theorem mem_logList : x ∈ s.logList (walk s.pages) ↔ x ∈ s.log := by
  unfold logList
  rw [List.mem_filter, mem_walk, decide_eq_true_eq]
  exact Iff.rfl

/-- The rebuild finds the newest frame of every hash and keeps it unless
it is dead. -/
theorem rebuilt (hd : s.Distinct) (htab : s.tab = fun _ => none) :
    Rebuilt cfg s now (s.rebuildIndexFromPages cfg now) := by
  have hstart : s = s.withBest (fun _ => none) s.writeSeq := by
    unfold withBest
    simp only [Option.map_none]
    rw [← htab]
  have hfold := foldl_contest cfg (walk s.pages)
    (fun x hx => mem_walk.mp hx) (fun _ => none) s.writeSeq
    (fun h y hy => by cases hy)
  rw [← hstart] at hfold
  have hset : {x | x ∈ s.logList (walk s.pages)} = s.log := by
    ext x
    exact mem_logList
  have hbest := best_foldl_contest (hashOf cfg) seqOf
    (s.logList (walk s.pages))
  rw [hset] at hbest
  have hmax := le_foldl_max ((s.logList (walk s.pages)).map seqOf) s.writeSeq
  generalize (s.logList (walk s.pages)).foldl
    (Lib.contest (hashOf cfg) seqOf) (fun _ => none) = best at hfold hbest
  generalize hn : ((s.logList (walk s.pages)).map seqOf).foldl max
    s.writeSeq = n at hfold hmax
  have hu : s.rebuildIndexFromPages cfg now =
      (s.withBest best n).stripDeadSlots cfg now := by
    unfold rebuildIndexFromPages
    rw [hfold]
  rw [hu]
  -- a slot after the strip is a winner the strip spared
  have hslot : ∀ h, ((s.withBest best n).stripDeadSlots cfg now).tab h =
      ((best h).map Prod.fst).filter fun r =>
        ((s.frameAt r).map fun f =>
          !f.tomb && (cfg.replicated || !isExpired f.exp now)).getD
          true := fun h => rfl
  refine ⟨rfl, ?_, ?_, hmax.1, ?_⟩
  · intro h r hr
    rw [hslot h, Option.filter_eq_some_iff, Option.map_eq_some_iff] at hr
    obtain ⟨⟨x, hx, hxr⟩, hkeep⟩ := hr
    have hn := hbest.newest h x hx
    subst hxr
    rw [hn.mem.1, Option.map_some, Option.getD_some, Bool.and_eq_true,
      Bool.not_eq_true'] at hkeep
    exact ⟨x.2, hn, hkeep.1⟩
  · intro h hnone r f hnew
    rw [hslot h] at hnone
    cases hb : best h with
    | none =>
      have := hbest.total (r, f) hnew.mem
      rw [hnew.key_eq] at this
      exact absurd hb this
    | some x =>
      have hx : x = (r, f) := (hbest.newest h x hb).unique hd.injOn hnew
      subst hx
      rw [hb, Option.map_some, Option.filter_eq_none_iff] at hnone
      have hdrop := hnone r rfl
      rw [hnew.mem.1, Option.map_some, Option.getD_some] at hdrop
      cases htomb : f.tomb with
      | true => exact Or.inl rfl
      | false =>
        rw [htomb] at hdrop
        right
        simpa using hdrop
  · intro x hx
    exact hmax.2 _ (List.mem_map_of_mem (mem_logList.mpr hx))

-- ======== cold compaction

/-- A walk meets no frame twice. -/
theorem walk_nodup (pages : List Page) : (walk pages).Nodup := by
  have hidx : ∀ {α : Type} (l : List α),
      l.zipIdx.Pairwise fun a b => a.2 ≠ b.2 := by
    intro α l
    rw [← List.pairwise_map (R := fun i j => i ≠ j) (f := Prod.snd),
      List.zipIdx_map_snd]
    exact List.nodup_range'
  unfold walk
  rw [List.nodup_flatMap]
  constructor
  · intro x _
    unfold pageWalk
    apply List.Pairwise.map _ _ (hidx x.1.frames)
    intro a b hab heq
    injection heq with hr _
    injection hr with _ hpos
    exact hab hpos
  · apply (hidx pages).imp
    intro x y hxy z hz hz'
    apply hxy
    rw [← (mem_pageWalk.mp hz).1, ← (mem_pageWalk.mp hz').1]

/-- The frames of the walk, in page order. -/
theorem walk_frames (pages : List Page) :
    (walk pages).map Prod.snd = pages.flatMap Page.frames := by
  have hpage : ∀ x : Page × Nat,
      (pageWalk x.2 x.1).map Prod.snd = x.1.frames := by
    intro x
    unfold pageWalk
    rw [List.map_map]
    exact List.zipIdx_map_fst 0 x.1.frames
  unfold walk
  rw [List.map_flatMap]
  simp only [hpage]
  rw [← List.flatMap_map Prod.fst Page.frames pages.zipIdx,
    List.zipIdx_map_fst]

/-- Sequences tell frames apart exactly if the walk lists no sequence
twice. -/
theorem seqs_nodup (hd : s.Distinct) : ((walk s.pages).map seqOf).Nodup := by
  apply List.Nodup.map_on _ (walk_nodup s.pages)
  rintro ⟨r, f⟩ hx ⟨r', f'⟩ hy hseq
  have hf : s.frameAt r = some f := mem_walk.mp hx
  have hf' : s.frameAt r' = some f' := mem_walk.mp hy
  have hr : r = r' := hd r f r' f' hf hf' hseq
  subst hr
  rw [hf] at hf'
  injection hf' with hff
  rw [hff]

theorem distinct_of_nodup (hnd : ((walk s.pages).map seqOf).Nodup) :
    s.Distinct := by
  intro r f r' f' hf hf' hseq
  have heq : (r, f) = (r', f') :=
    List.inj_on_of_nodup_map hnd (mem_walk.mpr hf) (mem_walk.mpr hf') hseq
  injection heq

/-- Packing keeps the frames and their order. -/
theorem packInto_flatten (cap : Nat) (cur l : List Frame) :
    (packInto cap cur l).flatten = cur ++ l := by
  induction l generalizing cur with
  | nil => simp [packInto]
  | cons f l ih =>
    unfold packInto
    split
    · rw [ih, List.append_assoc, List.singleton_append]
    · rw [List.flatten_cons, ih, List.singleton_append]

/-- A frame survives compaction if its slot points at it and it is not
dead. -/
theorem mem_liveFrames {dropClock : Nat} {f : Frame} :
    f ∈ s.liveFrames cfg dropClock ↔ ∃ r, s.frameAt r = some f ∧ f.tomb = false
        ∧ s.tab (cfg.hashKey f.key) = some r
        ∧ isExpired f.exp dropClock = false := by
  unfold liveFrames entryIsLive
  simp only [List.mem_map, List.mem_filter, mem_walk, Bool.and_eq_true,
    Bool.not_eq_true', decide_eq_true_eq, Prod.exists]
  constructor
  · rintro ⟨r, g, ⟨hf, ⟨htomb, ht⟩, he⟩, rfl⟩
    exact ⟨r, hf, htomb, ht, he⟩
  · rintro ⟨r, hf, htomb, ht, he⟩
    exact ⟨r, f, ⟨hf, ⟨htomb, ht⟩, he⟩, rfl⟩

/-- `m` is the compacted file of the indexed shard `u`, not yet
indexed. -/
structure Packed (cfg : Config) (dropClock : Nat) (u m : Shard) :
    Prop where
  frames : ∀ f, (∃ r, m.frameAt r = some f) ↔ f ∈ u.liveFrames cfg dropClock
  inj : m.Distinct
  tab : m.tab = fun _ => none
  floor : m.flushedThroughSeq = u.flushedThroughSeq
  unretired : ∀ p ∈ m.pages, p.retired = false

/-- The compacted pages hold the live frames, in order. -/
theorem walk_packedPages (cfg : Config) (live : List Frame) :
    (walk (packedPages cfg live)).map Prod.snd = live := by
  have hnone : ∀ n, (List.replicate n Page.empty).flatMap
      Page.frames = [] := by
    intro n
    rw [List.flatMap_eq_nil_iff]
    intro p hp
    rw [List.eq_of_mem_replicate hp]
    rfl
  unfold packedPages
  rw [walk_frames, List.flatMap_append, hnone, List.append_nil,
    List.flatMap_map]
  show (packInto cfg.maxEntryBytes [] live).flatMap id = live
  rw [List.flatMap_id, packInto_flatten, List.nil_append]

theorem packedPages_unretired {live : List Frame} {p : Page}
    (hp : p ∈ packedPages cfg live) : p.retired = false := by
  rcases List.mem_append.mp hp with hp | hp
  · obtain ⟨fs, _, rfl⟩ := List.mem_map.mp hp
    rfl
  · rw [List.eq_of_mem_replicate hp]
    rfl

/-- A shard over the compacted pages of `u`. -/
theorem packed {dropClock : Nat} {m : Shard} (hd : u.Distinct)
    (hp : m.pages = packedPages cfg (u.liveFrames cfg dropClock))
    (ht : m.tab = fun _ => none)
    (hfl : m.flushedThroughSeq = u.flushedThroughSeq) :
    Packed cfg dropClock u m where
  frames := by
    intro f
    have hwalk := walk_packedPages cfg (u.liveFrames cfg dropClock)
    rw [← hp] at hwalk
    rw [← hwalk, List.mem_map]
    constructor
    · rintro ⟨r, hf⟩
      exact ⟨(r, f), mem_walk.mpr hf, rfl⟩
    · rintro ⟨x, hx, rfl⟩
      exact ⟨x.1, mem_walk.mp hx⟩
  inj := by
    apply distinct_of_nodup
    have hseqs : (walk m.pages).map seqOf =
        (u.liveFrames cfg dropClock).map Frame.seq := by
      conv_rhs => rw [← walk_packedPages cfg (u.liveFrames cfg dropClock)]
      rw [hp, List.map_map]
      rfl
    have hsub : ((u.liveFrames cfg dropClock).map Frame.seq).Sublist
        ((walk u.pages).map seqOf) := by
      unfold liveFrames
      rw [List.map_map]
      exact List.filter_sublist.map seqOf
    rw [hseqs]
    exact (seqs_nodup hd).sublist hsub
  tab := ht
  floor := hfl
  unretired := by
    intro p hm
    rw [hp] at hm
    exact packedPages_unretired hm

-- ======== opens

theorem Rebuilt.log_eq (hr : Rebuilt cfg s now u) : u.log = s.log := by
  have h := congrArg Shard.log hr.eq
  exact h

theorem Rebuilt.frameAt_eq (hr : Rebuilt cfg s now u)
    (r : Ref) : u.frameAt r = s.frameAt r := by
  have h := congrArg (Shard.frameAt · r) hr.eq
  exact h

theorem Rebuilt.floor_eq (hr : Rebuilt cfg s now u) :
    u.flushedThroughSeq = s.flushedThroughSeq := by
  have h := congrArg Shard.flushedThroughSeq hr.eq
  exact h

theorem Rebuilt.pages_eq (hr : Rebuilt cfg s now u) : u.pages = s.pages := by
  have h := congrArg Shard.pages hr.eq
  exact h

theorem Rebuilt.stamp_eq (hr : Rebuilt cfg s now u) :
    u.lastAppliedStampMs = s.lastAppliedStampMs := by
  have h := congrArg Shard.lastAppliedStampMs hr.eq
  exact h

section Compacted

variable {m : Shard} {now dropClock : Nat} {key : Key} {v : Bytes × Nat}

/-- What is live in the compacted file was live before. -/
theorem live_of_packed (hr : Rebuilt cfg s now u)
    (hm : Packed cfg dropClock u m) (hl : m.Live cfg key v) :
    s.Live cfg key v := by
  obtain ⟨r, f, hn, htomb, hk, hv⟩ := hl
  obtain ⟨r', hf, _, ht, _⟩ :=
    mem_liveFrames.mp ((hm.frames f).mp ⟨r, hn.mem.1⟩)
  obtain ⟨f', hn', _⟩ := hr.current _ r' ht
  have hff : f' = f := by
    have hf' : s.frameAt r' = some f' := hn'.mem.1
    rw [← hr.frameAt_eq, hf] at hf'
    injection hf' with hf'
    exact hf'.symm
  subst hff
  rw [hk] at hn'
  exact ⟨r', f', hn', htomb, hk, hv⟩

/-- What was live and not expired at the clocks of the open is live in
the compacted file. -/
theorem packed_of_live (hd : s.Distinct)
    (hr : Rebuilt cfg s now u) (hm : Packed cfg dropClock u m)
    (hl : s.Live cfg key v)
    (hnow : cfg.replicated = false → isExpired v.2 now = false)
    (hdrop : isExpired v.2 dropClock = false) : m.Live cfg key v := by
  obtain ⟨r, f, hn, htomb, hk, hv⟩ := hl
  subst hv
  -- the rebuilt index points at the live frame
  have ht : u.tab (cfg.hashKey key) = some r := by
    cases ht : u.tab (cfg.hashKey key) with
    | none =>
      rcases hr.gone _ ht r f hn with h | ⟨hrep, h⟩
      · rw [htomb] at h
        cases h
      · rw [show isExpired f.exp now = false from hnow hrep] at h
        cases h
    | some r' =>
      obtain ⟨f', hn', _⟩ := hr.current _ r' ht
      have heq : (r', f') = (r, f) := hn'.unique hd.injOn hn
      injection heq with hrr _
      rw [hrr]
  have huf : u.frameAt r = some f := by
    rw [hr.frameAt_eq]
    exact hn.mem.1
  obtain ⟨r', hf'⟩ : ∃ r', m.frameAt r' = some f := by
    rw [hm.frames f, mem_liveFrames]
    exact ⟨r, huf, htomb, by rw [hk]; exact ht, hdrop⟩
  refine ⟨r', f, ⟨⟨hf', ?_⟩, hn.key_eq, ?_⟩, htomb, hk, rfl⟩
  · rw [hm.floor, hr.floor_eq]
    exact hn.mem.2
  · -- the compacted file has one frame of the hash
    rintro ⟨r₂, f₂⟩ ⟨hf₂, _⟩ hh
    obtain ⟨r₃, huf₂, _, ht₂, _⟩ :=
      mem_liveFrames.mp ((hm.frames f₂).mp ⟨r₂, hf₂⟩)
    rw [show cfg.hashKey f₂.key = cfg.hashKey key from hh, ht] at ht₂
    cases ht₂
    rw [huf] at huf₂
    injection huf₂ with hff
    subst hff
    exact le_rfl

end Compacted

/-- What an open makes of a shard. -/
structure Reopened (cfg : Config) (s : Shard) (clock : Nat) (w : Shard) :
    Prop where
  sound : w.Sound cfg
  gone : w.Gone cfg clock
  floor : w.flushedThroughSeq = s.flushedThroughSeq
  live : ∀ key v, w.Live cfg key v → s.Live cfg key v
  kept : ∀ key v, s.Live cfg key v → isExpired v.2 clock = false →
    w.Live cfg key v

/-- The last lines of newShard: the write cursor, and a sequence past
the flush floor. -/
theorem reopened_of_rebuilt {m : Shard} {now i : Nat} (hd : m.Distinct)
    (hun : ∀ p ∈ m.pages, p.retired = false)
    (hr : Rebuilt cfg m now u)
    (hclock : cfg.replicated = false → now ≤ clock) :
    ({ u with
        writeIdx := i
        writeSeq := max u.writeSeq u.flushedThroughSeq } : Shard).Sound cfg
      ∧ ({ u with
        writeIdx := i
        writeSeq := max u.writeSeq u.flushedThroughSeq } : Shard).Gone
          cfg clock := by
  have hun' : ∀ (j : Nat) (p : Page), u.pages[j]? = some p →
      p.retired = false := by
    intro j p hp
    apply hun
    rw [← hr.pages_eq]
    exact List.mem_of_getElem? hp
  have hlog : ∀ h x, u.Newest cfg h x ↔ m.Newest cfg h x := by
    intro h x
    show IsNewest _ _ u.log h x ↔ _
    rw [hr.log_eq]
  constructor
  · refine ⟨⟨?_, ?_⟩, ⟨?_, ?_⟩, ⟨?_, ?_, ?_⟩⟩
    · intro r f r' f' hf hf'
      apply hd
      · rw [← hr.frameAt_eq]
        exact hf
      · rw [← hr.frameAt_eq]
        exact hf'
    · intro h r ht
      obtain ⟨f, hn, htomb⟩ := hr.current h r ht
      exact ⟨f, (hlog h (r, f)).mpr hn, htomb⟩
    · intro r f hf
      show f.seq ≤ max u.writeSeq u.flushedThroughSeq
      by_cases hfl : u.flushedThroughSeq < f.seq
      · have hx : (r, f) ∈ m.log := by
          rw [← hr.log_eq]
          exact ⟨hf, hfl⟩
        have hle : f.seq ≤ u.writeSeq := hr.log_le (r, f) hx
        omega
      · omega
    · exact le_max_right _ _
    · intro p hp
      exact hun' _ p hp
    · intro j p hp hpr
      rw [hun' j p hp] at hpr
      cases hpr
    · intro _ j p hp
      exact hun' j p hp
  · intro h r f ht hn
    rcases hr.gone h ht r f ((hlog h (r, f)).mp hn) with hd | ⟨hrep, hd⟩
    · exact Or.inl hd
    · exact Or.inr (isExpired_mono (hclock hrep) hd)

theorem frameAt_attach (r : Ref) : s.attach.frameAt r = s.frameAt r := by
  unfold frameAt attach
  rw [List.getElem?_map]
  cases s.pages[r.page]? <;> rfl

theorem log_attach : s.attach.log = s.log := by
  ext x
  show s.attach.frameAt x.1 = some x.2 ∧ _ ↔ _
  rw [frameAt_attach]
  exact Iff.rfl

theorem attach_unretired : ∀ p ∈ s.attach.pages, p.retired = false := by
  intro p hp
  obtain ⟨q, _, rfl⟩ := List.mem_map.mp hp
  rfl

theorem distinct_attach (hd : s.Distinct) : s.attach.Distinct := by
  intro r f r' f'
  rw [frameAt_attach, frameAt_attach]
  exact hd r f r' f'

/-- What is live is a matter of the frames. -/
theorem live_congr (cfg : Config) {s' : Shard} (hlog : s'.log = s.log)
    (key : Key)
    (v : Bytes × Nat) : s'.Live cfg key v ↔ s.Live cfg key v := by
  unfold Shard.Live Shard.Newest
  rw [hlog]

/-- The clocks of an open on a shard that is not replicated. -/
theorem le_openClock (s : Shard) (env : OpenEnv)
    (hrep : cfg.replicated = false) :
    env.now ≤ s.openClock cfg env ∧ env.remapNow ≤ s.openClock cfg env := by
  unfold openClock
  rw [hrep, if_neg (by simp)]
  exact ⟨le_max_left _ _, le_max_of_le_right (le_max_right _ _)⟩

section Opens

variable {env : OpenEnv} {i : Nat}

/-- An open that leaves the file as it is. -/
theorem reopened_plain (hd : s.Distinct)
    (hr : Rebuilt cfg s.attach env.now u) :
    Reopened cfg s (s.openClock cfg env)
      { u with
        writeIdx := i
        writeSeq := max u.writeSeq u.flushedThroughSeq } := by
  have hlive := live_congr cfg (hr.log_eq.trans log_attach)
  obtain ⟨hsound, hgone⟩ := reopened_of_rebuilt (i := i)
    (distinct_attach hd) attach_unretired hr
    (fun hrep => (le_openClock s env hrep).1)
  exact ⟨hsound, hgone, hr.floor_eq, fun key v hl => (hlive key v).mp hl,
    fun key v hl _ => (hlive key v).mpr hl⟩

/-- An open that compacts the file and indexes it again. -/
theorem reopened_compacted {m u' : Shard} (hd : s.Distinct)
    (hr : Rebuilt cfg s.attach env.now u)
    (hp : Packed cfg (u.compactDropClock cfg env.dropNow) u m)
    (hrm : Rebuilt cfg m env.remapNow u') :
    Reopened cfg s (s.openClock cfg env)
      { u' with
        writeIdx := i
        writeSeq := max u'.writeSeq u'.flushedThroughSeq } := by
  have hdrop : u.compactDropClock cfg env.dropNow ≤ s.openClock cfg env := by
    unfold compactDropClock openClock
    rw [hr.stamp_eq]
    split
    · exact le_rfl
    · exact le_max_of_le_right (le_max_left _ _)
  have hliveA := live_congr cfg (log_attach (s := s))
  have hliveM := live_congr cfg hrm.log_eq
  obtain ⟨hsound, hgone⟩ := reopened_of_rebuilt (i := i) hp.inj
    hp.unretired hrm
    (fun hrep => (le_openClock s env hrep).2)
  refine ⟨hsound, hgone, ?_, ?_, ?_⟩
  · exact (hrm.floor_eq.trans hp.floor).trans hr.floor_eq
  · intro key v hl
    exact (hliveA key v).mp (live_of_packed hr hp ((hliveM key v).mp hl))
  · intro key v hl he
    have hbefore : ∀ t, t ≤ s.openClock cfg env → isExpired v.2 t = false := by
      intro t ht
      rw [Bool.eq_false_iff]
      intro hexp
      rw [isExpired_mono ht hexp] at he
      cases he
    apply (hliveM key v).mpr
    apply packed_of_live (distinct_attach hd) hr hp ((hliveA key v).mpr hl)
    · intro hrep
      exact hbefore _ (le_openClock s env hrep).1
    · exact hbefore _ hdrop

end Opens

/-- Close and reopen: the index is sound again, and resolves what was
the newest of its hash and had not expired at the open. -/
theorem reopened (cfg : Config) (env : OpenEnv) (hd : s.Distinct) :
    Reopened cfg s (s.openClock cfg env) (s.reopen cfg env) := by
  have hr : Rebuilt cfg s.attach env.now
      (s.attach.rebuildIndexFromPages cfg env.now) :=
    rebuilt (distinct_attach hd) rfl
  unfold reopen
  dsimp only
  generalize s.attach.rebuildIndexFromPages cfg env.now = u at hr
  -- either the shard as rebuilt, or its compacted file rebuilt over
  cases hcomp : (if env.compact then u.compactAtOpen cfg env else none) with
  | none =>
    rw [Option.map_none, Option.map_none, Option.getD_none, Option.getD_none]
    exact reopened_plain hd hr
  | some r =>
    have hc : u.compactAtOpen cfg env = some r := by
      split at hcomp
      · exact hcomp
      · cases hcomp
    have hdu : u.Distinct := by
      intro r f r' f'
      rw [hr.frameAt_eq, hr.frameAt_eq]
      exact distinct_attach hd r f r' f'
    unfold compactAtOpen at hc
    dsimp only at hc
    split at hc
    · cases hc
      rw [Option.map_some, Option.map_some, Option.getD_some, Option.getD_some]
      have hp : Packed cfg (u.compactDropClock cfg env.dropNow) u
          { u with
            pages := packedPages cfg
              (u.liveFrames cfg (u.compactDropClock cfg env.dropNow))
            tab := fun _ => none
            hdrStamp := u.lastAppliedStampMs } :=
        packed hdu rfl rfl rfl
      exact reopened_compacted hd hr hp (rebuilt hp.inj rfl)
    · cases hc

-- ======== clocks

theorem contest_stamps (cfg : Config) (s : Shard) (x : Ref × Frame) :
    (s.contest cfg x).lastAppliedStampMs = s.lastAppliedStampMs
      ∧ (s.contest cfg x).hdrStamp = s.hdrStamp := by
  unfold Shard.contest
  split
  · exact ⟨rfl, rfl⟩
  · dsimp only
    split
    · exact ⟨rfl, rfl⟩
    · exact ⟨rfl, rfl⟩

theorem rebuild_stamps (cfg : Config) (s : Shard) (now : Nat) :
    (s.rebuildIndexFromPages cfg now).lastAppliedStampMs = s.lastAppliedStampMs
      ∧ (s.rebuildIndexFromPages cfg now).hdrStamp = s.hdrStamp := by
  have hfold : ∀ (l : List (Ref × Frame)) (u : Shard),
      (l.foldl (Shard.contest cfg) u).lastAppliedStampMs = u.lastAppliedStampMs
        ∧ (l.foldl (Shard.contest cfg) u).hdrStamp = u.hdrStamp := by
    intro l
    induction l with
    | nil => exact fun u => ⟨rfl, rfl⟩
    | cons x l ih =>
      intro u
      obtain ⟨h₁, h₂⟩ := ih (u.contest cfg x)
      obtain ⟨h₃, h₄⟩ := contest_stamps cfg u x
      exact ⟨h₁.trans h₃, h₂.trans h₄⟩
  exact hfold (walk s.pages) s

/-- An open takes its clock from the header. -/
theorem reopen_stamps (s : Shard) (env : OpenEnv) :
    (s.reopen cfg env).lastAppliedStampMs = s.hdrStamp
      ∧ (s.reopen cfg env).hdrStamp = s.hdrStamp := by
  obtain ⟨h₁, h₂⟩ := rebuild_stamps cfg s.attach env.now
  unfold reopen
  dsimp only
  cases hcomp : (if env.compact then
      (s.attach.rebuildIndexFromPages cfg env.now).compactAtOpen cfg env
      else none) with
  | none => exact ⟨h₁, h₂⟩
  | some r =>
    rw [Option.map_some, Option.getD_some]
    have hc : (s.attach.rebuildIndexFromPages cfg env.now).compactAtOpen
        cfg env = some r := by
      split at hcomp
      · exact hcomp
      · cases hcomp
    unfold compactAtOpen at hc
    dsimp only at hc
    split at hc
    · injection hc with hc
      subst hc
      obtain ⟨h₃, h₄⟩ := rebuild_stamps cfg
        { s.attach.rebuildIndexFromPages cfg env.now with
          pages := packedPages cfg
            ((s.attach.rebuildIndexFromPages cfg env.now).liveFrames cfg
              ((s.attach.rebuildIndexFromPages cfg
                env.now).compactDropClock cfg env.dropNow))
          tab := fun _ => none
          hdrStamp := (s.attach.rebuildIndexFromPages cfg
            env.now).lastAppliedStampMs } env.remapNow
      exact ⟨h₃.trans h₁, h₄.trans h₁⟩
    · cases hc

end Rostam.Cache
