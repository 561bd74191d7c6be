/-
No page is filled past its room, whatever a run does.

`page.Write` refuses an entry its page has no room for; the model appends
without asking, since every page written was chosen with room. The paths
that choose one: a put or a delete record, the rescues of a relocating
eviction (which share what the write leaves of the freed page, so that
the page's tail plus the unspent budget stays within its room), the moves
of online compaction, and the packing of a file at open.
-/
import Rostam.Cache.Proofs.Restart
import Rostam.Cache.Proofs.Slots

namespace Rostam.Cache

open Rostam.Lib Shard Function

variable {cfg : Config} {s u : Shard} {env : EvictEnv} {i need : Nat}
  {l l' : List Page} {g : Frame} {w w' : World}

/-- As many pages as the file has, none filled past its room. -/
structure Bounded (cfg : Config) (l : List Page) : Prop where
  count : l.length = cfg.numPages
  room : ∀ p ∈ l, p.tail ≤ cfg.maxEntryBytes

/-- Page `i` has room for `need` bytes. -/
def Fits (cfg : Config) (l : List Page) (i need : Nat) : Prop :=
  ∀ p : Page, l[i]? = some p → p.tail + need ≤ cfg.maxEntryBytes

-- ======== pages

/-- Pages emptied, or changed in their flags. -/
theorem Bounded.of_tails (hb : Bounded cfg l) (hlen : l'.length = l.length)
    (h : ∀ p' ∈ l', p'.tail = 0 ∨ ∃ p ∈ l, p'.tail = p.tail) :
    Bounded cfg l' := by
  refine ⟨hlen.trans hb.count, fun p' hp' => ?_⟩
  rcases h p' hp' with h0 | ⟨p, hp, he⟩
  · rw [h0]
    exact Nat.zero_le _
  · rw [he]
    exact hb.room p hp

/-- An append that fits uses up its own size. -/
theorem Bounded.append (hb : Bounded cfg s.pages) (need : Nat)
    (hfit : Fits cfg s.pages i (g.size + need)) :
    Bounded cfg (s.append i g).pages
      ∧ Fits cfg (s.append i g).pages i need := by
  refine ⟨⟨(List.length_modify ..).trans hb.count, fun p hp => ?_⟩,
    fun p hp => ?_⟩
  · obtain ⟨j, hj⟩ := List.getElem?_of_mem hp
    rw [getElem?_append] at hj
    split at hj
    · obtain ⟨q, hq, rfl⟩ := Option.map_eq_some_iff.mp hj
      have := hfit q hq
      rw [tail_append]
      omega
    · exact hb.room p (List.mem_of_getElem? hj)
  · rw [getElem?_append, if_pos rfl] at hp
    obtain ⟨q, hq, rfl⟩ := Option.map_eq_some_iff.mp hp
    have := hfit q hq
    rw [tail_append]
    omega

/-- A moved frame has the size it had. -/
theorem Bounded.move (hb : Bounded cfg s.pages) (need : Nat)
    (hfit : Fits cfg s.pages i (g.size + need)) :
    Bounded cfg (s.moveFrame cfg i g).pages
      ∧ Fits cfg (s.moveFrame cfg i g).pages i need :=
  Bounded.append
    (g := { g with seq := s.writeSeq + 1, tomb := false }) hb need hfit

theorem Bounded.set {p : Page} (hb : Bounded cfg l) (i : Nat)
    (hp : p.tail = 0) :
    Bounded cfg (l.set i p) := by
  refine hb.of_tails List.length_set fun p' hp' => ?_
  rcases List.mem_or_eq_of_mem_set hp' with hp' | rfl
  · exact .inr ⟨p', hp', rfl⟩
  · exact .inl hp

theorem Bounded.drain (hb : Bounded cfg s.pages) (v : Nat) :
    Bounded cfg (s.drainPage cfg v).pages := by
  unfold drainPage
  split
  · exact hb
  · exact hb.set v rfl

-- ======== evictions

/-- The rescues of an eviction stay within their budget. -/
theorem Bounded.rescue {dst budget : Nat} (fs : List (Ref × Frame))
    (spent : Nat)
    (hb : Bounded cfg s.pages) (hfit : Fits cfg s.pages dst (budget - spent)) :
    Bounded cfg (rescueFrames cfg env dst budget s spent fs).pages := by
  induction fs generalizing s spent with
  | nil => exact hb
  | cons x fs ih =>
    unfold rescueFrames
    split
    · exact hb
    split
    · exact ih spent hb hfit
    split
    · exact ih spent hb hfit
    split
    · exact ih spent hb hfit
    next hle =>
    have hx :
        Fits cfg s.pages dst (x.2.size + (budget - (spent + x.2.size))) := by
      intro p hp
      have := hfit p hp
      omega
    obtain ⟨hb', hfit'⟩ := hb.move _ hx
    exact ih _ hb' hfit'

/-- An eviction keeps the bounds, what it rescues included. -/
theorem Bounded.evict (hb : Bounded cfg s.pages) (v : Nat) :
    Bounded cfg (s.evictVictim cfg env v need).pages := by
  have hd := hb.drain v
  unfold evictVictim
  dsimp only
  split
  swap
  · exact hd
  unfold relocateIntoFreedPage
  split
  swap
  · exact hd
  split
  swap
  · exact hd
  next dst src hdst _ _ p _ =>
  refine hd.rescue _ 0 fun q hq => ?_
  rw [hdst] at hq
  cases hq
  have := hd.room dst (List.mem_of_getElem? hdst)
  unfold Config.freeTail
  omega

-- ======== the page of a write

theorem fits_of_freeTail {p : Page} (hneed : 0 < need)
    (h : need ≤ cfg.freeTail p) : p.tail + need ≤ cfg.maxEntryBytes := by
  unfold Config.freeTail at h
  omega

/-- The page that was found has room. -/
theorem fits_first (hneed : 0 < need)
    (hf : s.firstPageWithRoom cfg need = some i) :
    Fits cfg s.pages i need := by
  intro p hp
  unfold firstPageWithRoom at hf
  rw [List.findIdx?_eq_some_iff_getElem] at hf
  obtain ⟨hi, hroom, _⟩ := hf
  rw [List.getElem?_eq_getElem hi] at hp
  cases hp
  rw [Bool.and_eq_true, decide_eq_true_eq] at hroom
  exact fits_of_freeTail hneed hroom.2

/-- Where room was found or made, there is room. -/
theorem Bounded.findOrMakePage (hb : Bounded cfg s.pages) (hneed : 0 < need)
    (hok : s.findOrMakePage cfg env need = .ok (u, i)) :
    Bounded cfg u.pages ∧ Fits cfg u.pages i need := by
  unfold Shard.findOrMakePage at hok
  split at hok
  · cases hok
  split at hok
  · next hopen =>
    cases hok
    refine ⟨hb, fun p hp => ?_⟩
    rw [hp, Option.map_some, Option.getD_some, decide_eq_true_eq] at hopen
    exact fits_of_freeTail hneed hopen
  split at hok
  · next hf =>
    cases hok
    exact ⟨hb, fits_first hneed hf⟩
  split at hok
  swap
  · cases hok
  split at hok
  · next hev =>
    cases hok
    rcases evictUntilFits_ok hev with ⟨rfl, hf⟩ | ⟨v, _, _, rfl, hf⟩
    · exact ⟨hb, fits_first hneed hf⟩
    · exact ⟨Bounded.evict
        (s := { s with nextVictim := (v + 1) % s.pages.length })
        hb v, fits_first hneed hf⟩
  · cases hok

/-- What is written fits its page. -/
theorem Wrote.bounded {b : Bool} (hw : Wrote cfg env s need g u b)
    (hb : Bounded cfg s.pages) (hg : need = g.size) : Bounded cfg u.pages := by
  subst hg
  cases hw with
  | refused => exact hb
  | failed hok => exact (hb.findOrMakePage (entrySpan_pos ..) hok).1
  | @made u _ _ hok =>
    obtain ⟨hb, hfit⟩ := hb.findOrMakePage (entrySpan_pos ..) hok
    exact (Bounded.append (g := { g with seq := u.writeSeq + 1 }) hb 0 hfit).1

-- ======== compaction

theorem Bounded.relocateFrames (dropClock src : Nat) (fs : List (Ref × Frame))
    (pinned : Bool)
    (hb : Bounded cfg s.pages) :
    Bounded cfg
      (Shard.relocateFrames cfg dropClock src s pinned fs).1.pages := by
  induction fs generalizing s pinned with
  | nil => exact hb
  | cons x fs ih =>
    unfold Shard.relocateFrames
    split
    · exact ih pinned hb
    split
    · exact ih true hb
    split
    · exact ih true hb
    next dst hd =>
    refine ih pinned (hb.move 0 fun p hp => ?_).1
    have hroom := List.find?_some hd
    rw [Bool.and_eq_true, hp, Option.map_some, Option.getD_some,
      Bool.and_eq_true, decide_eq_true_eq (p := _ ≤ _)] at hroom
    exact fits_of_freeTail (entrySpan_pos ..) hroom.2.2

/-- What is relocated fits where it goes. -/
theorem Bounded.relocate (hb : Bounded cfg s.pages) (i dropClock : Nat) :
    Bounded cfg (s.tryRelocatePage cfg i dropClock).pages := by
  unfold tryRelocatePage
  split
  · exact hb
  split
  · exact hb
  next p _ =>
  split
  · exact hb
  have hm := hb.relocateFrames dropClock i (pageWalk i p) false
  dsimp only
  split
  · exact hm
  · refine hm.of_tails (List.length_modify ..) fun p' hp' => ?_
    obtain ⟨j, hj⟩ := List.getElem?_of_mem hp'
    rw [retire, List.getElem?_modify] at hj
    obtain ⟨p, hp, rfl⟩ := Option.map_eq_some_iff.mp hj
    refine .inr ⟨p, List.mem_of_getElem? hp, ?_⟩
    split <;> rfl

/-- Frames that fit a page are packed into pages they fit. -/
theorem packInto_le {cap : Nat} (fs : List Frame) {cur : List Frame}
    (hcur : (cur.map Frame.size).sum ≤ cap) (hfs : ∀ f ∈ fs, f.size ≤ cap) :
    ∀ p ∈ packInto cap cur fs, (p.map Frame.size).sum ≤ cap := by
  induction fs generalizing cur with
  | nil => simpa [packInto] using hcur
  | cons f fs ih =>
    have hrest := fun x hx => hfs x (List.mem_cons_of_mem _ hx)
    unfold packInto
    split
    · exact ih (by simpa using ‹_›) hrest
    · intro p hp
      rcases List.mem_cons.mp hp with rfl | hp
      · exact hcur
      · exact ih (by simpa using hfs f List.mem_cons_self) hrest p hp

theorem rebuild_pages (s : Shard) (now : Nat) :
    (s.rebuildIndexFromPages cfg now).pages = s.pages := by
  have hfold : ∀ (fs : List (Ref × Frame)) (u : Shard),
      (fs.foldl (Shard.contest cfg) u).pages = u.pages := by
    intro fs
    induction fs with
    | nil => exact fun u => rfl
    | cons x fs ih =>
      intro u
      refine (ih _).trans ?_
      unfold Shard.contest
      split
      · rfl
      · dsimp only
        split <;> rfl
  exact hfold _ s

/-- Compaction writes no page past its end. -/
theorem Bounded.compact {env : OpenEnv} {r : Shard × Nat}
    (hb : Bounded cfg s.pages) (h : s.compactAtOpen cfg env = some r) :
    Bounded cfg r.1.pages := by
  obtain ⟨hle, rfl⟩ := guarded h
  rw [rebuild_pages]
  refine ⟨?_, fun p hp => ?_⟩
  · simp [packedPages]
    omega
  · rcases List.mem_append.mp hp with hp | hp
    · obtain ⟨fs, hfs, rfl⟩ := List.mem_map.mp hp
      refine packInto_le _ (Nat.zero_le _) (fun f hf => ?_) fs hfs
      obtain ⟨x, hx, -⟩ := mem_liveFrames.mp hf
      obtain ⟨q, hq, hfq⟩ := Option.bind_eq_some_iff.mp hx
      exact (List.single_le_sum (fun _ _ => Nat.zero_le _) _
        (List.mem_map_of_mem (List.mem_of_getElem? hfq))).trans
        (hb.room q (List.mem_of_getElem? hq))
    · rw [List.eq_of_mem_replicate hp]
      exact Nat.zero_le _

/-- An open keeps the bounds. -/
theorem Bounded.reopen (hb : Bounded cfg s.pages) (env : OpenEnv) :
    Bounded cfg (s.reopen cfg env).pages := by
  have ha : Bounded cfg
      (s.attach.rebuildIndexFromPages cfg env.now).pages := by
    rw [rebuild_pages]
    refine hb.of_tails (List.length_map ..) fun p' hp' => ?_
    obtain ⟨p, hp, rfl⟩ := List.mem_map.mp hp'
    exact .inr ⟨p, hp, rfl⟩
  unfold Shard.reopen
  dsimp only
  cases hc : (if env.compact then
      (s.attach.rebuildIndexFromPages cfg env.now).compactAtOpen cfg env
      else none) with
  | none => exact ha
  | some r => exact ha.compact (Option.ite_none_right_eq_some.mp hc).2

-- ======== runs

/-- Every operation keeps the bounds. -/
theorem step_bounded {op : Op} (hs : w.shard.Sound cfg)
    (hb : Bounded cfg w.shard.pages) (hstep : w.step cfg op = some w') :
    Bounded cfg w'.shard.pages := by
  cases op with
  | put | putAt | putAbs =>
    cases hstep
    exact (putAtExp_wrote ..).bounded hb rfl
  | del key env =>
    cases hstep
    exact (del_wrote env hs key).bounded hb rfl
  | get | getAt =>
    cases hstep
    unfold World.get Shard.get
    dsimp only
    split
    · split <;> exact hb
    · exact hb
  | flush | setAppliedIndex =>
    cases hstep
    exact hb
  | sweep now reached =>
    obtain ⟨-, rfl⟩ := barred hstep
    exact hb
  | relocate i dropClock =>
    obtain ⟨-, rfl⟩ := guarded hstep
    exact hb.relocate i dropClock
  | recycle i =>
    cases hstep
    show Bounded cfg (w.shard.recycle i).pages
    unfold Shard.recycle
    split
    · split
      · exact hb.set i rfl
      · exact hb
    · exact hb
  | reopen env =>
    cases hstep
    exact hb.reopen env

/-- In every run of a persistent shard, under either policy, with
rescues, compaction and restarts, the file has the pages it was made
with and none holds more than its room: `page.Write` never refuses. -/
theorem pages_bounded {K : World → Op → Prop} {ops : List Op}
    (hr : Reach (World.step cfg) K (World.fresh cfg) ops w) :
    w.shard.pages.length = cfg.numPages
      ∧ ∀ p ∈ w.shard.pages, p.tail ≤ cfg.maxEntryBytes := by
  have hb : w.shard.Sound cfg ∧ Bounded cfg w.shard.pages := by
    refine hr.stateInvariant (P := fun w => w.shard.Sound cfg
      ∧ Bounded cfg w.shard.pages) ⟨fresh_sound, List.length_replicate,
        fun p hp => ?_⟩ fun _ _ _ hi _ hs =>
      ⟨step_sound hi.1 hs, step_bounded hi.1 hi.2 hs⟩
    rw [List.eq_of_mem_replicate hp]
    exact Nat.zero_le _
  exact ⟨hb.2.count, hb.2.room⟩

theorem pages_bounded_twoPages :
    ∃ cfg w, Reach (World.step cfg) Free (World.fresh cfg)
      [.put [1] [7] 0 0 noRescue, .reopen ⟨0, true, 0, 0⟩] w
    ∧ cfg.numPages = 2 ∧ w.shard.pages.length = 2 := by
  obtain ⟨w, hr, -⟩ : ∃ w, Reach (World.step (twoPages .ringbufEvict true))
      Free (World.fresh (twoPages .ringbufEvict true))
      [.put [1] [7] 0 0 noRescue, .reopen ⟨0, true, 0, 0⟩] w ∧ True :=
    exec_free rfl
  exact ⟨_, w, hr, rfl, (pages_bounded hr).1⟩

end Rostam.Cache
