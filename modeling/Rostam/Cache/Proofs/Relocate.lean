/-
Online compaction: relocation moves what a page's slots point at and
retires the page once none is left; recycling empties it.
-/
import Rostam.Cache.Proofs.Moves

namespace Rostam.Cache

open Rostam.Lib Shard Function

variable {cfg : Config} {s s' u : Shard} {clock c : Nat}

-- ======== relocation

/-- Every new frame has the content its hash's slot had. -/
def Copies (cfg : Config) (s s' : Shard) : Prop :=
  ∀ r f, s'.frameAt r = some f → s.frameAt r = some f
    ∨ f.tomb = false ∧ (s.slot (cfg.hashKey f.key)).map Frame.content =
      some f.content

/-- `s'` is `s` with some of page `src`'s current frames moved to other
pages. -/
structure Moved (cfg : Config) (src : Nat) (s s' : Shard) : Prop where
  sound : s'.Sound cfg
  gone : ∀ clock, s.Gone cfg clock → s'.Gone cfg clock
  slots : ∀ h r, r.page = src → s'.tab h = some r → s.tab h = some r
  frames : ∀ r f, s.frameAt r = some f → s'.frameAt r = some f
  source : ∀ r f, r.page = src → s'.frameAt r = some f → s.frameAt r = some f
  content : ∀ h, (s'.slot h).map Frame.content = (s.slot h).map Frame.content
  live : ∀ key v, s'.Live cfg key v ↔ s.Live cfg key v
  writeIdx : s'.writeIdx = s.writeIdx
  retired : ∀ (j : Nat) (p : Page), s'.pages[j]? = some p →
    ∃ q : Page, s.pages[j]? = some q ∧ p.retired = q.retired
  grown : Grown s s'
  copies : Copies cfg s s'

variable {src : Nat}

variable {i : Nat}

theorem Moved.refl (src : Nat) (hs : s.Sound cfg) : Moved cfg src s s where
  sound := hs
  gone := fun _ hg => hg
  slots := fun _ _ _ ht => ht
  frames := fun _ _ hf => hf
  source := fun _ _ _ hf => hf
  content := fun _ => rfl
  live := fun _ _ => Iff.rfl
  writeIdx := rfl
  retired := fun _ p hp => ⟨p, hp, rfl⟩
  grown := grown_of_pages rfl le_rfl rfl
  copies := fun _ _ hf => Or.inl hf

theorem Moved.trans (h₁ : Moved cfg src s u) (h₂ : Moved cfg src u s') :
    Moved cfg src s s' where
  sound := h₂.sound
  gone := fun clock hg => h₂.gone clock (h₁.gone clock hg)
  slots := fun h r hr ht => h₁.slots h r hr (h₂.slots h r hr ht)
  frames := fun r f hf => h₂.frames r f (h₁.frames r f hf)
  source := fun r f hr hf => h₁.source r f hr (h₂.source r f hr hf)
  content := fun h => (h₂.content h).trans (h₁.content h)
  live := fun key v => (h₂.live key v).trans (h₁.live key v)
  writeIdx := h₂.writeIdx.trans h₁.writeIdx
  retired := by
    intro j p hp
    obtain ⟨q, hq, hpq⟩ := h₂.retired j p hp
    obtain ⟨q', hq', hqq⟩ := h₁.retired j q hq
    exact ⟨q', hq', hpq.trans hqq⟩
  grown := h₁.grown.trans h₂.grown
  copies := by
    intro r f hf
    rcases h₂.copies r f hf with hf | ⟨htomb, hslot⟩
    · exact h₁.copies r f hf
    · exact Or.inr ⟨htomb, (h₁.content _).symm.trans hslot⟩

/-- One frame moved to another page. -/
theorem moved_moveFrame {dst : Nat} {r : Ref} {f : Frame}
    (hs : s.Sound cfg) (hne : dst ≠ src) (hdst : dst < s.pages.length)
    (hret : ∀ p : Page, s.pages[dst]? = some p → p.retired = false)
    (ht : s.tab (cfg.hashKey f.key) = some r)
    (hf : s.frameAt r = some f) :
    Moved cfg src s (s.moveFrame cfg dst f) where
  sound := hs.move hdst hret
  gone := fun clock hg => hg.move hs.toOrdered hdst
  slots := by
    intro h r' hr' ht'
    by_cases hh : h = cfg.hashKey f.key
    · subst hh
      have hnew : (s.moveFrame cfg dst f).tab (cfg.hashKey f.key) =
          some (s.tailRef dst) := update_self ..
      rw [hnew] at ht'
      injection ht' with ht'
      subst ht'
      exact absurd hr' hne
    · have hsame : (s.moveFrame cfg dst f).tab h = s.tab h :=
        update_of_ne hh ..
      rw [← hsame]
      exact ht'
  frames := fun r' f' hf' => frameAt_move hdst hf'
  source := by
    intro r' f' hr' hf'
    rw [moveFrame_eq, frameAt_write hdst] at hf'
    rcases hf' with hf' | ⟨hrr, _⟩
    · exact hf'
    · subst hrr
      exact absurd hr' hne
  content := slot_move hs hdst ht hf
  live := live_move hs hdst ht hf
  writeIdx := rfl
  retired := fun _ _ hp => retired_write hp
  grown := grown_write hdst hret rfl
  copies := by
    intro r' f' hf'
    rcases (frameAt_write hdst).mp hf' with hf' | ⟨_, hnew⟩
    · exact Or.inl hf'
    · subst hnew
      refine Or.inr ⟨rfl, ?_⟩
      unfold Shard.slot
      rw [show s.tab (cfg.hashKey _) = some r from ht, Option.bind_some, hf]
      rfl

theorem findRelocDest_spec {need dst : Nat}
    (hd : s.findRelocDest cfg need src = some dst) :
    dst ≠ src ∧ dst < s.pages.length
      ∧ ∀ p : Page, s.pages[dst]? = some p → p.retired = false := by
  unfold findRelocDest at hd
  have hlt := List.mem_range.mp (List.mem_of_find?_eq_some hd)
  have hcond := List.find?_some hd
  rw [Bool.and_eq_true, decide_eq_true_eq] at hcond
  refine ⟨hcond.1, hlt, fun p hp => ?_⟩
  have hroom := hcond.2
  rw [hp, Option.map_some, Option.getD_some, Bool.and_eq_true,
    Bool.not_eq_true'] at hroom
  exact hroom.1

/-- The relocation walk: what it moved is as it was, and if it pins
nothing no slot points at the frames it walked. -/
theorem relocateFrames_moved (dropClock : Nat)
    (l : List (Ref × Frame)) (hs : s.Sound cfg) (pinned : Bool)
    (hl : ∀ x ∈ l, s.frameAt x.1 = some x.2 ∧ x.1.page = src) :
    Moved cfg src s (relocateFrames cfg dropClock src s pinned l).1
      ∧ ((relocateFrames cfg dropClock src s pinned l).2 = false →
        pinned = false ∧ ∀ x ∈ l,
          (relocateFrames cfg dropClock src s pinned l).1.tab
            (hashOf cfg x) ≠ some x.1) := by
  induction l generalizing s pinned with
  | nil =>
    exact ⟨Moved.refl src hs, fun hp => ⟨hp, fun x hx => by cases hx⟩⟩
  | cons x l ih =>
    obtain ⟨r, f⟩ := x
    obtain ⟨hf, hpage⟩ := hl (r, f) List.mem_cons_self
    have hrest : ∀ x ∈ l, s.frameAt x.1 = some x.2 ∧ x.1.page = src :=
      fun x hx => hl x (List.mem_cons_of_mem _ hx)
    unfold relocateFrames
    split
    · next hcur =>
      obtain ⟨hm, hp⟩ := ih hs pinned hrest
      refine ⟨hm, fun hpin => ?_⟩
      obtain ⟨hpinned, hall⟩ := hp hpin
      refine ⟨hpinned, fun x hx => ?_⟩
      rcases List.mem_cons.mp hx with hx | hx
      · subst hx
        exact fun ht => hcur (hm.slots _ r hpage ht)
      · exact hall x hx
    · next hcur =>
      have ht : s.tab (cfg.hashKey f.key) = some r := not_not.mp hcur
      split
      · obtain ⟨hm, hp⟩ := ih hs true hrest
        exact ⟨hm, fun hpin => by cases (hp hpin).1⟩
      · split
        · obtain ⟨hm, hp⟩ := ih hs true hrest
          exact ⟨hm, fun hpin => by cases (hp hpin).1⟩
        · next dst hdst =>
          obtain ⟨hne, hlt, hret⟩ := findRelocDest_spec hdst
          have hmv := moved_moveFrame hs hne hlt hret ht hf
          obtain ⟨hm, hp⟩ := ih hmv.sound pinned (fun x hx =>
            ⟨hmv.frames _ _ (hrest x hx).1, (hrest x hx).2⟩)
          refine ⟨hmv.trans hm, fun hpin => ?_⟩
          obtain ⟨hpinned, hall⟩ := hp hpin
          refine ⟨hpinned, fun x hx => ?_⟩
          rcases List.mem_cons.mp hx with hx | hx
          · subst hx
            intro ht'
            have hold := hm.slots _ r hpage ht'
            have hnew : (s.moveFrame cfg dst f).tab
                (cfg.hashKey f.key) = some (s.tailRef dst) :=
              update_self ..
            rw [show hashOf cfg (r, f) = cfg.hashKey f.key from rfl,
              hnew] at hold
            injection hold with hold
            rw [← hold] at hpage
            exact hne hpage
          · exact hall x hx

theorem frameAt_retire (r : Ref) : (s.retire i).frameAt r = s.frameAt r := by
  unfold frameAt retire
  rw [List.getElem?_modify]
  cases s.pages[r.page]? with
  | none => rfl
  | some p =>
    simp only [Option.map_eq_map, Option.map_some, Option.bind_some]
    split <;> rfl

theorem log_retire : (s.retire i).log = s.log := by
  ext x
  show (s.retire i).frameAt x.1 = some x.2 ∧ _ ↔ _
  rw [frameAt_retire]
  exact Iff.rfl

/-- A page no slot points into may retire, unless it is the open one. -/
theorem Shard.Sound.retire (hs : s.Sound cfg)
    (hpol : cfg.policy = .rejectWrites) (hopen : i ≠ s.writeIdx)
    (hslots : ∀ h r, s.tab h = some r → r.page ≠ i) :
    (s.retire i).Sound cfg where
  inj := by
    intro r f r' f'
    rw [frameAt_retire, frameAt_retire]
    exact hs.inj r f r' f'
  current := by
    intro h r ht
    obtain ⟨f, hn, htomb⟩ := hs.current h r ht
    refine ⟨f, ?_, htomb⟩
    show IsNewest _ _ (s.retire i).log h (r, f)
    rw [log_retire]
    exact hn
  seq_le := by
    intro r f
    rw [frameAt_retire]
    exact hs.seq_le r f
  floor_le := hs.floor_le
  opened := by
    intro p hp
    simp only [Shard.retire, List.getElem?_modify, Option.map_eq_map,
      Option.map_eq_some_iff] at hp
    obtain ⟨q, hq, rfl⟩ := hp
    rw [if_neg hopen]
    exact hs.opened q hq
  vacated := by
    intro j p hp hpr h r ht
    by_cases hij : i = j
    · subst hij
      exact hslots h r ht
    · simp only [Shard.retire, List.getElem?_modify, Option.map_eq_map,
        Option.map_eq_some_iff] at hp
      obtain ⟨q, hq, rfl⟩ := hp
      rw [if_neg hij] at hpr
      exact hs.vacated j q hq hpr h r ht
  unretired := by
    intro hring
    rw [hpol] at hring
    cases hring

/-- What a compaction step keeps: soundness, what the slots hold, and
what is live. -/
structure Unseen (cfg : Config) (s s' : Shard) : Prop where
  sound : s'.Sound cfg
  gone : ∀ clock, s.Gone cfg clock → s'.Gone cfg clock
  content : ∀ h, (s'.slot h).map Frame.content = (s.slot h).map Frame.content
  live : ∀ key v, s'.Live cfg key v ↔ s.Live cfg key v
  grown : Grown s s'
  copies : Copies cfg s s'

theorem Moved.unseen (hm : Moved cfg src s s') : Unseen cfg s s' :=
  ⟨hm.sound, hm.gone, hm.content, hm.live, hm.grown, hm.copies⟩

/-- Retiring changes a page's flag only. -/
theorem grown_retire
    (hret : ∀ p : Page, s.pages[i]? = some p → p.retired = false) :
    Grown s (s.retire i) where
  length := List.length_modify ..
  page := by
    intro j p hp
    refine ⟨if i = j then { p with retired := true } else p, ?_, ?_, ?_⟩
    · simp [Shard.retire, List.getElem?_modify, hp]
    · split <;> exact List.prefix_refl _
    · intro hpr
      split
      · next hij =>
        subst hij
        rw [hret p hp] at hpr
        cases hpr
      · rfl
  late := by
    intro r f hf
    rw [frameAt_retire] at hf
    exact Or.inl hf
  writeSeq_le := le_rfl
  floor := rfl

/-- The source page retires once every frame of it has lost its slot. -/
theorem Moved.unseen_retire {p : Page}
    (hm : Moved cfg i s u) (hpol : cfg.policy = .rejectWrites)
    (hopen : i ≠ s.writeIdx) (hp : s.pages[i]? = some p)
    (hret : p.retired = false)
    (hvac : ∀ x ∈ pageWalk i p, u.tab (hashOf cfg x) ≠ some x.1) :
    Unseen cfg s (u.retire i) := by
  have hslots : ∀ h r, u.tab h = some r → r.page ≠ i := by
    intro h r ht hr
    obtain ⟨f, hn, _⟩ := hm.sound.current h r ht
    have hf : s.frameAt r = some f := hm.source r f hr hn.mem.1
    have hx : (r, f) ∈ pageWalk i p := by
      unfold frameAt at hf
      rw [hr, hp] at hf
      exact mem_pageWalk.mpr ⟨hr, hf⟩
    apply hvac (r, f) hx
    rw [show hashOf cfg (r, f) = h from hn.key_eq]
    exact ht
  have hopen' : i ≠ u.writeIdx := by
    rw [hm.writeIdx]
    exact hopen
  have hret' : ∀ q : Page, u.pages[i]? = some q → q.retired = false := by
    intro q hq
    obtain ⟨p', hp', hflag⟩ := hm.retired i q hq
    rw [hp] at hp'
    injection hp' with hp'
    rw [hflag, ← hp']
    exact hret
  refine ⟨hm.sound.retire hpol hopen' hslots, ?_, ?_, ?_,
    hm.grown.trans (grown_retire hret'), ?_⟩
  · intro clock hg h r f ht hn
    apply hm.gone clock hg h r f ht
    show IsNewest _ _ u.log h (r, f)
    rw [← log_retire (i := i)]
    exact hn
  · intro h
    rw [← hm.content h]
    unfold Shard.slot
    show ((u.tab h).bind _).map _ = _
    simp only [frameAt_retire]
  · intro key v
    rw [← hm.live key v]
    unfold Shard.Live Shard.Newest
    rw [log_retire]
  · intro r f hf
    rw [frameAt_retire] at hf
    exact hm.copies r f hf

theorem tryRelocatePage_unseen (hs : s.Sound cfg)
    (hpol : cfg.policy = .rejectWrites) (i dropClock : Nat) :
    Unseen cfg s (s.tryRelocatePage cfg i dropClock) := by
  have hsame : Unseen cfg s s := (Moved.refl i hs).unseen
  unfold tryRelocatePage
  split
  · exact hsame
  · next hopen =>
    split
    · exact hsame
    · next p hp =>
      split
      · exact hsame
      · next hskip =>
        have hret : p.retired = false := by
          cases hr : p.retired with
          | false => rfl
          | true => rw [hr] at hskip; simp at hskip
        obtain ⟨hm, hvac⟩ := relocateFrames_moved dropClock
          (pageWalk i p) hs false fun x hx =>
            ⟨frameAt_of_pageWalk hp hx, (mem_pageWalk.mp hx).1⟩
        generalize relocateFrames cfg dropClock i s false
          (pageWalk i p) = res at hm hvac
        obtain ⟨u, pinned⟩ := res
        dsimp only at hm hvac ⊢
        split
        · exact hm.unseen
        · next hpin =>
          exact hm.unseen_retire hpol hopen hp hret
            (hvac (Bool.eq_false_iff.mpr hpin)).2

/-- A walk over frames no slot points at moves and pins nothing. -/
theorem relocateFrames_dead (dropClock src : Nat) (l : List (Ref × Frame))
    (hdead : ∀ x ∈ l, s.tab (hashOf cfg x) ≠ some x.1) :
    relocateFrames cfg dropClock src s false l = (s, false) := by
  induction l with
  | nil => rfl
  | cons x l ih =>
    have hx : s.tab (cfg.hashKey x.2.key) ≠ some x.1 :=
      hdead x List.mem_cons_self
    unfold relocateFrames
    rw [if_pos hx]
    exact ih fun y hy => hdead y (List.mem_cons_of_mem _ hy)

/-- A page with frames and nothing live on it is retired. -/
theorem tryRelocatePage_dead {i dropClock : Nat} {p : Page}
    (hopen : i ≠ s.writeIdx) (hp : s.pages[i]? = some p)
    (hret : p.retired = false) (hne : p.frames ≠ [])
    (hdead : ∀ x ∈ pageWalk i p, s.tab (hashOf cfg x) ≠ some x.1) :
    s.tryRelocatePage cfg i dropClock = s.retire i := by
  have hlive : s.pageLive cfg i dropClock p = 0 := by
    unfold pageLive
    rw [List.filter_eq_nil_iff.mpr]
    · rfl
    · intro x hx hl
      unfold entryIsLive at hl
      simp only [Bool.and_eq_true, decide_eq_true_eq] at hl
      exact hdead x hx hl.1.2
  have htail : 0 < p.tail := by
    unfold Page.tail
    cases hf : p.frames with
    | nil => exact absurd hf hne
    | cons f l =>
      simp only [List.map_cons, List.sum_cons, Frame.size, entrySpan,
        entryHeaderSize]
      omega
  have hworth : s.worthRelocating cfg i dropClock p = true := by
    unfold worthRelocating
    rw [hlive, Bool.and_eq_true, decide_eq_true_eq, decide_eq_true_eq]
    omega
  have hempty : p.isEmpty = false := by
    unfold Page.isEmpty
    simpa using hne
  unfold tryRelocatePage
  rw [if_neg hopen, hp]
  dsimp only
  rw [hret, hempty, hworth, relocateFrames_dead _ _ _ hdead]
  rfl

-- ======== recycling

/-- Recycling empties its page, or does nothing. -/
theorem recycle_cases (hs : s.Sound cfg) (i : Nat) :
    s.recycle i = s
      ∨ Emptied i s (s.recycle i) ∧ (s.recycle i).tab = s.tab
        ∧ (∀ h r, s.tab h = some r → r.page ≠ i)
        ∧ ∃ p : Page, s.pages[i]? = some p ∧ p.retired = true := by
  unfold recycle
  split
  · next p hp =>
    split
    · next hret =>
      right
      have hvac := hs.vacated i p hp hret
      refine ⟨⟨fun r f => ?_, fun h r => ?_, rfl, rfl, rfl, ?_⟩, rfl,
        hvac, p, hp, hret⟩
      · unfold frameAt
        rw [List.getElem?_set]
        by_cases hr : i = r.page
        · rw [if_pos hr]
          split
          · simp [hr, Page.empty]
          · simp [hr]
        · rw [if_neg hr]
          exact ⟨fun hf => ⟨hf, fun he => hr he.symm⟩, And.left⟩
      · exact ⟨fun ht => ⟨ht, hvac h r ht⟩, And.left⟩
      · intro j p' hp' hpr
        dsimp only at hp'
        rw [List.getElem?_set] at hp'
        by_cases hj : i = j
        · subst hj
          rw [if_pos rfl] at hp'
          split at hp'
          · injection hp' with hp'
            subst hp'
            cases hpr
          · cases hp'
        · rw [if_neg hj] at hp'
          exact ⟨p', hp', hpr⟩
    · exact Or.inl rfl
  · exact Or.inl rfl

theorem recycle_sound (hs : s.Sound cfg) (i : Nat) :
    (s.recycle i).Sound cfg := by
  rcases recycle_cases hs i with he | ⟨he, _⟩
  · rw [he]
    exact hs
  · exact hs.emptied he

theorem recycle_gone (hs : s.Sound cfg) (hg : s.Gone cfg clock)
    (hsafe : (∃ p : Page, s.pages[i]? = some p ∧ p.retired = true) →
      s.SafeToEmpty cfg i) : (s.recycle i).Gone cfg clock := by
  rcases recycle_cases hs i with he | ⟨he, _, _, hret⟩
  · rw [he]
    exact hg
  · exact hg.emptied hs (hsafe hret) he

/-- Recycling changes no slot's content. -/
theorem slot_recycle (hs : s.Sound cfg) (i h : Nat) :
    (s.recycle i).slot h = s.slot h := by
  rcases recycle_cases hs i with he | ⟨he, htab, hvac, _⟩
  · rw [he]
  · unfold Shard.slot
    rw [htab]
    cases ht : s.tab h with
    | none => rfl
    | some r =>
      obtain ⟨f, hn, _⟩ := hs.current h r ht
      rw [Option.bind_some, Option.bind_some, hn.mem.1]
      exact (he.frames r f).mpr ⟨hn.mem.1, hvac h r ht⟩

end Rostam.Cache
