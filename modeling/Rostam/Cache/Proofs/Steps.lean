/-
What the shard's moves do to the log: dropping slots, appending a frame,
emptying a page, and moving the write cursor. Every operation is made of
these.
-/
import Rostam.Cache.Proofs.Log

namespace Rostam.Cache

open Rostam.Lib Shard

variable {cfg : Config} {s s' : Shard} {clock c : Nat}

-- ======== dropping slots

section Drop

variable {t : Nat → Option Ref}

/-- Slots may go at any time. -/
theorem Shard.Sound.drop (hs : s.Sound cfg)
    (ht : ∀ h r, t h = some r → s.tab h = some r) :
    ({ s with tab := t } : Shard).Sound cfg := { hs with
  current := fun h r hr => hs.current h r (ht h r hr)
  vacated := fun i p hp hret h r hr =>
    hs.vacated i p hp hret h r (ht h r hr) }

/-- Nothing is lost if only expired entries' slots go. -/
theorem Shard.Gone.drop (hi : s.Indexed cfg) (hg : s.Gone cfg clock)
    (ht : ∀ h r f, s.tab h = some r → t h = none →
      s.frameAt r = some f → isExpired f.exp clock = true) :
    ({ s with tab := t } : Shard).Gone cfg clock := by
  intro h r f hnone hn
  cases hold : s.tab h with
  | none => exact hg h r f hold hn
  | some r' =>
    obtain ⟨f', hn', _⟩ := hi.current h r' hold
    have heq : (r', f') = (r, f) := hn'.unique hi.inj.injOn hn
    injection heq with hr hf
    subst hr hf
    exact Or.inr (ht h r' f' hold hnone hn.mem.1)

end Drop

-- ======== appending

section Append

variable {i : Nat} {g : Frame} {t : Nat → Option Ref}

/-- A frame appended under the next sequence, with its hash's slot
pointed at it, or dropped if it is a delete record. -/
def Shard.write (s : Shard) (i : Nat) (g : Frame)
    (t : Nat → Option Ref) : Shard :=
  { s.append i g with writeSeq := g.seq, tab := t }

/-- What a write makes of the index. -/
structure Points (cfg : Config) (s : Shard) (i : Nat) (g : Frame)
    (t : Nat → Option Ref) : Prop where
  here : t (cfg.hashKey g.key) =
    if g.tomb then none else some (s.tailRef i)
  there : ∀ h, cfg.hashKey g.key ≠ h → t h = s.tab h

theorem points_upsert (hg : g.tomb = false) : Points cfg s i g
      (Function.update s.tab (cfg.hashKey g.key) (some (s.tailRef i))) where
  here := by simp [hg]
  there := fun h hh => Function.update_of_ne (Ne.symm hh) _ _

theorem frameAt_write (hi : i < s.pages.length) {r : Ref} {f : Frame} :
    (s.write i g t).frameAt r = some f ↔
      s.frameAt r = some f ∨ r = s.tailRef i ∧ f = g :=
  frameAt_append hi

/-- Appending retires no page. -/
theorem retired_write {j : Nat} {p : Page}
    (hp : (s.write i g t).pages[j]? = some p) :
    ∃ q : Page, s.pages[j]? = some q ∧ p.retired = q.retired := by
  simp only [Shard.write, append, List.getElem?_modify,
    Option.map_eq_map, Option.map_eq_some_iff] at hp
  obtain ⟨q, hq, rfl⟩ := hp
  refine ⟨q, hq, ?_⟩
  split <;> rfl

/-- An append under a fresh sequence adds one record to the log. -/
theorem log_write (hi : i < s.pages.length)
    (hg : s.flushedThroughSeq < g.seq) :
    (s.write i g t).log = insert (s.tailRef i, g) s.log := by
  ext ⟨r, f⟩
  have hfr : (s.write i g t).frameAt r = some f ↔ _ := frameAt_write hi
  constructor
  · rintro ⟨hf, hfl⟩
    rcases hfr.mp hf with hf | ⟨hr, hf⟩
    · exact Or.inr ⟨hf, hfl⟩
    · left
      rw [hr, hf]
  · rintro (hx | ⟨hf, hfl⟩)
    · injection hx with hr hf
      exact ⟨hfr.mpr (Or.inr ⟨hr, hf⟩), by rw [hf]; exact hg⟩
    · exact ⟨hfr.mpr (Or.inl hf), hfl⟩

/-- The record a fresh append adds is its hash's newest; other hashes
keep theirs. -/
theorem newest_write (hs : s.Ordered) (hi : i < s.pages.length)
    (hseq : g.seq = s.writeSeq + 1) {h : Nat} {x : Ref × Frame} :
    (s.write i g t).Newest cfg h x ↔
      cfg.hashKey g.key = h ∧ x = (s.tailRef i, g)
        ∨ cfg.hashKey g.key ≠ h ∧ s.Newest cfg h x := by
  have hfl : s.flushedThroughSeq < g.seq := by
    have := hs.floor_le
    omega
  have htop : ∀ b ∈ s.log, seqOf b < seqOf (s.tailRef i, g) := by
    rintro ⟨r, f⟩ ⟨hf, _⟩
    have hle : f.seq ≤ s.writeSeq := hs.seq_le r f hf
    show f.seq < g.seq
    omega
  show IsNewest _ _ (s.write i g t).log h x ↔ _
  rw [log_write hi hfl]
  exact isNewest_insert_iff htop

theorem Shard.Sound.write (hs : s.Sound cfg) (hi : i < s.pages.length)
    (hret : ∀ p : Page, s.pages[i]? = some p → p.retired = false)
    (hseq : g.seq = s.writeSeq + 1) (ht : Points cfg s i g t) :
    (s.write i g t).Sound cfg where
  inj := by
    intro r f r' f' hf hf' he
    rcases (frameAt_write hi).mp hf with hf | ⟨hr, hf⟩ <;>
      rcases (frameAt_write hi).mp hf' with hf' | ⟨hr', hf'⟩
    · exact hs.inj r f r' f' hf hf' he
    · have hle : f.seq ≤ s.writeSeq := hs.seq_le r f hf
      rw [hf'] at he
      omega
    · have hle : f'.seq ≤ s.writeSeq := hs.seq_le r' f' hf'
      rw [hf] at he
      omega
    · rw [hr, hr']
  current := by
    intro h r hr
    by_cases hh : cfg.hashKey g.key = h
    · subst hh
      have hcases : t (cfg.hashKey g.key) = some r := hr
      rw [ht.here] at hcases
      cases htomb : g.tomb with
      | true => rw [htomb] at hcases; cases hcases
      | false =>
        rw [htomb, if_neg (by simp)] at hcases
        cases hcases
        exact ⟨g, (newest_write hs.toOrdered hi hseq).mpr
          (Or.inl ⟨rfl, rfl⟩), htomb⟩
    · have hold : s.tab h = some r := by
        rw [← ht.there h hh]
        exact hr
      obtain ⟨f, hn, htomb⟩ := hs.current h r hold
      exact ⟨f, (newest_write hs.toOrdered hi hseq).mpr
        (Or.inr ⟨hh, hn⟩), htomb⟩
  seq_le := by
    intro r f hf
    show f.seq ≤ g.seq
    rcases (frameAt_write hi).mp hf with hf | ⟨_, hf⟩
    · have := hs.seq_le r f hf
      omega
    · rw [hf]
  floor_le := by
    show s.flushedThroughSeq ≤ g.seq
    have := hs.floor_le
    omega
  opened := by
    intro p hp
    obtain ⟨q, hq, hpq⟩ := retired_write hp
    rw [hpq]
    exact hs.opened q hq
  vacated := by
    intro j p hp hpr h r hr
    obtain ⟨q, hq, hpq⟩ := retired_write hp
    rw [hpq] at hpr
    by_cases hh : cfg.hashKey g.key = h
    · subst hh
      have hcases : t (cfg.hashKey g.key) = some r := hr
      rw [ht.here] at hcases
      split at hcases
      · cases hcases
      · cases hcases
        -- the frame went to a page that is not retired
        rintro rfl
        rw [hret q hq] at hpr
        cases hpr
    · apply hs.vacated j q hq hpr h r
      rw [← ht.there h hh]
      exact hr
  unretired := by
    intro hpol j p hp
    obtain ⟨q, hq, hpq⟩ := retired_write hp
    rw [hpq]
    exact hs.unretired hpol j q hq

theorem Shard.Gone.write (hs : s.Ordered) (hgone : s.Gone cfg clock)
    (hi : i < s.pages.length) (hseq : g.seq = s.writeSeq + 1)
    (ht : Points cfg s i g t) : (s.write i g t).Gone cfg clock := by
  intro h r f hnone hn
  rcases (newest_write hs hi hseq).mp hn with ⟨hh, hx⟩ | ⟨hh, hn⟩
  · injection hx with _ hf
    subst hh hf
    have hcases : t (cfg.hashKey f.key) = none := hnone
    rw [ht.here] at hcases
    left
    cases htomb : f.tomb with
    | true => rfl
    | false => rw [htomb, if_neg (by simp)] at hcases; cases hcases
  · apply hgone h r f _ hn
    rw [← ht.there h hh]
    exact hnone

/-- What a write makes of the live values. -/
theorem live_write (hs : s.Ordered) (hi : i < s.pages.length)
    (hseq : g.seq = s.writeSeq + 1) {key : Key} {v : Bytes × Nat} :
    (s.write i g t).Live cfg key v ↔
      g.tomb = false ∧ g.key = key ∧ v = (g.val, g.exp)
        ∨ cfg.hashKey g.key ≠ cfg.hashKey key ∧ s.Live cfg key v := by
  constructor
  · rintro ⟨r, f, hn, htomb, hk, hv⟩
    rcases (newest_write hs hi hseq).mp hn with ⟨_, hx⟩ | ⟨hh, hn⟩
    · injection hx with _ hf
      subst hf
      exact Or.inl ⟨htomb, hk, hv⟩
    · exact Or.inr ⟨hh, r, f, hn, htomb, hk, hv⟩
  · rintro (⟨htomb, hk, hv⟩ | ⟨hh, r, f, hn, htomb, hk, hv⟩)
    · refine ⟨s.tailRef i, g, ?_, htomb, hk, hv⟩
      exact (newest_write hs hi hseq).mpr (Or.inl ⟨by rw [hk], rfl⟩)
    · refine ⟨r, f, ?_, htomb, hk, hv⟩
      exact (newest_write hs hi hseq).mpr (Or.inr ⟨hh, hn⟩)

end Append

-- ======== emptying a page

section Empty

variable {i : Nat}

/-- `s'` is `s` with page `i` emptied, and with the slots that pointed
into it. -/
structure Emptied (i : Nat) (s s' : Shard) : Prop where
  frames : ∀ r f, s'.frameAt r = some f ↔ s.frameAt r = some f ∧ r.page ≠ i
  slots : ∀ h r, s'.tab h = some r ↔ s.tab h = some r ∧ r.page ≠ i
  writeSeq : s'.writeSeq = s.writeSeq
  floor : s'.flushedThroughSeq = s.flushedThroughSeq
  writeIdx : s'.writeIdx = s.writeIdx
  retired : ∀ (j : Nat) (p' : Page), s'.pages[j]? = some p' →
    p'.retired = true →
    ∃ p : Page, s.pages[j]? = some p ∧ p.retired = true

/-- The log without page `i`. -/
def Shard.logOff (s : Shard) (i : Nat) : Set (Ref × Frame) :=
  {x | x ∈ s.log ∧ x.1.page ≠ i}

/-- Emptying page `i` uncovers no older copy: where it holds a hash's
newest record, the newest one left, if any, is a delete record. -/
def Shard.SafeToEmpty (cfg : Config) (s : Shard) (i : Nat) : Prop :=
  ∀ h x y, s.Newest cfg h x → x.1.page = i →
    IsNewest (hashOf cfg) seqOf (s.logOff i) h y → y.2.tomb = true

theorem log_emptied (he : Emptied i s s') : s'.log = s.logOff i := by
  ext ⟨r, f⟩
  constructor
  · rintro ⟨hf, hfl⟩
    rw [he.floor] at hfl
    obtain ⟨hf, hp⟩ := (he.frames r f).mp hf
    exact ⟨⟨hf, hfl⟩, hp⟩
  · rintro ⟨⟨hf, hfl⟩, hp⟩
    refine ⟨(he.frames r f).mpr ⟨hf, hp⟩, ?_⟩
    rw [he.floor]
    exact hfl

theorem logOff_subset : s.logOff i ⊆ s.log := fun _ hx => hx.1

theorem newest_emptied (he : Emptied i s s') {h : Nat}
    {x : Ref × Frame} (hn : s.Newest cfg h x) (hx : x.1.page ≠ i) :
    s'.Newest cfg h x := by
  show IsNewest _ _ s'.log h x
  rw [log_emptied he]
  exact hn.subset logOff_subset ⟨hn.mem, hx⟩

theorem Shard.Sound.emptied (hs : s.Sound cfg) (he : Emptied i s s') :
    s'.Sound cfg where
  inj := fun r f r' f' hf hf' =>
    hs.inj r f r' f' ((he.frames r f).mp hf).1 ((he.frames r' f').mp hf').1
  current := by
    intro h r hr
    obtain ⟨hr, hp⟩ := (he.slots h r).mp hr
    obtain ⟨f, hn, htomb⟩ := hs.current h r hr
    exact ⟨f, newest_emptied he hn hp, htomb⟩
  seq_le := by
    intro r f hf
    rw [he.writeSeq]
    exact hs.seq_le r f ((he.frames r f).mp hf).1
  floor_le := by
    rw [he.writeSeq, he.floor]
    exact hs.floor_le
  opened := by
    intro p hp
    rw [Bool.eq_false_iff]
    intro hpr
    obtain ⟨q, hq, hqr⟩ := he.retired _ p hp hpr
    rw [he.writeIdx] at hq
    rw [hs.opened q hq] at hqr
    cases hqr
  vacated := by
    intro j p hp hpr h r hr
    obtain ⟨q, hq, hqr⟩ := he.retired j p hp hpr
    exact hs.vacated j q hq hqr h r ((he.slots h r).mp hr).1
  unretired := by
    intro hpol j p hp
    rw [Bool.eq_false_iff]
    intro hpr
    obtain ⟨q, hq, hqr⟩ := he.retired j p hp hpr
    rw [hs.unretired hpol j q hq] at hqr
    cases hqr

/-- A page safe to empty leaves nothing behind that should not be
found. -/
theorem Shard.Gone.emptied (hs : s.Sound cfg) (hg : s.Gone cfg clock)
    (hsafe : s.SafeToEmpty cfg i) (he : Emptied i s s') :
    s'.Gone cfg clock := by
  intro h r f hnone hn
  have hn' : IsNewest (hashOf cfg) seqOf (s.logOff i) h (r, f) := by
    rw [← log_emptied he]
    exact hn
  have hmem : (r, f) ∈ s.log := logOff_subset hn'.mem
  obtain ⟨x, hx⟩ : ∃ x, s.Newest cfg h x :=
    exists_isNewest (fun a ha => hs.seq_le a.1 a.2 ha.1) hmem hn'.key_eq
  by_cases hpage : x.1.page = i
  · exact Or.inl (hsafe h x (r, f) hx hpage hn')
  · -- the newest record stays, so it is the one found
    have hinj : Set.InjOn seqOf (s.logOff i) := hs.inj.injOn.mono logOff_subset
    have hxy : x = (r, f) :=
      (hx.subset logOff_subset ⟨hx.mem, hpage⟩).unique hinj hn'
    subst hxy
    apply hg h r f _ hx
    cases hold : s.tab h with
    | none => rfl
    | some r' =>
      obtain ⟨f', hcur, _⟩ := hs.current h r' hold
      have heq : (r', f') = (r, f) := hcur.unique hs.inj.injOn hx
      injection heq with hr _
      subst hr
      rw [(he.slots h r').mpr ⟨hold, hpage⟩] at hnone
      cases hnone

/-- Without the page, a value that is live was live already or comes
from under a record of the page. -/
theorem live_emptied (hs : s.Sound cfg) (hsafe : s.SafeToEmpty cfg i)
    (he : Emptied i s s') {key : Key} {v : Bytes × Nat}
    (hl : s'.Live cfg key v) : s.Live cfg key v := by
  obtain ⟨r, f, hn, htomb, hk, hv⟩ := hl
  have hn' : IsNewest (hashOf cfg) seqOf (s.logOff i)
      (cfg.hashKey key) (r, f) := by
    rw [← log_emptied he]
    exact hn
  obtain ⟨x, hx⟩ : ∃ x, s.Newest cfg (cfg.hashKey key) x :=
    exists_isNewest (fun a ha => hs.seq_le a.1 a.2 ha.1)
      (logOff_subset hn'.mem) hn'.key_eq
  by_cases hpage : x.1.page = i
  · have := hsafe _ x (r, f) hx hpage hn'
    rw [htomb] at this
    cases this
  · have hxy : x = (r, f) := (hx.subset logOff_subset ⟨hx.mem, hpage⟩).unique
        (hs.inj.injOn.mono logOff_subset) hn'
    subst hxy
    exact ⟨r, f, hx, htomb, hk, hv⟩

end Empty

-- ======== slots read as contents

/-- The frame a hash's slot points at. -/
def Shard.slot (s : Shard) (h : Nat) : Option Frame := (s.tab h).bind s.frameAt

/-- What a read can see of a frame. -/
def Frame.content (f : Frame) : Key × Bytes × Nat := (f.key, f.val, f.exp)

/-- A read depends on the content of the key's slot only. -/
theorem resolve_congr {key : Key}
    (hslot : (s'.slot (cfg.hashKey key)).map Frame.content =
      (s.slot (cfg.hashKey key)).map Frame.content) :
    s'.resolve cfg key c = s.resolve cfg key c := by
  have hread : ∀ u : Shard, u.resolve cfg key c =
      ((u.slot (cfg.hashKey key)).map Frame.content).bind fun x =>
        if x.1 = key ∧ isExpired x.2.2 c = false then some x.2
        else none := by
    intro u
    unfold resolve findKey Shard.slot
    cases hu : u.tab (cfg.hashKey key) with
    | none => rfl
    | some r =>
      cases hf : u.frameAt r with
      | none => simp [hf]
      | some f =>
        by_cases hk : f.key = key <;>
          cases he : isExpired f.exp c <;>
          simp [hf, hk, he, Frame.content, Option.filter]
  rw [hread s', hread s, hslot]

-- ======== growth

/-- `b` comes after `a` with no page emptied: pages grow at their tails,
retired ones not at all, and every later frame has a later sequence. -/
structure Grown (a b : Shard) : Prop where
  length : b.pages.length = a.pages.length
  page : ∀ (i : Nat) (p : Page), a.pages[i]? = some p →
    ∃ q : Page, b.pages[i]? = some q ∧ p.frames <+: q.frames
      ∧ (p.retired = true → q = p)
  late : ∀ r f, b.frameAt r = some f →
    a.frameAt r = some f ∨ a.writeSeq < f.seq
  writeSeq_le : a.writeSeq ≤ b.writeSeq
  floor : b.flushedThroughSeq = a.flushedThroughSeq

/-- Steps that leave the pages alone. -/
theorem grown_of_pages (hp : s'.pages = s.pages)
    (hseq : s.writeSeq ≤ s'.writeSeq)
    (hfl : s'.flushedThroughSeq = s.flushedThroughSeq) : Grown s s' where
  length := by rw [hp]
  page := by
    intro i p hpi
    exact ⟨p, by rw [hp]; exact hpi, List.prefix_refl _, fun _ => rfl⟩
  late := by
    intro r f hf
    left
    unfold frameAt at hf ⊢
    rw [← hp]
    exact hf
  writeSeq_le := hseq
  floor := hfl

theorem Grown.trans {u : Shard} (h₁ : Grown s u) (h₂ : Grown u s') :
    Grown s s' where
  length := h₂.length.trans h₁.length
  page := by
    intro i p hp
    obtain ⟨q, hq, hpq, hfix⟩ := h₁.page i p hp
    obtain ⟨q', hq', hqq, hfix'⟩ := h₂.page i q hq
    refine ⟨q', hq', hpq.trans hqq, fun hret => ?_⟩
    have hqp := hfix hret
    subst hqp
    exact hfix' hret
  late := by
    intro r f hf
    rcases h₂.late r f hf with hf | hlt
    · exact h₁.late r f hf
    · exact Or.inr (lt_of_le_of_lt h₁.writeSeq_le hlt)
  writeSeq_le := h₁.writeSeq_le.trans h₂.writeSeq_le
  floor := h₂.floor.trans h₁.floor

/-- A write grows a page that is not retired. -/
theorem grown_write {i : Nat} {g : Frame} {t : Nat → Option Ref}
    (hi : i < s.pages.length)
    (hret : ∀ p : Page, s.pages[i]? = some p → p.retired = false)
    (hseq : g.seq = s.writeSeq + 1) : Grown s (s.write i g t) where
  length := List.length_modify ..
  page := by
    intro j p hp
    refine ⟨if i = j then { p with frames := p.frames ++ [g] } else p,
      ?_, ?_, ?_⟩
    · simp [Shard.write, append, List.getElem?_modify, hp]
    · split
      · exact List.prefix_append _ _
      · exact List.prefix_refl _
    · intro hpr
      split
      · next hij =>
        subst hij
        rw [hret p hp] at hpr
        cases hpr
      · rfl
  late := by
    intro r f hf
    rcases (frameAt_write hi).mp hf with hf | ⟨_, hf⟩
    · exact Or.inl hf
    · right
      rw [hf, hseq]
      omega
  writeSeq_le := by
    show s.writeSeq ≤ g.seq
    omega
  floor := rfl

end Rostam.Cache
