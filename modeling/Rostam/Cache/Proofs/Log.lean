/-
The shard's pages as a log, and what the index must agree with.

Which frames there are decides what an open recovers; where they lie
does not. `Shard.log` is the set of frames above the flush floor, and
`Newest` the one that wins its hash at the next open. The index is sound
when every slot points at its hash's newest frame (`Indexed`); it has
let go of nothing it should have kept when a hash without a slot has a
delete record or an expired entry as its newest frame (`Gone`). Soundness
survives every step. `Gone` does not survive a page emptied under it:
that is what the restart results turn on.
-/
import Rostam.Cache.Step
import Rostam.Lib.Newest

namespace Rostam.Cache

open Rostam.Lib

-- ======== definitions

def hashOf (cfg : Config) (x : Ref × Frame) : Nat := cfg.hashKey x.2.key

def seqOf (x : Ref × Frame) : Nat := x.2.seq

namespace Shard

/-- The frames above the flush floor, with where they lie. -/
def log (s : Shard) : Set (Ref × Frame) :=
  {x | s.frameAt x.1 = some x.2 ∧ s.flushedThroughSeq < x.2.seq}

/-- The frame that wins hash `h` at an open. -/
abbrev Newest (cfg : Config) (s : Shard) (h : Nat) (x : Ref × Frame) :
    Prop :=
  IsNewest (hashOf cfg) seqOf s.log h x

/-- The newest frame of the key's hash is this value of the key. -/
def Live (cfg : Config) (s : Shard) (key : Key) (v : Bytes × Nat) :
    Prop :=
  ∃ r f, s.Newest cfg (cfg.hashKey key) (r, f) ∧ f.tomb = false
    ∧ f.key = key ∧ v = (f.val, f.exp)

/-- Sequences tell frames apart. -/
def Distinct (s : Shard) : Prop :=
  ∀ r f r' f', s.frameAt r = some f → s.frameAt r' = some f' →
    f.seq = f'.seq → r = r'

/-- Sequences tell frames apart, and every slot points at its hash's
newest frame, which is no delete record. -/
structure Indexed (cfg : Config) (s : Shard) : Prop where
  inj : s.Distinct
  current : ∀ h r, s.tab h = some r →
    ∃ f, s.Newest cfg h (r, f) ∧ f.tomb = false

/-- The next write outranks every frame and the flush floor. -/
structure Ordered (s : Shard) : Prop where
  seq_le : ∀ r f, s.frameAt r = some f → f.seq ≤ s.writeSeq
  floor_le : s.flushedThroughSeq ≤ s.writeSeq

/-- Nothing is written to a retired page and no slot points into one. -/
structure Housed (cfg : Config) (s : Shard) : Prop where
  opened : ∀ p : Page, s.pages[s.writeIdx]? = some p → p.retired = false
  vacated : ∀ (i : Nat) (p : Page), s.pages[i]? = some p →
    p.retired = true → ∀ h r, s.tab h = some r → r.page ≠ i
  unretired : cfg.policy = .ringbufEvict →
    ∀ (i : Nat) (p : Page), s.pages[i]? = some p → p.retired = false

structure Sound (cfg : Config) (s : Shard) : Prop extends
  Indexed cfg s, Ordered s, Housed cfg s

/-- A hash without a slot has nothing to lose: its newest frame is a
delete record or had expired at `clock`. -/
def Gone (cfg : Config) (s : Shard) (clock : Nat) : Prop :=
  ∀ h r f, s.tab h = none → s.Newest cfg h (r, f) →
    f.tomb = true ∨ isExpired f.exp clock = true

end Shard

open Shard

variable {cfg : Config} {s : Shard} {clock c : Nat} {h : Nat}

variable {key : Key} {v : Bytes × Nat}

theorem isExpired_mono {exp : Nat} (hc : clock ≤ c)
    (he : isExpired exp clock = true) : isExpired exp c = true := by
  unfold isExpired at he ⊢
  simp only [Bool.and_eq_true, bne_iff_ne, decide_eq_true_eq] at he ⊢
  exact ⟨he.1, he.2.trans hc⟩

theorem Shard.Gone.mono (hc : clock ≤ c) (hg : s.Gone cfg clock) :
    s.Gone cfg c := by
  intro h r f ht hn
  rcases hg h r f ht hn with htomb | hexp
  · exact Or.inl htomb
  · exact Or.inr (isExpired_mono hc hexp)

theorem Shard.Distinct.injOn (hd : s.Distinct) : Set.InjOn seqOf s.log := by
  rintro ⟨r, f⟩ ⟨hf, _⟩ ⟨r', f'⟩ ⟨hf', _⟩ hseq
  have hr : r = r' := hd r f r' f' hf hf' hseq
  subst hr
  have hff : some f = some f' := hf.symm.trans hf'
  injection hff with hff
  rw [hff]

-- ======== reads

/-- A resolved key is live. -/
theorem live_of_resolve (hi : s.Indexed cfg)
    (hr : s.resolve cfg key c = some v) :
    s.Live cfg key v ∧ isExpired v.2 c = false := by
  unfold resolve findKey at hr
  cases ht : s.tab (cfg.hashKey key) with
  | none => rw [ht] at hr; cases hr
  | some r =>
    obtain ⟨f, hn, htomb⟩ := hi.current _ _ ht
    have hf : s.frameAt r = some f := hn.mem.1
    rw [ht, Option.bind_some, hf] at hr
    by_cases hk : f.key = key
    · rw [Option.filter_some_pos (by simpa using hk), Option.bind_some] at hr
      split at hr
      · cases hr
      · next he =>
        injection hr with hv
        subst hv
        exact ⟨⟨r, f, hn, htomb, hk, rfl⟩, Bool.eq_false_iff.mpr he⟩
    · rw [Option.filter_some_neg (by simpa using hk)] at hr
      cases hr

/-- A live value that is not expired resolves, at any clock past the
removals. -/
theorem resolve_of_live (hi : s.Indexed cfg) (hg : s.Gone cfg clock)
    (hc : clock ≤ c) 
    (hl : s.Live cfg key v) (he : isExpired v.2 c = false) :
    s.resolve cfg key c = some v := by
  obtain ⟨r, f, hn, htomb, hk, hv⟩ := hl
  subst hv
  cases ht : s.tab (cfg.hashKey key) with
  | none =>
    rcases hg _ r f ht hn with h | h
    · rw [htomb] at h
      cases h
    · have hexp := isExpired_mono hc h
      rw [show isExpired f.exp c = false from he] at hexp
      cases hexp
  | some r' =>
    obtain ⟨f', hn', _⟩ := hi.current _ _ ht
    have heq : (r', f') = (r, f) := hn'.unique hi.inj.injOn hn
    injection heq with hr hf
    subst hr hf
    unfold resolve findKey
    rw [ht, Option.bind_some, hn.mem.1,
      Option.filter_some_pos (by simpa using hk), Option.bind_some,
      if_neg (by rw [show isExpired f'.exp c = false from he]; simp)]

/-- Past the removals a key resolves to its live value until it
expires. -/
theorem resolve_iff_live (hi : s.Indexed cfg) (hg : s.Gone cfg clock)
    (hc : clock ≤ c) :
    s.resolve cfg key c = some v ↔
      s.Live cfg key v ∧ isExpired v.2 c = false := by
  constructor
  · exact live_of_resolve hi
  · rintro ⟨hl, he⟩
    exact resolve_of_live hi hg hc hl he

-- ======== the frames

section Frames

variable {i : Nat} {g f : Frame} {r : Ref}

variable {x : Ref × Frame}

/-- Appending keeps every frame and adds one at the page's tail. -/
theorem frameAt_append (hi : i < s.pages.length) :
    (s.append i g).frameAt r = some f ↔
      s.frameAt r = some f ∨ r = s.tailRef i ∧ f = g := by
  obtain ⟨p, hp⟩ : ∃ p, s.pages[i]? = some p :=
    ⟨_, List.getElem?_eq_getElem hi⟩
  have htail : s.tailRef i = ⟨i, p.frames.length⟩ := by
    simp [tailRef, hp]
  rw [htail]
  obtain ⟨j, q⟩ := r
  simp only [frameAt, append, List.getElem?_modify, Ref.mk.injEq]
  by_cases hij : i = j
  · subst hij
    simp only [hp, Option.map_eq_map, Option.map_some, if_true,
      Option.bind_some, List.getElem?_append]
    by_cases hq : q < p.frames.length
    · have hne : q ≠ p.frames.length := by omega
      simp [hq, hne]
    · by_cases hqe : q = p.frames.length
      · subst hqe
        simp [eq_comm]
      · have hone : [g][q - p.frames.length]? = none := by
          rw [List.getElem?_eq_none_iff]
          simp only [List.length_singleton]
          omega
        simp [hq, hqe, hone]
  · have hji : ¬ j = i := fun h => hij h.symm
    cases s.pages[j]? <;> simp [hij, hji]

/-- Where a page's frames lie. -/
theorem mem_pageWalk {p : Page} :
    x ∈ pageWalk i p ↔ x.1.page = i ∧ p.frames[x.1.pos]? = some x.2 := by
  obtain ⟨⟨j, q⟩, f⟩ := x
  simp only [pageWalk, List.mem_map, Prod.exists, Prod.mk.injEq,
    Ref.mk.injEq, List.mem_zipIdx_iff_getElem?]
  constructor
  · rintro ⟨f', q', hf, ⟨rfl, rfl⟩, rfl⟩
    exact ⟨rfl, hf⟩
  · rintro ⟨rfl, hf⟩
    exact ⟨f, q, hf, ⟨rfl, rfl⟩, rfl⟩

/-- The walk finds exactly the frames. -/
theorem mem_walk : x ∈ walk s.pages ↔ s.frameAt x.1 = some x.2 := by
  simp only [walk, List.mem_flatMap, Prod.exists, mem_pageWalk,
    List.mem_zipIdx_iff_getElem?, frameAt, Option.bind_eq_some_iff]
  constructor
  · rintro ⟨p, j, hp, rfl, hf⟩
    exact ⟨p, hp, hf⟩
  · rintro ⟨p, hp, hf⟩
    exact ⟨p, x.1.page, hp, rfl, hf⟩

theorem frameAt_of_pageWalk {p : Page} (hp : s.pages[i]? = some p)
    (hx : x ∈ pageWalk i p) :
    s.frameAt x.1 = some x.2 := by
  obtain ⟨hpage, hf⟩ := mem_pageWalk.mp hx
  unfold frameAt
  rw [hpage, hp]
  exact hf

/-- A frame lies on a page. -/
theorem page_lt_of_frameAt (hf : s.frameAt r = some f) :
    r.page < s.pages.length := by
  unfold frameAt at hf
  obtain ⟨p, hp, _⟩ := Option.bind_eq_some_iff.mp hf
  exact (List.getElem?_eq_some_iff.mp hp).1

end Frames

end Rostam.Cache
