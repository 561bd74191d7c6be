/-
The shard's operations in terms of the log: which page a write evicts,
what relocation leaves where it was, and when a page may be recycled.
-/
import Rostam.Cache.Proofs.Steps

namespace Rostam.Cache

open Rostam.Lib Shard Function

variable {cfg : Config} {s s' u : Shard} {clock c : Nat}

-- ======== drains

/-- The slots a drained page's walk leaves. -/
theorem drainSlots_iff (l : List (Ref × Frame)) (tab : Nat → Option Ref)
    {h : Nat} {r : Ref} :
    drainSlots cfg tab l h = some r ↔
      tab h = some r ∧ ∀ f, (r, f) ∈ l → cfg.hashKey f.key ≠ h := by
  induction l generalizing tab with
  | nil =>
    unfold drainSlots
    exact ⟨fun ht => ⟨ht, fun f hf => by cases hf⟩, And.left⟩
  | cons x l ih =>
    obtain ⟨r₀, f₀⟩ := x
    unfold drainSlots
    rw [ih]
    -- the head's own slot is the only one its step can drop
    have hstep : (if tab (cfg.hashKey f₀.key) = some r₀ then
          update tab (cfg.hashKey f₀.key) none
        else tab) h = some r ↔
        tab h = some r ∧ (r = r₀ → cfg.hashKey f₀.key ≠ h) := by
      by_cases hh : h = cfg.hashKey f₀.key
      · subst hh
        split
        · next ht =>
          rw [update_self, ht]
          simp only [reduceCtorEq, Option.some.injEq, ne_eq,
            not_true_eq_false, imp_false, false_iff, not_and,
            not_not]
          exact fun hr => hr.symm
        · next ht =>
          constructor
          · intro hr
            exact ⟨hr, fun hrr => absurd (hrr ▸ hr) ht⟩
          · exact And.left
      · have hne : cfg.hashKey f₀.key ≠ h := fun he => hh he.symm
        split
        · rw [update_of_ne hh]
          exact ⟨fun ht => ⟨ht, fun _ => hne⟩, And.left⟩
        · exact ⟨fun ht => ⟨ht, fun _ => hne⟩, And.left⟩
    rw [hstep]
    constructor
    · rintro ⟨⟨ht, hhead⟩, hrest⟩
      refine ⟨ht, fun f hf => ?_⟩
      rcases List.mem_cons.mp hf with heq | hf
      · injection heq with hr hff
        rw [hff]
        exact hhead hr
      · exact hrest f hf
    · rintro ⟨ht, hall⟩
      refine ⟨⟨ht, fun hr => ?_⟩, fun f hf =>
        hall f (List.mem_cons_of_mem _ hf)⟩
      apply hall f₀
      rw [hr]
      exact List.mem_cons_self

/-- A drain empties its page and nothing else. -/
theorem drainPage_emptied (hi : s.Indexed cfg) (v n : Nat) :
    Emptied v s (({ s with nextVictim := n } : Shard).drainPage cfg v) := by
  unfold drainPage
  cases hp : s.pages[v]? with
  | none =>
    -- no such page, so no frame or slot on it
    have hno : ∀ r f, s.frameAt r = some f → r.page ≠ v := by
      intro r f hf hr
      unfold frameAt at hf
      rw [hr, hp] at hf
      cases hf
    refine ⟨fun r f => ⟨fun hf => ⟨hf, hno r f hf⟩, And.left⟩,
      fun h r => ⟨fun ht => ?_, And.left⟩, rfl, rfl, rfl,
      fun j p hpj hpr => ⟨p, hpj, hpr⟩⟩
    obtain ⟨f, hn, _⟩ := hi.current h r ht
    exact ⟨ht, hno r f hn.mem.1⟩
  | some p =>
    refine ⟨fun r f => ?_, fun h r => ?_, rfl, rfl, rfl, ?_⟩
    · unfold frameAt
      rw [List.getElem?_set]
      by_cases hr : v = r.page
      · rw [if_pos hr]
        split
        · simp [hr]
        · simp [hr]
      · rw [if_neg hr]
        exact ⟨fun hf => ⟨hf, fun he => hr he.symm⟩, And.left⟩
    · dsimp only
      rw [drainSlots_iff]
      constructor
      · rintro ⟨ht, hall⟩
        refine ⟨ht, fun hr => ?_⟩
        obtain ⟨f, hn, _⟩ := hi.current h r ht
        have hf : s.frameAt r = some f := hn.mem.1
        unfold frameAt at hf
        rw [hr, hp] at hf
        exact hall f (mem_pageWalk.mpr ⟨hr, hf⟩) hn.key_eq
      · rintro ⟨ht, hr⟩
        exact ⟨ht, fun f hf =>
          absurd (mem_pageWalk.mp hf).1 hr⟩
    · intro j p' hp' hpr
      dsimp only at hp'
      rw [List.getElem?_set] at hp'
      by_cases hj : v = j
      · subst hj
        rw [if_pos rfl] at hp'
        split at hp'
        · injection hp' with hp'
          subst hp'
          exact ⟨p, hp, hpr⟩
        · cases hp'
      · rw [if_neg hj] at hp'
        exact ⟨p', hp', hpr⟩

-- ======== moved frames

/-- A moved frame is a write of the same content. -/
theorem moveFrame_eq {dst : Nat} {f : Frame} : s.moveFrame cfg dst f =
      s.write dst { f with seq := s.writeSeq + 1, tomb := false }
        (update s.tab (cfg.hashKey f.key)
          (some (s.tailRef dst))) := rfl

section Move

variable {dst : Nat} {r : Ref} {f : Frame}

theorem Shard.Sound.move (hs : s.Sound cfg) (hdst : dst < s.pages.length)
    (hret : ∀ p : Page, s.pages[dst]? = some p → p.retired = false) :
    (s.moveFrame cfg dst f).Sound cfg :=
  hs.write hdst hret rfl (points_upsert rfl)

theorem Shard.Gone.move (hs : s.Ordered) (hg : s.Gone cfg clock)
    (hdst : dst < s.pages.length) :
    (s.moveFrame cfg dst f).Gone cfg clock :=
  hg.write hs hdst rfl (points_upsert rfl)

theorem frameAt_move (hdst : dst < s.pages.length) {r' : Ref}
    {f' : Frame} (hf : s.frameAt r' = some f') :
    (s.moveFrame cfg dst f).frameAt r' = some f' :=
  (frameAt_write hdst).mpr (Or.inl hf)

/-- The new copy is where the slot points. -/
theorem frameAt_move_tail (hdst : dst < s.pages.length) :
    (s.moveFrame cfg dst f).frameAt (s.tailRef dst) =
      some { f with seq := s.writeSeq + 1, tomb := false } :=
  (frameAt_write hdst).mpr (Or.inr ⟨rfl, rfl⟩)

/-- Moving what a slot points at changes no slot's content. -/
theorem slot_move (hs : s.Sound cfg) (hdst : dst < s.pages.length)
    (ht : s.tab (cfg.hashKey f.key) = some r)
    (hf : s.frameAt r = some f) (h : Nat) :
    ((s.moveFrame cfg dst f).slot h).map Frame.content =
      (s.slot h).map Frame.content := by
  unfold Shard.slot
  by_cases hh : h = cfg.hashKey f.key
  · subst hh
    have hnew : (s.moveFrame cfg dst f).tab (cfg.hashKey f.key) =
        some (s.tailRef dst) := update_self ..
    rw [hnew, ht, Option.bind_some, Option.bind_some, hf,
      frameAt_move_tail hdst]
    rfl
  · have hsame : (s.moveFrame cfg dst f).tab h = s.tab h :=
      update_of_ne hh ..
    rw [hsame]
    cases ht' : s.tab h with
    | none => rfl
    | some r' =>
      obtain ⟨f', hn, _⟩ := hs.current h r' ht'
      rw [Option.bind_some, Option.bind_some, hn.mem.1,
        frameAt_move hdst hn.mem.1]

/-- Moving what a slot points at changes no live value. -/
theorem live_move (hs : s.Sound cfg) (hdst : dst < s.pages.length)
    (ht : s.tab (cfg.hashKey f.key) = some r)
    (hf : s.frameAt r = some f) (key : Key) (v : Bytes × Nat) :
    (s.moveFrame cfg dst f).Live cfg key v ↔ s.Live cfg key v := by
  obtain ⟨f', hn, htomb⟩ := hs.current _ r ht
  have hff : f' = f := by
    have hf' : s.frameAt r = some f' := hn.mem.1
    rw [hf] at hf'
    injection hf' with hf'
    exact hf'.symm
  subst hff
  rw [moveFrame_eq, live_write hs.toOrdered hdst rfl]
  constructor
  · rintro (⟨_, hk, hv⟩ | ⟨_, hl⟩)
    · subst hk
      exact ⟨r, f', hn, htomb, rfl, hv⟩
    · exact hl
  · intro hl
    by_cases hh : cfg.hashKey f'.key = cfg.hashKey key
    · obtain ⟨r₂, f₂, hn₂, _, hk, hv⟩ := hl
      rw [← hh] at hn₂
      have heq : (r₂, f₂) = (r, f') := hn₂.unique hs.inj.injOn hn
      injection heq with _ hff
      subst hff
      exact Or.inl ⟨rfl, hk, hv⟩
    · exact Or.inr ⟨hh, hl⟩

end Move

-- ======== eviction

/-- The page a write of `need` bytes drains, if it drains one. -/
def Shard.victim (cfg : Config) (s : Shard) (need : Nat) : Option Nat :=
  if cfg.maxEntryBytes < need then none
  else if ((s.pages[s.writeIdx]?).map
      fun p => decide (need ≤ cfg.freeTail p)).getD false then none
  else
    match cfg.policy, s.firstPageWithRoom cfg need with
    | .ringbufEvict, none => s.nextNonEmptyPage none
    | _, _ => none

theorem firstPageWithRoom_spec {need i : Nat}
    (hf : s.firstPageWithRoom cfg need = some i) :
    i < s.pages.length
      ∧ ∀ p : Page, s.pages[i]? = some p → p.retired = false := by
  unfold firstPageWithRoom at hf
  rw [List.findIdx?_eq_some_iff_getElem] at hf
  obtain ⟨hi, hp, _⟩ := hf
  refine ⟨hi, fun p hpi => ?_⟩
  rw [List.getElem?_eq_getElem hi] at hpi
  cases hpi
  rw [Bool.and_eq_true, Bool.not_eq_true'] at hp
  exact hp.1

section Evict

variable {P : Shard → Prop} {env : EvictEnv}

/-- What survives a move of a current frame survives the rescue of a
page's frames. -/
theorem rescueFrames_rule {dst budget : Nat}
    (hmove : ∀ u r f, P u → u.tab (cfg.hashKey f.key) = some r →
      u.frameAt r = some f → dst < u.pages.length →
      P (u.moveFrame cfg dst f))
    (l : List (Ref × Frame)) (spent : Nat)
    (hl : ∀ x ∈ l, s.frameAt x.1 = some x.2)
    (hdst : dst < s.pages.length) (hP : P s) :
    P (rescueFrames cfg env dst budget s spent l) := by
  induction l generalizing s spent with
  | nil => exact hP
  | cons x l ih =>
    obtain ⟨r, f⟩ := x
    have hf : s.frameAt r = some f := hl (r, f) List.mem_cons_self
    have hrest : ∀ x ∈ l, s.frameAt x.1 = some x.2 := fun x hx =>
      hl x (List.mem_cons_of_mem _ hx)
    unfold rescueFrames
    split
    · exact hP
    · split
      · exact ih spent hrest hdst hP
      · next hcur =>
        have ht : s.tab (cfg.hashKey f.key) = some r := not_not.mp hcur
        split
        · exact ih spent hrest hdst hP
        · split
          · exact ih spent hrest hdst hP
          · apply ih
            · intro x hx
              exact frameAt_move hdst (hrest x hx)
            · simpa [moveFrame, append, upsert] using hdst
            · exact hmove s r f hP ht hf hdst

/-- What survives the drain of the victim and every rescue survives the
eviction. -/
theorem evictVictim_rule {v need : Nat} (hv : v < s.pages.length)
    (hdrain : P (s.drainPage cfg v))
    (hmove : ∀ u r f, P u → u.tab (cfg.hashKey f.key) = some r →
      u.frameAt r = some f → v < u.pages.length →
      P (u.moveFrame cfg v f)) :
    P (s.evictVictim cfg env v need) := by
  have hlen : v < (s.drainPage cfg v).pages.length := by
    unfold drainPage
    split
    · exact hv
    · simpa using hv
  unfold evictVictim
  dsimp only
  split
  · generalize s.drainPage cfg v = u at hdrain hlen
    unfold relocateIntoFreedPage
    split
    · split
      · next p hp =>
        exact rescueFrames_rule hmove _ 0
          (fun x hx => frameAt_of_pageWalk hp hx) hlen hdrain
      · exact hdrain
    · exact hdrain
  · exact hdrain

/-- The shapes of a successful eviction: the first page with room, or
the victim drained and then the first page with room. -/
theorem evictUntilFits_ok {need i : Nat}
    (hok : s.evictUntilFits cfg env need 2 = .ok (s', i)) :
    s' = s ∧ s.firstPageWithRoom cfg need = some i
      ∨ ∃ v, s.firstPageWithRoom cfg need = none
        ∧ s.nextNonEmptyPage none = some v
        ∧ s' = ({ s with nextVictim := (v + 1) % s.pages.length }
            : Shard).evictVictim cfg env v need
        ∧ s'.firstPageWithRoom cfg need = some i := by
  unfold evictUntilFits at hok
  split at hok
  · next j hj =>
    injection hok with hok
    injection hok with hs hi
    subst hs hi
    exact Or.inl ⟨rfl, hj⟩
  · next hnone =>
    split at hok
    · cases hok
    · next v hv =>
      right
      refine ⟨v, hnone, hv, ?_⟩
      dsimp only at hok
      unfold evictUntilFits at hok
      split at hok
      · next j hj =>
        injection hok with hok
        injection hok with hs hi
        subst hs hi
        exact ⟨rfl, hj⟩
      · split at hok
        · cases hok
        · unfold evictUntilFits at hok
          cases hok

theorem nextNonEmptyPage_lt {skip : Option Nat} {v : Nat}
    (hv : s.nextNonEmptyPage skip = some v) : v < s.pages.length := by
  unfold nextNonEmptyPage at hv
  obtain ⟨off, hoff, rfl⟩ := List.mem_map.mp (List.mem_of_find?_eq_some hv)
  have hpos : 0 < s.pages.length := by
    have := List.mem_range.mp hoff
    omega
  exact Nat.mod_lt _ hpos

/-- Making room for a write: what survives the drain of its victim and
every rescue holds of the shard it writes to, up to the write cursor,
which is on a page that is not retired unless it did not move. -/
theorem findOrMakePage_ok {need i : Nat}
    (hok : s.findOrMakePage cfg env need = .ok (s', i)) (hP : P s)
    (hdrain : ∀ v n, s.victim cfg need = some v →
      P (({ s with nextVictim := n } : Shard).drainPage cfg v))
    (hmove : ∀ u dst r f, cfg.policy = .ringbufEvict → P u →
      u.tab (cfg.hashKey f.key) = some r → u.frameAt r = some f →
      dst < u.pages.length → P (u.moveFrame cfg dst f)) :
    ∃ u : Shard, P u ∧ s' = { u with writeIdx := i }
      ∧ i < u.pages.length ∧ (i = u.writeIdx
        ∨ ∀ p : Page, u.pages[i]? = some p → p.retired = false) := by
  unfold findOrMakePage at hok
  split at hok
  · cases hok
  · next hsize =>
    split at hok
    · next hfit =>
      injection hok with hok
      injection hok with hs hi
      subst hs hi
      refine ⟨s, hP, rfl, ?_, Or.inl rfl⟩
      cases hp : s.pages[s.writeIdx]? with
      | none => rw [hp] at hfit; cases hfit
      | some p => exact (List.getElem?_eq_some_iff.mp hp).1
    · next hroom =>
      split at hok
      · next j hj =>
        injection hok with hok
        injection hok with hs hi
        subst hs hi
        obtain ⟨hlt, hret⟩ := firstPageWithRoom_spec hj
        exact ⟨s, hP, rfl, hlt, Or.inr hret⟩
      · next hfull =>
        split at hok
        · next hpol =>
          split at hok
          · next u j hev =>
            injection hok with hok
            injection hok with hs hi
            subst hs hi
            rcases evictUntilFits_ok hev with
              ⟨_, hj⟩ | ⟨v, _, hv, hu, hj⟩
            · rw [hfull] at hj
              cases hj
            · obtain ⟨hlt, hret⟩ := firstPageWithRoom_spec hj
              refine ⟨u, ?_, rfl, hlt, Or.inr hret⟩
              rw [hu]
              apply evictVictim_rule
              · show v < s.pages.length
                exact nextNonEmptyPage_lt hv
              · apply hdrain
                unfold victim
                rw [if_neg hsize, if_neg hroom, hpol, hfull]
                exact hv
              · intro u r f hPu ht hf hlen
                exact hmove u v r f hpol hPu ht hf hlen
          · cases hok
        · cases hok

end Evict

end Rostam.Cache
