/-
Writes and deletes read off the slots, and the room they need.

The map a shard's slots spell is read exactly: under reject-writes a put
that succeeds changes one hash's entry, a delete one key's, and nothing
is dropped on the way. A write succeeds if a page has room for it, and
uses up its own size there; a shard with room for a list of writes then
takes them one after the other.
-/
import Rostam.Cache.Proofs.HeapBacks
import Rostam.Cache.Proofs.Writes
import Rostam.Lib.Room

namespace Rostam.Cache

open Rostam.Lib Rostam.Ops Shard Function

variable {cfg : Config} {s s' : Shard} {i j : Nat}

variable {key : Key} {needs : List Nat}

-- ======== free space

/-- The room on page `i` of a persistent shard. -/
def Shard.freeOn (cfg : Config) (s : Shard) (i : Nat) : Nat :=
  ((s.pages[i]?).map fun p =>
    if p.retired then 0 else cfg.freeTail p).getD 0

/-- The room on page `i` of a heap shard, allocated or still to come. -/
def Shard.heapFreeOn (cfg : Config) (s : Shard) (i : Nat) : Nat :=
  ((s.pages[i]?).map fun p => heapFreeTail cfg p).getD
    (if i < cfg.numPages then cfg.pageSize else 0)

theorem tail_append (p : Page) (g : Frame) :
    ({ p with frames := p.frames ++ [g] } : Page).tail = p.tail + g.size := by
  unfold Page.tail
  rw [List.map_append, List.sum_append]
  rfl

theorem getElem?_append (g : Frame) (i : Nat) : (s.append j g).pages[i]? =
      if i = j then (s.pages[j]?).map fun p =>
        { p with frames := p.frames ++ [g] }
      else s.pages[i]? := by
  unfold Shard.append
  rw [List.getElem?_modify]
  by_cases hi : i = j
  · subst hi
    simp
  · have hji : ¬ j = i := fun h => hi h.symm
    simp [hi, hji]

/-- A frame takes its size from its page. -/
theorem freeOn_append (cfg : Config) (s : Shard) (g : Frame) (i : Nat) :
    (s.append j g).freeOn cfg i =
      if i = j then s.freeOn cfg j - g.size else s.freeOn cfg i := by
  unfold Shard.freeOn
  rw [getElem?_append]
  split
  · cases s.pages[j]? with
    | none => exact (Nat.zero_sub _).symm
    | some p =>
      simp only [Option.map_some, Option.getD_some]
      unfold Config.freeTail
      rw [tail_append]
      split
      · rw [Nat.zero_sub]
      · rw [Nat.sub_add_eq]
  · rfl

theorem heapFreeOn_append (cfg : Config) (s : Shard) (g : Frame)
    (hj : j < s.pages.length) (i : Nat) :
    (s.append j g).heapFreeOn cfg i = if i = j then s.heapFreeOn cfg j - g.size
      else s.heapFreeOn cfg i := by
  unfold Shard.heapFreeOn
  rw [getElem?_append]
  split
  · rw [List.getElem?_eq_getElem hj]
    simp only [Option.map_some, Option.getD_some]
    unfold heapFreeTail
    rw [tail_append, Nat.sub_add_eq]
  · rfl

theorem entrySpan_pos (a b : Nat) : 0 < entrySpan a b := by
  unfold entrySpan entryHeaderSize
  omega

-- ======== persistent shards

/-- A page with room is found. -/
theorem findOrMakePage_room (env : EvictEnv) {need : Nat} (hneed : 0 < need)
    (hroom : need ≤ s.freeOn cfg i) :
    ∃ j, s.findOrMakePage cfg env need = .ok ({ s with writeIdx := j }, j)
      ∧ j < s.pages.length := by
  obtain ⟨p, hp, hret, hfree⟩ : ∃ p : Page, s.pages[i]? = some p
      ∧ p.retired = false ∧ need ≤ cfg.freeTail p := by
    unfold Shard.freeOn at hroom
    cases hp : s.pages[i]? with
    | none =>
      rw [hp, Option.map_none, Option.getD_none] at hroom
      omega
    | some p =>
      rw [hp, Option.map_some, Option.getD_some] at hroom
      cases hret : p.retired with
      | true => rw [hret, if_pos rfl] at hroom; omega
      | false =>
        rw [hret] at hroom
        exact ⟨p, rfl, hret, hroom⟩
  have hfits : ¬ cfg.maxEntryBytes < need := by
    unfold Config.freeTail at hfree
    omega
  unfold findOrMakePage
  rw [if_neg hfits]
  split
  · next hopen =>
    refine ⟨s.writeIdx, rfl, ?_⟩
    cases hw : s.pages[s.writeIdx]? with
    | none => rw [hw] at hopen; cases hopen
    | some q => exact (List.getElem?_eq_some_iff.mp hw).1
  · cases hfirst : s.firstPageWithRoom cfg need with
    | some j => exact ⟨j, rfl, (firstPageWithRoom_spec hfirst).1⟩
    | none =>
      unfold firstPageWithRoom at hfirst
      rw [List.findIdx?_eq_none_iff] at hfirst
      have hno := hfirst p (List.mem_of_getElem? hp)
      rw [hret, decide_eq_true hfree] at hno
      cases hno

/-- A put with room for it. -/
theorem putAtExp_room {env : EvictEnv} {val : Bytes}
    {exp : Nat} (hs : s.Slots cfg)
    (hkey : key.length ≤ maxKeyLen)
    (hval : val.length ≤ maxValueLen)
    (hroom : Roomy (s.freeOn cfg) (entrySpan key.length val.length :: needs)) :
    ∃ s', s.putAtExp cfg env key val exp = (s', none) ∧ s'.Slots cfg
      ∧ s'.entries cfg = (s.entries cfg).put cfg.hashKey key (val, exp)
      ∧ Roomy (s'.freeOn cfg) needs := by
  obtain ⟨i, hi⟩ := hroom.exists_room (entrySpan_pos _ _)
  obtain ⟨j, hfind, hj⟩ := findOrMakePage_room env (entrySpan_pos _ _) hi
  unfold putAtExp
  rw [hfind]
  dsimp only
  rw [if_neg (by omega)]
  obtain ⟨hslots, hput⟩ := hs.put
    (u := { s with writeIdx := j, writeSeq := s.writeSeq + 1 }) rfl
    (fun _ _ hf => hf) hj ⟨key, val, exp, _, false⟩ rfl
  refine ⟨_, rfl, hslots, hput, ?_⟩
  apply hroom.spend j
  intro k
  exact (freeOn_append cfg
      { s with writeIdx := j, writeSeq := s.writeSeq + 1 }
      ⟨key, val, exp, s.writeSeq + 1, false⟩ k).ge

/-- A delete with room for its record. -/
theorem del_room {env : EvictEnv} 
    (hs : s.Slots cfg) (hkey : key.length ≤ maxKeyLen)
    (hroom : Roomy (s.freeOn cfg) (entrySpan key.length 0 :: needs)) :
    ∃ s' b, s.del cfg env key = (s', .ok b) ∧ s'.Slots cfg
      ∧ s'.entries cfg = update (s.entries cfg) key none
      ∧ Roomy (s'.freeOn cfg) needs := by
  unfold del
  cases hf : s.findKey cfg key with
  | none => exact ⟨s, false, rfl, hs, entries_of_findKey hf, hroom.skip⟩
  | some f =>
    obtain ⟨i, hi⟩ := hroom.exists_room (entrySpan_pos _ _)
    obtain ⟨j, hfind, hj⟩ := findOrMakePage_room env (entrySpan_pos _ _) hi
    rw [hfind]
    dsimp only
    rw [if_neg (by omega)]
    -- the record moves no frame, so the slot is found again
    let u : Shard := ({ s with writeIdx := j, writeSeq := s.writeSeq + 1 } :
        Shard).append j ⟨key, [], 0, s.writeSeq + 1, true⟩
    obtain ⟨hu, hslot⟩ := hs.of_frames u rfl
      fun r f hf => (frameAt_append hj).mpr (Or.inl hf)
    have hfu : u.findKey cfg key = some f := by
      obtain ⟨hsf, hk⟩ := slot_of_findKey hf
      unfold findKey
      rw [← hslot] at hsf
      obtain ⟨r, hr, hfr⟩ := Option.bind_eq_some_iff.mp hsf
      rw [hr, Option.bind_some, hfr, Option.filter_eq_some_iff]
      exact ⟨rfl, decide_eq_true hk⟩
    have hfu' : (({ s with writeIdx := j, writeSeq := s.writeSeq + 1 } :
        Shard).append j ⟨key, [], 0, s.writeSeq + 1, true⟩).findKey cfg
        key = some f := hfu
    rw [hfu']
    refine ⟨_, true, rfl, hu.tombstone _, ?_, ?_⟩
    · apply entries_of_del hf
      intro h
      have htomb := slot_tombstone (s := u) (cfg.hashKey key) h
      rw [hslot] at htomb
      exact htomb
    · apply hroom.spend j
      intro k
      exact (freeOn_append cfg
        { s with writeIdx := j, writeSeq := s.writeSeq + 1 }
        ⟨key, [], 0, s.writeSeq + 1, true⟩ k).ge

-- ======== heap shards

/-- A page with room is found, or a page is added. -/
theorem findOrMakeHeapPage_room {need : Nat} (hneed : 0 < need)
    (hroom : need ≤ s.heapFreeOn cfg i) :
    ∃ u j, s.findOrMakeHeapPage cfg need = .ok (u, j)
      ∧ ∀ k, u.heapFreeOn cfg k = s.heapFreeOn cfg k := by
  have hfits : ¬ cfg.pageSize < need := by
    unfold Shard.heapFreeOn at hroom
    cases hp : s.pages[i]? with
    | none =>
      rw [hp, Option.map_none, Option.getD_none] at hroom
      split at hroom <;> omega
    | some p =>
      rw [hp, Option.map_some, Option.getD_some] at hroom
      unfold heapFreeTail at hroom
      omega
  unfold findOrMakeHeapPage
  rw [if_neg hfits]
  split
  · exact ⟨s, _, rfl, fun _ => rfl⟩
  · cases hfirst : s.firstHeapPageWithRoom cfg need with
    | some j => exact ⟨_, j, rfl, fun _ => rfl⟩
    | none =>
      have hnone : s.pages[i]? = none ∧ i < cfg.numPages := by
        unfold Shard.heapFreeOn at hroom
        cases hp : s.pages[i]? with
        | none =>
          rw [hp, Option.map_none, Option.getD_none] at hroom
          split at hroom
          · next hlt => exact ⟨rfl, hlt⟩
          · omega
        | some p =>
          rw [hp, Option.map_some, Option.getD_some] at hroom
          unfold firstHeapPageWithRoom at hfirst
          rw [List.findIdx?_eq_none_iff] at hfirst
          have hno := hfirst p (List.mem_of_getElem? hp)
          rw [decide_eq_true hroom] at hno
          cases hno
      have hle : s.pages.length ≤ i := List.getElem?_eq_none_iff.mp hnone.1
      rw [if_pos (by omega)]
      refine ⟨_, _, rfl, fun k => ?_⟩
      -- the page added had all its room before
      unfold Shard.heapFreeOn
      rw [List.getElem?_append]
      split
      · rfl
      · next hk =>
        rw [List.getElem?_eq_none (Nat.not_lt.mp hk), Option.map_none,
          Option.getD_none]
        by_cases he : k = s.pages.length
        · subst he
          rw [Nat.sub_self, if_pos (by omega)]
          rfl
        · rw [List.getElem?_eq_none (by
            rw [List.length_singleton]
            omega)]
          rfl

/-- A put that there is room for succeeds, and leaves room for the rest. -/
theorem putAtExpHeap_room {val : Bytes} {exp : Nat}
    (hs : s.Slots cfg)
    (hkey : key.length ≤ maxKeyLen) (hval : val.length ≤ maxValueLen)
    (hroom : Roomy (s.heapFreeOn cfg)
      (entrySpan key.length val.length :: needs)) :
    ∃ s', s.putAtExpHeap cfg key val exp = (s', none) ∧ s'.Slots cfg
      ∧ s'.entries cfg = (s.entries cfg).put cfg.hashKey key (val, exp)
      ∧ Roomy (s'.heapFreeOn cfg) needs := by
  obtain ⟨i, hi⟩ := hroom.exists_room (entrySpan_pos _ _)
  obtain ⟨u, j, hfind, hfree⟩ := findOrMakeHeapPage_room (entrySpan_pos _ _) hi
  obtain ⟨hj, htab, _, hframe⟩ := findOrMakeHeapPage_ok hfind
  unfold putAtExpHeap
  rw [hfind]
  dsimp only
  rw [if_neg (by omega)]
  obtain ⟨hslots, hput⟩ := hs.put
    (u := { u with writeSeq := u.writeSeq + 1 }) htab
    (fun r f hf => (hframe r).trans hf) hj ⟨key, val, exp, _, false⟩ rfl
  refine ⟨_, rfl, hslots, hput, ?_⟩
  apply hroom.spend j
  intro k
  have happ := heapFreeOn_append cfg
    { u with writeSeq := u.writeSeq + 1 }
    ⟨key, val, exp, u.writeSeq + 1, false⟩ hj k
  have hu : ∀ k, ({ u with writeSeq := u.writeSeq + 1 } :
      Shard).heapFreeOn cfg k = s.heapFreeOn cfg k := hfree
  rw [hu, hu] at happ
  exact happ.ge

/-- A delete always succeeds, and takes no room. -/
theorem delHeap_slots (hs : s.Slots cfg) (key : Key) :
    ∃ s' b, s.delHeap cfg key = (s', .ok b) ∧ s'.Slots cfg
      ∧ s'.entries cfg = update (s.entries cfg) key none
      ∧ s'.heapFreeOn cfg = s.heapFreeOn cfg := by
  unfold delHeap
  cases hf : s.findKey cfg key with
  | none => exact ⟨s, false, rfl, hs, entries_of_findKey hf, rfl⟩
  | some f =>
    exact ⟨_, true, rfl, hs.tombstone _,
      entries_of_del hf (slot_tombstone _), rfl⟩

end Rostam.Cache
