/-
Puts and deletes: what they leave on every path, and that they keep the
index sound.
-/
import Rostam.Cache.Proofs.Moves

namespace Rostam.Cache

open Rostam.Lib Shard Function

variable {cfg : Config} {s s' u : Shard} {clock c : Nat}
  {env : EvictEnv} {need i : Nat}

variable {key : Key}

-- ======== making room

/-- A shard ready for a write to page `i`. -/
structure Ready (cfg : Config) (s : Shard) (i : Nat) : Prop where
  sound : s.Sound cfg
  lt : i < s.pages.length
  unretired : ∀ p : Page, s.pages[i]? = some p → p.retired = false

theorem Shard.Sound.setWriteIdx (hs : s.Sound cfg)
    (hret : ∀ p : Page, s.pages[i]? = some p → p.retired = false) :
    ({ s with writeIdx := i } : Shard).Sound cfg := { hs with
  opened := hret }

/-- A failed write may use up a sequence. -/
theorem Shard.Sound.bump (hs : s.Sound cfg) :
    ({ s with writeSeq := s.writeSeq + 1 } : Shard).Sound cfg := { hs with
  seq_le := fun r f hf => Nat.le_succ_of_le (hs.seq_le r f hf)
  floor_le := Nat.le_succ_of_le hs.floor_le }

/-- The page that is found can be written. -/
theorem findOrMakePage_ready (hs : s.Sound cfg)
    (hok : s.findOrMakePage cfg env need = .ok (s', i)) :
    Ready cfg s' i := by
  obtain ⟨u, hu, rfl, hlt, hret⟩ := findOrMakePage_ok
    (P := Shard.Sound cfg) hok hs
    (fun v n _ => hs.emptied (drainPage_emptied hs.toIndexed v n))
    (fun u dst r f hpol hu _ _ hdst =>
      hu.move hdst (fun p hp => hu.unretired hpol dst p hp))
  have hi : ∀ p : Page, u.pages[i]? = some p → p.retired = false := by
    rcases hret with hi | hi
    · rw [hi]
      exact hu.opened
    · exact hi
  exact ⟨hu.setWriteIdx hi, hlt, hi⟩

/-- Evicting only pages that are safe to empty uncovers nothing. -/
theorem findOrMakePage_gone (hs : s.Sound cfg) (hg : s.Gone cfg clock)
    (hsafe : ∀ v, s.victim cfg need = some v → s.SafeToEmpty cfg v)
    (hok : s.findOrMakePage cfg env need = .ok (s', i)) :
    s'.Gone cfg clock := by
  obtain ⟨u, hu, rfl, _⟩ := findOrMakePage_ok
    (P := fun u => u.Sound cfg ∧ u.Gone cfg clock) hok ⟨hs, hg⟩
    (fun v n hv => by
      have he := drainPage_emptied hs.toIndexed v n
      exact ⟨hs.emptied he, hg.emptied hs (hsafe v hv) he⟩)
    (fun u dst r f hpol hu _ _ hdst =>
      ⟨hu.1.move hdst (fun p hp => hu.1.unretired hpol dst p hp),
        hu.2.move hu.1.toOrdered hdst⟩)
  exact hu.2

/-- A hash's slot, while there is one, keeps to its key. -/
def Shard.SlotKey (s : Shard) (h : Nat) (key : Key) : Prop :=
  ∀ r f, s.tab h = some r → s.frameAt r = some f → f.key = key

theorem findOrMakePage_slotKey (hs : s.Sound cfg) {h : Nat}
    (hk : s.SlotKey h key)
    (hok : s.findOrMakePage cfg env need = .ok (s', i)) :
    s'.SlotKey h key := by
  obtain ⟨u, hu, rfl, _⟩ := findOrMakePage_ok
    (P := fun u => u.Sound cfg ∧ u.SlotKey h key) hok ⟨hs, hk⟩
    (fun v n _ => by
      have he := drainPage_emptied hs.toIndexed v n
      refine ⟨hs.emptied he, fun r f ht hf => ?_⟩
      exact hk r f ((he.slots h r).mp ht).1 ((he.frames r f).mp hf).1)
    (fun u dst r f hpol hu ht hf hdst => by
      refine ⟨hu.1.move hdst (fun p hp => hu.1.unretired hpol dst p hp), ?_⟩
      intro r' f' ht' hf'
      -- every slot's content is as it was
      have hslot := slot_move hu.1 hdst ht hf h
      unfold Shard.slot at hslot
      rw [ht', Option.bind_some, hf'] at hslot
      obtain ⟨f₀, hf₀, hcont⟩ := Option.map_eq_some_iff.mp hslot.symm
      obtain ⟨r₀, ht₀, hf₀⟩ := Option.bind_eq_some_iff.mp hf₀
      have hkey : f₀.key = f'.key := congrArg Prod.fst hcont
      rw [← hkey]
      exact hu.2 r₀ f₀ ht₀ hf₀)
  exact hu.2

/-- A reject-writes shard only moves its write page. -/
theorem findOrMakePage_reject {env : EvictEnv} {s' : Shard} {need i : Nat}
    (hpol : cfg.policy = .rejectWrites)
    (hok : s.findOrMakePage cfg env need = .ok (s', i)) :
    s' = { s with writeIdx := i } := by
  obtain ⟨u, hu, hs', _⟩ := findOrMakePage_ok (P := fun u => u = s) hok rfl
    (fun v n hv => by
      unfold Shard.victim at hv
      rw [hpol] at hv
      split at hv
      · cases hv
      · split at hv <;> cases hv)
    (fun u dst r f hring => by
      rw [hpol] at hring
      cases hring)
  rw [hs', hu]

-- ======== puts

/-- What a put or a delete leaves, and whether it was made: the shard as
it was, a sequence used up, or the frame written and pointed at. -/
inductive Wrote (cfg : Config) (env : EvictEnv) (s : Shard) (need : Nat)
    (g : Frame) : Shard → Bool → Prop
  | refused : Wrote cfg env s need g s false
  | failed {u : Shard} {i : Nat}
      (hok : s.findOrMakePage cfg env need = .ok (u, i)) :
      Wrote cfg env s need g { u with writeSeq := u.writeSeq + 1 } false
  | made {u : Shard} {i : Nat} {t : Nat → Option Ref}
      (hok : s.findOrMakePage cfg env need = .ok (u, i))
      (hlen : g.key.length ≤ maxKeyLen ∧ g.val.length ≤ maxValueLen)
      (ht : Points cfg u i { g with seq := u.writeSeq + 1 } t) :
      Wrote cfg env s need g
        (u.write i { g with seq := u.writeSeq + 1 } t) true

section Wrote

variable {g : Frame} {b : Bool} (h : Wrote cfg env s need g s' b)
  (hs : s.Sound cfg)

include h hs

theorem Wrote.sound : s'.Sound cfg := by
  cases h with
  | refused => exact hs
  | failed hok => exact (findOrMakePage_ready hs hok).sound.bump
  | made hok _ ht =>
    have hr := findOrMakePage_ready hs hok
    exact hr.sound.write hr.lt hr.unretired rfl ht

theorem Wrote.gone (hg : s.Gone cfg clock)
    (hsafe : ∀ v, s.victim cfg need = some v → s.SafeToEmpty cfg v) :
    s'.Gone cfg clock := by
  cases h with
  | refused => exact hg
  | failed hok =>
    have hg' := findOrMakePage_gone hs hg hsafe hok
    exact hg'
  | made hok _ ht =>
    have hr := findOrMakePage_ready hs hok
    have hg' := findOrMakePage_gone hs hg hsafe hok
    exact hg'.write hr.sound.toOrdered hr.lt rfl ht

/-- A reject-writes shard is as it was but for the write page and the
sequence, or has one frame more. -/
theorem Wrote.reject (hpol : cfg.policy = .rejectWrites) :
    b = false ∧ (∃ i n, s.writeSeq ≤ n
        ∧ s' = { s with writeIdx := i, writeSeq := n })
      ∨ b = true ∧ ∃ i t, Ready cfg { s with writeIdx := i } i
        ∧ (g.key.length ≤ maxKeyLen ∧ g.val.length ≤ maxValueLen)
        ∧ Points cfg { s with writeIdx := i } i
          { g with seq := s.writeSeq + 1 } t
        ∧ s' = ({ s with writeIdx := i } : Shard).write i
          { g with seq := s.writeSeq + 1 } t := by
  cases h with
  | refused => exact .inl ⟨rfl, _, _, le_rfl, rfl⟩
  | @failed u i hok =>
    obtain rfl := findOrMakePage_reject hpol hok
    exact .inl ⟨rfl, i, _, Nat.le_succ _, rfl⟩
  | @made u i t hok hlen ht =>
    have hr := findOrMakePage_ready hs hok
    obtain rfl := findOrMakePage_reject hpol hok
    exact .inr ⟨rfl, i, t, hr, hlen, ht, rfl⟩

end Wrote

theorem putAtExp_wrote (cfg : Config) (env : EvictEnv) (s : Shard)
    (key val : Bytes) (exp : Nat) :
    Wrote cfg env s (entrySpan key.length val.length)
      ⟨key, val, exp, 0, false⟩ (s.putAtExp cfg env key val exp).1
      (s.putAtExp cfg env key val exp).2.isNone := by
  unfold putAtExp
  cases hok : s.findOrMakePage cfg env (entrySpan key.length val.length) with
  | error e => exact .refused
  | ok x =>
    dsimp only
    split
    · exact .failed hok
    · exact .made hok (by dsimp only; omega) (points_upsert rfl)

-- ======== deletes

/-- The delete record of a key. -/
def delFrame (s : Shard) (key : Bytes) : Frame :=
  ⟨key, [], 0, s.writeSeq + 1, true⟩

theorem slotKey_of_findKey {f : Frame} (hf : s.findKey cfg key = some f) :
    s.SlotKey (cfg.hashKey key) key := by
  intro r f' ht hf'
  unfold findKey at hf
  rw [ht, Option.bind_some, hf', Option.filter_eq_some_iff] at hf
  obtain ⟨heq, hk⟩ := hf
  injection heq with heq
  rw [heq]
  simpa using hk

/-- A slot that keeps to its key and is not found is no slot. -/
theorem tab_none_of_findKey (hs : s.Indexed cfg)
    (hk : s.SlotKey (cfg.hashKey key) key)
    (hf : s.findKey cfg key = none) : s.tab (cfg.hashKey key) = none := by
  cases ht : s.tab (cfg.hashKey key) with
  | none => rfl
  | some r =>
    obtain ⟨f, hn, _⟩ := hs.current _ r ht
    have hkey : f.key = key := hk r f ht hn.mem.1
    unfold findKey at hf
    rw [ht, Option.bind_some, hn.mem.1,
      Option.filter_some_pos (by simpa using hkey)] at hf
    cases hf

/-- Appending does not change what a slot finds. -/
theorem findKey_append (hs : s.Indexed cfg) (hi : i < s.pages.length)
    {g : Frame} :
    (s.append i g).findKey cfg key = s.findKey cfg key := by
  unfold findKey
  show ((s.tab (cfg.hashKey key)).bind _) = _
  cases ht : s.tab (cfg.hashKey key) with
  | none => rfl
  | some r =>
    obtain ⟨f, hn, _⟩ := hs.current _ r ht
    have hf : (s.append i g).frameAt r = some f :=
      (frameAt_append hi).mpr (Or.inl hn.mem.1)
    rw [Option.bind_some, Option.bind_some, hf, hn.mem.1]

/-- What a delete leaves: the shard as it was, a sequence used up, or
the delete record written and the slot gone. -/
theorem del_cases (env : EvictEnv) (hs : s.Sound cfg) (key : Bytes) :
    s.findKey cfg key = none ∧ s.del cfg env key = (s, .ok false)
      ∨ (∃ e, s.del cfg env key = (s, .error e))
      ∨ ∃ s' i, (∃ f, s.findKey cfg key = some f)
        ∧ s.findOrMakePage cfg env (entrySpan key.length 0) = .ok (s', i)
          ∧ ((∃ e, s.del cfg env key =
                ({ s' with writeSeq := s'.writeSeq + 1 }, .error e))
            ∨ ∃ t, key.length ≤ maxKeyLen ∧ Points cfg s' i (delFrame s' key) t
              ∧ s.del cfg env key =
                (s'.write i (delFrame s' key) t, .ok true)) := by
  unfold del
  cases hfind : s.findKey cfg key with
  | none => exact Or.inl ⟨rfl, rfl⟩
  | some f =>
    right
    cases hok : s.findOrMakePage cfg env (entrySpan key.length 0) with
    | error e => exact Or.inl ⟨e, rfl⟩
    | ok x =>
      obtain ⟨s', i⟩ := x
      right
      refine ⟨s', i, ⟨f, rfl⟩, rfl, ?_⟩
      dsimp only
      split
      · exact Or.inl ⟨_, rfl⟩
      · next hlen =>
        right
        have hlen := Nat.le_of_not_lt hlen
        have hr := findOrMakePage_ready hs hok
        have hk := findOrMakePage_slotKey hs (slotKey_of_findKey hfind) hok
        have happ : (({ s' with writeSeq := s'.writeSeq + 1 } : Shard).append i
              ⟨key, [], 0, s'.writeSeq + 1, true⟩).findKey cfg key =
            s'.findKey cfg key :=
          findKey_append hr.sound.toIndexed hr.lt
        rw [happ]
        cases hfind' : s'.findKey cfg key with
        | none =>
          -- eviction for the record took the slot along
          refine ⟨s'.tab, hlen, ⟨?_, fun h _ => rfl⟩, rfl⟩
          exact tab_none_of_findKey hr.sound.toIndexed hk hfind'
        | some f' =>
          refine ⟨update s'.tab (cfg.hashKey key) none, hlen,
            ⟨?_, fun h hh => ?_⟩, rfl⟩
          · exact update_self ..
          · exact update_of_ne (Ne.symm hh) ..

/-- Whether a delete found its key. -/
def found : Except Err Bool → Bool
  | .ok true => true
  | _ => false

theorem match_found {α : Type} (r : Except Err Bool) (x y : α) :
    (match r with | .ok true => x | _ => y) = if found r then x else y := by
  rcases r with e | _ | _ <;> rfl

theorem del_wrote (env : EvictEnv) (hs : s.Sound cfg) (key : Bytes) :
    Wrote cfg env s (entrySpan key.length 0) ⟨key, [], 0, 0, true⟩
      (s.del cfg env key).1 (found (s.del cfg env key).2) := by
  rcases del_cases env hs key with ⟨_, he⟩ | ⟨e, he⟩
    | ⟨s', i, _, hok, ⟨e, he⟩ | ⟨t, hlen, ht, he⟩⟩ <;> rw [he]
  · exact .refused
  · exact .refused
  · exact .failed hok
  · exact .made hok ⟨hlen, Nat.zero_le _⟩ ht

end Rostam.Cache
