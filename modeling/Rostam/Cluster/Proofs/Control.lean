/-
The committed control state along a run, and what the drivers decide on
it.

An entry leaves the shard's state alone, opens a newer epoch, or
replaces the ISR of the current one (`apply_cases`); so epochs only grow
and each belongs to one node. `Compat prim log` says that `prim` is that
assignment; every log has one.
-/
import Mathlib.Data.Prod.Lex
import Mathlib.Data.String.Basic
import Rostam.Cluster.System
import Rostam.Pbisr.Proofs.Acks
import Rostam.Pbisr.Proofs.Handover
import Rostam.Pbisr.Proofs.History

namespace Rostam.Cluster

open Rostam.Lib Rostam.Pbisr

-- ======== one entry

/-- What an entry can do. -/
theorem Shard.apply_cases (st : Shard) (op : MetaOp) :
    st.apply op = st
    ∨ (∃ E q isr, op = .setShardEpoch E q isr ∧ st.epoch < E
        ∧ st.apply op = { st with
            epoch := E, primary := q, isr := seedISRForEpoch q isr })
    ∨ ∃ isr, op = .setShardISR st.epoch isr ∧ isr ≠ []
        ∧ st.apply op = { st with isr := isr } := by
  cases op with
  | setShardEpoch E q isr =>
    simp only [Shard.apply]
    split
    · exact .inl rfl
    · next h =>
      exact .inr (.inl ⟨E, q, isr, rfl, Nat.lt_of_not_le h, rfl⟩)
  | setShardISR E isr =>
    simp only [Shard.apply]
    split
    · exact .inl rfl
    · next hE =>
      split
      · exact .inl rfl
      · next hlen =>
        have hE' : E = st.epoch := Decidable.not_not.1 hE
        subst hE'
        refine .inr (.inr ⟨isr, rfl, ?_, rfl⟩)
        rintro rfl
        exact hlen (.inl rfl)

/-- Epochs never go back. -/
theorem Shard.epoch_le_apply (st : Shard) (op : MetaOp) :
    st.epoch ≤ (st.apply op).epoch := by
  rcases st.apply_cases op with h | ⟨E, q, isr, -, hlt, h⟩ | ⟨isr, -, -, h⟩
  · rw [h]
  · rw [h]
    exact Nat.le_of_lt hlt
  · rw [h]

theorem mem_seedISRForEpoch (q : NodeID) (isr : List NodeID) :
    q ∈ seedISRForEpoch q isr := by
  unfold seedISRForEpoch
  split
  · assumption
  · exact List.mem_singleton.2 rfl

-- ======== the log

namespace MetaLog

variable {minISR : Nat} {log : MetaLog} {op : MetaOp} {k : Nat}

@[simp]
theorem state_append (minISR : Nat) (log : MetaLog) (op : MetaOp) :
    state minISR (log ++ [op]) = (state minISR log).apply op := by
  unfold state
  rw [List.foldl_append]
  rfl

theorem take_succ_state {op : MetaOp} (h : log[k]? = some op) :
    state minISR (log.take (k + 1))
      = (state minISR (log.take k)).apply op := by
  rw [List.take_add_one, h]
  exact state_append minISR (log.take k) op

/-- A prefix is not ahead. -/
theorem epoch_take_le (minISR : Nat) (log : MetaLog) (k : Nat) :
    (state minISR (log.take k)).epoch ≤ (state minISR log).epoch := by
  induction log using List.reverseRecOn with
  | nil => simp
  | append_singleton log op ih =>
    rw [state_append]
    by_cases hk : k ≤ log.length
    · rw [List.take_append_of_le_length hk]
      exact Nat.le_trans ih (Shard.epoch_le_apply _ op)
    · rw [List.take_of_length_le (by simp; omega), state_append]

theorem isrOf_append (minISR : Nat) (log : MetaLog) (op : MetaOp) (E : Nat) :
    isrOf minISR (log ++ [op]) E
      = if E = ((state minISR log).apply op).epoch then
          ((state minISR log).apply op).isr
        else isrOf minISR log E := by
  have hfst : ∀ (l : MetaLog) (x : Shard × (Nat → List NodeID)),
      (l.foldl (fun (x : Shard × (Nat → List NodeID)) op =>
        (x.1.apply op, fun E => if E = (x.1.apply op).epoch then
          (x.1.apply op).isr else x.2 E)) x).1 = l.foldl Shard.apply x.1 := by
    intro l
    induction l with
    | nil => intro x; rfl
    | cons op l ih => intro x; exact ih _
  unfold isrOf state
  rw [List.foldl_append]
  simp only [List.foldl_cons, List.foldl_nil]
  rw [hfst]

/-- The ISR of the current epoch is the current ISR. -/
theorem isrOf_epoch (hne : log ≠ []) :
    isrOf minISR log (state minISR log).epoch = (state minISR log).isr := by
  induction log using List.reverseRecOn with
  | nil => exact absurd rfl hne
  | append_singleton log op _ =>
    rw [isrOf_append, state_append, if_pos rfl]

-- ======== one primary

/-- `prim` names the node each committed epoch was given to. -/
def Compat (prim : Nat → NodeID) (minISR : Nat) (log : MetaLog) : Prop :=
  ∀ k, 1 ≤ (state minISR (log.take k)).epoch →
    prim (state minISR (log.take k)).epoch
      = (state minISR (log.take k)).primary

theorem Compat.of_append {prim : Nat → NodeID}
    (h : Compat prim minISR (log ++ [op])) : Compat prim minISR log := by
  intro k hk
  by_cases hle : k ≤ log.length
  · have := h k
    rw [List.take_append_of_le_length hle] at this
    exact this hk
  · have := h log.length
    rw [List.take_append_of_le_length le_rfl, List.take_length]
      at this
    rw [List.take_of_length_le (by omega)] at hk ⊢
    exact this hk

theorem Compat.state {prim : Nat → NodeID} (h : Compat prim minISR log)
    (h1 : 1 ≤ (state minISR log).epoch) :
    prim (state minISR log).epoch = (state minISR log).primary := by
  have := h log.length
  rw [List.take_length] at this
  exact this h1

/-- Every epoch belongs to one node. -/
theorem exists_compat (minISR : Nat) (log : MetaLog) :
    ∃ prim, Compat prim minISR log := by
  induction log using List.reverseRecOn with
  | nil =>
    refine ⟨fun _ => "", fun k hk => ?_⟩
    rw [List.take_nil] at hk
    exact absurd hk (Nat.not_succ_le_zero 0)
  | append_singleton log op ih =>
    obtain ⟨prim, hp⟩ := ih
    let st := state minISR log
    refine ⟨fun E => if E = (st.apply op).epoch then
      (st.apply op).primary else prim E, fun k hk => ?_⟩
    by_cases hle : k ≤ log.length
    · rw [List.take_append_of_le_length hle] at hk ⊢
      have hold := hp k hk
      have hbound : (state minISR (log.take k)).epoch ≤ st.epoch :=
        epoch_take_le minISR log k
      dsimp only
      split
      · next heq =>
        -- an entry that keeps the epoch keeps its primary
        rw [← hold, heq]
        have hst : (st.apply op).epoch = st.epoch
            ∧ (st.apply op).primary = st.primary := by
          rcases st.apply_cases op with h | ⟨E, q, isr, -, hlt, h⟩
            | ⟨isr, -, -, h⟩
          · rw [h]
            exact ⟨rfl, rfl⟩
          · rw [h] at heq
            have heq' : (state minISR (log.take k)).epoch = E := heq
            omega
          · rw [h]
            exact ⟨rfl, rfl⟩
        rw [hst.1, hst.2]
        have h1 : 1 ≤ (state minISR log).epoch := by
          have : 1 ≤ st.epoch := Nat.le_trans hk hbound
          exact this
        exact (hp.state h1).symm
      · exact hold
    · rw [List.take_of_length_le (by simp; omega), state_append]
      exact if_pos rfl

/-- Within an epoch the primary stays. -/
theorem primary_of_epoch (hpos : 1 ≤ (state minISR (log.take k)).epoch)
    (h : (state minISR (log.take k)).epoch = (state minISR log).epoch) :
    (state minISR (log.take k)).primary = (state minISR log).primary := by
  obtain ⟨prim, hc⟩ := exists_compat minISR log
  rw [← hc k hpos, h, hc.state (h ▸ hpos)]

/-- A primary comes with an epoch. -/
theorem epoch_pos_of_primary (h : (state minISR log).primary ≠ "") :
    1 ≤ (state minISR log).epoch := by
  induction log using List.reverseRecOn with
  | nil => exact absurd rfl h
  | append_singleton log op ih =>
    rw [state_append] at h ⊢
    rcases (state minISR log).apply_cases op with hs
      | ⟨E, q, isr, -, hlt, hs⟩ | ⟨isr, -, -, hs⟩
    · rw [hs] at h ⊢
      exact ih h
    · rw [hs]
      show 1 ≤ E
      omega
    · rw [hs] at h ⊢
      exact ih h

end MetaLog

-- ======== the decisions

/-- The candidate loop ends where it began or on a verified member other
than the primary. -/
theorem candidate_cases (primary : NodeID) (hw : NodeID → Nat × Bool) :
    ∀ (isr : List NodeID) (b : NodeID × Nat),
      (isr.foldl (candidateTurn primary hw) b).1 = b.1
      ∨ ∃ m ∈ isr, (isr.foldl (candidateTurn primary hw) b).1 = m
        ∧ m ≠ primary ∧ (hw m).2 = true := by
  intro isr
  induction isr with
  | nil => intro b; exact .inl rfl
  | cons m isr ih =>
    intro b
    rw [List.foldl_cons]
    rcases ih (candidateTurn primary hw b m) with h | ⟨x, hx, h⟩
    · rw [h]
      unfold candidateTurn
      split
      · exact .inl rfl
      · next hm =>
        dsimp only
        split
        · exact .inl rfl
        · next hr =>
          split
          · exact .inr ⟨m, by simp, rfl, hm, by simpa using hr⟩
          · exact .inl rfl
    · exact .inr ⟨x, List.mem_cons_of_mem _ hx, h⟩

/-- A promotion opens the next epoch, or one that is long over, for a
verified ISR member other than the primary. -/
theorem mem_decidePBPromotions {shards : List PbShardLiveness}
    {nowNs failoverTimeout : Int}
    {hw : Nat → NodeID → Nat × Bool} {p : PbPromotion}
    (h : p ∈ decidePBPromotions shards nowNs failoverTimeout (some hw)) :
    ∃ s ∈ shards, p.newEpoch ≤ s.epoch + 1 ∧ s.primary ≠ ""
      ∧ p.newPrimary ∈ s.isr ∧ p.newPrimary ≠ s.primary
      ∧ (hw s.shardID p.newPrimary).2 = true := by
  obtain ⟨s, hs, hp⟩ := List.mem_filterMap.1 h
  refine ⟨s, hs, ?_⟩
  unfold decidePBPromotion at hp
  split at hp
  · cases hp
  · next hprim =>
    split at hp
    · cases hp
    · have hc := candidate_cases s.primary (hw s.shardID) s.isr ("", 0)
      dsimp only at hp
      generalize
        (s.isr.foldl (candidateTurn s.primary (hw s.shardID)) ("", 0)).1 = best
        at hp hc
      split at hp
      · cases hp
      · next hbest =>
        cases hp
        rcases hc with h | ⟨m, hm, rfl, hne, hr⟩
        · exact absurd h hbest
        · exact ⟨Nat.mod_le .., hprim, hm, hne, hr⟩

/-- A shrink drops members, never the primary. -/
theorem decidePBShrink_some {primary : NodeID}
    {isr stalled newISR : List NodeID} {minISR : Nat}
    (h : decidePBShrink primary isr stalled minISR = some newISR) :
    (∀ m ∈ newISR, m ∈ isr) ∧ (primary ∈ isr → primary ∈ newISR) := by
  unfold decidePBShrink at h
  split at h
  · cases h
  · dsimp only at h
    split at h
    · cases h
    · split at h
      · cases h
      · cases h
        refine ⟨fun m hm => (List.mem_filter.1 hm).1, fun hp => ?_⟩
        refine List.mem_filter.2 ⟨hp, ?_⟩
        simp

-- ======== the next primary

section Promote

variable (primary : NodeID) (hw : NodeID → Nat × Bool) (isr : List NodeID)

/-- The members a failover may promote: verified, not the primary. -/
def Candidate (m : NodeID) : Prop := m ∈ isr ∧ m ≠ primary ∧ (hw m).2 = true

/-- The order of a failover: highest high-water, then lowest id. -/
def rank (m : NodeID) : ℕᵒᵈ ×ₗ String := toLex (OrderDual.toDual (hw m).1, m)

/-- The candidate a failover should promote. -/
def Foremost (b : NodeID) : Prop :=
  Candidate primary hw isr b
    ∧ ∀ m, Candidate primary hw isr m → rank hw b ≤ rank hw m

/-- What the scan has found among the members it has seen. -/
def Scanned (r : NodeID × Nat) : Prop :=
  if r.1 = "" then ∀ m, ¬ Candidate primary hw isr m
  else Foremost primary hw isr r.1 ∧ r.2 = (hw r.1).1

variable {primary hw isr} {m b x : NodeID} {r : NodeID × Nat}

/-- Only one node is foremost. -/
theorem Foremost.unique (hb : Foremost primary hw isr b)
    (hm : Foremost primary hw isr m) :
    b = m :=
  congrArg (fun k => (ofLex k).2) (le_antisymm (hb.2 m hm.1) (hm.2 b hb.1))

theorem candidate_append :
    Candidate primary hw (isr ++ [m]) x
    ↔ Candidate primary hw isr x ∨ x = m ∧ x ≠ primary ∧ (hw x).2 = true := by
  simp only [Candidate, List.mem_append, List.mem_singleton, or_and_right]

/-- One more candidate is looked at. -/
theorem Scanned.turn (hs : Scanned primary hw isr r) (hm : m ≠ "") :
    Scanned primary hw (isr ++ [m]) (candidateTurn primary hw r m) := by
  have hskip : ¬ (m ≠ primary ∧ (hw m).2 = true) →
      Scanned primary hw (isr ++ [m]) r := by
    intro hno
    have hc : ∀ x, Candidate primary hw (isr ++ [m]) x
        ↔ Candidate primary hw isr x := fun x =>
      candidate_append.trans (or_iff_left fun h => hno (h.1 ▸ h.2))
    simpa only [Scanned, Foremost, hc] using hs
  unfold candidateTurn
  split
  · next hp => exact hskip fun h => h.1 hp
  next hp =>
  dsimp only
  split
  · next hr => exact hskip fun h => by rw [hr] at h; cases h.2
  next hr =>
  have hlt : r.2 = (hw r.1).1 → (rank hw m < rank hw r.1
      ↔ r.2 < (hw m).1 ∨ (hw m).1 = r.2 ∧ m < r.1) := by
    intro h
    rw [h]
    exact Prod.Lex.toLex_lt_toLex
  unfold Scanned at hs ⊢
  split
  · -- `m` goes before all that was seen
    next hbest =>
    refine ⟨⟨candidate_append.2 (.inr ⟨rfl, hp, by simpa using hr⟩),
      fun x hx => ?_⟩, rfl⟩
    rcases candidate_append.1 hx with hx | ⟨rfl, -⟩
    swap
    · exact le_rfl
    split at hs
    · exact absurd hx (hs x)
    · next hne =>
      exact ((hlt hs.2).2 (hbest.resolve_left hne)).le.trans (hs.1.2 x hx)
  · next hbest =>
    rw [not_or] at hbest
    rw [if_neg hbest.1] at hs ⊢
    refine ⟨⟨candidate_append.2 (.inl hs.1.1), fun x hx => ?_⟩, hs.2⟩
    rcases candidate_append.1 hx with hx | ⟨rfl, -⟩
    · exact hs.1.2 x hx
    · exact not_lt.1 fun h => hbest.2 ((hlt hs.2).1 h)

theorem scanned_isr (hid : "" ∉ isr) :
    Scanned primary hw isr (isr.foldl (candidateTurn primary hw) ("", 0)) := by
  induction isr using List.reverseRecOn with
  | nil => exact fun m h => by cases h.1
  | append_singleton isr m ih =>
    rw [List.mem_append, List.mem_singleton, not_or] at hid
    rw [List.foldl_append]
    exact (ih hid.1).turn (Ne.symm hid.2)

end Promote

/-- `decidePBPromotions` promotes, in each shard whose primary has been
silent past the timeout and in no other, the foremost candidate of the
ISR into the next epoch; a shard without a candidate keeps its own. The
silence is an int64 and the epoch a uint64, and both wrap. -/
theorem promotes_foremost {shards : List PbShardLiveness}
    {nowNs failoverTimeout : Int} {hw : Nat → NodeID → Nat × Bool}
    {p : PbPromotion} (hid : ∀ s ∈ shards, "" ∉ s.isr) :
    p ∈ decidePBPromotions shards nowNs failoverTimeout (some hw)
      ↔ ∃ s ∈ shards, s.primary ≠ ""
        ∧ failoverTimeout < int64 (nowNs - s.lastRenewNs)
        ∧ p.shardID = s.shardID ∧ p.newEpoch = (s.epoch + 1) % 2 ^ 64
        ∧ Foremost s.primary (hw s.shardID) s.isr p.newPrimary := by
  unfold decidePBPromotions
  rw [List.mem_filterMap]
  refine exists_congr fun s => and_congr_right fun hs => ?_
  have hscan : Scanned s.primary (hw s.shardID) s.isr _ :=
    scanned_isr (hid s hs)
  unfold decidePBPromotion
  dsimp only
  generalize s.isr.foldl (candidateTurn s.primary (hw s.shardID)) ("", 0)
    = r at hscan ⊢
  unfold Scanned at hscan
  constructor
  · intro h
    repeat' split at h
    all_goals cases h
    next hp ht hne =>
    rw [if_neg hne] at hscan
    exact ⟨hp, not_le.1 ht, rfl, rfl, hscan.1⟩
  · obtain ⟨i, E, q⟩ := p
    rintro ⟨hp, ht, rfl, rfl, hq⟩
    rw [if_neg hp, if_neg (not_le.2 ht)]
    split at hscan
    · exact absurd hq.1 (hscan q)
    · next hne => rw [if_neg hne, hscan.1.unique hq]

/-- `c` is ahead of `b`. -/
def ahead (_ : Nat) (m : NodeID) : Nat × Bool :=
  (if m = "c" then 7 else 5, true)

theorem promotes_foremost_ahead :
    Foremost "a" (ahead 0) ["a", "b", "c"] "c" := by
  have h : (⟨0, 2, "c"⟩ : PbPromotion) ∈ decidePBPromotions
      [⟨0, 1, "a", ["a", "b", "c"], 0⟩] 10 5 (some ahead) := by decide
  obtain ⟨s, hs, -, -, -, -, hf⟩ := (promotes_foremost (by decide)).1 h
  cases List.mem_singleton.1 hs
  exact hf

end Rostam.Cluster
