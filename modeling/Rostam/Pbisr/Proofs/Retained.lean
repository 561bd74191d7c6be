/-
What a node's log and its catch-up ring say of each other.

- `Log.Dated`: each role watermark carries the epoch of the write it
  names, so the frontier a frame is built on does too.
- `Retained`: every slot of the ring that ever held a write still
  describes the write of that seq and of its predecessor. Reading a slot
  past the live range is covered, because the fact is about slots.
- `Chain`: consecutive seqs, each frame naming the write before it. What
  the ring is cut into is one.
-/
import Rostam.Pbisr.Proofs.Commit
import Rostam.Pbisr.Proofs.Log

namespace Rostam.Pbisr

open Rostam.Lib

-- ======== the dates

namespace Log

variable {l l' : Log} {m : ReplicateMsg}

variable {ms : List ReplicateMsg}

/-- Both watermarks carry the epoch of the write they name. -/
structure Dated (l : Log) : Prop where
  seq : l.lastSeqEpoch = l.epochAt l.lastSeq
  applied : l.lastAppliedEpoch = l.epochAt l.lastApplied

theorem Dated.frontier (h : l.Dated) :
    l.frontier.2 = l.epochAt l.frontier.1 := by
  unfold Log.frontier
  split
  · exact h.applied
  · exact h.seq

theorem setEpochAt_self (f : Nat → Nat) (s E : Nat) :
    setEpochAt f s E s = E := if_pos rfl

theorem setEpochAt_of_ne (f : Nat → Nat) {s t : Nat} (E : Nat)
    (h : t ≠ s) : setEpochAt f s E t = f t := if_neg h

/-- A new frame is dated with its epoch. -/
theorem Dated.assign (h : l.Dated) (E : Nat) : (l.assign E).Dated where
  seq := (setEpochAt_self ..).symm
  applied := by
    have := Engine.lastApplied_le_frontier l
    show l.lastAppliedEpoch = setEpochAt _ _ _ l.lastApplied
    rw [setEpochAt_of_ne _ _ (by omega)]
    exact h.applied

/-- So is a frame that extends the log. -/
theorem Dated.accept (h : l.Dated) (hm : l.Extends m) :
    (l.accept m).Dated where
  seq := by
    have := Engine.lastSeq_le_frontier l
    have := hm.seq
    show l.lastSeqEpoch = setEpochAt _ _ _ l.lastSeq
    rw [setEpochAt_of_ne _ _ (by omega)]
    exact h.seq
  applied := (setEpochAt_self ..).symm

theorem Dated.receives (h : l.Dated) (hr : l.Receives ms l') : l'.Dated := by
  induction hr with
  | nil => exact h
  | snoc _ _ hm ih => exact ih.accept hm

theorem Dated.afterInstall (h : l.Dated) (s : Snapshot)
    (out : Engine.InstallOutcome) : (l.afterInstall s out).Dated := by
  cases out with
  | fsmErr g => exact ⟨h.seq, h.applied⟩
  | commitErr | ok =>
    exact ⟨(setEpochAt_self ..).symm, (setEpochAt_self ..).symm⟩

theorem Receives.eq_or_mem (hr : l.Receives ms l') : l' = l ∨ ∃ m, m ∈ ms := by
  cases hr with
  | nil => exact .inl rfl
  | snoc _ _ _ =>
    exact .inr ⟨_, List.mem_append_right _ (List.mem_singleton_self _)⟩

/-- A run of accepted frames leaves the older writes alone. -/
theorem Receives.epochAt (hr : l.Receives ms l') :
    l.frontier.1 ≤ l'.frontier.1
      ∧ ∀ s ≤ l.frontier.1, l'.epochAt s = l.epochAt s := by
  induction hr with
  | nil => exact ⟨le_rfl, fun s _ => rfl⟩
  | @snoc ms l₁ m hr _ hm ih =>
    have hseq := hm.seq
    rw [accept_frontier hm]
    refine ⟨by show _ ≤ m.seq; omega, fun s hs => ?_⟩
    rw [← ih.2 s hs]
    exact setEpochAt_of_ne _ _ (by omega)

end Log

namespace Engine

variable {e e' : Engine} {ev : Event}

/-- Every section keeps the dates. -/
theorem step_dated (hd : e.toLog.Dated) (h : e.step ev = some e') :
    e'.toLog.Dated := by
  rcases step_log h with hl | ⟨E, isr, d, -, -, -, hl⟩
    | ⟨E, isr, d, -, -, hl⟩ | ⟨ms, -, hr⟩ | ⟨E, x, -, -, -, hl⟩
    | ⟨s, out, -, -, -, hl⟩
  · rw [hl]
    exact hd
  · rw [hl]
    exact ⟨hd.seq, hd.applied⟩
  · rw [hl]
    exact hd.assign E
  · exact hd.receives hr
  · rw [hl]
    exact ⟨hd.applied, hd.applied⟩
  · rw [hl]
    exact hd.afterInstall s out

-- ======== the ring

/-- A ring slot describes the write of its seq and the one before. -/
def Describes (l : Log) (ent : RingEntry) : Prop :=
  ent.seq ≤ l.frontier.1 ∧ ent.epoch = l.epochAt ent.seq
    ∧ ent.prevEpoch = l.epochAt (ent.seq - 1)

/-- Every slot that ever held a write describes it still. -/
def Retained (e : Engine) : Prop := ∀ j, (e.backlog.slots j).seq = 0
    ∨ Describes e.toLog (e.backlog.slots j)

/-- The log may only grow under a ring that stays. -/
theorem Retained.mono {b : Backlog} {l l' : Log}
    (h : ∀ j, (b.slots j).seq = 0 ∨ Describes l (b.slots j))
    (hle : l.frontier.1 ≤ l'.frontier.1)
    (hat : ∀ s ≤ l.frontier.1, l'.epochAt s = l.epochAt s) :
    ∀ j, (b.slots j).seq = 0 ∨ Describes l' (b.slots j) := by
  intro j
  rcases h j with h0 | ⟨h1, h2, h3⟩
  · exact .inl h0
  · refine .inr ⟨Nat.le_trans h1 hle, ?_, ?_⟩
    · rw [hat _ h1]
      exact h2
    · rw [hat _ (Nat.le_trans (Nat.sub_le ..) h1)]
      exact h3

/-- An append writes one slot. -/
theorem append_slots (b : Backlog) (a : RingEntry) (j : Nat) :
    (b.append a).slots j = a ∨ (b.append a).slots j = b.slots j := by
  have hset : ∀ i, RingBuf.setSlot b.slots i a j = a
      ∨ RingBuf.setSlot b.slots i a j = b.slots j := by
    intro i
    unfold RingBuf.setSlot
    split
    · exact .inl rfl
    · exact .inr rfl
  unfold RingBuf.append
  split <;> exact hset _

/-- A registered frame is retained as it was shipped. -/
theorem retained_register {now : Nat} (hd : e.toLog.Dated)
    (hr : e.Retained) (h : e.register now = some e') : e'.Retained := by
  obtain ⟨E, isr, d, pl, -, -, rfl⟩ := register_cases h
  have hfr : (e.toLog.assign E).frontier.1 = e.frontier.1 + 1 := by
    rw [Log.assign_frontier]
  have hold : ∀ j, (e.backlog.slots j).seq = 0
      ∨ Describes (e.toLog.assign E) (e.backlog.slots j) := by
    refine Retained.mono hr (by omega) fun s hs => ?_
    exact Log.setEpochAt_of_ne _ _ (by omega)
  intro j
  rcases append_slots e.backlog (entryOf (e.nextFrame E d)) j with hj | hj
  · right
    show Describes (e.toLog.assign E) _
    rw [hj]
    refine ⟨Nat.le_of_eq hfr.symm, (Log.setEpochAt_self ..).symm, ?_⟩
    show e.frontier.2 = setEpochAt _ _ _ (e.frontier.1 + 1 - 1)
    rw [Log.setEpochAt_of_ne _ _ (by omega)]
    exact hd.frontier
  · show (((e.backlog.append _).slots j).seq = 0) ∨ _
    rw [hj]
    exact hold j

/-- Every section keeps what is retained. -/
theorem step_retained (hd : e.toLog.Dated) (hr : e.Retained)
    (h : e.step ev = some e') : e'.Retained := by
  by_cases hw : Part.backlog ∈ ev.input.writes
  swap
  · have hb : e'.backlog = e.backlog := step_agree h .backlog hw
    unfold Retained
    rw [hb]
    rcases step_log h with hl | ⟨E, isr, d, -, -, -, hl⟩
      | ⟨E, isr, d, hinp, -, -⟩ | ⟨ms, -, hrec⟩ | ⟨E, x, hinp, -, -, -⟩
      | ⟨s, out, hinp, -, -, -⟩
    · rw [hl]
      exact hr
    · rw [hl]
      exact Retained.mono hr le_rfl fun s _ => rfl
    · simp [hinp, Input.writes] at hw
    · exact Retained.mono hr hrec.epochAt.1 hrec.epochAt.2
    · simp [hinp, Input.writes] at hw
    · simp [hinp, Input.writes] at hw
  obtain ⟨now, i⟩ := ev
  cases i <;> try (simp [Input.writes] at hw; done)
  case register => exact retained_register hd hr h
  case promote E expiry =>
      cases h
      unfold promote
      split
      · exact hr
      · split
        · exact hr
        · exact fun j => .inl rfl
  case installSnapshot s out =>
      obtain ⟨-, rfl⟩ := locked_eq_some h
      unfold installSnapshot
      split
      · exact hr
      · cases out with
        | fsmErr g => exact hr
        | commitErr | ok => exact fun j => .inl rfl

end Engine

-- ======== the chain

/-- Frame `m` follows the write at seq `k`: the next seq, naming that
write as its predecessor, under the epoch its own write has. -/
structure ReplicateMsg.Follows (epochAt : Nat → Nat) (k : Nat)
    (m : ReplicateMsg) : Prop where
  seq : m.seq = k + 1
  prevSeq : m.prevSeq = k
  prevEpoch : m.prevEpoch = epochAt k
  epoch : m.epoch = epochAt (k + 1)

/-- The frames of the seqs `k + 1`, `k + 2`, … in order: none missing,
none repeated, each naming the write before it. -/
def Chain (epochAt : Nat → Nat) : Nat → List ReplicateMsg → Prop
  | _, [] => True
  | k, m :: ms => m.Follows epochAt k ∧ Chain epochAt (k + 1) ms

section Chain

variable {f g : Nat → Nat} {k : Nat} {ms ms' : List ReplicateMsg}

theorem chain_append :
    Chain f k (ms ++ ms') ↔ Chain f k ms ∧ Chain f (k + ms.length) ms' := by
  induction ms generalizing k with
  | nil => simp [Chain]
  | cons m ms ih =>
    show m.Follows f k ∧ Chain f (k + 1) (ms ++ ms') ↔ _
    rw [ih, List.length_cons, show k + 1 + ms.length
      = k + (ms.length + 1) by omega, ← and_assoc]
    rfl

/-- A chain reads the dates of its own seqs only. -/
theorem Chain.congr (h : Chain f k ms)
    (hfg : ∀ s ≤ k + ms.length, g s = f s) : Chain g k ms := by
  induction ms generalizing k with
  | nil => trivial
  | cons m ms ih =>
    obtain ⟨hm, h⟩ := h
    rw [List.length_cons] at hfg
    refine ⟨⟨hm.seq, hm.prevSeq, ?_, ?_⟩, ih h fun s hs => ?_⟩
    · rw [hfg k (by omega)]
      exact hm.prevEpoch
    · rw [hfg (k + 1) (by omega)]
      exact hm.epoch
    · exact hfg s (by omega)

end Chain

namespace Engine

variable {e e' : Engine} {ev : Event}

variable {b : Backlog}

/-- A retained entry replays as the frame of its seq. -/
theorem entryAt_slot {s : Nat} {ent : RingEntry}
    (h : b.entryAt s = some ent) : ∃ j, ent = b.slots j := by
  unfold Backlog.entryAt at h
  repeat' split at h
  all_goals cases h
  exact ⟨_, rfl⟩

/-- A slot of the ring is vacant, stands, or takes the registered
frame. -/
theorem step_slots (h : e.step ev = some e') (j : Nat) :
    (e'.backlog.slots j).seq = 0 ∨ e'.backlog.slots j = e.backlog.slots j
      ∨ ∃ E isr d, ev.input = .register ∧ e.stage = .applied E isr d
        ∧ e'.backlog.slots j = entryOf (e.nextFrame E d) := by
  by_cases hw : Part.backlog ∈ ev.input.writes
  swap
  · have hb : e'.backlog = e.backlog := step_agree h .backlog hw
    rw [hb]
    exact .inr (.inl rfl)
  obtain ⟨now, i⟩ := ev
  cases i <;> try (simp [Input.writes] at hw; done)
  case register =>
      obtain ⟨E, isr, d, pl, hst, -, he⟩ := register_cases h
      have hb : e'.backlog = e.backlog.append (entryOf (e.nextFrame E d)) := by
        rw [he]
      rw [hb]
      rcases append_slots e.backlog (entryOf (e.nextFrame E d)) j with hj | hj
      · exact .inr (.inr ⟨E, isr, d, rfl, hst, hj⟩)
      · exact .inr (.inl hj)
  case promote E expiry =>
      cases h
      unfold promote
      split
      · exact .inr (.inl rfl)
      · split
        · exact .inr (.inl rfl)
        · exact .inl rfl
  case installSnapshot s out =>
      obtain ⟨-, rfl⟩ := locked_eq_some h
      unfold installSnapshot
      split
      · exact .inr (.inl rfl)
      · cases out with
        | fsmErr g => exact .inr (.inl rfl)
        | commitErr | ok => exact .inl rfl

/-- A retained frame follows the one before it. -/
theorem Retained.follows {l : Log} {s : Nat}
    {ent : RingEntry}
    (h : ∀ j, (b.slots j).seq = 0 ∨ Describes l (b.slots j))
    (hent : b.entryAt (s + 1) = some ent) :
    ent.frame.Follows l.epochAt s ∧ s + 1 ≤ l.frontier.1 := by
  have hseq := Backlog.entryAt_seq hent
  obtain ⟨j, hj⟩ := entryAt_slot hent
  rcases h j with h0 | ⟨h1, h2, h3⟩
  · rw [← hj] at h0
    omega
  · rw [← hj, hseq] at h1 h2 h3
    exact ⟨⟨hseq, by show ent.seq - 1 = s; omega, h3, h2⟩, h1⟩

/-- A cut of the ring is a chain inside the log. -/
theorem Retained.chain {l : Log}
    (h : ∀ j, (b.slots j).seq = 0 ∨ Describes l (b.slots j)) :
    ∀ (n s : Nat) (re : Option Nat) (ms : List ReplicateMsg),
      ringRun b re (s + 1) n = some ms → Chain l.epochAt s ms := by
  intro n
  induction n with
  | zero =>
    intro s re ms hrun
    cases hrun
    trivial
  | succ n ih =>
    intro s re ms hrun
    unfold ringRun at hrun
    split at hrun
    · cases hrun
    · next ent hent =>
      split at hrun
      · cases hrun
        trivial
      · simp only [Option.map_eq_some_iff] at hrun
        obtain ⟨rest, hrest, rfl⟩ := hrun
        exact ⟨(Retained.follows h hent).1, ih _ _ _ hrest⟩

/-- What the ring hands out is a chain. -/
theorem Retained.delta (hr : e.Retained) {k upTo : Nat}
    {ms : List ReplicateMsg}
    (h : ringDeltaLocked e.backlog (k + 1) upTo = some ms) :
    Chain e.epochAt k ms := by
  unfold ringDeltaLocked at h
  split at h
  · cases h
    trivial
  · split at h
    · cases h
    · split at h
      · cases h
      · exact Retained.chain hr _ _ _ _ h

/-- The frames a cut replays are of writes the log holds. -/
theorem Retained.delta_le (hr : e.Retained) {k upTo : Nat}
    {ms : List ReplicateMsg} {m : ReplicateMsg}
    (h : ringDeltaLocked e.backlog (k + 1) upTo = some ms) (hm : m ∈ ms) :
    m.seq ≤ e.frontier.1 := by
  obtain ⟨hlo, -, ent, hent, rfl⟩ := ringDelta_mem h hm
  obtain ⟨s, hs⟩ : ∃ s, ent.frame.seq = s + 1 := ⟨ent.frame.seq - 1, by omega⟩
  rw [hs] at hent
  rw [hs]
  exact (Retained.follows hr hent).2

-- ======== every run of one engine

variable {c : Config} {po : Bool} {seq epoch : Nat} {fsm : List Data}
  {tr : List Event}

/-- What a catch-up cuts from the ring is, in every run of a node, an
unbroken chain of the writes of its own log: consecutive seqs from the
one asked for, each naming the write before it, under the epochs the log
has for them, and none past its end. -/
theorem ring_cut_chains
    (h : Reach Engine.step Free (restored c po seq epoch fsm) tr e)
    {k upTo : Nat} {ms : List ReplicateMsg}
    (hcut : ringDeltaLocked e.backlog (k + 1) upTo = some ms) :
    Chain e.epochAt k ms ∧ ∀ m ∈ ms, m.seq ≤ min upTo e.frontier.1 := by
  have hr : e.toLog.Dated ∧ e.Retained := h.stateInvariant
    (P := fun e => e.toLog.Dated ∧ e.Retained)
    ⟨⟨(if_neg fun h => h.2 h.1.symm).symm, by simp [restored]⟩,
      fun j => .inl rfl⟩
    fun _ _ _ hi _ hs => ⟨step_dated hi.1 hs, step_retained hi.1 hi.2 hs⟩
  exact ⟨hr.2.delta hcut, fun m hm =>
    Nat.le_min.2 ⟨(ringDelta_mem hcut hm).2.1, hr.2.delta_le hcut hm⟩⟩

theorem ring_cut_chains_oneWrite :
    ∃ e ms,
    Reach Engine.step Free (.new { nodeID := "a" }) oneWrite e
      ∧ ringDeltaLocked e.backlog 1 9 = some ms ∧ ms.length = 1
      ∧ Chain e.epochAt 0 ms := by
  obtain ⟨e, hr, he⟩ : ∃ e, Reach Engine.step Free (.new { nodeID := "a" })
      oneWrite e
      ∧ (ringDeltaLocked e.backlog 1 9).any (·.length = 1) = true := by
    apply exec_free
    decide
  obtain ⟨ms, hms, hlen⟩ := Option.any_eq_true _ _ |>.1 he
  exact ⟨e, ms, hr, hms, of_decide_eq_true hlen, (ring_cut_chains hr hms).1⟩

/-- The in-flight FIFO is dense in every run of a node: its slots hold
the records of consecutive seqs from the base, and the lookup by offset
finds a seq exactly where an unpopped record has it. -/
theorem inflight_fifo
    (h : Reach Engine.step Free (restored c po seq epoch fsm) tr e) :
    (∀ k < e.pl.ring.count, ∃ i r, e.pl.ring.get k = some i
      ∧ e.pl.recs[i]? = some r ∧ r.seq = e.pl.baseSeq + k)
    ∧ ∀ s i, e.pl.inflightAtLocked s = some i
      ↔ (∃ k < e.pl.ring.count, e.pl.ring.get k = some i)
        ∧ (e.pl.recs[i]?).map Inflight.seq = some s := by
  have hd : e.pl.Dense := (h.stateInvariant (wf_restored ..)
    fun _ _ _ hw _ hs => step_wf hw hs).dense
  refine ⟨fun k hk => ?_, fun s i => ⟨fun hi => ⟨?_, hd.inflightAt hi⟩, ?_⟩⟩
  · obtain ⟨r, hr, hs⟩ := Option.map_eq_some_iff.1 (hd.seqs k hk)
    exact ⟨_, r, hd.get hk, hr, hs⟩
  · rw [hd.inflightAt_eq] at hi
    obtain ⟨hc, rfl⟩ := guarded hi
    exact ⟨_, hc.2, hd.get hc.2⟩
  · rintro ⟨⟨k, hk, hget⟩, hs⟩
    rw [hd.get hk] at hget
    cases hget
    obtain rfl := Option.some.inj (hs.symm.trans (hd.seqs k hk))
    rw [hd.inflightAt_eq, if_pos (by omega), Nat.add_sub_cancel_left]

theorem inflight_fifo_oneWrite :
    ∃ e, Reach Engine.step Free (.new { nodeID := "a" }) oneWrite e
      ∧ ∃ r, e.pl.recs[0]? = some r ∧ r.seq = e.pl.baseSeq := by
  obtain ⟨e, hr, hc, hget⟩ : ∃ e, Reach Engine.step Free
      (.new { nodeID := "a" }) oneWrite e
      ∧ e.pl.ring.count = 1 ∧ e.pl.ring.get 0 = some 0 := by
    apply exec_free
    decide
  obtain ⟨i, r, hi, hrec, hseq⟩ := (inflight_fifo hr).1 0 (hc ▸ Nat.one_pos)
  cases hget.symm.trans hi
  exact ⟨e, hr, r, hrec, hseq⟩

end Engine

end Rostam.Pbisr
