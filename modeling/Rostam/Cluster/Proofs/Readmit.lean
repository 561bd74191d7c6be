/-
How a removed member gets back into the ISR.

An ISR entry is a blind overwrite guarded by the epoch alone, so the
grow tick's entry carries whatever ISR the tick read at its top. If a
shrink removes a member after that read, the entry puts it back without
a catch-up (`readmits_without_flip`). `fresh` asks that an entry, when
it is committed, re-adds nobody who was removed since its submitter's
read; then every re-admission has a flip of its own behind it, by the
epoch's primary, in that epoch, after the removal.
-/
import Rostam.Cluster.Proofs.Failover

namespace Rostam.Cluster

open Rostam.Lib Rostam.Pbisr MetaLog

-- ======== the condition

/-- No member the entry would add was removed since the submitter's
read. -/
def System.fresh (S : System) (p : Proposal) : Bool :=
  match p.op with
  | .setShardEpoch .. => true
  | .setShardISR E isr => decide (E ≠ S.committed.epoch)
      || isr.all fun m => decide (m ∈ S.committed.isr)
        || (List.range S.log.length).all fun j =>
          decide (j < p.upTo) || !removesAt S.minISR S.log j m

/-- A careful section that commits fresh entries only. -/
def System.reconciled (S : System) (l : Label) : Bool :=
  S.careful l && match l with
    | .commit i => S.proposed[i]?.all S.fresh
    | _ => true

def Reconciled (S : System) (l : Label) : Prop := S.reconciled l = true

theorem System.reconciled_careful {S : System} {l : Label}
    (h : S.reconciled l = true) : S.careful l = true := by
  simp only [System.reconciled, Bool.and_eq_true] at h
  exact h.1

theorem System.reconciled_commit {S : System} {i : Nat} {p : Proposal}
    (h : S.reconciled (.commit i) = true)
    (hp : S.proposed[i]? = some p) : S.fresh p = true := by
  simp only [System.reconciled, hp, Bool.and_eq_true] at h
  exact h.2

variable {S S' : System} {l : Label} {m : NodeID} {j k : Nat}
  {minISR : Nat} {log : MetaLog} {op : MetaOp}

-- ======== the log

theorem removesAt_append (hj : j < log.length) :
    removesAt minISR (log ++ [op]) j m = removesAt minISR log j m := by
  unfold removesAt
  rw [List.getElem?_append_left hj,
    List.take_append_of_le_length (Nat.le_of_lt hj),
    List.take_append_of_le_length hj]

theorem addsAt_append (hk : k < log.length) :
    addsAt minISR (log ++ [op]) k m = addsAt minISR log k m := by
  unfold addsAt
  rw [List.getElem?_append_left hk,
    List.take_append_of_le_length (Nat.le_of_lt hk),
    List.take_append_of_le_length hk]

theorem removesAt_lt (h : removesAt minISR log j m = true) :
    j < log.length := by
  unfold removesAt at h
  split at h
  · next hj => exact (List.getElem?_eq_some_iff.1 hj).1
  · cases h

theorem addsAt_lt (h : addsAt minISR log k m = true) : k < log.length := by
  unfold addsAt at h
  split at h
  · next hk => exact (List.getElem?_eq_some_iff.1 hk).1
  · cases h

theorem not_mem_of_removesAt (h : removesAt minISR log j m = true) :
    m ∉ (state minISR (log.take (j + 1))).isr := by
  unfold removesAt at h
  split at h
  · simp only [Bool.and_eq_true, decide_eq_true_eq] at h
    exact h.2
  · cases h

/-- A removal stays in its epoch. -/
theorem epoch_of_removesAt (h : removesAt minISR log j m = true) :
    (state minISR (log.take (j + 1))).epoch
      = (state minISR (log.take j)).epoch := by
  unfold removesAt at h
  split at h
  · next E isr hop =>
    rw [take_succ_state hop]
    rcases (state minISR (log.take j)).apply_cases (.setShardISR E isr)
      with h | ⟨E', q, isr', hx, -⟩ | ⟨isr', -, -, h⟩
    · rw [h]
    · cases hx
    · rw [h]
  · cases h

/-- Epochs never fall along the log. -/
theorem epoch_take_mono (minISR : Nat) (log : MetaLog) (h : j ≤ k) :
    (state minISR (log.take j)).epoch ≤ (state minISR (log.take k)).epoch := by
  have := epoch_take_le minISR (log.take k) j
  rw [List.take_take, Nat.min_eq_left h] at this
  exact this

/-- Within one epoch a member of the ISR that was not one before was
added in between. -/
theorem exists_addsAt (hjk : j ≤ k) (hk : k ≤ log.length)
    (hE : (state minISR (log.take j)).epoch
      = (state minISR (log.take k)).epoch)
    (hj : m ∉ (state minISR (log.take j)).isr)
    (hm : m ∈ (state minISR (log.take k)).isr) :
    ∃ i, j ≤ i ∧ i < k ∧ addsAt minISR log i m = true := by
  induction k with
  | zero =>
    rw [Nat.le_zero.1 hjk] at hj
    exact absurd hm hj
  | succ k ih =>
    rcases Nat.lt_or_eq_of_le hjk with hlt | rfl
    swap
    · exact absurd hm hj
    have hjk' : j ≤ k := Nat.lt_succ_iff.1 hlt
    have h1 := epoch_take_mono minISR log hjk'
    have h2 := epoch_take_mono minISR log (Nat.le_add_right k 1)
    by_cases hmk : m ∈ (state minISR (log.take k)).isr
    · obtain ⟨i, hi, hi', hadd⟩ := ih hjk' (by omega) (by omega) hmk
      exact ⟨i, hi, by omega, hadd⟩
    · -- the entry at `k` put it in, and kept the epoch
      obtain ⟨op, hop⟩ : ∃ op, log[k]? = some op :=
        ⟨_, List.getElem?_eq_getElem (by omega)⟩
      have hst : state minISR (log.take (k + 1))
          = (state minISR (log.take k)).apply op := take_succ_state hop
      refine ⟨k, hjk', Nat.lt_succ_self k, ?_⟩
      rcases (state minISR (log.take k)).apply_cases op with h
        | ⟨E, q, isr, -, hlt', h⟩ | ⟨isr, rfl, -, h⟩
      · rw [hst, h] at hm
        exact absurd hm hmk
      · have hE' : (state minISR (log.take (k + 1))).epoch = E := by
          rw [hst, h]
        omega
      · unfold addsAt
        rw [hop]
        simp only [Bool.and_eq_true, decide_eq_true_eq]
        exact ⟨hmk, hm⟩

-- ======== the invariant

/-- The member was flipped by the primary of the epoch the entry at `k`
found, in that epoch, after the entry at `j`. -/
def FlippedBetween (S : System) (m : NodeID) (j k : Nat) : Prop :=
  ∃ f ∈ S.flips, f.target = m
    ∧ f.node = (state S.minISR (S.log.take k)).primary
    ∧ f.epoch = (state S.minISR (S.log.take k)).epoch
    ∧ j < f.len ∧ f.len ≤ k

/-- A member removed at `j` and added at `k`, in one epoch. -/
def Readmitted (S : System) (m : NodeID) (j k : Nat) : Prop :=
  j < k ∧ removesAt S.minISR S.log j m = true
    ∧ addsAt S.minISR S.log k m = true
    ∧ (state S.minISR (S.log.take j)).epoch
      = (state S.minISR (S.log.take k)).epoch

structure ReadmitInv (S : System) : Prop where
  run : RunInv S
  dated : ∀ f ∈ S.flips, f.len ≤ S.log.length
    ∧ f.epoch ≤ (state S.minISR (S.log.take f.len)).epoch
  flipped : ∀ m j k, Readmitted S m j k → FlippedBetween S m j k

/-- Nobody an effective entry adds was removed since its read. -/
theorem System.fresh_removesAt {p : Proposal} {isr : List NodeID}
    (h : S.fresh p = true) (hop : p.op = .setShardISR S.committed.epoch isr)
    (hm : m ∈ isr) (hnew : m ∉ S.committed.isr)
    (hrem : removesAt S.minISR S.log j m = true) : j < p.upTo := by
  unfold System.fresh at h
  simp only [hop, ne_eq, not_true_eq_false, decide_false, Bool.false_or] at h
  have h1 := List.all_eq_true.1 h m hm
  rw [Bool.or_eq_true, decide_eq_true_eq] at h1
  have h2 := List.all_eq_true.1 (h1.resolve_left hnew) j
    (List.mem_range.2 (removesAt_lt hrem))
  rw [Bool.or_eq_true, decide_eq_true_eq, hrem] at h2
  exact h2.resolve_right (by simp)

/-- The entry just committed adds only flipped members. -/
theorem ReadmitInv.flipped_new (hi : ReadmitInv S) {p : Proposal}
    (hp : p ∈ S.proposed) (hf : S.fresh p = true)
    (hrem : removesAt S.minISR S.log j m = true)
    (hadd : addsAt S.minISR (S.log ++ [p.op]) S.log.length m = true)
    (hE : (state S.minISR (S.log.take j)).epoch
      = (state S.minISR S.log).epoch) :
    ∃ f ∈ S.flips, f.target = m ∧ f.node = S.committed.primary
      ∧ f.epoch = S.committed.epoch ∧ j < f.len
      ∧ f.len ≤ S.log.length := by
  have hok := hi.run.driver.proposed p hp
  have hjl := removesAt_lt hrem
  unfold addsAt at hadd
  rw [List.getElem?_concat_length, List.take_append_of_le_length
    le_rfl, List.take_length, List.take_of_length_le (by simp),
    state_append] at hadd
  have hadd' : m ∉ S.committed.isr ∧ m ∈ (S.committed.apply p.op).isr
      ∧ ∃ E isr, p.op = .setShardISR E isr := by
    split at hadd
    · next E isr hop =>
      simp only [Bool.and_eq_true, decide_eq_true_eq] at hadd
      injection hop with hop
      exact ⟨hadd.1, hadd.2, E, isr, hop⟩
    · cases hadd
  obtain ⟨hnew, hmem, E, isr, hop⟩ := hadd'
  rcases hok.commits with h | ⟨q, hop', -⟩ | ⟨isr', hop', h, -, -, hisr⟩
  · rw [h] at hmem
    exact absurd hmem hnew
  · rw [hop] at hop'
    cases hop'
  rw [h] at hmem
  have hj : j < p.upTo := System.fresh_removesAt hf hop' hmem hnew hrem
  rcases hisr m hmem with hold | ⟨f, hfm, hn, ht, hfe, hlen⟩
  · -- read as a member: added again before the read, by an older entry
    have hle : p.upTo ≤ S.log.length := hok.1
    have hEj := epoch_of_removesAt hrem
    have h1 := epoch_take_mono S.minISR S.log hj
    have h2 := epoch_take_le S.minISR S.log p.upTo
    obtain ⟨i, hji, hi', hadd⟩ := exists_addsAt hj hle
      (by rw [hEj] at h1 ⊢; omega) (not_mem_of_removesAt hrem) hold
    have h3 := epoch_take_mono S.minISR S.log (Nat.le_of_lt hji)
    have h4 := epoch_take_le S.minISR S.log i
    have hEi : (state S.minISR (S.log.take i)).epoch
        = (state S.minISR S.log).epoch := by omega
    obtain ⟨f, hfm, ht, hn, hfe, hlo, hhi⟩ :=
      hi.flipped m j i ⟨hji, hrem, hadd, by omega⟩
    have hpos : 1 ≤ (state S.minISR (S.log.take i)).epoch := by
      rw [hEi]
      exact hi.run.pos
    refine ⟨f, hfm, ht, ?_, ?_, hlo, by omega⟩
    · rw [hn, primary_of_epoch hpos hEi]
      rfl
    · rw [hfe, hEi]
      rfl
  · obtain ⟨hl, hep⟩ := hi.dated f hfm
    have := epoch_take_le S.minISR S.log f.len
    refine ⟨f, hfm, ht, hn, ?_, by omega, hl⟩
    exact Nat.le_antisymm (Nat.le_trans hep this) hfe

/-- A flip is of the engine's epoch, over the whole log. -/
theorem step_flips (h : S.step l = some S') {f : Flip} (hf : f ∈ S'.flips) :
    f ∈ S.flips
      ∨ f.len = S.log.length ∧ ∃ n, f.epoch = (S.reps.eng n).epoch := by
  have hn : f ∈ (S.next l).flips := by
    obtain ⟨-, ⟨-, rfl⟩ | ⟨a, R, -, -, rfl⟩⟩ := System.step_cases h
    · exact hf
    · exact hf
  cases l with
  | engine a =>
    have hnote : f ∈ (S.noteFlip a).flips := hn
    unfold System.noteFlip at hnote
    split at hnote
    · next peer _ _ =>
      have hsnoc : f ∈ S.flips ++ [⟨a.node, peer,
          (S.reps.eng a.node).epoch, S.log.length⟩] := by
        repeat' split at hnote
        all_goals exact hnote
      rcases List.mem_append.1 hsnoc with hf | hf
      · exact .inl hf
      · rw [List.mem_singleton.1 hf]
        exact .inr ⟨rfl, a.node, rfl⟩
    · exact .inl hnote
  | _ =>
    simp only [System.next, System.shrinkReconcile,
      System.growReconcile, System.growConfirm] at hn
    repeat' split at hn
    all_goals exact .inl hn

/-- One section. -/
theorem step_readmitInv (hi : ReadmitInv S) (hk : Reconciled S l)
    (h : S.step l = some S') : ReadmitInv S' := by
  have hg := step_grows h
  have hrun := step_runInv hi.run (System.reconciled_careful hk) h
  have hdated : ∀ f ∈ S'.flips, f.len ≤ S.log.length
      ∧ f.epoch ≤ (state S.minISR (S.log.take f.len)).epoch := by
    intro f hf
    rcases step_flips h hf with hf | ⟨hl, n, hE⟩
    · exact hi.dated f hf
    · obtain ⟨prim, hc⟩ := exists_compat S.minISR S.log
      rw [hl, hE, List.take_length]
      exact ⟨le_rfl, (hi.run.safe prim hc).ctl.epoch_le n⟩
  refine ⟨hrun, fun f hf => ?_, ?_⟩
  · obtain ⟨h1, h2⟩ := hdated f hf
    rw [hg.minISR, hg.take h1]
    exact ⟨Nat.le_trans h1 hg.log.length_le, h2⟩
  have hmono : ∀ {m j k}, k ≤ S.log.length → FlippedBetween S m j k →
      FlippedBetween S' m j k := by
    rintro m j k hkl ⟨f, hf, h⟩
    unfold FlippedBetween
    rw [hg.minISR, hg.take hkl]
    exact ⟨f, hg.flips f hf, h⟩
  intro m j k hre
  rcases System.step_kinds h with ⟨i, p, rfl, hp, hm, hlog, -⟩
    | ⟨hm, hlog, -⟩
  · obtain ⟨hjk, hrem, hadd, hE⟩ := hre
    have hkl := addsAt_lt hadd
    rw [hm, hlog] at hrem hadd hE
    rw [hlog, List.length_append] at hkl
    have hkl' : k ≤ S.log.length := Nat.lt_succ_iff.1 hkl
    have hjl : j < S.log.length := by omega
    rw [removesAt_append hjl] at hrem
    rw [List.take_append_of_le_length (Nat.le_of_lt hjl),
      List.take_append_of_le_length hkl'] at hE
    rcases Nat.lt_or_eq_of_le hkl' with hlt | rfl
    · rw [addsAt_append hlt] at hadd
      exact hmono hkl' (hi.flipped m j k ⟨hjk, hrem, hadd, hE⟩)
    · rw [List.take_length] at hE
      obtain ⟨f, hf, ht, hn, hfe, hlo, hhi⟩ := hi.flipped_new
        (List.mem_of_getElem? hp) (System.reconciled_commit hk hp) hrem
        hadd hE
      refine hmono le_rfl ⟨f, hf, ht, ?_, ?_, hlo, hhi⟩
      · rw [List.take_length]
        exact hn
      · rw [List.take_length]
        exact hfe
  · unfold Readmitted at hre
    rw [hm, hlog] at hre
    exact hmono (Nat.le_of_lt (addsAt_lt hre.2.2.1)) (hi.flipped m j k hre)

theorem readmitInv_seeded {c : Config} (hc : c.commitLevel = .fullISR)
    (minISR : Nat) (placement : List NodeID) (primary : NodeID)
    (isr : List NodeID) :
    ReadmitInv (.seeded c minISR placement primary isr) where
  run := runInv_seeded hc minISR placement primary isr
  dated := fun f hf => by cases hf
  flipped := by
    rintro m j k ⟨hjk, -, hadd, -⟩
    have hk : k < 1 := addsAt_lt hadd
    omega

-- ======== main

/-- **No lost ISR update between the drivers.** In every state reached
by a run of careful sections that commits fresh entries only: a member
that one entry removed from the ISR and a later entry of that epoch put
back was flipped in between, by the epoch's primary in that epoch; and
no member of the committed ISR is missing a write some `Propose` has
returned nil for. -/
theorem readmitted_only_flipped {c : Config}
    (hc : c.commitLevel = .fullISR) {minISR : Nat}
    {placement : List NodeID} {primary : NodeID} {isr : List NodeID}
    {tr : List Label}
    (hr : Reach System.step Reconciled
      (.seeded c minISR placement primary isr) tr S) :
    (∀ m j k, Readmitted S m j k → FlippedBetween S m j k)
      ∧ ∀ n i, (i, none) ∈ (S.reps.eng n).returned →
        ∃ r, (S.reps.eng n).pl.recs[i]? = some r
          ∧ ∀ m ∈ S.committed.isr, r.hist <+: (S.reps.eng m).fsm
            ∧ r.seq ≤ (S.reps.eng m).frontier.1 := by
  have hi : ReadmitInv S := hr.stateInvariant
    (readmitInv_seeded hc minISR placement primary isr)
    fun _ _ _ hi hk hs => step_readmitInv hi hk hs
  refine ⟨hi.flipped, fun n i hret => ?_⟩
  obtain ⟨r, hr, hget⟩ := hi.run.returned hret
  refine ⟨r, hget, fun m hm => ?_⟩
  obtain ⟨h1, h2⟩ := hi.run.kept hr hm
  exact ⟨h1.trans (history_prefix_fsm _), h2⟩

/-- `a` writes under the ISR `a`, `b`; the send to `b` fails, the shrink
tick removes it, and `a` writes alone. Then the grow tick catches `b`
up, flips it, ships the tail and re-adds it. -/
def regrow : List Label := [.advance "a", turn "a" "" (.grantLease 1 9),
    turn "a" "" (.fence "a" ["a", "b"] 1 [1]),
    turn "a" "" (.applyLocal true), turn "a" "" .register,
    turn "a" "" (.submitNext true), turn "a" "" .submitDone,
    turn "a" "" (.complete "b" [⟨1, 1, 0, 0, [1]⟩] none),
    .shrinkRead "a", .shrinkReconcile "a", .shrinkRequest "a" 1,
    .commit 0, .advance "a", .shrinkRead "a", .shrinkReconcile "a",
    .shrinkApply "a" 0, turn "a" "" (.fence "a" ["a"] 1 [7]),
    turn "a" "" (.applyLocal true), turn "a" "" .register,
    turn "a" "" .submitDone, turn "a" "" (.awaitDone 1), .growRead "a",
    .growReconcile "a", .growBarrier "a", .growConfirm "a",
    .growCatchup "a" "b",
    turn "a" "" (.growHandshake (some ⟨0, 0, 0, 0, true⟩)),
    turn "a" "" .growCheck, turn "a" "" .growBackfill, turn "a" "" .flip,
    turn "a" "" (.senderTake "b" 2),
    turn "b" "a" (.receiveGroup
      [(⟨1, 1, 0, 0, [1]⟩, true), (⟨1, 2, 1, 1, [7]⟩, true)]),
    .growSubmit "a", .commit 0]

theorem readmitted_only_flipped_regrow :
    ∃ S, Reach System.step Reconciled
        (.seeded { nodeID := "" } 1 ["a", "b"] "a" ["a", "b"]) regrow S
      ∧ Readmitted S "b" 1 2 ∧ FlippedBetween S "b" 1 2
      ∧ ∃ r, (S.reps.eng "a").pl.recs[1]? = some r
        ∧ r.hist <+: (S.reps.eng "b").fsm := by
  obtain ⟨S, hr, ⟨h1, h2, h3⟩, h4, h5⟩ : ∃ S, Reach System.step Reconciled
      (.seeded { nodeID := "" } 1 ["a", "b"] "a" ["a", "b"]) regrow S
      ∧ (removesAt S.minISR S.log 1 "b" = true
        ∧ addsAt S.minISR S.log 2 "b" = true
        ∧ (state S.minISR (S.log.take 1)).epoch
          = (state S.minISR (S.log.take 2)).epoch)
      ∧ (1, none) ∈ (S.reps.eng "a").returned ∧ "b" ∈ S.committed.isr := by
    apply exec_decide fun _ _ hk => hk
    decide
  have hre : Readmitted S "b" 1 2 := ⟨by decide, h1, h2, h3⟩
  obtain ⟨hflip, hkept⟩ := readmitted_only_flipped rfl hr
  obtain ⟨r, hget, hall⟩ := hkept "a" 1 h4
  exact ⟨S, hr, hre, hflip "b" 1 2 hre, r, hget, (hall "b" h5).1⟩

/-- The grow tick of `a` reads the ISR `a`, `b` and flips `c`; a send to
`b` fails, the shrink tick removes `b`, and `a` writes alone; then the
grow tick submits what it read, and `c`. -/
def staleGrow : List Label :=
  [.advance "a", turn "a" "" (.grantLease 1 9), .growRead "a",
    .growReconcile "a", .growBarrier "a", .growConfirm "a",
    .growCatchup "a" "c",
    turn "a" "" (.growHandshake (some ⟨0, 0, 0, 0, true⟩)),
    turn "a" "" .growCheck, turn "a" "" .growBackfill, turn "a" "" .flip,
    turn "a" "" (.fence "a" ["a", "b"] 1 [1]),
    turn "a" "" (.applyLocal true), turn "a" "" .register,
    turn "a" "" (.submitNext true), turn "a" "" (.submitNext true),
    turn "a" "" .submitDone,
    turn "a" "" (.complete "b" [⟨1, 1, 0, 0, [1]⟩] none),
    .shrinkRead "a", .shrinkReconcile "a", .shrinkRequest "a" 1,
    .commit 0, .advance "a", .shrinkRead "a", .shrinkReconcile "a",
    .shrinkApply "a" 0, turn "a" "" (.fence "a" ["a"] 1 [7]),
    turn "a" "" (.applyLocal true), turn "a" "" .register,
    turn "a" "" (.submitNext true), turn "a" "" .submitDone,
    turn "a" "" (.awaitDone 1), .growSubmit "a", .commit 0]

/-- `b` is back in the ISR, never flipped, without the write that was
acked while it was out. -/
theorem readmits_without_flip :
    ∃ S, Reach System.step Free
        (.seeded { nodeID := "" } 1 ["a", "b", "c"] "a" ["a", "b"])
        staleGrow S
      ∧ Readmitted S "b" 1 2 ∧ "b" ∈ S.committed.isr
      ∧ (∀ f ∈ S.flips, f.target ≠ "b")
      ∧ (1, none) ∈ (S.reps.eng "a").returned
      ∧ (S.reps.eng "a").pl.recs[1]?.map Inflight.hist = some [[1], [7]]
      ∧ (S.reps.eng "b").fsm = [] := by
  obtain ⟨S, hr, ⟨h1, h2, h3⟩, hrest⟩ : ∃ S, Reach System.step Free
      (.seeded { nodeID := "" } 1 ["a", "b", "c"] "a" ["a", "b"])
        staleGrow S
      ∧ (removesAt S.minISR S.log 1 "b" = true
        ∧ addsAt S.minISR S.log 2 "b" = true
        ∧ (state S.minISR (S.log.take 1)).epoch
          = (state S.minISR (S.log.take 2)).epoch)
      ∧ "b" ∈ S.committed.isr
      ∧ (∀ f ∈ S.flips, f.target ≠ "b")
      ∧ (1, none) ∈ (S.reps.eng "a").returned
      ∧ (S.reps.eng "a").pl.recs[1]?.map Inflight.hist = some [[1], [7]]
      ∧ (S.reps.eng "b").fsm = [] := by
    apply exec_free
    decide
  exact ⟨S, hr, ⟨by decide, h1, h2, h3⟩, hrest⟩

end Rostam.Cluster
