/-
The applied frontier and the commit watermark under it.

A node's frontier is the larger of two role watermarks. Two sections can
take it back without replacing the state under it: a promotion, which
restarts seq assignment from the backup-role watermark and so forgets
what the node itself proposed since; and an install whose snapshot went
in below the frontier and whose durable commit then failed. Wherever
neither happens the frontier only grows, except inside an install that
succeeds, and `committed` stays at or below it
(`frontier_monotone`). `promote_regresses_frontier` is the promotion at
work: an ex-primary that received no frame since its own writes reports
an empty log over a committed one.
-/
import Rostam.Pbisr.Proofs.Commit
import Rostam.Pbisr.Proofs.Log

namespace Rostam.Pbisr

open Rostam.Lib

-- ======== the pipeline under a seq

namespace Pipeline

variable {F : Nat → Bool} {level : CommitLevel} {pl pl' : Pipeline}
  {n n' : Nat}

variable {r : Inflight}

/-- The commit watermark and every in-flight seq lie at or below
`n`. -/
structure Under (pl : Pipeline) (n : Nat) : Prop where
  committed_le : pl.committed ≤ n
  tail_le : 0 < pl.ring.count → pl.baseSeq + pl.ring.count ≤ n + 1

theorem Under.mono (h : pl.Under n) (hn : n ≤ n') : pl.Under n' :=
  ⟨Nat.le_trans h.committed_le hn, fun hc => by
    have := h.tail_le hc
    omega⟩

theorem head_seq (hd : pl.Dense) (hc : 0 < pl.ring.count) {i : Nat}
    (h : pl.head? = some (i, r)) : r.seq = pl.baseSeq := by
  obtain ⟨hget, hr⟩ := head?_eq_some h
  rw [hd.get hc] at hget
  injection hget with hget
  have hs := hd.seqs 0 hc
  rw [hget, hr] at hs
  exact Option.some.inj hs

/-- By density the head carries `baseSeq`, so committing it stays
under. -/
theorem Moves.under {cr : NodeID → Nat → Nat → Prop}
    (h : Moves F level cr pl pl') (hd : pl.Dense) (hu : pl.Under n) :
    pl'.Under n := by
  induction h with
  | refl => exact hu
  | modify i _ _ ih => exact ⟨ih.committed_le, ih.tail_le⟩
  | @commit pl' i r hh hc _ _ hm ih =>
    have hs := head_seq (hm.dense hd) hc hh
    have htail := ih.tail_le hc
    unfold commitHead
    split
    · unfold resolveLocked modifyRec markCommittedLocked
      split
      · exact ⟨show r.seq ≤ n by omega, ih.tail_le⟩
      · exact ⟨ih.committed_le, ih.tail_le⟩
    · exact ⟨ih.committed_le, ih.tail_le⟩
  | @pop pl' hc _ ih =>
    have htail := ih.tail_le hc
    refine ⟨ih.committed_le, fun _ => ?_⟩
    show pl'.baseSeq + 1 + (pl'.ring.count - 1) ≤ n + 1
    omega

/-- Registering the seq past `n` moves the bound by one. -/
theorem Under.register (h : pl.Under n)
    (hr : pl.registerInflightLocked r = some pl') (hs : r.seq = n + 1) :
    pl'.Under (n + 1) := by
  obtain ⟨he, hseq, -⟩ := register_eq hr
  have hcom : pl'.committed = pl.committed := by rw [he]
  have hcount : pl'.ring.count = pl.ring.count + 1 := by
    rw [he]
    exact RingBuf.pushGrow_count ..
  refine ⟨?_, fun _ => ?_⟩
  · rw [hcom]
    exact Nat.le_succ_of_le h.committed_le
  · rw [hcount]
    omega

end Pipeline

namespace Engine

variable {e e' : Engine} {ev : Event} {n : Nat}

variable {now : Nat}

/-- A section of the commit pipeline stays under any bound that the seq
it may register meets. -/
theorem Advances.under (h : e.Advances ev e') (hd : e.pl.Dense)
    (hu : e.pl.Under n) (hr : ev.input = .register → e.frontier.1 = n) :
    e'.pl.Under (if ev.input = .register then n + 1 else n) := by
  obtain ⟨pl₁, rfl | ⟨r, ⟨E, isr, d, hinp, -, rfl⟩, hreg⟩, hm⟩ := h
  · exact (hm.under hd hu).mono (by split <;> omega)
  · rw [if_pos hinp]
    exact hm.under (hd.register hreg)
      (hu.register hreg (congrArg (· + 1) (hr hinp)))

-- ======== the frontier's moves

/-- A run of accepted frames only moves the frontier up. -/
theorem receives_frontier_le {l l' : Log} {ms : List ReplicateMsg}
    (h : l.Receives ms l') : l.frontier.1 ≤ l'.frontier.1 := by
  induction h with
  | nil => exact le_rfl
  | snoc _ _ hx ih =>
    rw [Log.accept_frontier hx]
    have := hx.seq
    exact Nat.le_trans ih (by show _ ≤ _; omega)

/-- A promotion keeps a frontier the backup role reached. -/
theorem promoted_frontier_eq {l : Log} (h : l.lastSeq ≤ l.lastApplied) :
    l.promoted.frontier.1 = l.frontier.1 := by
  rw [Log.promoted_frontier]
  unfold Log.frontier
  split
  · rfl
  · show l.lastApplied = l.lastSeq
    omega

/-- The two branches that take the frontier back off the state they
keep: an effective promotion that finds own writes past the backup-role
watermark, and an install below the frontier whose durable commit
fails. -/
def regresses (e : Engine) : Input → Bool
  | .promote E _ =>
    decide (e.epoch < E) && !e.poisoned && decide (e.lastApplied < e.lastSeq)
  | .installSnapshot s .commitErr =>
    !e.installAborts s && decide (s.frontierSeq < e.frontier.1)
  | _ => false

/-- The section stays off those branches. -/
def KeepsFrontier (e : Engine) (ev : Event) : Prop :=
  e.regresses ev.input = false

theorem KeepsFrontier.promote {E x now : Nat}
    (h : KeepsFrontier e ⟨now, .promote E x⟩) (hE : e.epoch < E)
    (hpo : e.poisoned = false) : e.lastSeq ≤ e.lastApplied := by
  simpa [KeepsFrontier, regresses, hE, hpo] using h

theorem KeepsFrontier.commitErr {s : Snapshot}
    (h : KeepsFrontier e ⟨now, .installSnapshot s .commitErr⟩)
    (hab : e.installAborts s = false) :
    e.frontier.1 ≤ s.frontierSeq := by
  simpa [KeepsFrontier, regresses, hab] using h

/-- An install that succeeds. -/
def Installs (e : Engine) (ev : Event) : Prop :=
  ∃ s, ev.input = .installSnapshot s .ok ∧ e.installAborts s = false

/-- One section of such a run never takes the frontier back, outside an
install that succeeds. -/
theorem step_frontier_le (hk : KeepsFrontier e ev)
    (h : e.step ev = some e') (hi : ¬ Installs e ev) :
    e.frontier.1 ≤ e'.frontier.1 := by
  obtain ⟨now, i⟩ := ev
  rcases step_log h with hl | ⟨E, isr, d, -, -, -, hl⟩
    | ⟨E, isr, d, -, -, hl⟩ | ⟨ms, -, hr⟩ | ⟨E, x, hinp, hE, hpo, hl⟩
    | ⟨s, out, hinp, -, hab, hl⟩
  · rw [hl]
  · rw [hl]
    exact le_rfl
  · rw [hl, Log.assign_frontier]
    exact Nat.le_succ _
  · exact receives_frontier_le hr
  · have hinp' : i = .promote E x := hinp
    subst hinp'
    rw [hl, promoted_frontier_eq (hk.promote hE hpo)]
  · have hinp' : i = .installSnapshot s out := hinp
    subst hinp'
    rw [hl]
    cases out with
    | fsmErr g => exact le_rfl
    | commitErr =>
      rw [Log.afterInstall_frontier _ _ (by simp)]
      exact hk.commitErr hab
    | ok => exact absurd ⟨s, rfl, hab⟩ hi

/-- The pipeline stays under the frontier. -/
theorem step_under (hw : e.Wf) (hu : e.pl.Under e.frontier.1)
    (hk : KeepsFrontier e ev) (hs : e.step ev = some e') :
    e'.pl.Under e'.frontier.1 := by
  by_cases hx : ev.input.reseats = true
  swap
  · have ha := step_advances hw.dense hw.framesPos hw.captured.recs
      (by simpa using hx) hs
    refine (ha.under hw.dense hu fun _ => rfl).mono ?_
    split
    · next hreg =>
      obtain ⟨now, i⟩ := ev
      subst hreg
      obtain ⟨E, isr, d, pl, hst, -, -⟩ := register_cases hs
      rw [register_log hs rfl hst, Log.assign_frontier]
    · refine step_frontier_le hk hs ?_
      rintro ⟨s, hinp, -⟩
      rw [hinp] at hx
      exact hx rfl
  obtain ⟨now, i⟩ := ev
  cases i <;> try (simp [Input.reseats] at hx; done)
  case promote E expiry =>
      cases hs
      have hm := promote_moves hw.captured.recs (fun _ _ _ => False) E expiry
        now fun _ => false
      have hfr : e.frontier.1 ≤ (e.promote E expiry now).frontier.1 :=
        step_frontier_le hk rfl (by rintro ⟨s, hinp, -⟩; cases hinp)
      refine Pipeline.Under.mono (hm.under
        ⟨hw.dense.count_le, hw.dense.slots, hw.dense.seqs⟩
        ⟨?_, hu.tail_le⟩) hfr
      dsimp only
      split
      · exact hu.committed_le
      · exact Nat.max_le.2 ⟨hu.committed_le, lastApplied_le_frontier _⟩
  case installSnapshot s out =>
      obtain ⟨-, rfl⟩ := locked_eq_some hs
      by_cases hab : e.installAborts s = true
      · unfold installSnapshot
        rw [if_pos hab]
        exact hu
      · rw [installSnapshot_log e s out (by simpa using hab)]
        have hc : (e.installed s).pl.ring.count = 0 := Pipeline.popAll_count _
        have hin : (e.installed s).pl.Under s.frontierSeq :=
          ⟨le_rfl, fun hpos => absurd hpos (by omega)⟩
        unfold installSnapshot
        rw [if_neg hab]
        cases out with
        | fsmErr g => exact hu
        | commitErr | ok =>
          rw [Log.afterInstall_frontier _ _ (by simp)]
          exact hin

-- ======== main

/-- **Frontier and watermark.** In every run of one engine, from any
restored state, whose promotions and failed installs stay off the
regressing branch: no section takes the applied frontier back outside an
install that succeeds, and `committed` never passes the frontier. -/
theorem frontier_monotone {c : Config} {po : Bool} {seq epoch : Nat}
    {fsm : List Data} {tr : List Event}
    (hr : Reach Engine.step KeepsFrontier (restored c po seq epoch fsm) tr e) :
    e.pl.committed ≤ e.frontier.1
      ∧ ∀ ev e', KeepsFrontier e ev → e.step ev = some e' →
        ¬ Installs e ev → e.frontier.1 ≤ e'.frontier.1 := by
  have hs : e.Wf ∧ e.pl.Under e.frontier.1 :=
    hr.stateInvariant (P := fun e => e.Wf ∧ e.pl.Under e.frontier.1)
      ⟨wf_restored c po seq epoch fsm,
        ⟨Nat.zero_le _, fun h => absurd h (Nat.lt_irrefl 0)⟩⟩
      fun _ _ _ hp hk hs => ⟨step_wf hp.1 hs, step_under hp.1 hp.2 hk hs⟩
  exact ⟨hs.2.committed_le, fun ev e' hk h hi => step_frontier_le hk h hi⟩

/-- A backup takes one frame and is promoted on it. -/
theorem frontier_monotone_promoted :
    ∃ e, Reach Engine.step KeepsFrontier (.new { nodeID := "b" })
        [⟨0, .receive ⟨1, 1, 0, 0, [7]⟩ true⟩, ⟨9, .promote 2 100⟩] e
      ∧ e.frontier = (1, 1) ∧ e.pl.committed ≤ e.frontier.1 := by
  have hk : ∀ (e : Engine) (ev : Event), (!e.regresses ev.input) = true →
      KeepsFrontier e ev := fun _ _ h => by simpa [KeepsFrontier] using h
  obtain ⟨e, hr, hf⟩ : ∃ e, Reach Engine.step KeepsFrontier
      (.new { nodeID := "b" })
      [⟨0, .receive ⟨1, 1, 0, 0, [7]⟩ true⟩, ⟨9, .promote 2 100⟩] e
      ∧ e.frontier = (1, 1) := by
    apply exec_decide hk
    decide
  exact ⟨e, hr, hf, (frontier_monotone hr).1⟩

/-- An ex-primary whose one write its backup acked is promoted again
without having received a frame: it reports an empty log under a commit
watermark of one. -/
theorem promote_regresses_frontier :
    ∃ e e', Reach Engine.step Free (.new { nodeID := "a" })
        (oneWrite ++ [oneAck]) e
      ∧ e.step ⟨7, .promote 3 200⟩ = some e'
      ∧ ¬ Installs e ⟨7, .promote 3 200⟩
      ∧ e.frontier = (1, 1) ∧ e'.frontier = (0, 0)
      ∧ e'.pl.committed = 1 := by
  obtain ⟨e, hr, hf, hrun⟩ : ∃ e, Reach Engine.step Free
      (.new { nodeID := "a" }) (oneWrite ++ [oneAck]) e
      ∧ e.frontier = (1, 1) ∧ (e.step ⟨7, .promote 3 200⟩).any (fun e' =>
        e'.frontier = (0, 0) ∧ e'.pl.committed = 1) = true := by
    apply exec_free
    decide
  obtain ⟨e', hstep, hout⟩ := (Option.any_eq_true _ _).mp hrun
  refine ⟨e, e', hr, hstep, ?_, hf, of_decide_eq_true hout⟩
  rintro ⟨s, hinp, -⟩
  cases hinp

end Engine

end Rostam.Pbisr
