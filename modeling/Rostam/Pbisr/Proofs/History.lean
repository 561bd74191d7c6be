/-
The history behind a node's frontier.

A proposal is applied before its seq is assigned, so for the length of
that window the FSM is one payload ahead of the frontier the node
reports. `history` is the FSM less that payload: what the frontier
names, as long as no frame `slips` in between the Apply and its
registration. Two more sections part a frontier from the FSM under it,
and `forgets` names them: a promotion that drops the node's own writes,
and a snapshot of an FSM behind the poison latch.

`step_history` is the inversion over every section of frontier and
history together, off both kinds.
-/
import Rostam.Pbisr.Proofs.Retained

namespace Rostam.Pbisr

open Rostam.Lib

namespace Engine

variable {e e' : Engine} {ev : Event}

-- ======== the history

/-- A proposal is between its Apply and its registration. -/
def midWrite (e : Engine) : Bool :=
  match e.stage with
  | .applied .. => true
  | _ => false

/-- What the reported frontier names. -/
def history (e : Engine) : List Data :=
  if e.midWrite then e.fsm.dropLast else e.fsm

/-- The receive path would reach the Applier with `msg`. -/
def admits (e : Engine) (msg : ReplicateMsg) : Bool :=
  !e.poisoned && decide (e.epoch ≤ msg.epoch)
    && decide (msg.seq = msg.prevSeq + 1)
    && decide ((msg.prevSeq, msg.prevEpoch) = e.frontier)

/-- The section reports a frontier the FSM is past, or ships a state
the latch disowns. -/
def forgets (e : Engine) (ev : Event) : Bool :=
  match ev.input with
  | .promote E _ => decide (e.epoch < E) && !e.poisoned
      && decide (e.lastApplied < e.lastSeq)
  | .takeSnapshot _ => e.poisoned
  | _ => false

/-- The section applies a frame between a proposal's Apply and its
registration. -/
def slips (e : Engine) (ev : Event) : Bool :=
  match ev.input with
  | .receive msg _ => e.midWrite && e.admits msg
  | .receiveGroup msgs =>
    e.midWrite && msgs.head?.any fun x => e.admits x.1
  | _ => false

theorem history_of_midWrite (h : e.midWrite = false) : e.history = e.fsm := by
  unfold history
  rw [h]
  rfl

theorem midWrite_of_stage {E : Nat} {isr : List NodeID} {d : Data}
    (h : e.stage = .applied E isr d) : e.midWrite = true := by
  unfold midWrite
  rw [h]

theorem midWrite_eq_false
    (h : ∀ E isr d, e.stage ≠ .applied E isr d) : e.midWrite = false := by
  unfold midWrite
  split
  · next hst => exact absurd hst (h _ _ _)
  · rfl

theorem midWrite_congr (h : e'.stage = e.stage) :
    e'.midWrite = e.midWrite := by
  unfold midWrite
  rw [h]

theorem history_congr (hst : e'.stage = e.stage) (hf : e'.fsm = e.fsm) :
    e'.history = e.history := by
  unfold history
  rw [midWrite_congr hst, hf]

/-- Frontier, history and latch all stand. -/
structure Stands (e e' : Engine) : Prop where
  frontier : e'.frontier = e.frontier
  history : e'.history = e.history
  poisoned : e'.poisoned = e.poisoned

theorem Stands.of_log (hl : e'.toLog = e.toLog)
    (hh : e'.history = e.history) : e.Stands e' where
  frontier := by rw [hl]
  history := hh
  poisoned := congrArg Log.poisoned hl

-- ======== the moves

/-- A promotion over nothing of the node's own keeps the frontier. -/
theorem promoted_frontier_of_le {l : Log} (hd : l.Dated)
    (h : l.lastSeq ≤ l.lastApplied) : l.promoted.frontier = l.frontier := by
  rw [Log.promoted_frontier]
  unfold Log.frontier
  split
  · rfl
  · have hs : l.lastApplied = l.lastSeq := by omega
    rw [hs, hd.seq, hd.applied, hs]

theorem lastSeq_le_of_promote {E x : Nat} (hf : e.forgets ev = false)
    (hinp : ev.input = .promote E x) (hE : e.epoch < E)
    (hpo : e.poisoned = false) : e.lastSeq ≤ e.lastApplied := by
  unfold forgets at hf
  simp only [hinp, hpo, decide_eq_true hE] at hf
  simpa using hf

/-- A refused head refuses the whole group. -/
theorem receiveGroup_head {msgs : List (ReplicateMsg × Bool)} {now : Nat}
    (h : (msgs.head?.any fun x => e.admits x.1) = false) :
    (e.receiveGroup msgs now).1.toLog = e.toLog := by
  cases msgs with
  | nil => rfl
  | cons x rest =>
    obtain ⟨m, ok⟩ := x
    have hm : e.admits m = false := by simpa using h
    unfold receiveGroup
    split
    · rfl
    · next hl =>
      injection hl with hx hl
      injection hx with hx _
      subst hx
      split
      · rfl
      · unfold receiveRun
        rcases receiveLocked_log e m ok now with ⟨hl, hno⟩
          | ⟨⟨hpo, hs, hf⟩, hE, -⟩
        · simp only [hno, Bool.false_eq_true, if_false]
          exact hl
        · simp [admits, hpo, hs, hf, hE] at hm

/-- A receive section moves no stage. -/
theorem delivers_stage {m : ReplicateMsg} (h : e.step ev = some e')
    (hm : ev.input.Delivers m) : e'.stage = e.stage := by
  have hw : Part.outgoing ∉ ev.input.writes := by
    cases hi : ev.input <;> simp [hi, Input.Delivers] at hm
      <;> simp [Input.writes]
  have hq : e'.toOutgoing = e.toOutgoing := step_agree h .outgoing hw
  exact congrArg Outgoing.stage hq

/-- A frame that does not slip in is applied outside the window. -/
theorem receives_outside {m : ReplicateMsg}
    (hk : e.slips ev = false) (h : e.step ev = some e')
    (hm : ev.input.Delivers m) (hl : e'.toLog ≠ e.toLog) :
    e.midWrite = false := by
  unfold slips at hk
  obtain ⟨now, i⟩ := ev
  cases i <;> try (simp [Input.Delivers] at hm; done)
  case receive msg ok =>
      injection h with h
      rcases receiveLocked_log e msg ok now with ⟨h', -⟩
        | ⟨⟨hpo, hs, hf⟩, hE, -⟩
      · exact absurd (h ▸ h') hl
      · simpa [admits, hpo, hs, hf, hE] using hk
  case receiveGroup msgs =>
      injection h with h
      rcases Bool.and_eq_false_iff.1 hk with hk | hk
      · exact hk
      · exact absurd (h ▸ receiveGroup_head hk) hl

/-- A registration ends the window it finds. -/
theorem register_window (h : e.step ev = some e')
    (hinp : ev.input = .register) :
    (∃ E isr d, e.stage = .applied E isr d) ∧ e'.midWrite = false := by
  obtain ⟨now, i⟩ := ev
  subst hinp
  obtain ⟨E, isr, d, pl, hst, -, he⟩ := register_cases h
  exact ⟨⟨E, isr, d, hst⟩, by rw [he]; rfl⟩

/-- Only an Apply enters the window and only a registration leaves
it. -/
theorem still_stage (h : e.step ev = some e')
    (hreg : ev.input ≠ .register) (hf : e'.fsm = e.fsm) :
    e'.stage = e.stage ∨ e.midWrite = false ∧ e'.midWrite = false := by
  have hplain : ∀ (_ : ∀ E isr d, e.stage ≠ .applied E isr d)
      (_ : ∀ E isr d, e'.stage ≠ .applied E isr d),
      e.midWrite = false ∧ e'.midWrite = false :=
    fun h0 h1 => ⟨midWrite_eq_false h0, midWrite_eq_false h1⟩
  rcases step_stage h with hs | ⟨p, isr, n, d, -, h0, -, h1⟩
    | ⟨E, isr, d, h0, ⟨h1, hx⟩ | ⟨h1, -⟩⟩
    | ⟨E, isr, d, ps, ls, v, hinp, -⟩
    | ⟨x, ps, ls, v, h0, h1 | ⟨ps', ls', v', h1⟩⟩
  · exact .inl hs
  · exact .inr (hplain (by simp [h0]) (by simp [h1]))
  · have hx' : e'.fsm = e.fsm ++ [d] := by rw [hx]
    rw [hf] at hx'
    simp at hx'
  · exact .inr (hplain (by simp [h0]) (by simp [h1]))
  · exact absurd hinp hreg
  · exact .inr (hplain (by simp [h0]) (by simp [h1]))
  · exact .inr (hplain (by simp [h0]) (by simp [h1]))

/-- Off a registration, a section that leaves the log alone leaves the
history alone. -/
theorem stands_of_log (h : e.step ev = some e')
    (hreg : ev.input ≠ .register) (hl : e'.toLog = e.toLog) :
    e.Stands e' := by
  have hf : e'.fsm = e.fsm := congrArg Log.fsm hl
  refine .of_log hl ?_
  rcases still_stage h hreg hf with hs | ⟨h0, h1⟩
  · exact history_congr hs hf
  · rw [history_of_midWrite h0, history_of_midWrite h1, hf]

/-- How a section moves the frontier and the history behind it. -/
theorem step_history (hd : e.toLog.Dated) (hf : e.forgets ev = false)
    (hs : e.slips ev = false) (h : e.step ev = some e') :
    e.Stands e'
    ∨ (∃ E isr d, ev.input = .register ∧ e.stage = .applied E isr d
        ∧ e'.frontier = (e.frontier.1 + 1, E) ∧ e'.history = e.fsm
        ∧ e'.poisoned = e.poisoned)
    ∨ (∃ ms, ms ≠ [] ∧ (∀ m ∈ ms, ev.input.Delivers m ∧ e.Between e' m)
        ∧ e.history = e.fsm ∧ e'.history = e'.fsm
        ∧ e.toLog.Receives ms e'.toLog)
    ∨ ∃ s out, ev.input = .installSnapshot s out ∧ e.stage = .idle
        ∧ e'.stage = .idle ∧ e.installAborts s = false
        ∧ e'.toLog = e.toLog.afterInstall s out := by
  by_cases hreg : ev.input = .register
  · obtain ⟨⟨E, isr, d, hst⟩, hmid⟩ := register_window h hreg
    have hl := register_log h hreg hst
    refine .inr (.inl ⟨E, isr, d, hreg, hst, ?_, ?_, ?_⟩)
    · rw [hl, Log.assign_frontier]
    · rw [history_of_midWrite hmid, hl]
      rfl
    · rw [hl]
      rfl
  rcases step_log h with hl | ⟨E, isr, d, -, h0, h1, hl⟩
    | ⟨E, isr, d, hinp, -⟩ | ⟨ms, hms, hr⟩
    | ⟨E, x, hinp, hE, hpo, hl⟩ | ⟨s, out, hinp, hidle, hab, hl⟩
  · exact .inl (stands_of_log h hreg hl)
  · left
    refine ⟨by rw [hl]; rfl, ?_, by rw [hl]⟩
    unfold history
    rw [midWrite_of_stage h1, midWrite_eq_false (e := e) (by simp [h0]), hl]
    simp
  · exact absurd hinp hreg
  · by_cases hl : e'.toLog = e.toLog
    · exact .inl (stands_of_log h hreg hl)
    · rcases hr.eq_or_mem with heq | ⟨m, hm⟩
      · exact absurd heq hl
      · have hdel := (hms m hm).1
        have hout := receives_outside hs h hdel hl
        have hout' : e'.midWrite = false := by
          rw [midWrite_congr (delivers_stage h hdel), hout]
        exact .inr (.inr (.inl ⟨ms, List.ne_nil_of_mem hm, hms,
          history_of_midWrite hout, history_of_midWrite hout', hr⟩))
  · left
    have hq : e'.toOutgoing = e.toOutgoing :=
      step_agree h .outgoing (by rw [hinp]; simp [Input.writes])
    have hle := lastSeq_le_of_promote hf hinp hE hpo
    refine ⟨by rw [hl, promoted_frontier_of_le hd hle], ?_, by rw [hl]; rfl⟩
    exact history_congr (congrArg Outgoing.stage hq) (by rw [hl]; rfl)
  · have hq : e'.toOutgoing = e.toOutgoing :=
      step_agree h .outgoing (by rw [hinp]; simp [Input.writes])
    have hidle' : e'.stage = .idle := (congrArg Outgoing.stage hq).trans hidle
    exact .inr (.inr (.inr ⟨s, out, hinp, hidle, hidle', hab, hl⟩))

/-- Off installs a history only grows. -/
theorem history_grows (hd : e.toLog.Dated) (hf : e.forgets ev = false)
    (hs : e.slips ev = false) (h : e.step ev = some e')
    (hi : ∀ s out, ev.input = .installSnapshot s out →
      e.installAborts s = true) : e.history <+: e'.history := by
  rcases step_history hd hf hs h with hst | ⟨E, isr, d, -, h0, -, hh, -⟩
    | ⟨ms, -, -, h0, h1, hr⟩ | ⟨s, out, hinp, -, -, hab, -⟩
  · rw [hst.history]
  · have hold : e.history = e.fsm.dropLast := by
      unfold history
      rw [midWrite_of_stage h0, if_pos rfl]
    rw [hold, hh]
    exact List.dropLast_prefix _
  · rw [h0, h1, hr.appends.1]
    exact List.prefix_append _ _
  · rw [hi s out hinp] at hab
    cases hab

/-- Nothing is proposed behind the poison latch. -/
theorem step_quiet (hq : e.poisoned = true → e.stage = .idle)
    (h : e.step ev = some e') (hpo : e'.poisoned = true) :
    e'.stage = .idle := by
  by_cases hi : ∃ s out, ev.input = .installSnapshot s out
  · obtain ⟨s, out, hinp⟩ := hi
    have hst : e'.toOutgoing = e.toOutgoing :=
      step_agree h .outgoing (by rw [hinp]; simp [Input.writes])
    obtain ⟨now, i⟩ := ev
    subst hinp
    exact (congrArg Outgoing.stage hst).trans (locked_eq_some h).1
  · rw [(step_appends h fun s out hx => hi ⟨s, out, hx⟩).2] at hpo
    have hidle := hq hpo
    rcases step_stage h with h1 | ⟨p, i, n, d', -, -, hn, -⟩
      | ⟨E', i, d', h0, -⟩ | ⟨E', i, d', ps, ls, v, -, h0, -⟩
      | ⟨x, ps, ls, v, h0, -⟩
    · exact h1.trans hidle
    · simp [proposeRefusal, hpo] at hn
    all_goals cases hidle.symm.trans h0

end Engine

end Rostam.Pbisr
