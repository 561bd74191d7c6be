/-
How a node's log moves.

The log is the pair of role watermarks with their epochs, the FSM and
the poison latch. Five moves write it: the local apply (the FSM alone),
the registration, an accepted frame, a promotion and an install.
`step_log` is the inversion over every section; each move comes with the
frontier it leaves.
-/
import Rostam.Pbisr.Proofs.Tenure

namespace Rostam.Pbisr

open Rostam.Lib

-- ======== the moves

namespace Log

variable {l : Log} {m : ReplicateMsg}

variable {ms : List ReplicateMsg}

/-- The registration's move: the assigned seq under `E`. -/
def assign (l : Log) (E : Nat) : Log :=
  { l with
    lastSeq := l.frontier.1 + 1
    lastSeqEpoch := E
    epochAt := setEpochAt l.epochAt (l.frontier.1 + 1) E }

/-- The log-matching check: `m` extends exactly this history. -/
def Extends (l : Log) (m : ReplicateMsg) : Prop :=
  l.poisoned = false ∧ m.seq = m.prevSeq + 1
    ∧ (m.prevSeq, m.prevEpoch) = l.frontier

/-- The receive path's move. -/
def accept (l : Log) (m : ReplicateMsg) : Log :=
  { l with
    fsm := l.fsm ++ [m.data]
    lastApplied := m.seq
    lastAppliedEpoch := m.epoch
    epochAt := setEpochAt l.epochAt m.seq m.epoch }

/-- The promotion's move: seq assignment continues from the backup
role's watermark. -/
def promoted (l : Log) : Log :=
  { l with lastSeq := l.lastApplied, lastSeqEpoch := l.lastAppliedEpoch }

/-- The install's move, past the abort branch. -/
def afterInstall (l : Log) (s : Snapshot) : Engine.InstallOutcome → Log
  | .fsmErr g => { l with poisoned := true, fsm := g }
  | .commitErr => { replaced with poisoned := true }
  | .ok => { replaced with poisoned := false }
where
  /-- The log of the installed state. -/
  replaced : Log :=
    { l with
      fsm := s.blob
      lastApplied := s.frontierSeq
      lastAppliedEpoch := s.frontierEpoch
      lastSeq := s.frontierSeq
      lastSeqEpoch := s.frontierEpoch
      epochAt := setEpochAt l.epochAt s.frontierSeq s.frontierEpoch }

@[simp]
theorem assign_frontier (l : Log) (E : Nat) :
    (l.assign E).frontier = (l.frontier.1 + 1, E) := by
  have h := Engine.lastApplied_le_frontier l
  show (if l.frontier.1 + 1 < l.lastApplied then _ else _) = _
  rw [if_neg (by omega)]
  rfl

theorem accept_frontier (h : l.Extends m) :
    (l.accept m).frontier = (m.seq, m.epoch) := by
  have hle := Engine.lastSeq_le_frontier l
  obtain ⟨-, hs, hf⟩ := h
  rw [← hf] at hle
  have hle' : l.lastSeq ≤ m.prevSeq := hle
  show (if l.lastSeq < m.seq then _ else _) = _
  rw [if_pos (by omega)]
  rfl

/-- An accepted frame moves the frontier by one. -/
theorem Extends.seq (h : l.Extends m) : m.seq = l.frontier.1 + 1 := by
  obtain ⟨-, hs, hf⟩ := h
  rw [hs, ← hf]

@[simp]
theorem promoted_frontier (l : Log) :
    l.promoted.frontier = (l.lastApplied, l.lastAppliedEpoch) := by
  show (if l.lastApplied < l.lastApplied then _ else _) = _
  rw [if_neg (Nat.lt_irrefl _)]
  rfl

/-- An install whose state went in reports the installed identity. -/
theorem afterInstall_frontier (l : Log) (s : Snapshot)
    {out : Engine.InstallOutcome} (h : ∀ g, out ≠ .fsmErr g) :
    (l.afterInstall s out).frontier = (s.frontierSeq, s.frontierEpoch) := by
  cases out with
  | fsmErr g => exact absurd rfl (h g)
  | commitErr | ok =>
    show (if s.frontierSeq < s.frontierSeq then _ else _) = _
    rw [if_neg (Nat.lt_irrefl _)]
    rfl

/-- A run of accepted frames. An accepted frame's epoch is adopted, so
the epochs of a run never fall. -/
inductive Receives (l : Log) : List ReplicateMsg → Log → Prop
  | nil : Receives l [] l
  | snoc {ms : List ReplicateMsg} {l₁ : Log} {m : ReplicateMsg} :
      Receives l ms l₁ → (∀ x ∈ ms, x.epoch ≤ m.epoch) → l₁.Extends m →
      Receives l (ms ++ [m]) (l₁.accept m)

/-- A run of accepted frames, from its front. -/
theorem Receives.cons {l l' : Log} {m : ReplicateMsg} (hx : l.Extends m)
    (hup : ∀ x ∈ ms, m.epoch ≤ x.epoch) (hr : (l.accept m).Receives ms l') :
    l.Receives (m :: ms) l' := by
  induction hr with
  | nil =>
    have h : l.Receives ([] ++ [m]) (l.accept m) := .snoc .nil (by simp) hx
    exact h
  | @snoc ms l₁ m' _ hup' hx' ih =>
    have ih := ih fun x hm => hup x (List.mem_append_left _ hm)
    rw [← List.cons_append]
    refine .snoc ih (fun x hm => ?_) hx'
    rcases List.mem_cons.1 hm with rfl | hm
    · exact hup m' (by simp)
    · exact hup' x hm

/-- A run of frames appends its payloads and leaves the latch. -/
theorem Receives.appends {l' : Log} (h : l.Receives ms l') :
    l'.fsm = l.fsm ++ ms.map ReplicateMsg.data ∧ l'.poisoned = l.poisoned := by
  induction h with
  | nil => exact ⟨(List.append_nil _).symm, rfl⟩
  | @snoc ms l₁ m _ _ _ ih =>
    refine ⟨?_, ih.2⟩
    show l₁.fsm ++ [m.data] = _
    rw [ih.1, List.map_append, List.append_assoc]
    rfl

/-- Behind the latch nothing is accepted. -/
theorem Receives.not_poisoned {l' : Log}
    {m : ReplicateMsg} (h : l.Receives ms l') (hm : m ∈ ms) :
    l.poisoned = false := by
  cases h with
  | nil => cases hm
  | snoc hr _ hx =>
    rw [← hr.appends.2]
    exact hx.1

end Log

/-- The input delivers frame `m`. -/
def Input.Delivers : Input → ReplicateMsg → Prop
  | .receive msg _, m => m = msg
  | .receiveGroup msgs, m => ∃ ok, (m, ok) ∈ msgs
  | _, _ => False

namespace Engine

variable {e e' : Engine} {ev : Event}

-- ======== the inversion

theorem adoptEpoch_log (e : Engine) (E now : Nat) :
    (e.adoptEpoch E now).toLog = e.toLog := by
  obtain ⟨t, mb, pl, h⟩ := adoptEpoch_modifies e E now
  rw [h]

/-- One frame: refused and not acked, or accepted and acked exactly. -/
theorem receiveLocked_log (e : Engine) (msg : ReplicateMsg) (ok : Bool)
    (now : Nat) :
    (e.receiveLocked msg ok now).1.toLog = e.toLog
        ∧ (e.receiveLocked msg ok now).2.ok = false
      ∨ e.toLog.Extends msg ∧ e.epoch ≤ msg.epoch
        ∧ (e.receiveLocked msg ok now).1.epoch = msg.epoch
        ∧ (e.receiveLocked msg ok now).1.toLog = e.toLog.accept msg
        ∧ (e.receiveLocked msg ok now).2 = ⟨msg.epoch, msg.seq, true⟩ := by
  unfold receiveLocked
  split
  · exact .inl ⟨rfl, rfl⟩
  · next hpo =>
    split
    · exact .inl ⟨rfl, rfl⟩
    · next hep =>
      have hlog := adoptEpoch_log e msg.epoch now
      unfold receiveBody
      split
      · exact .inl ⟨hlog, rfl⟩
      · next hseq =>
        split
        · exact .inl ⟨hlog, rfl⟩
        · next hfr =>
          split
          · exact .inl ⟨hlog, rfl⟩
          · simp only [ne_eq, Decidable.not_not] at hseq hfr
            refine .inr ⟨⟨by simpa using hpo, hseq, ?_⟩,
              Nat.le_of_not_lt hep, ?_, ?_, rfl⟩
            · rw [hfr, hlog]
            · show (e.adoptEpoch msg.epoch now).toTenure.epoch = _
              rw [adoptEpoch_tenure]
              exact Nat.max_eq_right (Nat.le_of_not_lt hep)
            · rw [← hlog]
              rfl

/-- A frame accepted between two watermarks. -/
def Between (e e' : Engine) (m : ReplicateMsg) : Prop :=
  e.epoch ≤ m.epoch ∧ m.epoch ≤ e'.epoch

theorem le_receiveLocked (e : Engine) (msg : ReplicateMsg) (ok : Bool)
    (now : Nat) : e.epoch ≤ (e.receiveLocked msg ok now).1.epoch := by
  rcases receiveLocked_tenure e msg ok now with h | ⟨hlt, h⟩
  · rw [h]
  · rw [h]
    exact Nat.le_of_lt hlt

/-- The newest seq of a run, or where it started. -/
def reached (lastOK : Nat) (ms : List ReplicateMsg) : Nat :=
  (ms.getLast?.map ReplicateMsg.seq).getD lastOK

theorem reached_cons (lastOK : Nat) (m : ReplicateMsg)
    (ms : List ReplicateMsg) :
    reached lastOK (m :: ms) = reached m.seq ms := by
  cases ms with
  | nil => rfl
  | cons m' ms =>
    unfold reached
    rw [List.getLast?_cons_cons]
    rfl

/-- A receiver accepts a prefix of a group and answers for it. -/
structure Accepts (e : Engine) (msgs : List ReplicateMsg) (lastOK : Nat)
    (x : Engine × AckMsg) (ms : List ReplicateMsg) : Prop where
  front : ms <+: msgs
  receives : e.toLog.Receives ms x.1.toLog
  between : ∀ m ∈ ms, e.Between x.1 m
  full : x.2.ok = true → ms = msgs
  partly : x.2.ok = false → x.2.seq = reached lastOK ms

theorem receiveRun_accepts {now epoch : Nat} :
    ∀ (msgs : List (ReplicateMsg × Bool)) (e : Engine) (lastOK : Nat),
      ∃ ms, e.Accepts (msgs.map Prod.fst) lastOK
        (receiveRun now epoch e lastOK msgs) ms := by
  intro msgs
  induction msgs with
  | nil =>
    intro e lastOK
    exact ⟨[], List.prefix_rfl, .nil, by simp, fun _ => rfl,
      fun h => by cases h⟩
  | cons x rest ih =>
    intro e lastOK
    obtain ⟨m, ok⟩ := x
    unfold receiveRun
    rcases receiveLocked_log e m ok now with ⟨hl, hno⟩
      | ⟨hx, hlo, hhi, hl, hack⟩
    · refine ⟨[], ?_⟩
      simp only [hno, Bool.false_eq_true, if_false]
      refine ⟨List.nil_prefix, ?_, by simp, (fun h => by cases h),
        fun _ => rfl⟩
      rw [hl]
      exact .nil
    · simp only [hack, if_true]
      obtain ⟨ms, hms⟩ := ih (e.receiveLocked m ok now).1 m.seq
      have hup : ∀ y ∈ ms, m.epoch ≤ y.epoch := fun y hy => by
        rw [← hhi]
        exact (hms.between y hy).1
      have hr := hms.receives
      rw [hl] at hr
      have hle : (e.receiveLocked m ok now).1.epoch
          ≤ (receiveRun now epoch (e.receiveLocked m ok now).1 m.seq
            rest).1.epoch := by
        refine receiveRun_ind (P := fun x =>
          (e.receiveLocked m ok now).1.epoch ≤ x.epoch) rest _ _
          (fun x msg ok' _ hx => ?_) le_rfl
        exact Nat.le_trans hx (le_receiveLocked x msg ok' now)
      refine ⟨m :: ms, ?_, .cons hx hup hr, ?_, ?_, ?_⟩
      · exact (List.prefix_cons_inj m).2 hms.front
      · intro y hy
        rcases List.mem_cons.1 hy with rfl | hy
        · exact ⟨hlo, hhi ▸ hle⟩
        · have := hms.between y hy
          exact ⟨by have := this.1; omega, this.2⟩
      · intro h
        rw [hms.full h]
        rfl
      · intro h
        rw [reached_cons]
        exact hms.partly h

/-- `ReceiveGroup` accepts a prefix of its frames and answers for it. -/
theorem receiveGroup_accepts (e : Engine) (m : ReplicateMsg) (ok : Bool)
    (rest : List (ReplicateMsg × Bool)) (now : Nat) :
    ∃ ms, e.Accepts (m :: rest.map Prod.fst) (m.seq - 1)
      (e.receiveGroup ((m, ok) :: rest) now) ms := by
  show ∃ ms, e.Accepts _ _ (if m.seq = 0 then _ else _) ms
  split
  · next h0 =>
    exact ⟨[], List.nil_prefix, .nil, by simp, (fun h => by cases h),
      fun _ => by rw [h0]; rfl⟩
  · exact receiveRun_accepts ((m, ok) :: rest) e (m.seq - 1)

/-- A group accepts a run of its frames. -/
theorem receiveGroup_log (e : Engine)
    (msgs : List (ReplicateMsg × Bool)) (now : Nat) :
    ∃ ms, (∀ m ∈ ms, (∃ ok, (m, ok) ∈ msgs)
        ∧ e.Between (e.receiveGroup msgs now).1 m)
      ∧ e.toLog.Receives ms (e.receiveGroup msgs now).1.toLog := by
  cases msgs with
  | nil => exact ⟨[], by simp, .nil⟩
  | cons x rest =>
    obtain ⟨m, ok⟩ := x
    obtain ⟨ms, hms⟩ := receiveGroup_accepts e m ok rest now
    refine ⟨ms, fun y hy => ⟨?_, hms.between y hy⟩, hms.receives⟩
    have hmem : y ∈ ((m, ok) :: rest).map Prod.fst := hms.front.subset hy
    obtain ⟨⟨z, ok'⟩, hz, rfl⟩ := List.mem_map.1 hmem
    exact ⟨ok', hz⟩

theorem installSnapshot_log (e : Engine) (s : Snapshot)
    (out : InstallOutcome) (h : e.installAborts s = false) :
    (e.installSnapshot s out).toLog = e.toLog.afterInstall s out := by
  unfold installSnapshot
  rw [if_neg (by simp [h])]
  cases out <;> rfl

/-- How a section moves the log. -/
theorem step_log (h : e.step ev = some e') :
    e'.toLog = e.toLog
    ∨ (∃ E isr d, ev.input = .applyLocal true
        ∧ e.stage = .fenced E isr d ∧ e'.stage = .applied E isr d
        ∧ e'.toLog = { e.toLog with fsm := e.fsm ++ [d] })
    ∨ (∃ E isr d, ev.input = .register ∧ e.stage = .applied E isr d
        ∧ e'.toLog = e.toLog.assign E)
    ∨ (∃ ms, (∀ m ∈ ms, ev.input.Delivers m ∧ e.Between e' m)
        ∧ e.toLog.Receives ms e'.toLog)
    ∨ (∃ E x, ev.input = .promote E x ∧ e.epoch < E
        ∧ e.poisoned = false ∧ e'.toLog = e.toLog.promoted)
    ∨ ∃ s out, ev.input = .installSnapshot s out ∧ e.stage = .idle
        ∧ e.installAborts s = false
        ∧ e'.toLog = e.toLog.afterInstall s out := by
  by_cases hw : Part.log ∈ ev.input.writes
  swap
  · exact .inl (step_agree h .log hw)
  obtain ⟨now, i⟩ := ev
  cases i <;> try (simp [Input.writes] at hw; done)
  case applyLocal ok =>
      simp only [step, applyLocal] at h
      split at h
      · next E isr d hst =>
        split at h
        · next hok =>
          subst hok
          cases h
          exact .inr (.inl ⟨E, isr, d, rfl, hst, rfl, rfl⟩)
        · cases h
          exact .inl rfl
      · cases h
  case register =>
      obtain ⟨E, isr, d, pl, hst, -, rfl⟩ := register_cases h
      exact .inr (.inr (.inl ⟨E, isr, d, rfl, hst, rfl⟩))
  case promote E x =>
      cases h
      unfold promote
      split
      · exact .inl rfl
      · next hE =>
        split
        · exact .inl rfl
        · next hpo =>
          exact .inr (.inr (.inr (.inr (.inl ⟨E, x, rfl,
            Nat.lt_of_not_le hE, by simpa using hpo, rfl⟩))))
  case receive msg ok =>
      cases h
      rcases receiveLocked_log e msg ok now with ⟨h, -⟩
        | ⟨hx, hlo, hhi, h, -⟩
      · exact .inl h
      · refine .inr (.inr (.inr (.inl ⟨[msg], fun m hm => ?_, ?_⟩)))
        · obtain rfl := List.mem_singleton.1 hm
          exact ⟨rfl, hlo, Nat.le_of_eq hhi.symm⟩
        · rw [h]
          exact .snoc .nil (by simp) hx
  case receiveGroup msgs =>
      cases h
      obtain ⟨ms, hms, hr⟩ := receiveGroup_log e msgs now
      exact .inr (.inr (.inr (.inl ⟨ms, hms, hr⟩)))
  case installSnapshot s out =>
      obtain ⟨hidle, rfl⟩ := locked_eq_some h
      by_cases hab : e.installAborts s = true
      · left
        unfold installSnapshot
        rw [if_pos hab]
      · have hab' : e.installAborts s = false := by simpa using hab
        exact .inr (.inr (.inr (.inr (.inr ⟨s, out, rfl, hidle, hab',
          installSnapshot_log e s out hab'⟩))))

/-- A registration assigns the seq past the frontier. -/
theorem register_log {E : Nat} {isr : List NodeID} {d : Data}
    (h : e.step ev = some e') (hinp : ev.input = .register)
    (hst : e.stage = .applied E isr d) : e'.toLog = e.toLog.assign E := by
  obtain ⟨now, i⟩ := ev
  subst hinp
  obtain ⟨E', isr', d', pl, hst', -, he⟩ := register_cases h
  cases hst.symm.trans hst'
  rw [he]
  rfl

/-- A section other than an install appends to the FSM and leaves the
latch. -/
theorem step_appends (h : e.step ev = some e')
    (hi : ∀ s out, ev.input ≠ .installSnapshot s out) :
    (∃ ds, e'.fsm = e.fsm ++ ds) ∧ e'.poisoned = e.poisoned := by
  rcases step_log h with hl | ⟨E, isr, d, -, -, -, hl⟩
    | ⟨E, isr, d, -, -, hl⟩ | ⟨ms, -, hr⟩ | ⟨E, x, -, -, -, hl⟩
    | ⟨s, out, hinp, -, -, -⟩
  · rw [hl]
    exact ⟨⟨[], (List.append_nil _).symm⟩, rfl⟩
  · rw [hl]
    exact ⟨⟨[d], rfl⟩, rfl⟩
  · rw [hl]
    exact ⟨⟨[], (List.append_nil _).symm⟩, rfl⟩
  · exact ⟨⟨_, hr.appends.1⟩, hr.appends.2⟩
  · rw [hl]
    exact ⟨⟨[], (List.append_nil _).symm⟩, rfl⟩
  · exact absurd hinp (hi s out)

end Engine

end Rostam.Pbisr
