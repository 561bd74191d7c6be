/-
Log matching: what a frontier names is the same on every node.

The carrier is the set of writes that were ever registered, `Wrote`:
which seq and epoch, and what the proposer had materialized with the
write on top. It only grows, and it is a function of (seq, epoch): the
one node an epoch belongs to numbers its writes past everything it wrote
in that epoch before. Every frame on the wire and every slot of a
catch-up ring carries one write on top of another, every taken snapshot
is the history of one, and so what a node at rest has materialized is
always what its frontier's write was registered over.

One kind of frame breaks the chain. A proposal that captured `E` and
was overtaken, between its Apply and its registration, by frames of a
newer epoch is registered over a frontier of that newer epoch, on top of
an FSM that took its payload first. Its frame is harmless: it asks for a
frontier whose epoch is above its own, and a node that has one refuses
the frame for its epoch.

The run is asked for one primary an epoch (`Granted`) and for sections
that do not part a frontier from the FSM under it (`Engine.forgets`).
-/
import Rostam.Cluster.Replicas
import Rostam.Pbisr.Proofs.History
import Rostam.Pbisr.Proofs.Frontier
import Rostam.Pbisr.Proofs.Learners

namespace Rostam.Cluster

open Rostam.Lib Rostam.Pbisr

-- ======== the writes

/-- The writes of a shard: `W s E h` says that the write `(s, E)` has
history `h`, its own payload last. -/
abbrev Writes := Nat → Nat → List Data → Prop

/-- The registered writes, and the empty log everyone starts from. -/
def Wrote (S : Replicas) : Writes := fun s E h =>
  (s = 0 ∧ E = 0 ∧ h = [])
    ∨ ∃ n, ∃ r ∈ (S.eng n).pl.recs, r.seq = s ∧ r.epoch = E ∧ r.hist = h

/-- A write is known by its seq and epoch, and its history counts its
seq. -/
structure Writes.Lawful (W : Writes) : Prop where
  unique : ∀ {s E : Nat} {h h' : List Data}, W s E h → W s E h' → h = h'
  length : ∀ {s E : Nat} {h : List Data}, W s E h → h.length = s

/-- The frame carries a write, on top of another unless it was
overtaken. -/
structure FrameOk (W : Writes) (m : ReplicateMsg) : Prop where
  seq : m.seq = m.prevSeq + 1
  wrote : ∃ h, W m.seq m.epoch h
  chain : m.prevEpoch ≤ m.epoch →
    ∃ h, W m.prevSeq m.prevEpoch h ∧ W m.seq m.epoch (h ++ [m.data])

theorem FrameOk.mono {W W' : Writes} {m : ReplicateMsg}
    (hW : ∀ {s E h}, W s E h → W' s E h) (h : FrameOk W m) :
    FrameOk W' m := by
  obtain ⟨hs, ⟨h₁, hw⟩, hc⟩ := h
  refine ⟨hs, ⟨h₁, hW hw⟩, fun hle => ?_⟩
  obtain ⟨h₂, hp, hm⟩ := hc hle
  exact ⟨h₂, hW hp, hW hm⟩

section Receives

variable {l l' : Log} {ms : List ReplicateMsg}

/-- A run ends where it began or in the epoch of one of its frames. -/
theorem Receives.frontier_epoch (hr : l.Receives ms l') :
    l' = l ∨ ∃ x ∈ ms, l'.frontier.2 = x.epoch := by
  cases hr with
  | nil => exact .inl rfl
  | snoc _ _ hx =>
    rw [Log.accept_frontier hx]
    exact .inr ⟨_, by simp, rfl⟩

/-- A run counts its frames, each above the frontier it found. -/
theorem Receives.seqs (hr : l.Receives ms l') :
    l'.frontier.1 = l.frontier.1 + ms.length
      ∧ ∀ m ∈ ms, l.frontier.1 < m.seq := by
  induction hr with
  | nil => exact ⟨rfl, by simp⟩
  | @snoc ms l₁ m _ _ hx ih =>
    have hseq := hx.seq
    refine ⟨?_, fun x hm => ?_⟩
    · rw [Log.accept_frontier hx, List.length_append]
      show m.seq = _
      rw [hseq, ih.1]
      rfl
    · rcases List.mem_append.1 hm with hm | hm
      · exact ih.2 x hm
      · rw [List.mem_singleton.1 hm]
        omega

/-- Frames that extend what a log names leave it naming a write. -/
theorem Receives.wrote {W : Writes} (hW : W.Lawful) (hr : l.Receives ms l')
    (hms : ∀ m ∈ ms, FrameOk W m) (hep : ∀ m ∈ ms, l.frontier.2 ≤ m.epoch)
    (hl : W l.frontier.1 l.frontier.2 l.fsm) :
    W l'.frontier.1 l'.frontier.2 l'.fsm := by
  induction hr with
  | nil => exact hl
  | @snoc ms l₁ m hr hup hx ih =>
    have ih := ih (fun x hm => hms x (List.mem_append_left _ hm))
      fun x hm => hep x (List.mem_append_left _ hm)
    have hprev : m.prevEpoch ≤ m.epoch := by
      have h2 : m.prevEpoch = l₁.frontier.2 := by rw [← hx.2.2]
      rcases Receives.frontier_epoch hr with h | ⟨x, hm, h⟩
      · rw [h2, h]
        exact hep m (by simp)
      · rw [h2, h]
        exact hup x hm
    obtain ⟨h, hp, hm⟩ := (hms m (by simp)).chain hprev
    rw [← hx.2.2] at ih
    rw [Log.accept_frontier hx]
    show W m.seq m.epoch (l₁.fsm ++ [m.data])
    rw [hW.unique ih hp]
    exact hm

/-- Every frame of such a run is behind what the log names. -/
theorem Receives.mem_wrote {W : Writes} (hW : W.Lawful)
    (hr : l.Receives ms l') (hms : ∀ m ∈ ms, FrameOk W m)
    (hep : ∀ m ∈ ms, l.frontier.2 ≤ m.epoch)
    (hl : W l.frontier.1 l.frontier.2 l.fsm) {f : ReplicateMsg}
    (hf : f ∈ ms) : ∃ h, W f.seq f.epoch h ∧ h <+: l'.fsm := by
  have hend := Receives.wrote hW hr hms hep hl
  induction hr with
  | nil => cases hf
  | @snoc ms l₁ m hr _ hx ih =>
    rcases List.mem_append.1 hf with hf | hf
    · have hms' : ∀ x ∈ ms, FrameOk W x :=
        fun x hm => hms x (List.mem_append_left _ hm)
      have hep' : ∀ x ∈ ms, l.frontier.2 ≤ x.epoch :=
        fun x hm => hep x (List.mem_append_left _ hm)
      obtain ⟨h, hw, hpre⟩ := ih hms' hep' hf
        (Receives.wrote hW hr hms' hep' hl)
      exact ⟨h, hw, hpre.trans (List.prefix_append _ _)⟩
    · rw [List.mem_singleton.1 hf]
      rw [Log.accept_frontier hx] at hend
      exact ⟨_, hend, List.prefix_rfl⟩

end Receives

variable {e : Engine} {W : Writes}

-- ======== one node

/-- What a node has materialized, as its frontier names it. Inside the
window between an Apply and its registration that is one payload behind
the FSM, unless a frame of a newer epoch slipped in. -/
structure Named (W : Writes) (e : Engine) : Prop where
  rest : e.midWrite = false → W e.frontier.1 e.frontier.2 e.fsm
  length : ∀ E isr d, e.stage = .applied E isr d →
    e.fsm.length = e.frontier.1 + 1
  window : ∀ E isr d, e.stage = .applied E isr d → e.frontier.2 ≤ E →
    W e.frontier.1 e.frontier.2 e.history ∧ e.fsm = e.history ++ [d]

theorem Named.mono {W W' : Writes}
    (hW : ∀ {s E h}, W s E h → W' s E h) (h : Named W e) : Named W' e where
  rest := fun hm => hW (h.rest hm)
  length := h.length
  window := fun E isr d hst hle =>
    ⟨hW (h.window E isr d hst hle).1, (h.window E isr d hst hle).2⟩

/-- Outside the window the FSM is what the frontier names. -/
theorem Named.of_rest (h : e.midWrite = false)
    (hw : W e.frontier.1 e.frontier.2 e.fsm) : Named W e := by
  have hno : ∀ E isr d, e.stage ≠ .applied E isr d := by
    intro E isr d hx
    rw [Engine.midWrite_of_stage hx] at h
    cases h
  exact ⟨fun _ => hw, fun E isr d hx => absurd hx (hno E isr d),
    fun E isr d hx => absurd hx (hno E isr d)⟩

/-- A section that leaves frontier, FSM and window alone. -/
theorem Named.still {e e' : Engine} (h : Named W e)
    (hf : e'.frontier = e.frontier) (hfsm : e'.fsm = e.fsm)
    (hst : e'.stage = e.stage ∨ e.midWrite = false ∧ e'.midWrite = false) :
    Named W e' := by
  rcases hst with hst | ⟨h0, h1⟩
  · refine ⟨?_, ?_, ?_⟩
    · rw [Engine.midWrite_congr hst, hf, hfsm]
      exact h.rest
    · rw [hst, hf, hfsm]
      exact h.length
    · rw [hst, hf, hfsm, Engine.history_congr hst hfsm]
      exact h.window
  · refine .of_rest h1 ?_
    rw [hf, hfsm]
    exact h.rest h0

/-- What the writes `W` mean at node `n`, `prim E` being the node epoch
`E` belongs to. -/
structure NodeOk (prim : Nat → NodeID) (W : Writes) (n : NodeID)
    (e : Engine) : Prop where
  id : e.nodeID = n
  wf : e.Wf
  dated : e.toLog.Dated
  quiet : e.poisoned = true → e.stage = .idle
  behind : e.lastSeqEpoch ≤ e.epoch ∧ e.lastAppliedEpoch ≤ e.epoch
  leased : Engine.Leased prim e
  own : ∀ r ∈ e.pl.recs, prim r.epoch = n
  captures : ∀ E, Captures e E → prim E = n
  log : e.poisoned = false → Named W e
  /- What an epoch's own node wrote in it lies below its frontier while
  it can still write in it. -/
  high : ∀ s E h, prim E = n → e.epoch = E ∨ Captures e E → W s E h →
    s ≤ e.frontier.1
  held : ∀ m, e.toOutgoing.Holds m → FrameOk W m
  ring : ∀ j, (e.backlog.slots j).seq = 0 ∨ FrameOk W (e.backlog.slots j).frame
  target : ∀ g, e.grow = some g → g.peer ≠ n

theorem NodeOk.frontier_le_epoch {prim : Nat → NodeID}
    {n : NodeID} (h : NodeOk prim W n e) :
    e.frontier.2 ≤ e.epoch := by
  unfold Log.frontier
  split
  · exact h.behind.2
  · exact h.behind.1

/-- The replicas agree on what was written. -/
structure LogInv (prim : Nat → NodeID) (S : Replicas) : Prop where
  lawful : (Wrote S).Lawful
  node : ∀ n, NodeOk prim (Wrote S) n (S.eng n)
  reached : ∀ {s E : Nat} {h : List Data}, Wrote S s E h →
    E ≤ (S.eng (prim E)).epoch
  sent : ∀ x ∈ S.sent, ∀ m ∈ x.msgs, FrameOk (Wrote S) m
  transfers : ∀ x ∈ S.transfers, x.src ≠ x.dst
    ∧ prim x.snap.epoch = x.src ∧ x.snap.frontierEpoch ≤ x.snap.epoch
    ∧ Wrote S x.snap.frontierSeq x.snap.frontierEpoch x.snap.blob

/-- One primary an epoch, and nothing that parts a frontier from the FSM
under it. -/
def Mindful (prim : Nat → NodeID) (S : Replicas) (a : Act) : Prop :=
  Engine.Granted prim (S.eng a.node) a.ev ∧ (S.eng a.node).forgets a.ev = false

-- ======== the step

variable {prim : Nat → NodeID} {S S' : Replicas} {a : Act} {e' : Engine}

variable {n : NodeID} {E : Nat} {isr : List NodeID} {d : Data}
  {e : Engine} {ev : Event} {m : ReplicateMsg}

theorem step_eq_some (h : S.step a = some S') :
    S.backed a = true
      ∧ ∃ e', (S.eng a.node).step a.ev = some e' ∧ S' = S.after a e' := by
  unfold Replicas.step at h
  split at h
  · next hb =>
    obtain ⟨e', he, rfl⟩ := Option.map_eq_some_iff.1 h
    exact ⟨hb, e', he, rfl⟩
  · cases h

theorem after_self : (S.after a e').eng a.node = e' := if_pos rfl

theorem after_of_ne (h : n ≠ a.node) :
    (S.after a e').eng n = S.eng n := if_neg h

/-- The captured epoch's own node registers past all it wrote in it. -/
theorem LogInv.fresh (hi : LogInv prim S) {hist : List Data}
    (hst : (S.eng a.node).stage = .applied E isr d) :
    ¬ Wrote S ((S.eng a.node).frontier.1 + 1) E hist := by
  intro hw
  have hcap : Captures (S.eng a.node) E := ⟨isr, d, .inr hst⟩
  have hn := hi.node a.node
  have := hn.high _ _ _ (hn.captures E hcap) (.inr hcap) hw
  omega

/-- A proposal past its fence is not poisoned. -/
theorem LogInv.proposer (hi : LogInv prim S)
    
    (hst : (S.eng a.node).stage = .applied E isr d) :
    Named (Wrote S) (S.eng a.node) := by
  have hn := hi.node a.node
  refine hn.log ?_
  cases hpo : (S.eng a.node).poisoned with
  | false => rfl
  | true => cases hst.symm.trans (hn.quiet hpo)

/-- The registered write is among the writes. -/
theorem wrote_new 
    (h : (S.eng a.node).step a.ev = some e')
    (hinp : a.ev.input = .register)
    (hst : (S.eng a.node).stage = .applied E isr d) :
    Wrote (S.after a e') ((S.eng a.node).frontier.1 + 1) E
      (S.eng a.node).fsm := by
  obtain ⟨r, hr, h1, h2, h3⟩ := Engine.register_record h hinp hst
  exact .inr ⟨a.node, r, by rw [after_self]; exact hr, h1, h2, h3⟩

/-- A cut of a good ring is good frames. -/
theorem frameOk_delta {W : Writes} {b : Backlog} {k upTo : Nat}
    {ms : List ReplicateMsg}
    (hring : ∀ j, (b.slots j).seq = 0 ∨ FrameOk W (b.slots j).frame)
    (h : ringDeltaLocked b (k + 1) upTo = some ms) (hm : m ∈ ms) :
    FrameOk W m := by
  obtain ⟨hlo, -, ent, hent, rfl⟩ := ringDelta_mem h hm
  obtain ⟨j, rfl⟩ := Engine.entryAt_slot hent
  rcases hring j with h0 | hf
  · have hseq : (b.slots j).frame.seq = 0 := h0
    omega
  · exact hf

/-- A shipment is what the transport holds, or a cut of the ring. -/
theorem mem_shipped {x : Shipment} (h : x ∈ Replicas.shipped n e ev e') :
    x.src = n ∧ ((x.dst, x.msgs) ∈ e'.outbox ∨ x.msgs = []
      ∨ ∃ k upTo, ringDeltaLocked e.backlog (k + 1) upTo = some x.msgs) := by
  unfold Replicas.shipped at h
  rcases List.mem_append.1 h with h | h
  · obtain ⟨⟨p, ms⟩, hp, rfl⟩ := List.mem_map.1 h
    exact ⟨rfl, .inl hp⟩
  · split at h
    · next g y msgs _ hg hbf =>
      obtain rfl := List.mem_singleton.1 h
      refine ⟨rfl, .inr ?_⟩
      unfold Engine.growBackfill at hbf
      split at hbf
      · obtain ⟨r, hr, hx⟩ := Option.map_eq_some_iff.1 hbf
        cases r with
        | fail err =>
          cases hx
          exact .inl rfl
        | caughtUp =>
          cases hx
          exact .inl rfl
        | send ms last =>
          cases hx
          right
          unfold Engine.backfillRound at hr
          repeat' split at hr
          all_goals try cases hr
          next hd =>
            obtain ⟨m, -, hx⟩ := Option.map_eq_some_iff.1 hr
            cases hx
            exact ⟨_, _, hd⟩
      · cases hbf
    · cases h

/-- A taken snapshot is the FSM of a leased engine at rest, under its
frontier. -/
theorem mem_snapped {x : Transfer} (h : x ∈ Replicas.snapped n e ev) :
    x.src = n ∧ (∃ g, e.grow = some g ∧ x.dst = g.peer)
      ∧ (∃ ok, ev.input = .takeSnapshot ok) ∧ e.stage = .idle
      ∧ e.epoch = x.snap.epoch ∧ e.leaseEpoch = x.snap.epoch
      ∧ 0 < e.leaseExpiry
      ∧ e.frontier = (x.snap.frontierSeq, x.snap.frontierEpoch)
      ∧ x.snap.blob = e.fsm := by
  unfold Replicas.snapped at h
  split at h
  · next ok g hinp hg =>
    split at h
    · next y s hs =>
      obtain rfl := List.mem_singleton.1 h
      refine ⟨rfl, ⟨g, hg, rfl⟩, ⟨ok, hinp⟩, ?_⟩
      unfold Engine.takeSnapshot at hs
      split at hs
      · next hst _ =>
        split at hs
        · cases hs
        · next hno =>
          cases hs
          simp only [not_or, ne_eq, Decidable.not_not] at hno
          exact ⟨hst, hno.2.1, hno.2.2.1, by omega, rfl, rfl⟩
      · cases hs
    · cases h
  · cases h

/-- A received frame was shipped. -/
theorem LogInv.delivered (hi : LogInv prim S) (hb : S.backed a = true)
    (hm : a.ev.input.Delivers m) :
    FrameOk (Wrote S) m := by
  obtain ⟨n, src, now, i⟩ := a
  unfold Replicas.backed at hb
  cases i <;> try (simp [Input.Delivers] at hm; done)
  case receive msg ok =>
      have hm' : m = msg := hm
      rw [hm']
      exact hi.sent _ (of_decide_eq_true hb) msg (by simp)
  case receiveGroup msgs =>
      obtain ⟨ok, hmem⟩ := hm
      refine hi.sent _ (of_decide_eq_true hb) m ?_
      exact List.mem_map.2 ⟨(m, ok), hmem, rfl⟩

/-- An installed snapshot was taken by another epoch's node. -/
theorem LogInv.installed (hi : LogInv prim S) (hb : S.backed a = true)
    {s : Snapshot} {out : Engine.InstallOutcome}
    (hinp : a.ev.input = .installSnapshot s out) :
    prim s.epoch ≠ a.node ∧ s.epoch ≤ (S.eng a.node).epoch
      ∧ s.frontierEpoch ≤ s.epoch
      ∧ Wrote S s.frontierSeq s.frontierEpoch s.blob := by
  unfold Replicas.backed at hb
  rw [hinp] at hb
  simp only [Bool.and_eq_true, decide_eq_true_eq] at hb
  obtain ⟨hne, hp, hle, hw⟩ := hi.transfers _ hb.1
  exact ⟨by rw [hp]; exact hne, hb.2, hle, hw⟩

/-- A frame a proposer can apply in its window is of a newer epoch: its
own epoch's frames lie below its frontier. -/
theorem LogInv.overtakes (hi : LogInv prim S)
    {ms : List ReplicateMsg} (hb : S.backed a = true)
    (hc : Captures (S.eng a.node) E) (hE : E ≤ (S.eng a.node).epoch)
    (hms : ∀ m ∈ ms, a.ev.input.Delivers m ∧ (S.eng a.node).Between e' m)
    (hr : (S.eng a.node).toLog.Receives ms e'.toLog) (hm : m ∈ ms) :
    E < m.epoch := by
  have hN := hi.node a.node
  obtain ⟨hdel, hbt⟩ := hms m hm
  obtain ⟨hist, hw⟩ := (hi.delivered hb hdel).wrote
  rcases Nat.lt_or_ge E m.epoch with hlt | hge
  · exact hlt
  · have hEq : m.epoch = E := Nat.le_antisymm hge (Nat.le_trans hE hbt.1)
    rw [hEq] at hw
    have h1 := hN.high _ _ _ (hN.captures E hc) (.inr hc) hw
    have h2 := (Receives.seqs hr).2 m hm
    omega

section Step

variable (hi : LogInv prim S) (h : (S.eng a.node).step a.ev = some e')
include hi h

variable {s E : Nat} {hist : List Data}

/-- A write stays written. -/
theorem LogInv.wrote_mono 
    (hw : Wrote S s E hist) : Wrote (S.after a e') s E hist := by
  rcases hw with hw | ⟨n, r, hr, h1, h2, h3⟩
  · exact .inl hw
  · by_cases hn : n = a.node
    · subst hn
      obtain ⟨i, hi'⟩ := List.getElem?_of_mem hr
      obtain ⟨r', hr', hev⟩ := ((hi.node _).wf.turns h).forward hi'
      refine .inr ⟨a.node, r', ?_, ?_, ?_, ?_⟩
      · rw [after_self]
        exact List.mem_of_getElem? hr'
      · rw [hev.seq_eq, h1]
      · rw [hev.epoch_eq, h2]
      · rw [hev.hist_eq, h3]
    · exact .inr ⟨n, r, by rw [after_of_ne hn]; exact hr, h1, h2, h3⟩

/-- A new write is the registered one: the seq past the frontier, over
what the FSM has materialized. -/
theorem LogInv.wrote_back 
    (hw : Wrote (S.after a e') s E hist) :
    Wrote S s E hist ∨ ∃ isr d, a.ev.input = .register
        ∧ (S.eng a.node).stage = .applied E isr d
        ∧ s = (S.eng a.node).frontier.1 + 1
        ∧ hist = (S.eng a.node).fsm := by
  rcases hw with hw | ⟨n, r, hr, h1, h2, h3⟩
  · exact .inl (.inl hw)
  · by_cases hn : n = a.node
    · subst hn
      rw [after_self] at hr
      obtain ⟨i, hi'⟩ := List.getElem?_of_mem hr
      obtain ⟨r₀, hev, hr₀ | ⟨-, E', isr, d, hinp, hst, hr₀⟩⟩ :=
        ((hi.node _).wf.turns h).backward hi'
      · refine .inl (.inr ⟨a.node, r₀, List.mem_of_getElem? hr₀, ?_, ?_, ?_⟩)
        · rw [← hev.seq_eq, h1]
        · rw [← hev.epoch_eq, h2]
        · rw [← hev.hist_eq, h3]
      · rw [hev.seq_eq, hr₀] at h1
        rw [hev.epoch_eq, hr₀] at h2
        rw [hev.hist_eq, hr₀] at h3
        have hE : E' = E := h2
        subst hE
        exact .inr ⟨isr, d, hinp, hst, h1.symm, h3.symm⟩
    · rw [after_of_ne hn] at hr
      exact .inl (.inr ⟨n, r, hr, h1, h2, h3⟩)

theorem LogInv.lawful_step : (Wrote (S.after a e')).Lawful where
  unique := by
    intro s E h₁ h₂ hw₁ hw₂
    rcases hi.wrote_back h hw₁ with hw₁ | ⟨isr, d, -, hst, rfl, rfl⟩
    · rcases hi.wrote_back h hw₂ with hw₂ | ⟨isr, d, -, hst, rfl, rfl⟩
      · exact hi.lawful.unique hw₁ hw₂
      · exact absurd hw₁ (hi.fresh hst)
    · rcases hi.wrote_back h hw₂ with hw₂ | ⟨isr', d', -, -, -, rfl⟩
      · exact absurd hw₂ (hi.fresh hst)
      · rfl
  length := by
    intro s E hist hw
    rcases hi.wrote_back h hw with hw | ⟨isr, d, -, hst, rfl, rfl⟩
    · exact hi.lawful.length hw
    · exact (hi.proposer hst).length E isr d hst

/-- The frame of the registered write. -/
theorem LogInv.frameOk_new {E : Nat} {isr : List NodeID} {d : Data}
    (hinp : a.ev.input = .register)
    (hst : (S.eng a.node).stage = .applied E isr d) :
    FrameOk (Wrote (S.after a e')) ((S.eng a.node).nextFrame E d) where
  seq := rfl
  wrote := ⟨_, wrote_new h hinp hst⟩
  chain := by
    intro hle
    obtain ⟨hlog, hfsm⟩ := (hi.proposer hst).window E isr d hst hle
    refine ⟨(S.eng a.node).history, hi.wrote_mono h hlog, ?_⟩
    have := wrote_new h hinp hst
    rw [hfsm] at this
    exact this

/-- The writes at a node that takes no part in the section. -/
theorem LogInv.node_other {n : NodeID} (hn : n ≠ a.node) :
    NodeOk prim (Wrote (S.after a e')) n (S.eng n) := by
  have hN := hi.node n
  refine { hN with log := ?_, high := ?_, held := ?_, ring := ?_ }
  · exact fun hpo => (hN.log hpo).mono (hi.wrote_mono h)
  · intro s E hist hp hE hw
    rcases hi.wrote_back h hw with hw | ⟨isr, d, -, hst, -, -⟩
    · exact hN.high s E hist hp hE hw
    · rw [(hi.node a.node).captures E ⟨isr, d, .inr hst⟩] at hp
      exact absurd hp.symm hn
  · exact fun m hm => (hN.held m hm).mono (hi.wrote_mono h)
  · exact fun j => (hN.ring j).imp_right fun hf =>
      hf.mono (hi.wrote_mono h)

/-- A node's frontier falls only under an install, and an install finds
the node outside its own epochs. -/
theorem LogInv.frontier_le (hb : S.backed a = true)
    (hk : (S.eng a.node).forgets a.ev = false)
    (hown : prim (S.eng a.node).epoch = a.node
      ∨ (S.eng a.node).stage ≠ .idle) :
    (S.eng a.node).frontier.1 ≤ e'.frontier.1 := by
  rcases Engine.step_log h with hl | ⟨E, isr, d, -, -, -, hl⟩
    | ⟨E, isr, d, -, -, hl⟩ | ⟨ms, -, hr⟩ | ⟨E, x, hinp, hE, hpo, hl⟩
    | ⟨s, out, hinp, hidle, hab, -⟩
  · rw [hl]
  · rw [hl]
    exact le_rfl
  · rw [hl, Log.assign_frontier]
    exact Nat.le_succ _
  · exact Engine.receives_frontier_le hr
  · rw [hl, Engine.promoted_frontier_of_le (hi.node a.node).dated
      (Engine.lastSeq_le_of_promote hk hinp hE hpo)]
  · rcases hown with hown | hst
    · obtain ⟨hne, hle, -⟩ := hi.installed hb hinp
      have hge : (S.eng a.node).epoch ≤ s.epoch := by
        simp only [Engine.installAborts, Bool.or_eq_false_iff,
          decide_eq_false_iff_not] at hab
        omega
      rw [Nat.le_antisymm hle hge] at hne
      exact absurd hown hne
    · exact absurd hidle hst

/-- A captured epoch belongs to the node. -/
theorem LogInv.captures_own {E : Nat} (hc : Captures e' E) :
    prim E = a.node := by
  have hN := hi.node a.node
  rcases Engine.captures_step h hc with hc | ⟨rfl, hl, hx, -⟩
  · exact hN.captures E hc
  · rw [← hl, hN.leased hx, hN.id]

/-- A frontier's epoch was adopted. -/
theorem LogInv.behind_self (hb : S.backed a = true) :
    e'.lastSeqEpoch ≤ e'.epoch ∧ e'.lastAppliedEpoch ≤ e'.epoch := by
  have hN := hi.node a.node
  have hle := Engine.step_epoch_le h
  obtain ⟨h1, h2⟩ := hN.behind
  rcases Engine.step_log h with hl | ⟨E, isr, d, -, -, -, hl⟩
    | ⟨E, isr, d, -, hst, hl⟩ | ⟨ms, hms, hr⟩ | ⟨E, x, -, -, -, hl⟩
    | ⟨s, out, hinp, -, -, hl⟩
  · rw [hl]
    exact ⟨by omega, by omega⟩
  · rw [hl]
    exact ⟨Nat.le_trans h1 hle, Nat.le_trans h2 hle⟩
  · rw [hl]
    exact ⟨Nat.le_trans (hN.wf.captured.applied E isr d hst) hle,
      Nat.le_trans h2 hle⟩
  · generalize e'.toLog = l' at hr ⊢
    induction hr with
    | nil => exact ⟨by omega, by omega⟩
    | snoc _ _ _ ih =>
      have ih := ih fun m hm => hms m (List.mem_append_left _ hm)
      exact ⟨ih.1, (hms _ (by simp)).2.2⟩
  · rw [hl]
    exact ⟨Nat.le_trans h2 hle, Nat.le_trans h2 hle⟩
  · obtain ⟨-, h3, h4, -⟩ := hi.installed hb hinp
    rw [hl]
    cases out with
    | fsmErr g => exact ⟨Nat.le_trans h1 hle, Nat.le_trans h2 hle⟩
    | commitErr =>
      have h5 : s.frontierEpoch ≤ e'.epoch := by omega
      exact ⟨h5, h5⟩
    | ok =>
      have h5 : s.frontierEpoch ≤ e'.epoch := by omega
      exact ⟨h5, h5⟩

/-- Accepted frames, outside the window and inside it. -/
theorem LogInv.log_receives {ms : List ReplicateMsg}
    {m : ReplicateMsg} (hb : S.backed a = true)
    (hpo : (S.eng a.node).poisoned = false)
    (hms : ∀ m ∈ ms, a.ev.input.Delivers m ∧ (S.eng a.node).Between e' m)
    (hr : (S.eng a.node).toLog.Receives ms e'.toLog) (hm : m ∈ ms) :
    Named (Wrote S) e' := by
  have hN := hi.node a.node
  have hst : e'.stage = (S.eng a.node).stage :=
    Engine.delivers_stage h (hms m hm).1
  have hlen : e'.fsm.length = (S.eng a.node).fsm.length + ms.length := by
    rw [hr.appends.1, List.length_append, List.length_map]
  refine ⟨fun hmid => ?_, fun E isr d hx => ?_, fun E isr d hx hle => ?_⟩
  · rw [Engine.midWrite_congr hst] at hmid
    refine Receives.wrote hi.lawful hr
      (fun x hx => hi.delivered hb (hms x hx).1) (fun x hx => ?_)
      ((hN.log hpo).rest hmid)
    exact Nat.le_trans hN.frontier_le_epoch (hms x hx).2.1
  · rw [hst] at hx
    rw [hlen, (Receives.seqs hr).1, (hN.log hpo).length E isr d hx]
    omega
  · exfalso
    rw [hst] at hx
    rcases Receives.frontier_epoch hr with heq | ⟨x, hxm, hep⟩
    · have h1 := (Receives.seqs hr).1
      rw [heq] at h1
      have h2 := List.length_pos_of_mem hm
      omega
    · have := hi.overtakes hb ⟨isr, d, .inr hx⟩
        (hN.wf.captured.applied E isr d hx) hms hr hxm
      omega

/-- The frontier of the node names a write again. -/
theorem LogInv.log_self (hb : S.backed a = true)
    (hk : (S.eng a.node).forgets a.ev = false)
    (hpo : e'.poisoned = false) : Named (Wrote (S.after a e')) e' := by
  have hN := hi.node a.node
  by_cases hreg : a.ev.input = .register
  · obtain ⟨⟨E, isr, d, hst⟩, hmid⟩ := Engine.register_window h hreg
    refine .of_rest hmid ?_
    rw [Engine.register_log h hreg hst, Log.assign_frontier]
    exact wrote_new h hreg hst
  suffices hnamed : Named (Wrote S) e' from hnamed.mono (hi.wrote_mono h)
  have hstill : e'.toLog = (S.eng a.node).toLog → Named (Wrote S) e' := by
    intro hl
    rw [hl] at hpo
    exact (hN.log hpo).still (by rw [hl]) (by rw [hl])
      (Engine.still_stage h hreg (by rw [hl]))
  rcases Engine.step_log h with hl | ⟨E, isr, d, -, h0, h1, hl⟩
    | ⟨E, isr, d, hinp, -⟩ | ⟨ms, hms, hr⟩
    | ⟨E, x, hinp, hE, hpo', hl⟩ | ⟨s, out, hinp, hidle, -, hl⟩
  · exact hstill hl
  · -- the Apply: what the frontier names is the FSM it was applied to
    rw [hl] at hpo
    have hw := (hN.log hpo).rest (Engine.midWrite_eq_false (by simp [h0]))
    have hh : e'.history = (S.eng a.node).fsm := by
      unfold Engine.history
      rw [Engine.midWrite_of_stage h1, hl]
      simp
    refine ⟨fun hmid => ?_, fun E' isr' d' hx => ?_,
      fun E' isr' d' hx _ => ?_⟩
    · rw [Engine.midWrite_of_stage h1] at hmid
      cases hmid
    · rw [hl]
      show ((S.eng a.node).fsm ++ [d]).length = (S.eng a.node).frontier.1 + 1
      rw [List.length_append, hi.lawful.length hw]
      rfl
    · cases h1.symm.trans hx
      rw [hh, hl]
      exact ⟨hw, rfl⟩
  · exact absurd hinp hreg
  · rcases hr.eq_or_mem with hl | ⟨m, hm⟩
    · exact hstill hl
    · exact hi.log_receives h hb (hr.appends.2 ▸ hpo) hms hr hm
  · have hq : e'.toOutgoing = (S.eng a.node).toOutgoing :=
      Engine.step_agree h .outgoing (by rw [hinp]; simp [Input.writes])
    refine (hN.log hpo').still ?_ (by rw [hl]; rfl)
      (.inl (congrArg Outgoing.stage hq))
    rw [hl, Engine.promoted_frontier_of_le hN.dated
      (Engine.lastSeq_le_of_promote hk hinp hE hpo')]
  · have hq : e'.toOutgoing = (S.eng a.node).toOutgoing :=
      Engine.step_agree h .outgoing (by rw [hinp]; simp [Input.writes])
    have hidle' : e'.stage = .idle := (congrArg Outgoing.stage hq).trans hidle
    refine .of_rest (Engine.midWrite_eq_false (by simp [hidle'])) ?_
    rw [hl] at hpo ⊢
    cases out with
    | fsmErr g => cases hpo
    | commitErr => cases hpo
    | ok =>
      rw [Log.afterInstall_frontier _ _ (by simp)]
      exact (hi.installed hb hinp).2.2.2

/-- What the node wrote in an epoch it can write in stays below its
frontier. -/
theorem LogInv.high_self (hb : S.backed a = true)
    (hk : (S.eng a.node).forgets a.ev = false)
    (hp : prim E = a.node)
    (hE : e'.epoch = E ∨ Captures e' E)
    (hw : Wrote (S.after a e') s E hist) : s ≤ e'.frontier.1 := by
  have hN := hi.node a.node
  rcases hi.wrote_back h hw with hw | ⟨isr, d, hinp, hst, rfl, -⟩
  · have hle : E ≤ (S.eng a.node).epoch := hp ▸ hi.reached hw
    rcases hE with hE | hc
    · have hE' : (S.eng a.node).epoch = E := by
        have := Engine.step_epoch_le h
        omega
      refine Nat.le_trans (hN.high s E hist hp (.inl hE') hw) ?_
      exact hi.frontier_le h hb hk (.inl (hE' ▸ hp))
    · rcases Engine.captures_step h hc with hc' | ⟨hE', -⟩
      · refine Nat.le_trans (hN.high s E hist hp (.inr hc') hw) ?_
        refine hi.frontier_le h hb hk (.inr ?_)
        obtain ⟨isr, d, hst | hst⟩ := hc' <;> simp [hst]
      · refine Nat.le_trans (hN.high s E hist hp (.inl hE'.symm) hw) ?_
        exact hi.frontier_le h hb hk (.inl (hE' ▸ hp))
  · rw [Engine.register_log h hinp hst, Log.assign_frontier]

/-- Frames the node holds after the section. -/
theorem LogInv.held_self {m : ReplicateMsg}
    (hm : e'.toOutgoing.Holds m) : FrameOk (Wrote (S.after a e')) m := by
  have hN := hi.node a.node
  rcases Engine.step_holds h hm with hm | ⟨E, isr, d, hinp, hst, rfl⟩
    | ⟨k, delta, hd, hm⟩
  · exact (hN.held m hm).mono (hi.wrote_mono h)
  · exact hi.frameOk_new h hinp hst
  · exact (frameOk_delta hN.ring hd hm).mono (hi.wrote_mono h)

theorem LogInv.ring_self (j : Nat) :
    (e'.backlog.slots j).seq = 0
      ∨ FrameOk (Wrote (S.after a e')) (e'.backlog.slots j).frame := by
  rcases Engine.step_slots h j with h0 | hj | ⟨E, isr, d, hinp, hst, hj⟩
  · exact .inl h0
  · rw [hj]
    exact ((hi.node a.node).ring j).imp_right fun hf =>
      hf.mono (hi.wrote_mono h)
  · right
    rw [hj]
    exact hi.frameOk_new h hinp hst

/-- Every record of the node is of an epoch that belongs to it. -/
theorem LogInv.own_self {r : Inflight} (hr : r ∈ e'.pl.recs) :
    prim r.epoch = a.node := by
  have hN := hi.node a.node
  obtain ⟨i, hi'⟩ := List.getElem?_of_mem hr
  obtain ⟨r₀, hev, hr₀ | ⟨-, E, isr, d, -, hst, hr₀⟩⟩ :=
    (hN.wf.turns h).backward hi'
  · rw [hev.epoch_eq]
    exact hN.own r₀ (List.mem_of_getElem? hr₀)
  · rw [hev.epoch_eq, hr₀]
    exact hN.captures E ⟨isr, d, .inr hst⟩

/-- The writes at the node that takes the section. -/
theorem LogInv.node_self (hb : S.backed a = true) (hk : Mindful prim S a) :
    NodeOk prim (Wrote (S.after a e')) a.node e' where
  id := (congrArg Identity.nodeID (Engine.step_identity h)).trans
    (hi.node a.node).id
  wf := Engine.step_wf (hi.node a.node).wf h
  dated := Engine.step_dated (hi.node a.node).dated h
  quiet := Engine.step_quiet (hi.node a.node).quiet h
  behind := hi.behind_self h hb
  leased := Engine.step_leased (hi.node a.node).leased hk.1 h
  own := fun _ hr => hi.own_self h hr
  captures := fun _ hc => hi.captures_own h hc
  log := hi.log_self h hb hk.2
  high := fun _ _ _ hp hE hw => hi.high_self h hb hk.2 hp hE hw
  held := fun _ hm => hi.held_self h hm
  ring := hi.ring_self h
  target := by
    intro g' hg'
    rcases Engine.step_target h hg' with ⟨g, hg, hp⟩ | hinp
    · rw [hp]
      exact (hi.node a.node).target g hg
    · unfold Replicas.backed at hb
      rw [hinp] at hb
      exact of_decide_eq_true hb

/-- One critical section of one node. -/
theorem LogInv.after (hb : S.backed a = true)
    (hk : Mindful prim S a) : LogInv prim (S.after a e') where
  lawful := hi.lawful_step h
  node := by
    intro n
    by_cases hn : n = a.node
    · subst hn
      rw [after_self]
      exact hi.node_self h hb hk
    · rw [after_of_ne hn]
      exact hi.node_other h hn
  reached := by
    intro s E hist hw
    have hmono : (S.eng (prim E)).epoch
        ≤ ((S.after a e').eng (prim E)).epoch := by
      by_cases hn : prim E = a.node
      · rw [hn, after_self]
        exact Engine.step_epoch_le h
      · rw [after_of_ne hn]
    refine Nat.le_trans ?_ hmono
    rcases hi.wrote_back h hw with hw | ⟨isr, d, -, hst, -, -⟩
    · exact hi.reached hw
    · have hN := hi.node a.node
      rw [hN.captures E ⟨isr, d, .inr hst⟩]
      exact hN.wf.captured.applied E isr d hst
  sent := by
    intro x hx m hm
    rcases List.mem_append.1 hx with hx | hx
    · exact (hi.sent x hx m hm).mono (hi.wrote_mono h)
    · obtain ⟨-, hp | hnil | ⟨k, upTo, hd⟩⟩ := mem_shipped hx
      · exact hi.held_self h (.inr (.inl ⟨_, _, hp, hm⟩))
      · rw [hnil] at hm
        cases hm
      · exact (frameOk_delta (hi.node a.node).ring hd hm).mono
          (hi.wrote_mono h)
  transfers := by
    intro x hx
    rcases List.mem_append.1 hx with hx | hx
    · obtain ⟨h1, h2, h3, h4⟩ := hi.transfers x hx
      exact ⟨h1, h2, h3, hi.wrote_mono h h4⟩
    · obtain ⟨hsrc, ⟨g, hg, hdst⟩, ⟨ok, hinp⟩, hst, hE, hl, hx0, hf, hblob⟩ :=
        mem_snapped hx
      have hN := hi.node a.node
      have hpo : (S.eng a.node).poisoned = false := by
        have := hk.2
        unfold Engine.forgets at this
        rw [hinp] at this
        exact this
      have hw := (hN.log hpo).rest (Engine.midWrite_eq_false (by simp [hst]))
      have hle := hN.frontier_le_epoch
      rw [hf] at hw hle
      refine ⟨?_, ?_, by rw [← hE]; exact hle, ?_⟩
      · rw [hsrc, hdst]
        exact (hN.target g hg).symm
      · rw [← hl, hN.leased hx0, hN.id, hsrc]
      · rw [hblob]
        exact hi.wrote_mono h hw

end Step

-- ======== main

theorem wrote_blank {c : Config} {s E : Nat} {h : List Data}
    (hw : Wrote (.blank c) s E h) : s = 0 ∧ E = 0 ∧ h = [] := by
  rcases hw with hw | ⟨n, r, hr, -⟩
  · exact hw
  · cases hr

theorem nodeOk_blank (prim : Nat → NodeID) (c : Config) (n : NodeID) :
    NodeOk prim (Wrote (.blank c)) n ((Replicas.blank c).eng n) where
  id := rfl
  wf := Engine.wf_restored _ false 0 0 []
  dated := ⟨rfl, rfl⟩
  quiet := fun h => by cases h
  behind := ⟨le_rfl, le_rfl⟩
  leased := fun h => absurd h (Nat.lt_irrefl 0)
  own := fun r hr => by cases hr
  captures := by
    rintro E ⟨isr, d, h | h⟩ <;> cases h
  log := fun _ => .of_rest rfl (.inl ⟨rfl, rfl, rfl⟩)
  high := by
    intro s E h _ _ hw
    rw [(wrote_blank hw).1]
    exact Nat.zero_le _
  held := by
    rintro m (⟨p, q, hp, -⟩ | ⟨p, ms, hp, -⟩ | ⟨ps, ls, v, hst⟩)
    · cases hp
    · cases hp
    · cases hst
  ring := fun j => .inl rfl
  target := fun g hg => by cases hg

theorem logInv_blank (prim : Nat → NodeID) (c : Config) :
    LogInv prim (.blank c) where
  lawful := {
    unique := fun h h' =>
      (wrote_blank h).2.2.trans (wrote_blank h').2.2.symm
    length := fun h => by
      rw [(wrote_blank h).2.2, (wrote_blank h).1]
      rfl }
  node := nodeOk_blank prim c
  reached := fun h => by
    rw [(wrote_blank h).2.1]
    exact Nat.zero_le _
  sent := fun x hx => by cases hx
  transfers := fun x hx => by cases hx

theorem step_logInv (hi : LogInv prim S) (hk : Mindful prim S a)
    (h : S.step a = some S') : LogInv prim S' := by
  obtain ⟨hb, e', he, rfl⟩ := step_eq_some h
  exact hi.after he hb hk

/-- **Log matching**: along every run with one primary an epoch in which
no promotion forgets a write and no poisoned state is shipped, two
un-poisoned engines that report the same frontier, neither of them
between an Apply and its registration, have materialized the same
payloads. -/
theorem log_matching {c : Config} {tr : List Act}
    (hr : Reach Replicas.step (Mindful prim) (.blank c) tr S)
    {n m : NodeID} (hn : (S.eng n).poisoned = false)
    (hm : (S.eng m).poisoned = false) (hn' : (S.eng n).midWrite = false)
    (hm' : (S.eng m).midWrite = false)
    (hf : (S.eng n).frontier = (S.eng m).frontier) :
    (S.eng n).fsm = (S.eng m).fsm := by
  have hi : LogInv prim S := hr.stateInvariant (logInv_blank prim c)
    fun _ _ _ hi hk hs => step_logInv hi hk hs
  have h1 := ((hi.node n).log hn).rest hn'
  have h2 := ((hi.node m).log hm).rest hm'
  rw [← hf] at h2
  exact hi.lawful.unique h1 h2

/-- `a` writes one payload as the primary of epoch 1 and ships it to
`b`. -/
def shipOne : List Act := [⟨"a", "", ⟨0, .grantLease 1 9⟩⟩,
    ⟨"a", "", ⟨0, .fence "a" ["a", "b"] 1 [7]⟩⟩,
    ⟨"a", "", ⟨0, .applyLocal true⟩⟩, ⟨"a", "", ⟨0, .register⟩⟩,
    ⟨"a", "", ⟨0, .submitNext true⟩⟩, ⟨"a", "", ⟨0, .submitDone⟩⟩]

/-- A check for `Mindful` with one node that is ever leased. -/
def mindfulCheck (S : Replicas) (a : Act) : Bool :=
  match a.ev.input with
  | .promote .. | .takeSnapshot .. => false
  | .grantLease .. => (S.eng a.node).nodeID == "a"
  | _ => true

theorem mindful_of_check (S : Replicas) (a : Act)
    (h : mindfulCheck S a = true) : Mindful (fun _ => "a") S a := by
  obtain ⟨n, src, now, i⟩ := a
  cases i <;> simp_all [mindfulCheck, Mindful, Engine.Granted,
    Engine.forgets]

theorem log_matching_shipOne :
    ∃ S, Reach Replicas.step (Mindful fun _ => "a")
        (.blank { nodeID := "" })
        (shipOne ++ [⟨"b", "a", ⟨0, .receive ⟨1, 1, 0, 0, [7]⟩ true⟩⟩]) S
      ∧ (S.eng "a").frontier = (1, 1)
      ∧ (S.eng "a").fsm = (S.eng "b").fsm := by
  obtain ⟨S, hr, h1, h2, h3, h4, h5, h6⟩ : ∃ S, Reach Replicas.step
      (Mindful fun _ => "a") (.blank { nodeID := "" })
      (shipOne ++ [⟨"b", "a", ⟨0, .receive ⟨1, 1, 0, 0, [7]⟩ true⟩⟩]) S
      ∧ (S.eng "a").frontier = (1, 1) ∧ (S.eng "b").frontier = (1, 1)
      ∧ (S.eng "a").poisoned = false ∧ (S.eng "b").poisoned = false
      ∧ (S.eng "a").midWrite = false ∧ (S.eng "b").midWrite = false := by
    apply exec_decide mindful_of_check
    decide
  exact ⟨S, hr, h1, log_matching hr h3 h4 h5 h6 (h1.trans h2.symm)⟩

/-- Inside the window the FSM leads the frontier: `a` has applied its
first payload and reports the frontier of the blank `b`. -/
theorem window_leads_frontier :
    ∃ S, Reach Replicas.step (Mindful fun _ => "a")
        (.blank { nodeID := "" }) (shipOne.take 3) S
      ∧ (S.eng "a").poisoned = false ∧ (S.eng "b").poisoned = false
      ∧ (S.eng "a").frontier = (S.eng "b").frontier
      ∧ (S.eng "a").fsm = [[7]] ∧ (S.eng "b").fsm = [] :=
  exec_decide mindful_of_check (by decide)

end Rostam.Cluster
