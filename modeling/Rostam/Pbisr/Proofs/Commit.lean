/-
Commit safety of the in-flight pipeline.

# What is proved

Along every run of one engine whose sections are anything but the two
that re-seat the watermark wholesale (`Promote`, a snapshot install):

- a record is resolved at most once;
- it resolves nil only behind the commit-time lease fence and, under
  `CommitFullISR`, only once each peer of its registered required set
  has been credited since the registration — by an ack of that exact
  (epoch, seq), alone or inside a cumulative group ack, or by a
  `ShrinkISR` of that epoch that leaves the peer out;
- `committed` never falls and only ever moves to the seq of a record
  that resolves nil in that very section;
- a `Propose` is told nil exactly when its own record resolved nil.

# Method

`step_advances` is the inversion: a section registers at most one
record and then moves the pipeline (`Pipeline.Moves`) under its own
fence and its own credits. Everything else is read off it. The one
place that needs more than the section at hand is the group
completion, whose credit loop starts at `firstSeq - 1`: it is sound
because no frame of seq zero is ever shipped (`FramesPos`).
-/
import Rostam.Pbisr.Proofs.Frames
import Rostam.Pbisr.Proofs.Flight
import Rostam.Pbisr.Proofs.Tenure

namespace Rostam.Pbisr

open Rostam.Lib

-- ======== credits

/-- `ack`, answering the submission `msgs`, attests the write
`(epoch, seq)`: exactly, or inside the prefix a cumulative group ack
covers. -/
def Attests (msgs : List ReplicateMsg) (ack : AckMsg) (epoch seq : Nat) :
    Prop :=
  match msgs with
  | [] => False
  | [m] => ack.ok = true ∧ ack.epoch = m.epoch ∧ ack.seq = m.seq
      ∧ m.epoch = epoch ∧ m.seq = seq
  | m :: m' :: rest => m.epoch = epoch ∧ ack.epoch = epoch
      ∧ (ack.ok = true
          ∧ ack.seq = ((m' :: rest).getLast (List.cons_ne_nil m' rest)).seq
        ∨ ack.ok = false ∧ ack.seq
          < ((m' :: rest).getLast (List.cons_ne_nil m' rest)).seq)
      ∧ m.seq ≤ seq ∧ seq ≤ ack.seq

/-- The event gives peer `p` its credit for the write `(epoch, seq)`. -/
def Credits (ev : Event) (p : NodeID) (epoch seq : Nat) : Prop :=
  match ev.input with
  | .complete peer msgs (some ack) => peer = p ∧ Attests msgs ack epoch seq
  | .shrinkISR E newISR => E = epoch ∧ p ∉ newISR
  | _ => False

/-- The sections that re-seat the watermark wholesale. -/
def Input.reseats : Input → Bool
  | .promote .. | .installSnapshot .. => true
  | _ => false

/-- A record as registration creates it. -/
structure Inflight.Fresh (r : Inflight) : Prop where
  resolved : r.resolved = false
  pending : r.pending = r.required
  doneCh : r.doneCh = []

/-- The stage holds the epoch `E` a proposal captured. -/
def Captures (e : Engine) (E : Nat) : Prop :=
  ∃ isr d, e.stage = .fenced E isr d ∨ e.stage = .applied E isr d

/-- The events of the commit pipeline. -/
def PipelineEvent (_ : Engine) (ev : Event) : Prop := ev.input.reseats = false

-- ======== the ring cut

namespace Backlog

/-- A retained entry is the entry of the seq asked for. -/
theorem entryAt_seq {b : Backlog} {s : Nat} {ent : RingEntry}
    (h : b.entryAt s = some ent) : ent.seq = s := by
  unfold entryAt at h
  repeat' split at h
  all_goals cases h
  assumption

end Backlog

/-- Every frame of a ring cut replays a retained entry of its range. -/
theorem ringRun_mem {b : Backlog} {m : ReplicateMsg} :
    ∀ (n s : Nat) (re : Option Nat) (ms : List ReplicateMsg),
      ringRun b re s n = some ms → m ∈ ms →
      s ≤ m.seq ∧ m.seq < s + n
        ∧ ∃ ent, b.entryAt m.seq = some ent ∧ m = ent.frame := by
  intro n
  induction n with
  | zero =>
    intro s re ms h hm
    cases h
    cases hm
  | succ n ih =>
    intro s re ms h hm
    unfold ringRun at h
    split at h
    · cases h
    · next ent hent =>
      split at h
      · cases h
        cases hm
      · simp only [Option.map_eq_some_iff] at h
        obtain ⟨rest, hrest, rfl⟩ := h
        have hseq := Backlog.entryAt_seq hent
        rcases List.mem_cons.1 hm with rfl | hm
        · have hs : ent.frame.seq = s := hseq
          exact ⟨by omega, by omega, ent, by rw [hs]; exact hent, rfl⟩
        · obtain ⟨h1, h2, h3⟩ := ih _ _ _ hrest hm
          exact ⟨by omega, by omega, h3⟩

theorem ringDelta_mem {b : Backlog} {m : ReplicateMsg} {frm upTo : Nat}
    {ms : List ReplicateMsg} (h : ringDeltaLocked b frm upTo = some ms)
    (hm : m ∈ ms) :
    frm ≤ m.seq ∧ m.seq ≤ upTo
      ∧ ∃ ent, b.entryAt m.seq = some ent ∧ m = ent.frame := by
  unfold ringDeltaLocked at h
  split at h
  · cases h
    cases hm
  · split at h
    · cases h
    · split at h
      · cases h
      · obtain ⟨h1, h2, h3⟩ := ringRun_mem _ _ _ _ h hm
        exact ⟨h1, by omega, h3⟩

namespace Engine

variable {e e' : Engine} {ev : Event}

/-- No frame of seq zero is ever shipped. -/
def FramesPos (e : Engine) : Prop := ∀ m, e.toOutgoing.Holds m → 1 ≤ m.seq

/-- No section ships one. -/
theorem step_framesPos (hp : e.FramesPos) (h : e.step ev = some e') :
    e'.FramesPos := by
  intro m hm
  rcases step_holds h hm with hm | ⟨epoch, isr, data, -, -, rfl⟩ | ⟨k, delta,
    hd, hm⟩
  · exact hp m hm
  · exact Nat.le_add_left 1 _
  · have := (ringDelta_mem hd hm).1
    omega

-- ======== completions

/-- `firstSeq - 1` wraps only at zero. -/
theorem u64Sub_one_lt {a : Nat} (h : 1 ≤ a) : u64Sub a 1 < a := by
  unfold u64Sub
  have h1 : a + (2 ^ 64 - 1 % 2 ^ 64) = (a - 1) + 2 ^ 64 := by omega
  rw [h1, Nat.add_mod_right]
  omega

/-- A seq of the group that is credited is covered by a cumulative
ack. -/
theorem le_creditThrough {epoch firstSeq lastSeq s : Nat}
    {res : Option AckMsg} (h1 : 1 ≤ firstSeq) (hs : firstSeq ≤ s)
    (hle : s ≤ creditThrough epoch firstSeq lastSeq res) :
    ∃ ack, res = some ack ∧ ack.epoch = epoch
      ∧ (ack.ok = true ∧ ack.seq = lastSeq
        ∨ ack.ok = false ∧ ack.seq < lastSeq)
      ∧ s ≤ ack.seq := by
  have hw := u64Sub_one_lt h1
  unfold creditThrough at hle
  split at hle
  · next ack =>
    split at hle
    · next hc => exact ⟨ack, rfl, hc.2.1, .inl ⟨hc.1, hc.2.2⟩, by omega⟩
    · split at hle
      · next hc =>
        exact ⟨ack, rfl, hc.2.1, .inr ⟨hc.1, hc.2.2.2⟩, hle⟩
      · omega
  · omega

variable {F : Nat → Bool} {level : CommitLevel}
  {cr : NodeID → Nat → Nat → Prop} {pl : Pipeline}

variable {peer : NodeID} {now : Nat} {res : Option AckMsg} {x : Engine}

/-- One seq of the credit loop: by density the slot found is the record
of that seq. -/
theorem moves_creditSeq {epoch credit s : Nat}
    (hd : pl.Dense) (hcr : s ≤ credit → cr peer epoch s) :
    pl.Moves F level cr (creditSeq peer epoch credit pl s) := by
  unfold creditSeq
  split
  · next i hi =>
    refine .modify i (fun r hr => ?_) .refl
    have hseq := hd.inflightAt hi
    rw [hr] at hseq
    injection hseq with hseq
    split
    · exact .refl
    · next hne =>
      have hepoch : r.epoch = epoch := by simpa using hne
      split
      · next hle =>
        refine Inflight.evolves_removePending ?_
        rw [hepoch, hseq]
        exact hcr hle
      · exact Inflight.evolves_resolve _
  · exact .refl

/-- The whole credit loop. -/
theorem moves_creditLoop {epoch credit : Nat}
    (seqs : List Nat) (hd : pl.Dense)
    (hcr : ∀ s ∈ seqs, s ≤ credit → cr peer epoch s) :
    pl.Moves F level cr (seqs.foldl (creditSeq peer epoch credit) pl) := by
  induction seqs generalizing pl with
  | nil => exact .refl
  | cons s rest ih =>
    have h : pl.Moves F level cr (creditSeq peer epoch credit pl s) :=
      moves_creditSeq hd (hcr s (List.mem_cons_self ..))
    exact h.trans (ih (h.dense hd)
      fun s' hs' => hcr s' (List.mem_cons_of_mem _ hs'))

-- ======== epoch adoption

/-- The records and the proposer's captured epoch lie at or below the
watermark. -/
structure Captured (e : Engine) : Prop where
  recs : ∀ r ∈ e.pl.recs, r.epoch ≤ e.epoch
  stage : ∀ E, Captures e E → E ≤ e.epoch

theorem Captured.applied (h : e.Captured) (E : Nat) (isr : List NodeID)
    (d : Data) (hst : e.stage = .applied E isr d) : E ≤ e.epoch :=
  h.stage E ⟨isr, d, .inr hst⟩

theorem le_adoptEpoch (e : Engine) (E now : Nat) :
    e.epoch ≤ (e.adoptEpoch E now).epoch := by
  unfold adoptEpoch
  split
  · next h => exact Nat.le_of_lt h
  · exact le_rfl

/-- An epoch adoption commits nothing: the fence opens for the new epoch
only, and no record is of it. -/
theorem moves_adoptEpoch (hr : ∀ r ∈ e.pl.recs, r.epoch ≤ e.epoch)
    (E now : Nat) :
    e.pl.Moves F e.commitLevel cr (e.adoptEpoch E now).pl := by
  unfold adoptEpoch
  split
  · next hE =>
    refine (Pipeline.moves_flushEpochLocked (F := ({ e with epoch := E } :
      Engine).commitFence now) E).anyFence fun r hm => ?_
    have hne : E ≠ r.epoch := by
      have := hr r hm
      omega
    simp [commitFence, hne]
  · exact .refl

/-- A new epoch finds the FIFO empty: every record is older, and the
flush takes it. -/
theorem advanceEpoch_empty (hd : e.pl.Dense)
    (hr : ∀ r ∈ e.pl.recs, r.epoch ≤ e.epoch) {E now : Nat}
    (hE : e.epoch < E) : (e.advanceEpoch E now).pl.ring.count = 0 :=
  hd.flush_empty fun r hm => Nat.lt_of_le_of_lt (hr r hm) hE

-- ======== the inversion

/-- The section registers record `r`. -/
def Registers (e : Engine) (ev : Event) (r : Inflight) : Prop :=
  ∃ E isr data, ev.input = .register ∧ e.stage = .applied E isr data
    ∧ r = e.recordOf (e.nextFrame E data) (e.requiredPeers E isr)

theorem Registers.fresh {r : Inflight} (h : e.Registers ev r) :
    Inflight.Fresh r := by
  obtain ⟨E, isr, data, -, -, rfl⟩ := h
  exact ⟨rfl, rfl, rfl⟩

/-- The table a section evolves: the one it found, or that table with
the one record it registered. -/
def Starts (e : Engine) (ev : Event) (pl₁ : Pipeline) : Prop :=
  pl₁ = e.pl ∨ ∃ r, e.Registers ev r ∧ e.pl.registerInflightLocked r = some pl₁

/-- What one section does to the pipeline. -/
def Advances (e : Engine) (ev : Event) (e' : Engine) : Prop :=
  ∃ pl₁, e.Starts ev pl₁
    ∧ pl₁.Moves (e'.commitFence ev.now) e.commitLevel (Credits ev) e'.pl

theorem Advances.of_moves
    (h : e.pl.Moves (e'.commitFence ev.now) e.commitLevel (Credits ev)
      e'.pl) : e.Advances ev e' :=
  ⟨e.pl, .inl rfl, h⟩

theorem Advances.of_eq (h : e'.pl = e.pl) : e.Advances ev e' :=
  .of_moves (by rw [h]; exact .refl)

theorem Advances.dense (h : e.Advances ev e') (hd : e.pl.Dense) :
    e'.pl.Dense := by
  obtain ⟨pl₁, rfl | ⟨r, -, hreg⟩, hm⟩ := h
  · exact hm.dense hd
  · exact hm.dense (hd.register hreg)

/-- The records a section found are where they were. -/
theorem Starts.recs (h : e.Starts ev pl) {i : Nat} {r : Inflight}
    (hr : e.pl.recs[i]? = some r) : pl.recs[i]? = some r := by
  rcases h with rfl | ⟨r₁, -, hreg⟩
  · exact hr
  · rw [(Pipeline.register_eq hreg).1]
    dsimp only
    rw [List.getElem?_append_left (List.getElem?_eq_some_iff.1 hr).1]
    exact hr

theorem register_moves (h : e.register now = some e') :
    ∃ E isr d pl, e.stage = .applied E isr d
      ∧ e.pl.registerInflightLocked (e.recordOf (e.nextFrame E d)
        (e.requiredPeers E isr)) = some pl
      ∧ ∀ cr, pl.Moves (e'.commitFence now) e.commitLevel cr e'.pl := by
  obtain ⟨E, isr, d, pl, hst, hpl, rfl⟩ := register_cases h
  refine ⟨E, isr, d, pl, hst, hpl, fun cr => ?_⟩
  show pl.Moves _ _ _ (if _ then _ else _)
  split
  · exact Pipeline.moves_sweepLocked
  · exact .refl

theorem advances_register (h : e.register now = some e') :
    e.Advances ⟨now, .register⟩ e' := by
  obtain ⟨E, isr, d, pl, hst, hpl, hm⟩ := register_moves h
  exact ⟨pl, .inr ⟨_, ⟨E, isr, d, rfl, hst, rfl⟩, hpl⟩, hm _⟩

theorem moves_completeSend (e : Engine) (now : Nat)
    {m : ReplicateMsg}
    (hcr : ∀ ack, res = some ack → ack.ok = true → ack.epoch = m.epoch →
      ack.seq = m.seq → cr peer m.epoch m.seq) :
    e.pl.Moves ((e.completeSend peer m res now).commitFence now)
      e.commitLevel cr (e.completeSend peer m res now).pl := by
  obtain ⟨pl, c, hmod⟩ := completeSend_modifies e peer m res now
  have hfence : (e.completeSend peer m res now).commitFence now
      = e.commitFence now := by rw [hmod]; rfl
  rw [hfence]
  have hfail : e.pl.Moves (e.commitFence now) e.commitLevel cr
      (completeSend.failSend e peer m now).pl := by
    unfold completeSend.failSend
    simp only
    split
    · next i hi =>
      split
      · exact (Pipeline.moves_resolveLocked i _).trans
          Pipeline.moves_sweepLocked
      · exact .refl
    · exact .refl
  unfold completeSend
  split
  · next ack =>
    split
    · next hok =>
      obtain ⟨hok, hep, hseq⟩ := hok
      unfold ackInflightLocked
      split
      · next i hi =>
        refine Pipeline.Moves.trans (.modify i (fun r hr => ?_) .refl)
          Pipeline.moves_sweepLocked
        split
        · next hx =>
          refine Inflight.evolves_removePending ?_
          rw [← hx.2.1, ← hx.2.2, hep, hseq]
          exact hcr ack rfl hok hep hseq
        · exact .refl
      · exact Pipeline.moves_sweepLocked
    · exact hfail
  · exact hfail

theorem moves_completeGroupSend (e : Engine) (now : Nat)
    {epoch firstSeq lastSeq : Nat}
    (hd : e.pl.Dense) (h1 : 1 ≤ firstSeq)
    (hcr : ∀ ack s, res = some ack → ack.epoch = epoch →
      (ack.ok = true ∧ ack.seq = lastSeq
        ∨ ack.ok = false ∧ ack.seq < lastSeq) →
      firstSeq ≤ s → s ≤ ack.seq → cr peer epoch s) :
    e.pl.Moves ((e.completeGroupSend peer epoch firstSeq lastSeq res
        now).commitFence now) e.commitLevel cr
      (e.completeGroupSend peer epoch firstSeq lastSeq res now).pl := by
  obtain ⟨c, hnote⟩ := noteGroupLocked_modifies e peer firstSeq lastSeq
    (creditThrough epoch firstSeq lastSeq res)
  unfold completeGroupSend
  simp only [hnote]
  refine (moves_creditLoop _ hd fun s hs hle => ?_).trans
    Pipeline.moves_sweepLocked
  have hs := (List.mem_range'_1.1 hs).1
  obtain ⟨ack, hres, hep, hack, hsle⟩ := le_creditThrough h1 hs hle
  exact hcr ack s hres hep hack hs hsle

/-- A completed send credits its peer. -/
theorem advances_complete {msgs : List ReplicateMsg}
    (hd : e.pl.Dense)
    (hp : e.FramesPos) (h : e.complete peer msgs res now = some e') :
    e.Advances ⟨now, .complete peer msgs res⟩ e' := by
  unfold complete at h
  split at h
  · next hmem =>
    simp only at h
    split at h
    · cases h
    · next m =>
      cases h
      have hcr : ∀ ack, res = some ack → ack.ok = true →
          ack.epoch = m.epoch → ack.seq = m.seq →
          Credits ⟨now, .complete peer [m] res⟩ peer m.epoch m.seq := by
        rintro ack rfl hok hep hseq
        exact ⟨rfl, hok, hep, hseq, rfl, rfl⟩
      exact .of_moves (moves_completeSend
        { e with outbox := e.outbox.erase (peer, [m]) } now hcr)
    · next m m' rest =>
      cases h
      have h1 : 1 ≤ m.seq :=
        hp m (.inr (.inl ⟨peer, _, hmem, List.mem_cons_self ..⟩))
      generalize hlast : ((m' :: rest).getLast (by simp)).seq = last
      have hcr : ∀ ack s, res = some ack → ack.epoch = m.epoch →
          (ack.ok = true ∧ ack.seq = last ∨ ack.ok = false ∧ ack.seq < last) →
          m.seq ≤ s → s ≤ ack.seq →
          Credits ⟨now, .complete peer (m :: m' :: rest) res⟩ peer
            m.epoch s := by
        rintro ack s rfl hep hack hs hle
        subst hlast
        exact ⟨rfl, rfl, hep, hack, hs, hle⟩
      exact .of_moves (moves_completeGroupSend
        { e with outbox := e.outbox.erase (peer, m :: m' :: rest) }
        now hd h1 hcr)
  · cases h

theorem advances_shrinkISR {E : Nat} {newISR : List NodeID} :
    e.Advances ⟨now, .shrinkISR E newISR⟩ (e.shrinkISR E newISR now) := by
  unfold shrinkISR
  split
  · exact .of_eq rfl
  · refine .of_moves ((Pipeline.moves_mapInflight fun r => ?_).trans
      Pipeline.moves_sweepLocked)
    split
    · next hE =>
      refine Inflight.evolves_pending
        (fun p hp => (List.mem_filter.1 hp).1) fun p hp => ?_
      by_cases hk : p ∈ newISR
      · exact .inl (List.mem_filter.2 ⟨hp, by simpa using hk⟩)
      · exact .inr ⟨hE.symm, hk⟩
    · exact .refl

/-- A received frame: the epoch adoption is all the pipeline sees. -/
theorem receiveLocked_pl (e : Engine) (msg : ReplicateMsg) (ok : Bool)
    (now : Nat) :
    (e.receiveLocked msg ok now).1.pl = e.pl
        ∧ (e.receiveLocked msg ok now).1.epoch = e.epoch
      ∨ (e.receiveLocked msg ok now).1.pl = (e.adoptEpoch msg.epoch now).pl
        ∧ (e.receiveLocked msg ok now).1.epoch
          = (e.adoptEpoch msg.epoch now).epoch := by
  unfold receiveLocked
  split
  · exact .inl ⟨rfl, rfl⟩
  · split
    · exact .inl ⟨rfl, rfl⟩
    · obtain ⟨lg, h⟩ :=
        receiveBody_modifies (e.adoptEpoch msg.epoch now) msg ok
      rw [h]
      exact .inr ⟨rfl, rfl⟩

/-- What the epoch-moving sections do: nothing commits, the bound of the
records moves up with the watermark, and a watermark that moved leaves
nothing in flight. -/
structure Raises (e x : Engine) (cr : NodeID → Nat → Nat → Prop) :
    Prop where
  moves : ∀ F, e.pl.Moves F e.commitLevel cr x.pl
  level : x.commitLevel = e.commitLevel
  epoch_le : e.epoch ≤ x.epoch
  empties : e.pl.Dense → e.epoch < x.epoch → x.pl.ring.count = 0

theorem Raises.refl : e.Raises e cr :=
  ⟨fun _ => .refl, rfl, le_rfl, fun _ h => absurd h (Nat.lt_irrefl _)⟩

theorem Raises.adoptEpoch (h : e.Raises x cr)
    (hr : ∀ r ∈ e.pl.recs, r.epoch ≤ e.epoch) (E now : Nat) :
    e.Raises (x.adoptEpoch E now) cr := by
  have hx : ∀ r ∈ x.pl.recs, r.epoch ≤ x.epoch := fun r hm =>
    ((h.moves fun _ => false).evolves.turns.epochs hr r hm).trans h.epoch_le
  refine ⟨fun F => (h.moves F).trans (h.level ▸ moves_adoptEpoch hx E now),
    ?_, Nat.le_trans h.epoch_le (le_adoptEpoch x E now), fun hd hlt => ?_⟩
  · obtain ⟨t, mb, pl, he⟩ := adoptEpoch_modifies x E now
    rw [he]
    exact h.level
  · unfold Engine.adoptEpoch at hlt ⊢
    split at hlt
    · next hE =>
      rw [if_pos hE]
      exact advanceEpoch_empty ((h.moves fun _ => false).dense hd) hx hE
    · next hE =>
      rw [if_neg hE]
      exact h.empties hd hlt

theorem Raises.receiveLocked (h : e.Raises x cr)
    (hr : ∀ r ∈ e.pl.recs, r.epoch ≤ e.epoch) (msg : ReplicateMsg)
    (ok : Bool) (now : Nat) :
    e.Raises (x.receiveLocked msg ok now).1 cr := by
  have hlevel : (x.receiveLocked msg ok now).1.commitLevel
      = e.commitLevel := by
    obtain ⟨t, mb, pl, lg, he⟩ := receiveLocked_modifies x msg ok now
    rw [he]
    exact h.level
  have ha := h.adoptEpoch hr msg.epoch now
  rcases receiveLocked_pl x msg ok now with ⟨h1, h2⟩ | ⟨h1, h2⟩
  · exact ⟨h1 ▸ h.moves, hlevel, h2 ▸ h.epoch_le, h1 ▸ h2 ▸ h.empties⟩
  · exact ⟨h1 ▸ ha.moves, hlevel, h2 ▸ ha.epoch_le, h1 ▸ h2 ▸ ha.empties⟩

/-- The sections that adopt an epoch, and a grant. -/
theorem step_raises (cr : NodeID → Nat → Nat → Prop)
    (hr : ∀ r ∈ e.pl.recs, r.epoch ≤ e.epoch)
    (hw : Part.tenure ∈ ev.input.writes) (hx : ev.input.reseats = false)
    (h : e.step ev = some e') : e.Raises e' cr := by
  obtain ⟨now, i⟩ := ev
  cases i <;> try (simp [Input.writes, Input.reseats] at hw hx; done)
  all_goals obtain rfl := Option.some.inj h
  case adoptEpoch E | snapshotFence E => exact Raises.refl.adoptEpoch hr E now
  case grantLease E expiry =>
      unfold grantLease
      split
      · exact .refl
      · have h : e.Raises { e with leaseEpoch := E, leaseExpiry := expiry }
            cr := ⟨fun _ => .refl, rfl, le_rfl,
          fun _ h => absurd h (Nat.lt_irrefl _)⟩
        exact h.adoptEpoch hr E now
  case receive msg ok => exact Raises.refl.receiveLocked hr msg ok now
  case receiveGroup msgs =>
      exact receiveGroup_ind (P := fun x => e.Raises x cr)
        (fun _ msg ok _ hx => hx.receiveLocked hr msg ok now) .refl

/-- The inversion: every section of the commit pipeline registers at
most one record and moves the pipeline under its own fence and
credits. -/
theorem step_advances (hd : e.pl.Dense) (hp : e.FramesPos)
    (hr : ∀ r ∈ e.pl.recs, r.epoch ≤ e.epoch)
    (hx : ev.input.reseats = false) (h : e.step ev = some e') :
    e.Advances ev e' := by
  by_cases hw : Part.pl ∈ ev.input.writes
  swap
  · exact .of_eq (step_agree h .pl hw)
  by_cases ht : Part.tenure ∈ ev.input.writes
  · exact .of_moves ((step_raises _ hr ht hx h).moves _)
  obtain ⟨now, i⟩ := ev
  cases i <;> try (simp [Input.writes] at hw ht; done)
  case register => exact advances_register h
  case submitDone =>
      simp only [step, submitDone] at h
      repeat' split at h
      all_goals cases h
      · exact .of_moves Pipeline.moves_sweepLocked
      · exact .of_eq rfl
  case ctxDone i =>
      obtain ⟨ret, rfl⟩ := ctxDone_modifies h
      exact .of_moves (Pipeline.moves_resolveLocked i _)
  case complete peer msgs res => exact advances_complete hd hp h
  case shrinkISR E newISR =>
      obtain ⟨-, rfl⟩ := locked_eq_some h
      exact advances_shrinkISR
  case installSnapshot s out => cases hx

-- ======== re-seating sections

/-- What any section does to the records, promotions and installs
included. -/
def Turns (e : Engine) (ev : Event) (e' : Engine) : Prop :=
  ∃ pl₁, e.Starts ev pl₁
    ∧ pl₁.Turns (e'.commitFence ev.now) e.commitLevel (Credits ev) e'.pl

theorem Advances.turns (h : e.Advances ev e') : e.Turns ev e' := by
  obtain ⟨pl₁, hs, hev⟩ := h
  exact ⟨pl₁, hs, hev.evolves.turns⟩

/-- A promotion that takes effect lifts the watermark and flushes. It
commits nothing: its lease is of an epoch no record has yet. -/
theorem promote_moves (hr : ∀ r ∈ e.pl.recs, r.epoch ≤ e.epoch)
    (cr : NodeID → Nat → Nat → Prop) (E expiry now : Nat) (F : Nat → Bool) :
    ({ e.pl with committed := if E ≤ e.epoch ∨ e.poisoned = true then
        e.pl.committed else max e.pl.committed e.lastApplied } :
      Pipeline).Moves F e.commitLevel cr (e.promote E expiry now).pl := by
  unfold promote
  by_cases hE : E ≤ e.epoch
  · simp only [hE, true_or, if_true]
    exact .refl
  · by_cases hpo : e.poisoned = true
    · simp only [hpo, or_true, if_true, ite_self]
      exact .refl
    · rw [if_neg hE, if_neg hpo, if_neg (by simp [hE, hpo])]
      refine (Pipeline.moves_flushEpochLocked (F := ({ e with
        epoch := E, leaseEpoch := E, leaseExpiry := expiry } :
        Engine).commitFence now) E).anyFence fun r hm => ?_
      have hne : E ≠ r.epoch := by
        have := hr r hm
        omega
      simp [commitFence, hne]

/-- An install fails what is in flight and empties the FIFO. -/
theorem installSnapshot_turns (s : Snapshot) (out : InstallOutcome) :
    (∀ F, e.pl.Turns F e.commitLevel cr (e.installSnapshot s out).pl)
      ∧ ((e.installSnapshot s out).pl = e.pl
        ∨ (e.installSnapshot s out).pl.ring.count = 0) := by
  have hin : (∀ F, e.pl.Turns F e.commitLevel cr (e.installed s).pl)
      ∧ ((e.installed s).pl = e.pl ∨ (e.installed s).pl.ring.count = 0) := by
    refine ⟨fun F => ?_, .inr (Pipeline.popAll_count _)⟩
    exact Pipeline.Turns.of_recs (Pipeline.moves_failWhere
      (fun _ => true) .replicationTimeout).evolves.turns rfl
      (Pipeline.popAll_recs _)
  unfold installSnapshot
  split
  · exact ⟨fun _ => Pipeline.Evolves.refl.turns, .inl rfl⟩
  · cases out with
    | fsmErr g => exact ⟨fun _ => Pipeline.Evolves.refl.turns, .inl rfl⟩
    | commitErr | ok => exact hin

/-- Every section registers at most one record, evolves the others, and
keeps the FIFO dense. -/
theorem step_turns_dense (hd : e.pl.Dense) (hp : e.FramesPos)
    (hr : ∀ r ∈ e.pl.recs, r.epoch ≤ e.epoch) (h : e.step ev = some e') :
    e.Turns ev e' ∧ e'.pl.Dense := by
  by_cases hx : ev.input.reseats = true
  swap
  · have ha := step_advances hd hp hr (by simpa using hx) h
    exact ⟨ha.turns, ha.dense hd⟩
  obtain ⟨now, i⟩ := ev
  cases i <;> try (simp [Input.reseats] at hx; done)
  case promote E expiry =>
      cases h
      have hm := promote_moves hr (Credits ⟨now, .promote E expiry⟩) E expiry
        now
      exact ⟨⟨e.pl, .inl rfl, .of_recs (hm _).evolves.turns rfl rfl⟩,
        (hm fun _ => false).dense ⟨hd.count_le, hd.slots, hd.seqs⟩⟩
  case installSnapshot s out =>
      obtain ⟨-, rfl⟩ := locked_eq_some h
      obtain ⟨ht, hpl | hc⟩ := installSnapshot_turns s out
      · exact ⟨⟨e.pl, .inl rfl, ht _⟩, hpl ▸ hd⟩
      · exact ⟨⟨e.pl, .inl rfl, ht _⟩, Pipeline.dense_of_empty hc⟩

/-- Every section turns the pipeline. -/
theorem step_turns (hd : e.pl.Dense) (hp : e.FramesPos)
    (hr : ∀ r ∈ e.pl.recs, r.epoch ≤ e.epoch) (h : e.step ev = some e') :
    e.Turns ev e' := (step_turns_dense hd hp hr h).1

-- ======== the run so far

/-- A captured epoch was captured before, or is the leased epoch the
fence just read, with the window open. -/
theorem captures_step {E : Nat} (h : e.step ev = some e')
    (hc : Captures e' E) :
    Captures e E ∨ E = e.epoch
      ∧ e.leaseEpoch = e.epoch ∧ 0 < e.leaseExpiry
      ∧ e.windowFullLocked = false := by
  obtain ⟨isr, d, hc⟩ := hc
  rcases step_stage h with h1 | ⟨p, i, n, d', -, -, hn, h1⟩
    | ⟨E', i, d', h0, ⟨h1, -⟩ | ⟨h1, -⟩⟩
    | ⟨E', i, d', ps, ls, v, -, -, h1⟩
    | ⟨x, ps, ls, v, -, h1 | ⟨ps', ls', v', h1⟩⟩ <;> rw [h1] at hc
  · exact .inl ⟨isr, d, hc⟩
  · refine .inr ⟨?_, leased_of_admitted hn⟩
    rcases hc with hc | hc <;> cases hc
    rfl
  · left
    rcases hc with hc | hc <;> cases hc
    exact ⟨_, _, .inl h0⟩
  all_goals rcases hc with hc | hc <;> cases hc

/-- The proposer captures the watermark it is fenced at, so its epoch
never runs ahead. -/
theorem step_captured (hd : e.pl.Dense) (hp : e.FramesPos)
    (hc : e.Captured) (h : e.step ev = some e') : e'.Captured := by
  have hle := step_epoch_le h
  refine ⟨?_, fun E hE => ?_⟩
  · obtain ⟨pl₁, hs, hev⟩ := step_turns hd hp hc.recs h
    refine hev.epochs fun r hr => ?_
    rcases hs with rfl | ⟨r₁, ⟨E, isr, data, -, hst, hr₁⟩, hreg⟩
    · exact Nat.le_trans (hc.recs r hr) hle
    · obtain ⟨he, -, -⟩ := Pipeline.register_eq hreg
      rw [he] at hr
      rcases List.mem_append.1 hr with hr | hr
      · exact Nat.le_trans (hc.recs r hr) hle
      · rw [List.mem_singleton.1 hr, hr₁]
        exact Nat.le_trans (hc.applied E isr data hst) hle
  · rcases captures_step h hE with hE | ⟨rfl, -⟩
    · exact Nat.le_trans (hc.stage E hE) hle
    · exact hle

/-- The latch of every record, and what the waiters were told. -/
structure Settled (e : Engine) : Prop where
  sent : ∀ r ∈ e.pl.recs, r.doneCh = if r.resolved then [r.err] else []
  told : ∀ i err, (i, err) ∈ e.returned →
    ∃ r, e.pl.recs[i]? = some r ∧ r.resolved = true ∧ r.err = err

/-- Since a moment of the run at which record `i` was registered, each
peer of its required set still owes its ack or was credited. -/
def Accounted (e₀ : Engine) (tr : List Event) (i : Nat) (r : Inflight) :
    Prop :=
  ∃ pre post e₁, tr = pre ++ post ∧ Reach Engine.step PipelineEvent e₀ pre e₁
    ∧ i < e₁.pl.recs.length
    ∧ ∀ p ∈ r.required, p ∈ r.pending ∨ ∃ ev ∈ post, Credits ev p r.epoch r.seq

-- ======== records, step by step

/-- A record of the table a section starts from, in the table it
leaves. -/
theorem Turns.forward (h : e.Turns ev e') {i : Nat} {r : Inflight}
    (hr : e.pl.recs[i]? = some r) :
    ∃ r', e'.pl.recs[i]? = some r'
      ∧ r.Evolves (e'.commitFence ev.now) e.commitLevel (Credits ev) r' := by
  obtain ⟨pl₁, hs, hev⟩ := h
  exact hev.recs i r (hs.recs hr)

/-- A record of the table a section leaves: it was there before, or the
section registered it. -/
theorem Turns.backward (h : e.Turns ev e') {i : Nat} {r' : Inflight}
    (hr' : e'.pl.recs[i]? = some r') :
    ∃ r, r.Evolves (e'.commitFence ev.now) e.commitLevel (Credits ev) r'
      ∧ (e.pl.recs[i]? = some r
        ∨ i = e.pl.recs.length ∧ e.Registers ev r) := by
  obtain ⟨pl₁, hs, hev⟩ := h
  obtain ⟨r, hget, he⟩ := hev.backAt hr'
  have hi := (List.getElem?_eq_some_iff.1 hget).1
  refine ⟨r, he, ?_⟩
  rcases hs with rfl | ⟨r₁, hr₁, hreg⟩
  · exact .inl hget
  · obtain ⟨hpl, -, -⟩ := Pipeline.register_eq hreg
    have hrecs : pl₁.recs = e.pl.recs ++ [r₁] := by rw [hpl]
    rw [hrecs] at hget
    by_cases hlt : i < e.pl.recs.length
    · rw [List.getElem?_append_left hlt] at hget
      exact .inl hget
    · have hlen : i = e.pl.recs.length := by
        rw [hrecs, List.length_append, List.length_singleton] at hi
        omega
      rw [hlen, List.getElem?_concat_length] at hget
      obtain rfl := Option.some.inj hget
      exact .inr ⟨hlen, hr₁⟩

/-- A registration leaves its record in the table. -/
theorem register_record {E : Nat} {isr : List NodeID} {d : Data}
    (h : e.step ev = some e') (hinp : ev.input = .register)
    (hst : e.stage = .applied E isr d) :
    ∃ r ∈ e'.pl.recs, r.seq = e.frontier.1 + 1 ∧ r.epoch = E
      ∧ r.hist = e.fsm := by
  obtain ⟨now, i⟩ := ev
  subst hinp
  obtain ⟨E', isr', d', pl, hst', hreg, hm⟩ := register_moves h
  cases hst.symm.trans hst'
  let r := e.recordOf (e.nextFrame E d) (e.requiredPeers E isr)
  have hr : pl.recs[e.pl.recs.length]? = some r := by
    obtain ⟨hpl', -, -⟩ := Pipeline.register_eq hreg
    rw [hpl']
    simp [r]
  obtain ⟨r', hr', hev⟩ := (hm fun _ _ _ => False).evolves.recs _ _ hr
  exact ⟨r', List.mem_of_getElem? hr', hev.seq_eq, hev.epoch_eq, hev.hist_eq⟩

/-- The waiters: what one section tells. -/
theorem step_returned (h : e.step ev = some e') :
    e'.returned = e.returned
      ∨ ∃ i r err, e'.pl.recs[i]? = some r
        ∧ (r.doneCh.head? = some err ∨ r.resolved = true ∧ r.err = err)
        ∧ e'.returned = e.returned ++ [(i, err)] := by
  by_cases hw : Part.returned ∈ ev.input.writes
  swap
  · exact .inl (step_agree h .returned hw)
  obtain ⟨now, i⟩ := ev
  cases i <;> try (simp [Input.writes] at hw; done)
  case awaitDone i =>
      simp only [step, awaitDone] at h
      repeat' split at h
      all_goals cases h
      next err herr =>
      obtain ⟨r, hr, hhead⟩ := Option.bind_eq_some_iff.mp herr
      exact .inr ⟨i, r, err, hr, .inl hhead, rfl⟩
  case ctxDone i =>
      simp only [step, ctxDone] at h
      repeat' split at h
      all_goals cases h
      next r hr =>
      refine .inr ⟨i, r, r.err, hr, .inr ⟨?_, rfl⟩, rfl⟩
      rw [setPl, Pipeline.resolveLocked, Pipeline.modifyRec_getElem?,
        if_pos rfl, Option.map_eq_some_iff] at hr
      obtain ⟨r₀, -, rfl⟩ := hr
      unfold Inflight.resolve
      split
      · assumption
      · rfl

theorem Turns.settled (ht : e.Turns ev e') (hs : e.Settled)
    (h : e.step ev = some e') : e'.Settled := by
  have hsent : ∀ r ∈ e'.pl.recs,
      r.doneCh = if r.resolved then [r.err] else [] := by
    intro r' hr'
    obtain ⟨i, hi⟩ := List.getElem?_of_mem hr'
    obtain ⟨r, he, hr | ⟨-, hreg⟩⟩ := ht.backward hi
    · exact he.sent (hs.sent r (List.mem_of_getElem? hr))
    · exact he.sent (by rw [hreg.fresh.doneCh, hreg.fresh.resolved]; rfl)
  refine ⟨hsent, fun i err hm => ?_⟩
  have hold : (i, err) ∈ e.returned →
      ∃ r, e'.pl.recs[i]? = some r ∧ r.resolved = true ∧ r.err = err := by
    intro hm
    obtain ⟨r, hr, h1, h2⟩ := hs.told i err hm
    obtain ⟨r', hr', he⟩ := ht.forward hr
    obtain ⟨h3, h4, -⟩ := he.latch h1
    exact ⟨r', hr', h3, h4.trans h2⟩
  rcases step_returned h with hret | ⟨j, r, err', hr, hout, hret⟩
  · exact hold (hret ▸ hm)
  · rw [hret] at hm
    rcases List.mem_append.1 hm with hm | hm
    · exact hold hm
    · obtain ⟨rfl, rfl⟩ := Prod.mk.inj (List.mem_singleton.1 hm)
      rcases hout with hhead | hres
      · -- A value on the channel is the latched outcome.
        rw [hsent r (List.mem_of_getElem? hr)] at hhead
        split at hhead
        · next hb => exact ⟨r, hr, hb, Option.some.inj hhead⟩
        · cases hhead
      · exact ⟨r, hr, hres.1, hres.2⟩

/-- Under `CommitFullISR` an acked record waits for nobody. -/
theorem Turns.acked_pending (ht : e.Turns ev e')
    (hl : e.commitLevel = .fullISR)
    (hr : ∀ r ∈ e.pl.recs, r.acked = true → r.pending = []) :
    ∀ r ∈ e'.pl.recs, r.acked = true → r.pending = [] := by
  intro r' hr' hack
  obtain ⟨i, hi⟩ := List.getElem?_of_mem hr'
  obtain ⟨r, he, hold⟩ := ht.backward hi
  cases hb : r.resolved with
  | false => exact (he.ack hb hack).2 hl
  | true =>
    -- resolved before: the outcome and the empty set are older
    have hmem : r ∈ e.pl.recs := by
      rcases hold with hold | ⟨-, hreg⟩
      · exact List.mem_of_getElem? hold
      · rw [hreg.fresh.resolved] at hb
        cases hb
    obtain ⟨h1, h2, -⟩ := he.latch hb
    have hack₀ : r.acked = true := by
      unfold Inflight.acked at hack ⊢
      rw [h1, h2] at hack
      rwa [hb]
    refine List.eq_nil_iff_forall_not_mem.2 fun p hp => ?_
    have := he.pending_sub p hp
    rw [hr r hmem hack₀] at this
    cases this

/-- What holds of every state any run reaches, promotions and installs
included. -/
structure Wf (e : Engine) : Prop where
  dense : e.pl.Dense
  framesPos : e.FramesPos
  captured : e.Captured
  settled : e.Settled

theorem wf_restored (c : Config) (po : Bool) (seq epoch : Nat)
    (fsm : List Data) : (restored c po seq epoch fsm).Wf where
  dense := Pipeline.dense_new
  framesPos := by
    rintro m (⟨p, s, hp, -⟩ | ⟨p, ms, hp, -⟩ | ⟨ps, ls, v, hst⟩)
    · cases hp
    · cases hp
    · cases hst
  captured := by
    refine ⟨fun r hr => ?_, ?_⟩
    · cases hr
    · rintro E ⟨isr, d, hst | hst⟩ <;> cases hst
  settled := by
    refine ⟨fun r hr => ?_, fun i err hm => ?_⟩
    · cases hr
    · cases hm

theorem Wf.turns (hw : e.Wf) (h : e.step ev = some e') : e.Turns ev e' :=
  step_turns hw.dense hw.framesPos hw.captured.recs h

/-- Every section keeps the engine well formed. -/
theorem step_wf (hw : e.Wf) (h : e.step ev = some e') : e'.Wf where
  dense := (step_turns_dense hw.dense hw.framesPos hw.captured.recs h).2
  framesPos := step_framesPos hw.framesPos h
  captured := step_captured hw.dense hw.framesPos hw.captured h
  settled := (hw.turns h).settled hw.settled h

/-- What holds of every state a run of the commit pipeline reaches. -/
structure RunInv (e₀ : Engine) (tr : List Event) (e : Engine) : Prop where
  wf : e.Wf
  accounted : ∀ i r, e.pl.recs[i]? = some r → Accounted e₀ tr i r

/-- The accounting of every record, one section further. -/
theorem Advances.accounted {e₀ : Engine} {tr : List Event}
    (ha : e.Advances ev e')
    (hr : Reach Engine.step PipelineEvent e₀ (tr ++ [ev]) e')
    (hacc : ∀ i r, e.pl.recs[i]? = some r → Accounted e₀ tr i r)
    {i : Nat} {r' : Inflight} (hi : e'.pl.recs[i]? = some r') :
    Accounted e₀ (tr ++ [ev]) i r' := by
  obtain ⟨r, he, hold | ⟨-, hreg⟩⟩ := ha.turns.backward hi
  · obtain ⟨pre, post, e₁, rfl, hpre, hlen, hp⟩ := hacc i r hold
    refine ⟨pre, post ++ [ev], e₁, List.append_assoc .., hpre, hlen,
      fun p hreq => ?_⟩
    rw [he.required_eq] at hreq
    rw [he.epoch_eq, he.seq_eq]
    rcases hp p hreq with hpend | ⟨ev', hmem, hcr⟩
    · rcases he.credited p hpend with hpend | hcr
      · exact .inl hpend
      · exact .inr ⟨ev, List.mem_append_right _ (List.mem_singleton_self _),
          hcr⟩
    · exact .inr ⟨ev', List.mem_append_left _ hmem, hcr⟩
  · -- Registered here: nothing has been credited, nothing dropped.
    refine ⟨tr ++ [ev], [], e', (List.append_nil _).symm, hr,
      (List.getElem?_eq_some_iff.1 hi).1, fun p hreq => ?_⟩
    rw [he.required_eq, ← hreg.fresh.pending] at hreq
    rcases he.credited p hreq with hpend | hcr
    · exact .inl hpend
    · obtain ⟨E, isr, data, hinp, -, -⟩ := hreg
      unfold Credits at hcr
      rw [hinp] at hcr
      cases hcr

theorem runInv_step {e₀ : Engine} {tr : List Event}
    (hr : Reach Engine.step PipelineEvent e₀ tr e)
    (hi : RunInv e₀ tr e) (hk : PipelineEvent e ev)
    (h : e.step ev = some e') : RunInv e₀ (tr ++ [ev]) e' := by
  have ha := step_advances hi.wf.dense hi.wf.framesPos hi.wf.captured.recs hk h
  exact {
    wf := step_wf hi.wf h
    accounted := fun _ _ => ha.accounted (.step ev hr hk h) hi.accounted }

/-- The invariant holds throughout a run. -/
theorem runInv {c : Config} {po : Bool} {seq epoch : Nat}
    {fsm : List Data} {tr : List Event}
    (h : Reach Engine.step PipelineEvent (restored c po seq epoch fsm)
      tr e) : RunInv (restored c po seq epoch fsm) tr e :=
  h.invariant ⟨wf_restored c po seq epoch fsm, fun i r hr => by cases hr⟩
    fun _ _ _ _ hr hi hk hs => runInv_step hr hi hk hs

-- ======== main

/-- Record `i` resolves nil between the two states. -/
def CommitsAt (e e' : Engine) (i : Nat) (r' : Inflight) : Prop :=
  e'.pl.recs[i]? = some r' ∧ r'.acked = true
    ∧ ∀ r, e.pl.recs[i]? = some r → r.acked = false

/-- Each peer the record was registered to need has been credited since
a moment at which the record existed. -/
def FullyCredited (e₀ : Engine) (tr : List Event) (i : Nat)
    (r : Inflight) : Prop :=
  ∃ pre post e₁, tr = pre ++ post ∧ Reach Engine.step PipelineEvent e₀ pre e₁
    ∧ i < e₁.pl.recs.length
    ∧ ∀ p ∈ r.required, ∃ ev ∈ post, Credits ev p r.epoch r.seq

/-- What one section of a run may do to the commit state. -/
structure CommitSafe (e₀ : Engine) (tr : List Event) (e : Engine)
    (ev : Event) (e' : Engine) : Prop where
  /-- Records persist with their identity, and one resolution is all a
  record ever gets. -/
  once : ∀ (i : Nat) (r : Inflight), e.pl.recs[i]? = some r →
    ∃ r', e'.pl.recs[i]? = some r'
    ∧ r'.epoch = r.epoch ∧ r'.seq = r.seq ∧ r'.required = r.required
    ∧ r'.doneCh.length ≤ 1
    ∧ (r.resolved = true → r'.resolved = true ∧ r'.err = r.err
      ∧ r'.doneCh = r.doneCh)
  /-- A nil resolution happens under a live lease of the record's own
  epoch, with every required peer credited. -/
  fenced : ∀ i r', CommitsAt e e' i r' →
    e'.leaseEpoch = r'.epoch ∧ e'.epoch = r'.epoch
    ∧ ev.now < e'.leaseExpiry
    ∧ (e.commitLevel = .fullISR → FullyCredited e₀ (tr ++ [ev]) i r')
  /-- The commit frontier only moves up, to a record that commits
  here. -/
  frontier : e.pl.committed ≤ e'.pl.committed
    ∧ (e'.pl.committed = e.pl.committed
      ∨ ∃ i r', CommitsAt e e' i r' ∧ r'.seq = e'.pl.committed)
  /-- A proposer is told nil exactly when its record resolved nil. -/
  told : ∀ (i : Nat) (err : Option ProposeErr), (i, err) ∈ e'.returned →
    ∃ r', e'.pl.recs[i]? = some r' ∧ r'.resolved = true
      ∧ (err = none ↔ r'.acked = true)

/-- The record before the section that commits it was unresolved. -/
theorem Advances.commits (ha : e.Advances ev e') {i : Nat}
    {r' : Inflight} (h : CommitsAt e e' i r') :
    e'.commitFence ev.now r'.epoch = true
      ∧ (e.commitLevel = .fullISR → r'.pending = []) := by
  obtain ⟨hr', hack, hold⟩ := h
  obtain ⟨r, he, hr⟩ := ha.turns.backward hr'
  have hu : r.resolved = false := by
    rcases hr with hr | ⟨-, hreg⟩
    · cases hb : r.resolved with
      | false => rfl
      | true =>
        -- A failed record stays failed, an acked one was acked before.
        obtain ⟨h1, h2, -⟩ := he.latch hb
        have hne := hold r hr
        unfold Inflight.acked at hack hne
        rw [h1, h2] at hack
        rw [hb, hack] at hne
        cases hne
    · exact hreg.fresh.resolved
  rw [he.epoch_eq]
  exact he.ack hu hack

/-- **Commit safety.** Every section of every run of the commit
pipeline, from any restored engine, is `CommitSafe`. -/
theorem commit_safety {c : Config} {po : Bool} {seq epoch : Nat}
    {fsm : List Data} {tr : List Event}
    (hr : Reach Engine.step PipelineEvent (restored c po seq epoch fsm) tr e)
    (hk : PipelineEvent e ev) (h : e.step ev = some e') :
    CommitSafe (restored c po seq epoch fsm) tr e ev e' := by
  have hi := runInv hr
  have hi' := runInv_step hr hi hk h
  have ha := step_advances hi.wf.dense hi.wf.framesPos hi.wf.captured.recs hk h
  refine ⟨?_, ?_, ?_, ?_⟩
  · intro i r hget
    obtain ⟨r', hr', he⟩ := ha.turns.forward hget
    refine ⟨r', hr', he.epoch_eq, he.seq_eq, he.required_eq, ?_, he.latch⟩
    rw [hi'.wf.settled.sent r' (List.mem_of_getElem? hr')]
    split
    · exact le_rfl
    · exact Nat.zero_le _
  · intro i r' hc
    obtain ⟨hf, hpend⟩ := ha.commits hc
    simp only [commitFence, Bool.and_eq_true, beq_iff_eq,
      decide_eq_true_eq] at hf
    refine ⟨hf.1.1, hf.1.2, hf.2, fun hl => ?_⟩
    obtain ⟨pre, post, e₁, htr, hpre, hlen, hp⟩ := hi'.accounted i r' hc.1
    refine ⟨pre, post, e₁, htr, hpre, hlen, fun p hreq => ?_⟩
    rcases hp p hreq with hmem | hcr
    · rw [hpend hl] at hmem
      cases hmem
    · exact hcr
  · obtain ⟨pl₁, hs, hm⟩ := ha
    have hev := hm.evolves
    have hcom : pl₁.committed = e.pl.committed := by
      rcases hs with rfl | ⟨r₁, -, hreg⟩
      · rfl
      · obtain ⟨hpl, -, -⟩ := Pipeline.register_eq hreg
        rw [hpl]
    refine ⟨hcom ▸ hev.committed_le, ?_⟩
    rcases hev.committed_new with heq | ⟨i, r, r', hget, hget', hu, hack, hseq⟩
    · exact .inl (heq.trans hcom)
    · refine .inr ⟨i, r', ⟨hget', hack, fun r₀ hr₀ => ?_⟩, hseq⟩
      -- The same record, seen through the table before registration.
      have hsame : r₀ = r := by
        rcases hs with rfl | ⟨r₁, -, hreg⟩
        · exact Option.some.inj (hr₀.symm.trans hget)
        · obtain ⟨hpl, -, -⟩ := Pipeline.register_eq hreg
          have hlt := (List.getElem?_eq_some_iff.1 hr₀).1
          have hrecs : pl₁.recs = e.pl.recs ++ [r₁] := by rw [hpl]
          rw [hrecs, List.getElem?_append_left hlt] at hget
          exact Option.some.inj (hr₀.symm.trans hget)
      rw [hsame]
      simp [Inflight.acked, hu]
  · intro i err hm
    obtain ⟨r, hget, hres, herr⟩ := hi'.wf.settled.told i err hm
    refine ⟨r, hget, hres, ?_⟩
    rw [← herr]
    simp [Inflight.acked, hres]

/-- A leased primary with one backup, up to the submission of its first
write. -/
def oneWrite : List Event :=
  [⟨0, .grantLease 1 100⟩, ⟨1, .fence "a" ["a", "b"] 1 [7]⟩,
    ⟨2, .applyLocal true⟩, ⟨3, .register⟩, ⟨4, .submitNext true⟩,
    ⟨5, .submitDone⟩]

/-- The backup's exact ack of that write. -/
def oneAck : Event :=
  ⟨6, .complete "b" [⟨1, 1, 0, 0, [7]⟩] (some ⟨1, 1, true⟩)⟩

theorem commit_safety_oneWrite :
    ∃ e e', Reach Engine.step PipelineEvent (.new { nodeID := "a" }) oneWrite e
      ∧ e.step oneAck = some e' ∧ e'.pl.committed = 1
      ∧ CommitSafe (.new { nodeID := "a" }) oneWrite e oneAck e' := by
  have hk : ∀ (e : Engine) (ev : Event), (!ev.input.reseats) = true →
      PipelineEvent e ev := fun _ _ h => by simpa [PipelineEvent] using h
  obtain ⟨e, hr, hrun⟩ : ∃ e, Reach Engine.step PipelineEvent
      (.new { nodeID := "a" }) oneWrite e
      ∧ (e.step oneAck).any (fun e' => e'.pl.committed = 1) = true := by
    apply exec_decide hk
    decide
  obtain ⟨e', hstep, hcom⟩ := (Option.any_eq_true _ _).mp hrun
  exact ⟨e, e', hr, hstep, of_decide_eq_true hcom,
    commit_safety hr rfl hstep⟩

end Engine

end Rostam.Pbisr
