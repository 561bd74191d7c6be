/-
The learner hand-over: what a flip pre-loads and the proposer then
appends is one gap-free run of frames.

`Seamless` is the state of one flipped sender while its epoch lasts. The
frame the proposer still owes the learner counts as handed over, so the
fact is stable through the submission loop.

# What is asked of the run

`OnePrimary prim` is the control plane's promise, `prim E` being the one
node the epoch `E` belongs to: only that node is granted a lease of `E`,
and it receives neither frames nor snapshots of its own epoch.
`FlipsOnTail` is the condition on the flip: it finds nothing applied past
the seq tail it cuts the delta at.
-/
import Rostam.Pbisr.Proofs.Learners
import Rostam.Pbisr.Proofs.Retained

namespace Rostam.Pbisr

open Rostam.Lib

namespace Engine

variable {e e' : Engine} {ev : Event}

-- ======== one primary an epoch

/-- What the control plane promises one node, `prim E` being the node
epoch `E` belongs to. A transfer ran its epoch fence before it
installs. -/
def OnePrimary (prim : Nat → NodeID) (e : Engine) (ev : Event) : Prop :=
  match ev.input with
  | .grantLease E _ | .promote E _ => prim E = e.nodeID
  | .receive msg _ => prim msg.epoch ≠ e.nodeID
  | .receiveGroup msgs => ∀ m ok, (m, ok) ∈ msgs → prim m.epoch ≠ e.nodeID
  | .installSnapshot s _ => s.epoch ≤ e.epoch ∧ prim s.epoch ≠ e.nodeID
  | _ => True

variable {prim : Nat → NodeID}

theorem OnePrimary.delivers {m : ReplicateMsg}
    (hk : OnePrimary prim e ev) (hm : ev.input.Delivers m) :
    prim m.epoch ≠ e.nodeID := by
  obtain ⟨now, i⟩ := ev
  cases i <;> try (simp [Input.Delivers] at hm; done)
  case receive msg ok =>
      have hm' : m = msg := hm
      rw [hm']
      exact hk
  case receiveGroup msgs =>
      obtain ⟨ok, hmem⟩ := hm
      exact hk m ok hmem

/-- No snapshot of its own epoch is installed on a primary. -/
theorem OnePrimary.not_own {s : Snapshot} {out : InstallOutcome}
    (hk : OnePrimary prim e ev) (hinp : ev.input = .installSnapshot s out)
    (hab : e.installAborts s = false) : prim e.epoch ≠ e.nodeID := by
  unfold OnePrimary at hk
  rw [hinp] at hk
  unfold installAborts at hab
  simp only [Bool.or_eq_false_iff, decide_eq_false_iff_not] at hab
  have : s.epoch = e.epoch := by have := hk.1; omega
  exact this ▸ hk.2

/-- While a node's own epoch lasts, only its registrations move its
watermarks. -/
theorem step_own_log (hk : OnePrimary prim e ev) (h : e.step ev = some e')
    (hep : e'.epoch = e.epoch) (hown : prim e.epoch = e.nodeID) :
    (∃ fsm, e'.toLog = { e.toLog with fsm := fsm })
      ∨ ∃ E isr d, ev.input = .register ∧ e.stage = .applied E isr d
        ∧ e'.toLog = e.toLog.assign E := by
  rcases step_log h with hl | ⟨E, isr, d, -, -, -, hl⟩
    | ⟨E, isr, d, hinp, hst, hl⟩ | ⟨ms, hms, hr⟩
    | ⟨E, x, hinp, hlt, hpo, -⟩ | ⟨s, out, hinp, -, hab, -⟩
  · exact .inl ⟨e.fsm, hl⟩
  · exact .inl ⟨_, hl⟩
  · exact .inr ⟨E, isr, d, hinp, hst, hl⟩
  · -- An accepted frame would be of the node's own epoch.
    rcases hr.eq_or_mem with hl | ⟨m, hm⟩
    · exact .inl ⟨e.fsm, hl⟩
    · obtain ⟨hdel, hlo, hhi⟩ := hms m hm
      have : m.epoch = e.epoch := by omega
      exact absurd (this ▸ hown) (hk.delivers hdel)
  · exfalso
    obtain ⟨now, i⟩ := ev
    have hi : i = .promote E x := hinp
    subst hi
    injection h with h
    have ht := promote_tenure e E x now
    rw [h, if_neg (by simp [hpo]; omega)] at ht
    have : e'.epoch = E := congrArg Tenure.epoch ht
    omega
  · exact absurd hown (hk.not_own hinp hab)

/-- So the frontier never falls there. -/
theorem own_frontier_le (hk : OnePrimary prim e ev)
    (h : e.step ev = some e') (hep : e'.epoch = e.epoch)
    (hown : prim e.epoch = e.nodeID) : e.frontier.1 ≤ e'.frontier.1 := by
  rcases step_own_log hk h hep hown with ⟨fsm, hl⟩ | ⟨E, isr, d, -, -, hl⟩
  · rw [hl]
    exact le_rfl
  · rw [hl, Log.assign_frontier]
    exact Nat.le_succ _

theorem OnePrimary.granted (hk : OnePrimary prim e ev) :
    Granted prim e ev := by
  obtain ⟨now, i⟩ := ev
  cases i <;> first | exact hk | trivial

-- ======== the catch-up

/-- The target's credited high-water is one of this primary's own
writes, as long as the epoch it grows at lasts. -/
def Credited (prim : Nat → NodeID) (e : Engine) (E k : Nat) : Prop :=
  E ≤ e.epoch ∧ (E = e.epoch → prim E = e.nodeID → k ≤ e.frontier.1)

/-- Where a catch-up stands. -/
def PhaseOk (prim : Nat → NodeID) (e : Engine) : CatchupPhase → Prop
  | .handshake E | .check E _ _ => E ≤ e.epoch
  | .backfill E k _ | .flip E k => Credited prim e E k
  | .await E _ _ last => Credited prim e E last
  | _ => True

def GrowOk (prim : Nat → NodeID) (e : Engine) : Prop :=
  ∀ g, e.grow = some g → PhaseOk prim e g.phase

/-- What a learner has been credited with stays. -/
theorem Credited.step {E k : Nat} (hc : Credited prim e E k)
    (hk : OnePrimary prim e ev) (h : e.step ev = some e') :
    Credited prim e' E k := by
  have hle := step_epoch_le h
  have hid : e'.nodeID = e.nodeID := congrArg Identity.nodeID (step_identity h)
  obtain ⟨h1, h2⟩ := hc
  refine ⟨Nat.le_trans h1 hle, fun hE hown => ?_⟩
  rw [hid] at hown
  have hep : e'.epoch = e.epoch := by omega
  have hE' : E = e.epoch := by omega
  exact Nat.le_trans (h2 hE' hown) (own_frontier_le hk h hep (hE' ▸ hown))

theorem PhaseOk.step {ph : CatchupPhase} (hp : PhaseOk prim e ph)
    (hk : OnePrimary prim e ev) (h : e.step ev = some e') :
    PhaseOk prim e' ph := by
  have hle := step_epoch_le h
  cases ph with
  | handshake | check => exact Nat.le_trans hp hle
  | backfill | await | flip => exact Credited.step hp hk h
  | fallback | snapshot | ship => trivial

/-- The two ways an attempt leaves its loop. -/
theorem growOk_fail (g : Catchup) (err : GrowErr) :
    GrowOk prim (e.growFail g err) := by
  intro g' hg'
  unfold growFail at hg'
  split at hg'
  · cases hg'
    trivial
  · cases hg'

theorem growOk_end : GrowOk prim e.growEnd := by
  intro g' hg'
  cases hg'

theorem growOk_to {g : Catchup} (ph : CatchupPhase)
    (hp : PhaseOk prim e ph) : GrowOk prim (e.growTo g ph) := by
  intro g' hg'
  injection hg' with hg'
  subst hg'
  -- The program counter is no part of what `PhaseOk` reads.
  cases ph <;> exact hp

theorem growOk_backfill {x : Engine × List ReplicateMsg}
    (hr : e.Retained) (ho : GrowOk prim e)
    (h : e.growBackfill = some x) : GrowOk prim x.1 := by
  unfold growBackfill at h
  split at h
  · next p n se E k gap hg =>
    have hp : Credited prim e E k := ho _ hg
    rw [Option.map_eq_some_iff] at h
    obtain ⟨r, hround, rfl⟩ := h
    cases r with
    | fail err => exact growOk_fail _ _
    | caughtUp => exact growOk_to _ hp
    | send msgs last =>
      refine growOk_to _ ⟨hp.1, fun _ _ => ?_⟩
      unfold backfillRound at hround
      repeat' split at hround
      all_goals try cases hround
      next ms hd =>
        rw [Option.map_eq_some_iff] at hround
        obtain ⟨m, hlast, hm⟩ := hround
        injection hm with hms hseq
        rw [← hseq]
        exact hr.delta_le hd (List.mem_of_getLast? hlast)
  · cases h

/-- A flip ends the catch-up, or sends it back. -/
theorem growOk_flip {now : Nat} (ho : GrowOk prim e)
    (h : e.flipLearner now = some e') : GrowOk prim e' := by
  unfold flipLearner at h
  split at h
  · next p n se E k hst hg =>
    have hp : Credited prim e E k := ho _ hg
    repeat' split at h
    all_goals cases h
    · exact growOk_end
    · exact growOk_end
    · exact growOk_to _ hp
    · exact growOk_fail _ _
    · exact growOk_to _ hp
    · exact fun g' hg' => by cases hg'
  · cases h

/-- Every section keeps the catch-up sound. -/
theorem step_growOk (hr : e.Retained) (ho : GrowOk prim e)
    (hk : OnePrimary prim e ev) (h : e.step ev = some e') :
    GrowOk prim e' := by
  by_cases hw : Part.grow ∈ ev.input.writes
  swap
  · have hg : e'.grow = e.grow := step_agree h .grow hw
    intro g hg'
    exact (ho g (hg ▸ hg')).step hk h
  obtain ⟨now, i⟩ := ev
  cases i <;> try (simp [Input.writes] at hw; done)
  case growStart peer =>
      simp only [step, growStart] at h
      split at h <;> cases h
      intro g hg
      cases hg
      exact Nat.le_refl e.epoch
  case growHandshake res =>
      simp only [step, growHandshake] at h
      split at h
      · next p n se E hg =>
        have hp : E ≤ e.epoch := ho _ hg
        repeat' split at h
        all_goals cases h
        · exact growOk_end
        · exact growOk_end
        · exact growOk_fail _ _
        · exact growOk_to _ hp
      · cases h
  case growCheck =>
      simp only [step, growCheck] at h
      split at h
      · next p n se E k kEpoch hg =>
        have hp : E ≤ e.epoch := ho _ hg
        split at h
        · cases h
          exact growOk_fail _ _
        · next hdiv =>
          cases h
          refine growOk_to _ ⟨hp, fun _ _ => ?_⟩
          -- A high-water past the frontier is a divergence.
          unfold catchupDiverged at hdiv
          split at hdiv
          · exact absurd rfl hdiv
          · next hlt => exact Nat.le_of_not_lt hlt
      · cases h
  case growBackfill =>
      simp only [step, Option.map_eq_some_iff] at h
      obtain ⟨x, hx, rfl⟩ := h
      exact growOk_backfill hr ho hx
  case growAck res =>
      simp only [step, growAck] at h
      split at h
      · next p n se E k gap last hg =>
        have hp : Credited prim e E last := ho _ hg
        repeat' split at h
        all_goals cases h
        · exact growOk_end
        · exact growOk_end
        · exact growOk_fail _ _
        · refine growOk_to _ ⟨hp.1, fun h1 h2 => ?_⟩
          have := hp.2 h1 h2
          omega
      · cases h
  case flip => exact growOk_flip ho h
  case growFallback =>
      simp only [step, growFallback] at h
      repeat' split at h
      all_goals cases h
      · exact growOk_end
      · intro g hg
        cases hg
        trivial
  case takeSnapshot ok =>
      simp only [step, Option.map_eq_some_iff] at h
      obtain ⟨x, hx, rfl⟩ := h
      unfold takeSnapshot at hx
      repeat' split at hx
      all_goals cases hx
      · exact growOk_end
      · exact growOk_to (.ship _) trivial
  case growShipped res =>
      simp only [step, growShipped] at h
      repeat' split at h
      all_goals cases h
      · exact growOk_end
      · exact growOk_end
      · exact growOk_to (.handshake e.epoch) (Nat.le_refl e.epoch)
  case growCancel =>
      cases h
      exact growOk_end

variable {M p : NodeID} {s s' : Sender} {m : ReplicateMsg}

-- ======== one flipped sender

/-- One sender a flip of the current epoch built at high-water `k`. -/
structure Seamless (prim : Nat → NodeID) (e : Engine) (M : NodeID)
    (s : Sender) (k : Nat) : Prop where
  own : prim e.epoch = e.nodeID
  tail : e.lastApplied ≤ e.lastSeq
  learner : e.closed = false → M ∈ e.learners
  chain : Chain e.epochAt k (s.handed ++ e.owed M)
  le : k + (s.handed ++ e.owed M).length ≤ e.lastSeq
  full : e.closed = false → k + (s.handed ++ e.owed M).length = e.lastSeq

/-- A flip finds nothing applied past the seq tail it cuts the delta
at, and that tail in the range of its counter. -/
def FlipsOnTail (e : Engine) (ev : Event) : Prop :=
  ev.input = .flip → e.lastApplied ≤ e.lastSeq ∧ e.lastSeq < 2 ^ 64

/-- The runs the hand-over is seamless in. -/
def GrowSafe (prim : Nat → NodeID) (e : Engine) (ev : Event) : Prop :=
  OnePrimary prim e ev ∧ FlipsOnTail e ev

theorem frontier_of_tail {l : Log} (h : l.lastApplied ≤ l.lastSeq) :
    l.frontier = (l.lastSeq, l.lastSeqEpoch) := if_neg (by omega)

theorem u64Sub_of_le {a b : Nat} (h : b ≤ a) (ha : a < 2 ^ 64) :
    u64Sub a b = a - b := by
  unfold u64Sub
  rw [Nat.mod_eq_of_lt (by omega : b < 2 ^ 64),
    show a + (2 ^ 64 - b) = (a - b) + 2 ^ 64 by omega, Nat.add_mod_right]
  exact Nat.mod_eq_of_lt (by omega)

theorem step_closed (h : e.step ev = some e') (hc : e'.closed = false) :
    e.closed = false := by
  by_cases hw : Part.closed ∈ ev.input.writes
  swap
  · rw [← show e'.closed = e.closed from step_agree h .closed hw]
    exact hc
  obtain ⟨now, i⟩ := ev
  cases i <;> try (simp [Input.writes] at hw; done)
  obtain ⟨-, rfl⟩ := locked_eq_some h
  cases hc

/-- The flip itself. -/
theorem seamless_flip {E k : Nat} {delta : List ReplicateMsg}
    (hr : e.Retained) (hl : Leased prim e) (ho : GrowOk prim e)
    (hf : e.lastApplied ≤ e.lastSeq) (h64 : e.lastSeq < 2 ^ 64)
    (hidle : e.stage = .idle)
    (hg : ∃ n se, e.grow = some ⟨M, n, se, .flip E k⟩)
    (hE : e.epoch = E) (hlE : e.leaseEpoch = E) (hx : 0 < e.leaseExpiry)
    (hd : ringDeltaLocked e.backlog (k + 1) e.lastSeq = some delta)
    (hlen : delta.length = u64Sub e.lastSeq k) :
    Seamless prim (e.flipInstall M E k delta) M ⟨some (E, k), delta, 0⟩
      k := by
  have hown : prim e.epoch = e.nodeID := by
    rw [hE, ← hlE]
    exact hl hx
  have hk : k ≤ e.lastSeq := by
    obtain ⟨n, se, hg⟩ := hg
    have hc : Credited prim e E k := ho _ hg
    have := hc.2 hE.symm (hE ▸ hown)
    rw [frontier_of_tail hf] at this
    exact this
  rw [u64Sub_of_le hk h64] at hlen
  have howed : (e.flipInstall M E k delta).owed M = [] := owed_idle hidle
  refine ⟨hown, hf, fun _ => ?_, ?_, ?_, fun _ => ?_⟩
  · show M ∈ if M ∈ e.learners then e.learners else e.learners ++ [M]
    split
    · assumption
    · exact List.mem_append_right _ (List.mem_singleton_self _)
  · rw [howed, List.append_nil]
    exact hr.delta hd
  · rw [howed, List.append_nil, hlen]
    show k + (e.lastSeq - k) ≤ e.lastSeq
    omega
  · rw [howed, List.append_nil, hlen]
    show k + (e.lastSeq - k) = e.lastSeq
    omega

/-- The frame a registration adds to a chain that ends at the
frontier. -/
theorem nextFrame_follows (hd : e.toLog.Dated) (E : Nat) (d : Data) :
    (e.nextFrame E d).Follows (setEpochAt e.epochAt (e.frontier.1 + 1) E)
      e.frontier.1 where
  seq := rfl
  prevSeq := rfl
  prevEpoch := by
    rw [Log.setEpochAt_of_ne _ _ (by omega)]
    exact hd.frontier
  epoch := (Log.setEpochAt_self ..).symm

/-- The proposer registers one more write. -/
theorem seamless_register {k now : Nat} (hd : e.toLog.Dated)
    (hs : Seamless prim e M s k) (h : e.register now = some e') :
    Seamless prim e' M s k := by
  obtain ⟨E, isr, d, pl, hst, -, he⟩ := register_cases h
  have hlog : e'.toLog = e.toLog.assign E := by rw [he]; rfl
  have hten : e'.toTenure = e.toTenure := by rw [he]
  have hid : e'.nodeID = e.nodeID := by rw [he]
  have hmem : e'.learners = e.learners := by rw [he]
  have hclo : e'.closed = e.closed := by rw [he]
  have hstage : e'.stage = .submitting (e.nextFrame E d)
      (e.requiredPeers E isr)
      (e.learnerShipSetLocked (e.requiredPeers E isr))
      (!(e.requiredPeers E isr).isEmpty) := by rw [he]
  have h0 : e.owed M = [] := owed_of_stage fun m ps ls v => by
    rw [hst]
    simp
  obtain ⟨hown, htail, hlearn, hchain, hle, hfull⟩ := hs
  rw [h0, List.append_nil] at hchain hle hfull
  have hf1 : e.frontier.1 = e.lastSeq := by rw [frontier_of_tail htail]
  have hcongr : Chain (setEpochAt e.epochAt (e.frontier.1 + 1) E) k
      s.handed :=
    hchain.congr fun t ht => Log.setEpochAt_of_ne _ _ (by omega)
  have howed := owed_submitting (M := M) hstage
  rw [hclo] at howed
  have hseq : e'.lastSeq = e.frontier.1 + 1 := by rw [hlog]; rfl
  have hat : e'.epochAt = setEpochAt e.epochAt (e.frontier.1 + 1) E := by
    rw [hlog]
    rfl
  have happ : e'.lastApplied ≤ e'.lastSeq := by
    rw [hseq, show e'.lastApplied = e.lastApplied by rw [hlog]; rfl]
    omega
  have hown' : prim e'.epoch = e'.nodeID := by
    rw [hten, hid]
    exact hown
  cases hcl : e.closed with
  | true =>
    -- A closed engine hands nothing over any more.
    rw [if_neg (by simp [hcl])] at howed
    refine ⟨hown', happ, fun hc => ?_, ?_, ?_, fun hc => ?_⟩
    · rw [hclo, hcl] at hc
      cases hc
    · rw [howed, hat, List.append_nil]
      exact hcongr
    · rw [howed, hseq, List.append_nil]
      omega
    · rw [hclo, hcl] at hc
      cases hc
  | false =>
    have hM : M ∈ e.requiredPeers E isr
        ++ e.learnerShipSetLocked (e.requiredPeers E isr) :=
      List.mem_append.2 (mem_shipSets (hlearn hcl) _)
    rw [if_pos ⟨hcl, hM⟩] at howed
    have hlen := hfull hcl
    refine ⟨hown', happ, fun _ => ?_, ?_, ?_, fun _ => ?_⟩
    · rw [hmem]
      exact hlearn hcl
    · rw [howed, hat, chain_append, hlen, ← hf1]
      exact ⟨hcongr, nextFrame_follows hd E d, trivial⟩
    · rw [howed, hseq, List.length_append, List.length_singleton]
      omega
    · rw [howed, hseq, List.length_append, List.length_singleton]
      omega

/-- Every other section of the epoch. -/
theorem seamless_carried {k : Nat} (hs : Seamless prim e M s k)
    (hk : OnePrimary prim e ev) (h : e.step ev = some e')
    (hep : e'.epoch = e.epoch) (hreg : ev.input ≠ .register)
    (hq : e'.peerQ M = some s')
    (hcar : s'.handed ++ e'.owed M = s.handed ++ e.owed M) :
    Seamless prim e' M s' k := by
  have hid : e'.nodeID = e.nodeID :=
    congrArg Identity.nodeID (step_identity h)
  rcases step_own_log hk h hep hs.own with ⟨fsm, hl⟩ | ⟨E, isr, d, hinp, -⟩
  swap
  · exact absurd hinp hreg
  have hseq : e'.lastSeq = e.lastSeq := by rw [hl]
  refine ⟨by rw [hep, hid]; exact hs.own, ?_, fun hc => ?_, ?_, ?_,
    fun hc => ?_⟩
  · rw [hl]
    exact hs.tail
  · have hc' := step_closed h hc
    have hM := hs.learner hc'
    rcases step_learners h with hlv | ⟨p, -, hadd⟩
    · rcases hlv.gone M hM with hmem | hcl | hnone | hlt | ⟨sn, out, hinp, hab⟩
      · exact hmem
      · rw [hc'] at hcl
        cases hcl
      · rw [hq] at hnone
        cases hnone
      · omega
      · exact absurd hs.own (hk.not_own hinp hab)
    · rw [hadd]
      exact List.mem_append_left _ hM
  · rw [hcar, show e'.epochAt = e.epochAt by rw [hl]]
    exact hs.chain
  · rw [hcar, hseq]
    exact hs.le
  · rw [hcar, hseq]
    exact hs.full (step_closed h hc)

-- ======== the invariant

/-- What holds of every state of a grow-safe run. -/
structure GrowInv (prim : Nat → NodeID) (e : Engine) : Prop where
  wf : e.Wf
  dated : e.toLog.Dated
  retained : e.Retained
  leased : Leased prim e
  growOk : GrowOk prim e
  sets : e.Sets
  base_le : ∀ (M : NodeID) (s : Sender) (E k : Nat),
    e.peerQ M = some s → s.base = some (E, k) → E ≤ e.epoch
  seamless : ∀ (M : NodeID) (s : Sender) (k : Nat),
    e.peerQ M = some s → s.base = some (e.epoch, k) →
    Seamless prim e M s k
  narrowed : ∀ r ∈ e.pl.recs, ∀ p ∈ r.pending, p ∈ r.required

theorem growInv_restored (prim : Nat → NodeID) (c : Config) (po : Bool)
    (seq epoch : Nat) (fsm : List Data) :
    GrowInv prim (restored c po seq epoch fsm) where
  wf := wf_restored c po seq epoch fsm
  dated := by
    refine ⟨?_, ?_⟩
    · show 0 = if 0 = seq ∧ seq ≠ 0 then epoch else 0
      rw [if_neg (by omega)]
    · show (if seq = 0 then 0 else epoch)
        = if seq = seq ∧ seq ≠ 0 then epoch else 0
      by_cases h : seq = 0
      · rw [if_pos h, if_neg (by omega)]
      · rw [if_neg h, if_pos ⟨rfl, h⟩]
  retained := fun j => .inl rfl
  leased := fun h => absurd h (Nat.lt_irrefl 0)
  growOk := fun _ hg => by cases hg
  sets := ⟨List.nodup_nil, fun _ _ _ _ hst => by cases hst⟩
  base_le := fun _ _ _ _ hq => by cases hq
  seamless := fun _ _ _ hq => by cases hq
  narrowed := fun _ hr => by cases hr

/-- The pending sets of the table only shrink from what was
registered. -/
theorem step_narrowed (hw : e.Wf)
    (hn : ∀ r ∈ e.pl.recs, ∀ p ∈ r.pending, p ∈ r.required)
    (h : e.step ev = some e') :
    ∀ r ∈ e'.pl.recs, ∀ p ∈ r.pending, p ∈ r.required := by
  intro r' hr' p hp
  obtain ⟨i, hi⟩ := List.getElem?_of_mem hr'
  obtain ⟨r, hev, hr | ⟨-, hreg⟩⟩ := (hw.turns h).backward hi
  · rw [hev.required_eq]
    exact hn r (List.mem_of_getElem? hr) p (hev.pending_sub p hp)
  · rw [hev.required_eq, ← hreg.fresh.pending]
    exact hev.pending_sub p hp

/-- Every section keeps the invariant. -/
theorem step_growInv (hi : GrowInv prim e) (hk : GrowSafe prim e ev)
    (h : e.step ev = some e') : GrowInv prim e' where
  wf := step_wf hi.wf h
  dated := step_dated hi.dated h
  retained := step_retained hi.dated hi.retained h
  leased := step_leased hi.leased hk.1.granted h
  growOk := step_growOk hi.retained hi.growOk hk.1 h
  sets := step_sets hi.sets h
  base_le := by
    intro M s' E k hq hb
    refine Nat.le_trans ?_ (step_epoch_le h)
    rcases step_sender hi.sets h hq with (hnone | ⟨s, hs, hbase, -⟩)
      | ⟨E', k', delta, -, rfl, -, -, -, hE, -⟩
    · rw [hnone] at hb
      cases hb
    · exact hi.base_le M s E k hs (hbase ▸ hb)
    · injection hb with hb
      injection hb with hE' _
      omega
  seamless := by
    intro M s' k hq hb
    have hle := step_epoch_le h
    rcases step_sender hi.sets h hq with (hnone | ⟨s, hs, hbase, hcar⟩)
      | ⟨E, k', delta, hflip, rfl, rfl, hidle, hg, hE, hlE, hnow, hd,
        hlen⟩
    · rw [hnone] at hb
      cases hb
    · rw [hbase] at hb
      have hep : e'.epoch = e.epoch := by
        have := hi.base_le M s _ k hs hb
        omega
      rw [hep] at hb
      have hsl := hi.seamless M s k hs hb
      by_cases hreg : ev.input = .register
      · obtain ⟨now, i⟩ := ev
        have hinp : i = .register := hreg
        subst hinp
        have hqq : e'.peerQ = e.peerQ := by
          obtain ⟨E, isr, d, pl, -, -, he⟩ := register_cases h
          rw [he]
        rw [hqq, hs] at hq
        cases hq
        exact seamless_register hi.dated hsl h
      · rcases hcar with ⟨hinp, -⟩ | hcar
        · exact absurd hinp hreg
        · exact seamless_carried hsl hk.1 h hep hreg hq hcar
    · have hk' : k' = k := by
        injection hb with hb
        exact (Prod.mk.inj hb).2
      subst hk'
      obtain ⟨hf, h64⟩ := hk.2 hflip
      exact seamless_flip hi.retained hi.leased hi.growOk hf h64
        hidle hg hE hlE (by omega) hd hlen
  narrowed := step_narrowed hi.wf hi.narrowed h

-- ======== main

/-- **ISR grow opens no gap.** In every grow-safe run, from any restored
engine, the frames handed to a flipped sender while its epoch lasts are
the consecutive seqs after the flip's high-water, each naming the write
before it, up to the frontier (the frame being handed out counted). And
a record whose registered peers left somebody out never waits for
them. -/
theorem grow_opens_no_gap {c : Config} {po : Bool} {seq epoch : Nat}
    {fsm : List Data} {tr : List Event}
    (hr : Reach Engine.step (GrowSafe prim) (restored c po seq epoch fsm)
      tr e) :
    (∀ M s k, e.peerQ M = some s → s.base = some (e.epoch, k) →
      Chain e.epochAt k (s.handed ++ e.owed M) ∧ (e.closed = false →
          k + (s.handed ++ e.owed M).length = e.frontier.1))
      ∧ ∀ r ∈ e.pl.recs, ∀ M, M ∉ r.required → M ∉ r.pending := by
  have hi : GrowInv prim e := hr.stateInvariant
    (growInv_restored prim c po seq epoch fsm)
    fun _ _ _ hi hk hs => step_growInv hi hk hs
  refine ⟨fun M s k hq hb => ?_, fun r hr M hM hp =>
    hM (hi.narrowed r hr M hp)⟩
  have hs := hi.seamless M s k hq hb
  refine ⟨hs.chain, fun hcl => ?_⟩
  rw [hs.full hcl, frontier_of_tail hs.tail]

/-- A catch-up of a blank `m` by a primary with nothing to backfill in
rounds, then one more write. -/
def growOne (d : Data) : List Event :=
  [⟨0, .growStart "m"⟩, ⟨0, .growHandshake (some ⟨0, 0, 0, 0, true⟩)⟩,
    ⟨0, .growCheck⟩, ⟨0, .growBackfill⟩, ⟨0, .flip⟩,
    ⟨0, .fence "a" ["a"] 1 d⟩, ⟨0, .applyLocal true⟩, ⟨0, .register⟩,
    ⟨0, .submitNext false⟩, ⟨0, .submitDone⟩]

/-- A check for `OnePrimary`, the one node that is ever leased `a`. -/
def oneCheck (e : Engine) (ev : Event) : Bool :=
  match ev.input with
  | .promote .. | .receive .. | .receiveGroup .. => false
  | .installSnapshot .. => false
  | .grantLease .. => e.nodeID == "a"
  | _ => true

theorem oneCheck_primary (e : Engine) (ev : Event)
    (h : oneCheck e ev = true) : OnePrimary (fun _ => "a") e ev := by
  obtain ⟨now, i⟩ := ev
  cases i <;> simp_all [oneCheck, OnePrimary]

/-- A check for `GrowSafe`. -/
def tailCheck (e : Engine) (ev : Event) : Bool :=
  oneCheck e ev && match ev.input with
    | .flip => decide (e.lastApplied ≤ e.lastSeq ∧ e.lastSeq < 2 ^ 64)
    | _ => true

theorem tailCheck_safe (e : Engine) (ev : Event)
    (h : tailCheck e ev = true) : GrowSafe (fun _ => "a") e ev := by
  obtain ⟨h₁, h₂⟩ := Bool.and_eq_true_iff.mp h
  refine ⟨oneCheck_primary e ev h₁, ?_⟩
  obtain ⟨now, i⟩ := ev
  cases i <;> simp_all [FlipsOnTail]

/-- The primary writes once, flips `m` in at zero and writes again: `m`
is handed both. -/
theorem grow_opens_no_gap_growOne :
    ∃ e s, Reach Engine.step (GrowSafe fun _ => "a") (.new { nodeID := "a" })
        ([⟨0, .grantLease 1 9⟩, ⟨0, .fence "a" ["a"] 1 [7]⟩,
          ⟨0, .applyLocal true⟩, ⟨0, .register⟩, ⟨0, .submitDone⟩]
          ++ growOne [8]) e
      ∧ e.peerQ "m" = some s ∧ s.base = some (e.epoch, 0)
      ∧ s.handed.map (·.seq) = [1, 2]
      ∧ Chain e.epochAt 0 (s.handed ++ e.owed "m") := by
  obtain ⟨e, hr, hrun⟩ : ∃ e, Reach Engine.step (GrowSafe fun _ => "a")
      (.new { nodeID := "a" })
      ([⟨0, .grantLease 1 9⟩, ⟨0, .fence "a" ["a"] 1 [7]⟩,
        ⟨0, .applyLocal true⟩, ⟨0, .register⟩, ⟨0, .submitDone⟩]
        ++ growOne [8]) e
      ∧ (e.peerQ "m").any (fun s => s.base = some (e.epoch, 0)
        ∧ s.handed.map (·.seq) = [1, 2]) = true := by
    apply exec_decide tailCheck_safe
    decide
  obtain ⟨s, hs, hout⟩ := (Option.any_eq_true _ _).mp hrun
  obtain ⟨hbase, hseqs⟩ := of_decide_eq_true hout
  exact ⟨e, s, hr, hs, hbase, hseqs,
    ((grow_opens_no_gap hr).1 "m" s 0 hs hbase).1⟩

/-- A restarted primary, its restored frontier counted in the backup
role only: the flip reads the seq tail zero, pre-loads nothing, and the
next frame `m` is handed is the sixth. -/
theorem flip_below_frontier_gap :
    ∃ e s, Reach Engine.step (OnePrimary fun _ => "a")
        (restored { nodeID := "a" } false 5 1 [[1], [2], [3], [4], [5]])
        (⟨0, .grantLease 2 9⟩ :: growOne [6]) e
      ∧ e.peerQ "m" = some s ∧ s.base = some (e.epoch, 0)
      ∧ s.handed.map (·.seq) = [6]
      ∧ ¬ Chain e.epochAt 0 s.handed := by
  obtain ⟨e, hr, hrun⟩ : ∃ e, Reach Engine.step (OnePrimary fun _ => "a")
      (restored { nodeID := "a" } false 5 1 [[1], [2], [3], [4], [5]])
      (⟨0, .grantLease 2 9⟩ :: growOne [6]) e
      ∧ (e.peerQ "m").any (fun s => s.base = some (e.epoch, 0)
        ∧ s.handed.map (·.seq) = [6]) = true := by
    apply exec_decide oneCheck_primary
    decide
  obtain ⟨s, hs, hout⟩ := (Option.any_eq_true _ _).mp hrun
  obtain ⟨hbase, hseqs⟩ := of_decide_eq_true hout
  refine ⟨e, s, hr, hs, hbase, hseqs, fun hc => ?_⟩
  cases hh : s.handed with
  | nil =>
    rw [hh] at hseqs
    cases hseqs
  | cons m ms =>
    rw [hh] at hseqs hc
    have h6 : m.seq = 6 := (List.cons.inj hseqs).1
    have h1 : m.seq = 0 + 1 := hc.1.seq
    omega

end Engine

end Rostam.Pbisr
