/-
The in-flight pipeline's two standing facts.

- `Dense`: the FIFO is the tail of the record table, in seq order. It is
  what makes the O(1) lookup by `seq - baseSeq` return the record of that
  very seq, and nothing else, however many slots were popped before.
- `Evolves`: what any critical section may do to the records that exist
  when it starts. A record keeps its identity, its pending set only
  loses peers (each one for a stated cause `cr`), the resolution latch
  never re-opens, and a nil resolution happens behind the commit fence
  `F` on an empty pending set.

A section is a list of `Moves`: it changes records, commits at the head
and pops. Both facts, and every other one about a section, are read off
its moves.
-/
import Rostam.Pbisr.Pipeline

namespace Rostam.Pbisr

open Rostam.Lib

-- ======== one record, one step

/-- What one section does to one record: `F` is the commit fence it
swept under, `cr p epoch seq` its cause for dropping peer `p`. -/
structure Inflight.Evolves (F : Nat → Bool) (level : CommitLevel)
    (cr : NodeID → Nat → Nat → Prop) (r r' : Inflight) : Prop where
  epoch_eq : r'.epoch = r.epoch
  seq_eq : r'.seq = r.seq
  required_eq : r'.required = r.required
  hist_eq : r'.hist = r.hist
  pending_sub : ∀ p ∈ r'.pending, p ∈ r.pending
  credited : ∀ p ∈ r.pending, p ∈ r'.pending ∨ cr p r.epoch r.seq
  latch : r.resolved = true →
    r'.resolved = true ∧ r'.err = r.err ∧ r'.doneCh = r.doneCh
  sends : r.resolved = false →
    r'.doneCh = r.doneCh ++ (if r'.resolved then [r'.err] else [])
  ack : r.resolved = false → r'.acked = true →
    F r.epoch = true ∧ (level = .fullISR → r'.pending = [])

namespace Inflight

variable {F : Nat → Bool} {level : CommitLevel}
  {cr : NodeID → Nat → Nat → Prop} {r r' r'' : Inflight}

/-- A record the latch holds open was open before. -/
theorem Evolves.unresolved (h : Evolves F level cr r r')
    (hr : r'.resolved = false) : r.resolved = false := by
  cases hb : r.resolved with
  | false => rfl
  | true =>
    rw [(h.latch hb).1] at hr
    cases hr

/-- An acked record stays acked. -/
theorem Evolves.acked (h : Evolves F level cr r r')
    (ha : r.acked = true) : r'.acked = true := by
  unfold Inflight.acked at *
  rw [Bool.and_eq_true] at ha
  obtain ⟨h1, h2, -⟩ := h.latch ha.1
  rw [h1, h2, ha.2]
  rfl

theorem Evolves.refl : Evolves F level cr r r where
  epoch_eq := rfl
  seq_eq := rfl
  required_eq := rfl
  hist_eq := rfl
  pending_sub := fun _ hp => hp
  credited := fun _ hp => .inl hp
  latch := fun h => ⟨h, rfl, rfl⟩
  sends := fun h => by simp [h]
  ack := fun h ha => by simp [Inflight.acked, h] at ha

theorem Evolves.trans (h : Evolves F level cr r r')
    (k : Evolves F level cr r' r'') : Evolves F level cr r r'' where
  epoch_eq := k.epoch_eq.trans h.epoch_eq
  seq_eq := k.seq_eq.trans h.seq_eq
  required_eq := k.required_eq.trans h.required_eq
  hist_eq := k.hist_eq.trans h.hist_eq
  pending_sub := fun p hp => h.pending_sub p (k.pending_sub p hp)
  credited := by
    intro p hp
    rcases h.credited p hp with hp' | hc
    · rcases k.credited p hp' with hp'' | hc
      · exact .inl hp''
      · rw [h.epoch_eq, h.seq_eq] at hc
        exact .inr hc
    · exact .inr hc
  latch := by
    intro hr
    obtain ⟨a, b, c⟩ := h.latch hr
    obtain ⟨a', b', c'⟩ := k.latch a
    exact ⟨a', b'.trans b, c'.trans c⟩
  sends := by
    intro hr
    have hs := h.sends hr
    cases hb : r'.resolved with
    | false =>
      rw [hb] at hs
      rw [k.sends hb, hs]
      simp
    | true =>
      obtain ⟨a, b, c⟩ := k.latch hb
      rw [hb] at hs
      rw [a, b, c, hs]
  ack := by
    intro hr ha
    cases hb : r'.resolved with
    | false =>
      obtain ⟨hf, hp⟩ := k.ack hb ha
      rw [h.epoch_eq] at hf
      exact ⟨hf, hp⟩
    | true =>
      -- The earlier half resolved it: its outcome is the final one.
      obtain ⟨a, b, -⟩ := k.latch hb
      have ha' : r'.acked = true := by
        unfold Inflight.acked at *
        rw [a, b] at ha
        rwa [hb]
      obtain ⟨hf, hp⟩ := h.ack hr ha'
      refine ⟨hf, fun hl => ?_⟩
      refine List.eq_nil_iff_forall_not_mem.2 fun p hp' => ?_
      have := k.pending_sub p hp'
      rw [hp hl] at this
      cases this

/-- The latch of one record after a section. -/
theorem Evolves.sent (h : Evolves F level cr r r')
    (hr : r.doneCh = if r.resolved then [r.err] else []) :
    r'.doneCh = if r'.resolved then [r'.err] else [] := by
  cases hb : r.resolved with
  | true =>
    obtain ⟨h1, h2, h3⟩ := h.latch hb
    rw [hb] at hr
    rw [h1, h2, h3, hr]
  | false =>
    rw [hb] at hr
    rw [h.sends hb, hr]
    rfl

/-- A resolution; a nil one is behind the fence with nothing pending. -/
theorem evolves_latch {err : Option ProposeErr}
    (hack : err = none → F r.epoch = true
      ∧ (level = .fullISR → r.pending = [])) :
    Evolves F level cr r (r.resolve err) := by
  unfold Inflight.resolve
  split
  · exact .refl
  · next hr =>
    exact {
      epoch_eq := rfl, seq_eq := rfl, required_eq := rfl
      hist_eq := rfl
      pending_sub := fun _ hp => hp
      credited := fun _ hp => .inl hp
      latch := fun h => absurd h hr
      sends := fun _ => rfl
      ack := fun _ ha => hack (by simpa [Inflight.acked] using ha) }

theorem evolves_resolve (e : ProposeErr) :
    Evolves F level cr r (r.resolve (some e)) :=
  evolves_latch fun h => by cases h

/-- Any change of the pending set alone, with a cause for each drop. -/
theorem evolves_pending {ps : List NodeID} (hsub : ∀ p ∈ ps, p ∈ r.pending)
    (hcr : ∀ p ∈ r.pending, p ∈ ps ∨ cr p r.epoch r.seq) :
    Evolves F level cr r { r with pending := ps } where
  epoch_eq := rfl
  seq_eq := rfl
  required_eq := rfl
  hist_eq := rfl
  pending_sub := hsub
  credited := hcr
  latch := fun h => ⟨h, rfl, rfl⟩
  sends := fun h => by simp [h]
  ack := fun h ha => by simp [Inflight.acked, h] at ha

/-- Dropping one peer that this section credits. -/
theorem evolves_removePending {peer : NodeID} (hcr : cr peer r.epoch r.seq) :
    Evolves F level cr r (r.removePending peer) := by
  refine evolves_pending (fun p hp => List.mem_of_mem_erase hp) ?_
  intro p hp
  by_cases he : p = peer
  · subst he
    exact .inr hcr
  · exact .inl ((List.mem_erase_of_ne he).2 hp)

end Inflight

namespace Pipeline

variable {F : Nat → Bool} {level : CommitLevel}
  {cr : NodeID → Nat → Nat → Prop} {pl pl' pl'' : Pipeline}

variable {i : Nat} {f : Inflight → Inflight} {r : Inflight}

-- ======== the table, one section

/-- What one section does to the record table and the watermark. -/
structure Evolves (F : Nat → Bool) (level : CommitLevel)
    (cr : NodeID → Nat → Nat → Prop) (pl pl' : Pipeline) : Prop where
  length_eq : pl'.recs.length = pl.recs.length
  recs : ∀ (i : Nat) (r : Inflight), pl.recs[i]? = some r →
    ∃ r', pl'.recs[i]? = some r' ∧ r.Evolves F level cr r'
  committed_le : pl.committed ≤ pl'.committed
  committed_new : pl'.committed = pl.committed ∨
    ∃ (i : Nat) (r r' : Inflight), pl.recs[i]? = some r
      ∧ pl'.recs[i]? = some r' ∧ r.resolved = false
      ∧ r'.acked = true ∧ r'.seq = pl'.committed

/-- The record half of `Evolves`, for the sections that re-seat the
watermark. -/
structure Turns (F : Nat → Bool) (level : CommitLevel)
    (cr : NodeID → Nat → Nat → Prop) (pl pl' : Pipeline) : Prop where
  length_eq : pl'.recs.length = pl.recs.length
  recs : ∀ (i : Nat) (r : Inflight), pl.recs[i]? = some r →
    ∃ r', pl'.recs[i]? = some r' ∧ r.Evolves F level cr r'

theorem Evolves.turns (h : Evolves F level cr pl pl') :
    Turns F level cr pl pl' := ⟨h.length_eq, h.recs⟩

/-- A record after a section was one before. -/
theorem Turns.backAt (h : Turns F level cr pl pl') {r' : Inflight}
    (hr' : pl'.recs[i]? = some r') :
    ∃ r, pl.recs[i]? = some r ∧ r.Evolves F level cr r' := by
  have hlt : i < pl.recs.length := by
    rw [← h.length_eq]
    exact (List.getElem?_eq_some_iff.1 hr').1
  obtain ⟨r'', hr'', he⟩ := h.recs i _ (List.getElem?_eq_getElem hlt)
  obtain rfl := Option.some.inj (hr'.symm.trans hr'')
  exact ⟨_, List.getElem?_eq_getElem hlt, he⟩

theorem Turns.back (h : Turns F level cr pl pl') {r' : Inflight}
    (hr' : r' ∈ pl'.recs) : ∃ r ∈ pl.recs, r.Evolves F level cr r' := by
  obtain ⟨i, hi⟩ := List.getElem?_of_mem hr'
  obtain ⟨r, hr, he⟩ := h.backAt hi
  exact ⟨r, List.mem_of_getElem? hr, he⟩

/-- Only the table matters. -/
theorem Turns.of_recs {pl₁ pl₁' : Pipeline} (h : Turns F level cr pl pl')
    (h₁ : pl₁.recs = pl.recs) (h₁' : pl₁'.recs = pl'.recs) :
    Turns F level cr pl₁ pl₁' := by
  refine ⟨?_, ?_⟩
  · rw [h₁, h₁']
    exact h.length_eq
  · rw [h₁, h₁']
    exact h.recs

/-- Sections that leave table and watermark alone. -/
theorem Evolves.of_eq (hr : pl'.recs = pl.recs)
    (hc : pl'.committed = pl.committed) : Evolves F level cr pl pl' where
  length_eq := by rw [hr]
  recs := fun i r h => ⟨r, by rw [hr]; exact h, .refl⟩
  committed_le := Nat.le_of_eq hc.symm
  committed_new := .inl hc

theorem Evolves.refl : Evolves F level cr pl pl := .of_eq rfl rfl

theorem Evolves.trans (h : Evolves F level cr pl pl')
    (k : Evolves F level cr pl' pl'') : Evolves F level cr pl pl'' where
  length_eq := k.length_eq.trans h.length_eq
  recs := by
    intro i r hr
    obtain ⟨r', hr', he⟩ := h.recs i r hr
    obtain ⟨r'', hr'', he'⟩ := k.recs i r' hr'
    exact ⟨r'', hr'', he.trans he'⟩
  committed_le := Nat.le_trans h.committed_le k.committed_le
  committed_new := by
    rcases k.committed_new with hk | ⟨i, r', r'', hr', hr'', hu, ha, hs⟩
    · rcases h.committed_new with hh | ⟨i, r, r', hr, hr', hu, ha, hs⟩
      · exact .inl (hk.trans hh)
      · obtain ⟨r'', hr'', he⟩ := k.recs i r' hr'
        exact .inr ⟨i, r, r'', hr, hr'', hu, he.acked ha,
          he.seq_eq.trans (hs.trans hk.symm)⟩
    · -- The record committed by the later half exists in the first state.
      obtain ⟨r, hr, he⟩ := h.turns.backAt hr'
      exact .inr ⟨i, r, r'', hr, hr'', he.unresolved hu, ha, hs⟩

/-- The epochs in the table are a section's input. -/
theorem Turns.epochs (h : Turns F level cr pl pl') {E : Nat}
    (hE : ∀ r ∈ pl.recs, r.epoch ≤ E) : ∀ r ∈ pl'.recs, r.epoch ≤ E := by
  intro r' hr'
  obtain ⟨r, hr, he⟩ := h.back hr'
  exact he.epoch_eq ▸ hE r hr

/-- Reading a modified table. -/
theorem modifyRec_getElem? (pl : Pipeline) (i j : Nat)
    (f : Inflight → Inflight) :
    (pl.modifyRec i f).recs[j]?
      = if i = j then (pl.recs[j]?).map f else pl.recs[j]? := by
  show (pl.recs.modify i f)[j]? = _
  rw [List.getElem?_modify]
  split <;> simp

/-- Modifying one record by an evolution. -/
theorem evolves_modifyRec 
    (hf : ∀ r, pl.recs[i]? = some r → r.Evolves F level cr (f r)) :
    Evolves F level cr pl (pl.modifyRec i f) where
  length_eq := by simp [modifyRec]
  recs := by
    intro j r hr
    rw [modifyRec_getElem?]
    split
    · next h =>
      subst h
      exact ⟨f r, by rw [hr]; rfl, hf r hr⟩
    · exact ⟨r, hr, .refl⟩
  committed_le := le_rfl
  committed_new := .inl rfl

-- ======== the moves

/-- The record the FIFO head points at. -/
theorem head?_eq_some (h : pl.head? = some (i, r)) :
    pl.ring.get 0 = some i ∧ pl.recs[i]? = some r := by
  unfold head? at h
  split at h
  · next j hj =>
    obtain ⟨r', hr', he⟩ := Option.map_eq_some_iff.mp h
    cases he
    exact ⟨hj, hr'⟩
  · cases h

theorem markCommitted_eq (pl : Pipeline) (seq : Nat) :
    pl.markCommittedLocked seq
      = { pl with committed := max pl.committed seq } := by
  unfold markCommittedLocked
  split
  · next h => rw [Nat.max_eq_right h.le]
  · next h => rw [Nat.max_eq_left (Nat.le_of_not_lt h)]

/-- Committing or failing a committable head. -/
theorem evolves_commitHead (hi : pl.recs[i]? = some r)
    (hu : r.resolved = false)
    (hp : level = .fullISR → r.pending = []) :
    Evolves F level cr pl (pl.commitHead F i r) := by
  unfold commitHead
  split
  · next hF =>
    rw [markCommitted_eq]
    have hmod : Evolves F level cr
        { pl with committed := max pl.committed r.seq }
        (({ pl with committed := max pl.committed r.seq } :
          Pipeline).resolveLocked i none) := by
      refine evolves_modifyRec fun r' hr' => ?_
      obtain rfl := Option.some.inj (hi.symm.trans hr')
      exact Inflight.evolves_latch fun _ => ⟨hF, hp⟩
    refine ⟨hmod.length_eq, hmod.recs, Nat.le_max_left _ _, ?_⟩
    by_cases hlt : pl.committed < r.seq
    · refine .inr ⟨i, r, r.resolve none, hi, (modifyRec_getElem? ..).trans ?_,
        hu, ?_, ?_⟩
      · rw [if_pos rfl, hi]
        rfl
      · simp [Inflight.resolve, hu, Inflight.acked]
      · show _ = max pl.committed r.seq
        simp [Inflight.resolve, hu, hlt.le]
    · exact .inl (Nat.max_eq_left (Nat.le_of_not_lt hlt))
  · exact evolves_modifyRec fun _ _ => Inflight.evolves_resolve .leaseExpired

/-- What a section is made of: changes of records, decisions at the head
of the FIFO, pops. -/
inductive Moves (F : Nat → Bool) (level : CommitLevel)
    (cr : NodeID → Nat → Nat → Prop) (pl : Pipeline) : Pipeline → Prop
  | refl : Moves F level cr pl pl
  | modify {pl' : Pipeline} {f : Inflight → Inflight} (i : Nat)
      (hf : ∀ r, pl'.recs[i]? = some r → r.Evolves F level cr (f r)) :
      Moves F level cr pl pl' → Moves F level cr pl (pl'.modifyRec i f)
  | commit {pl' : Pipeline} {i : Nat} {r : Inflight}
      (hh : pl'.head? = some (i, r)) (hc : 0 < pl'.ring.count)
      (hu : r.resolved = false) (hp : level = .fullISR → r.pending = []) :
      Moves F level cr pl pl' → Moves F level cr pl (pl'.commitHead F i r)
  | pop {pl' : Pipeline} (hc : 0 < pl'.ring.count) :
      Moves F level cr pl pl' →
      Moves F level cr pl pl'.popInflightHeadLocked

theorem Moves.trans (h : Moves F level cr pl pl')
    (k : Moves F level cr pl' pl'') : Moves F level cr pl pl'' := by
  induction k with
  | refl => exact h
  | modify i hf _ ih => exact .modify i hf ih
  | commit hh hc hu hp _ ih => exact .commit hh hc hu hp ih
  | pop hc _ ih => exact .pop hc ih

theorem Moves.evolves (h : Moves F level cr pl pl') :
    Evolves F level cr pl pl' := by
  induction h with
  | refl => exact .refl
  | modify i hf _ ih => exact ih.trans (evolves_modifyRec hf)
  | commit hh _ hu hp _ ih =>
    exact ih.trans (evolves_commitHead (head?_eq_some hh).2 hu hp)
  | pop _ _ ih => exact ih.trans (.of_eq rfl rfl)

/-- A section whose fence opens for none of the records at hand makes the
same moves under every fence. -/
theorem Moves.anyFence {F' : Nat → Bool} (h : Moves F level cr pl pl')
    (hF : ∀ r ∈ pl.recs, F r.epoch = false) : Moves F' level cr pl pl' := by
  have hshut : ∀ {pl' : Pipeline}, Moves F level cr pl pl' →
      ∀ r ∈ pl'.recs, F r.epoch = false := fun h r hr => by
    obtain ⟨r₀, hr₀, he⟩ := h.evolves.turns.back hr
    exact he.epoch_eq ▸ hF r₀ hr₀
  induction h with
  | refl => exact .refl
  | modify i hf hm ih =>
    refine .modify i (fun r hr => { hf r hr with ack := fun hu ha => ?_ }) ih
    have := ((hf r hr).ack hu ha).1
    rw [hshut hm r (List.mem_of_getElem? hr)] at this
    cases this
  | commit hh _ _ _ hm ih =>
    have hno := hshut hm _ (List.mem_of_getElem? (head?_eq_some hh).2)
    rw [commitHead, if_neg (by rw [hno]; exact Bool.false_ne_true)]
    exact .modify _ (fun _ _ => Inflight.evolves_resolve _) ih
  | pop hc _ ih => exact .pop hc ih

/-- Behind a fence that is shut nothing commits. -/
theorem Moves.committed_eq (h : Moves (fun _ => false) level cr pl pl') :
    pl'.committed = pl.committed := by
  induction h with
  | refl => rfl
  | modify _ _ _ ih | commit _ _ _ _ _ ih | pop _ _ ih => exact ih

/-- A failed resolution of one record. -/
theorem moves_resolveLocked (i : Nat) (e : ProposeErr) :
    Moves F level cr pl (pl.resolveLocked i (some e)) :=
  .modify i (fun _ _ => Inflight.evolves_resolve e) .refl

/-- Neither branch of a head decision moves the ring. -/
theorem commitHead_ring (pl : Pipeline) (i : Nat) (r : Inflight) :
    (pl.commitHead F i r).ring = pl.ring := by
  unfold Pipeline.commitHead
  rw [markCommitted_eq]
  split <;> rfl

/-- The sweep loop: each iteration pops, commits or fails its head. -/
theorem moves_sweepN : ∀ (n : Nat) (pl : Pipeline), n ≤ pl.ring.count →
    Moves F level cr pl (sweepN level F n pl) := by
  intro n
  induction n with
  | zero => intro pl _; exact .refl
  | succ n ih =>
    intro pl hn
    unfold sweepN
    split
    · exact .refl
    · next i r hh =>
      split
      · exact (Moves.pop (by omega) .refl).trans
          (ih _ (Nat.le_sub_one_of_lt hn))
      · next hu =>
        split
        · next hc =>
          have hp : level = .fullISR → r.pending = [] := by
            rintro rfl
            exact hc.resolve_right (by simp)
          have hring := commitHead_ring (F := F) pl i r
          refine (Moves.pop (by rw [hring]; omega) (.commit hh (by omega)
            (by simpa using hu) hp .refl)).trans (ih _ ?_)
          show n ≤ (pl.commitHead F i r).ring.count - 1
          rw [hring]
          omega
        · exact .refl

theorem moves_sweepLocked : Moves F level cr pl (pl.sweepLocked level F) :=
  moves_sweepN _ pl le_rfl

/-- A pass over the in-flight records, each by an evolution. -/
theorem moves_mapInflight (hf : ∀ r : Inflight, r.Evolves F level cr (f r)) :
    Moves F level cr pl (pl.mapInflight f) := by
  unfold mapInflight
  generalize pl.ring.toList = slots
  induction slots generalizing pl with
  | nil => exact .refl
  | cons slot rest ih =>
    rw [List.foldl_cons]
    cases slot with
    | none => exact ih
    | some i => exact (Moves.modify i (fun r _ => hf r) .refl).trans ih

theorem moves_failWhere (p : Inflight → Bool) (e : ProposeErr) :
    Moves F level cr pl (pl.failWhere p e) := by
  refine moves_mapInflight fun r => ?_
  split
  · exact Inflight.evolves_resolve e
  · exact .refl

theorem moves_flushEpochLocked (minEpoch : Nat) :
    Moves F level cr pl (pl.flushEpochLocked minEpoch level F) :=
  (moves_failWhere _ _).trans moves_sweepLocked

-- ======== density

/-- The table index of the FIFO head. -/
def first (pl : Pipeline) : Nat := pl.recs.length - pl.ring.count

/-- The FIFO is the tail of the table, in seq order from `baseSeq`. -/
structure Dense (pl : Pipeline) : Prop where
  count_le : pl.ring.count ≤ pl.recs.length
  slots : pl.ring.toList = (List.range' pl.first pl.ring.count).map some
  seqs : ∀ k, k < pl.ring.count →
    (pl.recs[pl.first + k]?).map Inflight.seq = some (pl.baseSeq + k)

theorem dense_new : Dense Pipeline.new where
  count_le := le_rfl
  slots := rfl
  seqs := fun k hk => absurd hk (Nat.not_lt_zero k)

/-- The slot `k` places behind the head. -/
theorem Dense.get (h : pl.Dense) {k : Nat} (hk : k < pl.ring.count) :
    pl.ring.get k = some (pl.first + k) := by
  have hs := congrArg (fun l => l[k]?) h.slots
  simp only [RingBuf.toList_getElem?, if_pos hk, List.getElem?_map,
    List.getElem?_range' hk] at hs
  simpa using hs

/-- The O(1) lookup returns the record of that seq. -/
theorem Dense.inflightAt (h : pl.Dense) {s i : Nat}
    (hi : pl.inflightAtLocked s = some i) :
    (pl.recs[i]?).map Inflight.seq = some s := by
  unfold inflightAtLocked at hi
  split at hi
  · cases hi
  · next h1 =>
    split at hi
    · cases hi
    · next h2 =>
      have hk : s - pl.baseSeq < pl.ring.count := by omega
      rw [h.get hk] at hi
      cases hi
      rw [h.seqs _ hk]
      congr 1
      omega

/-- A table update that keeps length and seqs keeps density. -/
theorem Dense.of_recs {recs : List Inflight} (h : pl.Dense)
    (hlen : recs.length = pl.recs.length)
    (hseq : ∀ i : Nat, (recs[i]?).map Inflight.seq
      = (pl.recs[i]?).map Inflight.seq) :
    Dense { pl with recs := recs } where
  count_le := by rw [hlen]; exact h.count_le
  slots := by
    show pl.ring.toList
      = (List.range' (recs.length - pl.ring.count) pl.ring.count).map some
    rw [hlen]
    exact h.slots
  seqs := by
    intro k hk
    show (recs[recs.length - pl.ring.count + k]?).map Inflight.seq = _
    rw [hseq, hlen]
    exact h.seqs k hk

theorem Dense.modifyRec (h : pl.Dense) (i : Nat)
    (hf : ∀ r, pl.recs[i]? = some r → (f r).seq = r.seq) :
    (pl.modifyRec i f).Dense := by
  refine h.of_recs (List.length_modify ..) fun j => ?_
  show ((pl.modifyRec i f).recs[j]?).map Inflight.seq = _
  rw [modifyRec_getElem?]
  split
  · next hij =>
    subst hij
    cases hr : pl.recs[i]? with
    | none => rfl
    | some r => exact congrArg some (hf r hr)
  · rfl

theorem resolve_seq (r : Inflight) (err : Option ProposeErr) :
    (r.resolve err).seq = r.seq := by
  unfold Inflight.resolve
  split <;> rfl

theorem Dense.resolveLocked (h : pl.Dense) (i : Nat)
    (err : Option ProposeErr) : (pl.resolveLocked i err).Dense :=
  h.modifyRec i fun r _ => resolve_seq r err

theorem Dense.markCommittedLocked (h : pl.Dense) (seq : Nat) :
    (pl.markCommittedLocked seq).Dense := by
  rw [markCommitted_eq]
  exact ⟨h.count_le, h.slots, h.seqs⟩

/-- Popping the head keeps the rest in place. -/
theorem Dense.pop (h : pl.Dense) (hc : 0 < pl.ring.count) :
    pl.popInflightHeadLocked.Dense := by
  have hle := h.count_le
  have hfirst : pl.popInflightHeadLocked.first = pl.first + 1 := by
    show pl.recs.length - (pl.ring.count - 1)
      = pl.recs.length - pl.ring.count + 1
    omega
  constructor
  · show pl.ring.count - 1 ≤ pl.recs.length
    omega
  · show (pl.ring.pop none).toList = _
    rw [RingBuf.toList_pop, h.slots, hfirst]
    show _ = (List.range' (pl.first + 1) (pl.ring.count - 1)).map some
    rw [← List.map_tail, List.tail_range']
  · intro k hk
    have hk' : k < pl.ring.count - 1 := hk
    rw [hfirst]
    show (pl.recs[pl.first + 1 + k]?).map _ = some (pl.baseSeq + 1 + k)
    have := h.seqs (k + 1) (by omega)
    rw [show pl.first + (k + 1) = pl.first + 1 + k by omega,
      show pl.baseSeq + (k + 1) = pl.baseSeq + 1 + k by omega] at this
    exact this

theorem Dense.commitHead (h : pl.Dense) (i : Nat) (r : Inflight) :
    (pl.commitHead F i r).Dense := by
  unfold Pipeline.commitHead
  split
  · exact (h.markCommittedLocked _).resolveLocked i none
  · exact h.resolveLocked i _

theorem Moves.dense (h : Moves F level cr pl pl') (hd : pl.Dense) :
    pl'.Dense := by
  induction h with
  | refl => exact hd
  | modify i hf _ ih => exact ih.modifyRec i fun r hr => (hf r hr).seq_eq
  | commit _ _ _ _ _ ih => exact ih.commitHead _ _
  | pop hc _ ih => exact ih.pop hc

theorem Dense.sweepLocked (h : pl.Dense) : (pl.sweepLocked level F).Dense :=
  (moves_sweepLocked : Moves F level (fun _ _ _ => False) pl _).dense h

/-- The state registration leaves, in either branch. -/
theorem register_eq
    (hr : pl.registerInflightLocked r = some pl') :
    pl' = { pl with
        ring := pl.ring.pushGrow (some pl.recs.length) none
        baseSeq := pl'.baseSeq
        recs := pl.recs ++ [r] }
      ∧ r.seq = pl'.baseSeq + pl.ring.count
      ∧ (pl.ring.count ≠ 0 → pl'.baseSeq = pl.baseSeq) := by
  unfold registerInflightLocked at hr
  split at hr
  · next h0 =>
    cases hr
    exact ⟨rfl, by rw [h0]; rfl, fun h => absurd h0 h⟩
  · split at hr
    · next hs =>
      cases hr
      exact ⟨rfl, hs, fun _ => rfl⟩
    · cases hr

/-- Registration continues the FIFO or rebases an empty one. -/
theorem Dense.register (h : pl.Dense)
    (hr : pl.registerInflightLocked r = some pl') : pl'.Dense := by
  obtain ⟨he, hseq, hbase⟩ := register_eq hr
  have hle := h.count_le
  have hrecs : pl'.recs = pl.recs ++ [r] := by rw [he]
  have hring : pl'.ring = pl.ring.pushGrow (some pl.recs.length) none := by
    rw [he]
  have hcount : pl'.ring.count = pl.ring.count + 1 := by
    rw [hring, RingBuf.pushGrow_count]
  have hfirst : pl'.first = pl.first := by
    unfold first
    rw [hrecs, hcount, List.length_append]
    show pl.recs.length + 1 - (pl.ring.count + 1) = _
    omega
  have hlast : pl.first + pl.ring.count = pl.recs.length := by
    unfold first
    omega
  constructor
  · rw [hcount, hrecs, List.length_append]
    exact Nat.succ_le_succ hle
  · rw [hring, RingBuf.toList_pushGrow, h.slots, ← hring, hfirst, hcount,
      List.range'_1_concat, List.map_append, hlast]
    rfl
  · intro k hk
    rw [hcount] at hk
    rw [hfirst, hrecs]
    by_cases hk' : k < pl.ring.count
    · rw [List.getElem?_append_left (by omega), h.seqs k hk', hbase (by omega)]
    · have hkc : k = pl.ring.count := by omega
      subst hkc
      rw [hlast, List.getElem?_concat_length]
      exact congrArg some hseq

/-- Popping every slot empties the FIFO and leaves the records. -/
theorem popAll_count (pl : Pipeline) : pl.popAll.ring.count = 0 := by
  have h : ∀ (k : Nat) (pl : Pipeline),
      (Nat.repeat popInflightHeadLocked k pl).ring.count
        = pl.ring.count - k := by
    intro k
    induction k with
    | zero => intro pl; rfl
    | succ k ih =>
      intro pl
      show (Nat.repeat popInflightHeadLocked k pl).ring.count - 1 = _
      rw [ih]
      omega
  unfold popAll
  rw [h]
  omega

theorem popAll_recs (pl : Pipeline) : pl.popAll.recs = pl.recs := by
  have h : ∀ (k : Nat) (pl : Pipeline),
      (Nat.repeat popInflightHeadLocked k pl).recs = pl.recs := by
    intro k
    induction k with
    | zero => intro pl; rfl
    | succ k ih => intro pl; exact ih pl
  exact h _ pl

/-- An empty FIFO is dense. -/
theorem dense_of_empty (h : pl.ring.count = 0) : pl.Dense where
  count_le := by omega
  slots := by
    rw [h]
    exact List.length_eq_zero_iff.1 ((RingBuf.toList_length _).trans h)
  seqs := fun k hk => by omega

end Pipeline

end Rostam.Pbisr
