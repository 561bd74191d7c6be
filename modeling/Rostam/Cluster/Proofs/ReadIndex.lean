/-
What a read barrier that returns nil has waited for.

A body is followed from where it was detached (`BodyOk`): the quorum it
hears had not gone past its term, so all that was committed before is of
that term or an earlier one, and what is of its own term its commit index
covers. Of an earlier term it need not: a new leader starts from what it
knew as a follower. `covers` asks that the fast path found an entry of the
verified term at or below the commit index, as a leader whose first entry
has been committed does. The barrier needs no such thing: its entry goes
behind everything its leader has, which by leader completeness is
everything committed.

What reaches a caller is a command frontier, and a state machine whose
frontier has come as far has run it all (`Lib.Raft.Inv.ran`).
-/
import Rostam.Cluster.ReadIndex
import Rostam.Lib.RaftRuns

namespace Rostam.Cluster.ReadIndex

open Lib Function
open Lib.Raft (Group Quorums Inv Later lastCmd lastTerm cmds)

variable {ι α κ : Type} {Q : Quorums ι} {S₀ G G' : Group ι α} {m n q : ι}
  {e : Raft.Event ι α}

-- ======== the body

/-- `S₀` is the group as it was at some moment before `G`. -/
structure Since (Q : Quorums ι) (S₀ G : Group ι α) : Prop where
  inv : Inv Q S₀
  term : ∀ q, (S₀.node q).term ≤ (G.node q).term
  committed : S₀.committed ⊆ G.committed

theorem Since.refl (hi : Inv Q G) : Since Q G G :=
  ⟨hi, fun _ => le_rfl, List.Subset.refl _⟩

theorem Since.later (h : Since Q S₀ G) (hl : Later G G' e) : Since Q S₀ G' :=
  ⟨h.inv, fun q => (h.term q).trans (hl.term q),
    List.Subset.trans h.committed hl.committed⟩

/-- Every command committed by `S₀` is at or below `f`. -/
def Below (S₀ : Group ι α) (f : Nat) : Prop :=
  ∀ x ∈ S₀.committed, lastCmd x.2 ≤ f

theorem Below.mono {f f' : Nat} (h : Below S₀ f) (hle : f ≤ f') :
    Below S₀ f' :=
  fun x hx => (h x hx).trans hle

/-- What a body on node `m` has established about what was committed when
it was detached. -/
def BodyOk (S₀ G : Group ι α) (m : ι) : Body ι → Prop
  | .called => True
  | .verifying T heard => ∀ q ∈ heard, (S₀.node q).term ≤ T
  | .verified T => T ≤ (G.node m).term ∧ ∀ x ∈ S₀.committed, x.1 ≤ T
      ∧ (x.1 = T → x.2.length ≤ (G.node m).commit)
  | .captured T ci => T ≤ (G.node m).term ∧ ∀ x ∈ S₀.committed, x.1 ≤ T
      ∧ (x.1 = T → x.2.length ≤ ci)
  | .behind T => T ≤ (G.node m).term ∧ ∀ x ∈ S₀.committed, x.1 ≤ T
  | .draining _ j => ∀ x ∈ S₀.committed, x.2.length < j
  | .drained => Below S₀ (G.node m).frontier
  | .done (.frontier f) => Below S₀ f ∧ f ≤ (G.node m).frontier
  | .done _ => True

/-- A node that does not restart keeps what its body has established. -/
theorem BodyOk.later {b : Body ι} (h : BodyOk S₀ G m b)
    (hl : Later G G' e) (hm : ∀ k, e ≠ .restart m k) :
    BodyOk S₀ G' m b := by
  have hterm := hl.term m
  have hcommit := hl.commit m hm
  have hfront := hl.frontier m hm
  cases b with
  | called => trivial
  | verifying | draining => exact h
  | verified T =>
    exact ⟨h.1.trans hterm, fun x hx => ⟨(h.2 x hx).1, fun hT =>
      ((h.2 x hx).2 hT).trans hcommit⟩⟩
  | captured | behind => exact ⟨h.1.trans hterm, h.2⟩
  | drained => exact Below.mono h hfront
  | done o =>
    cases o with
    | frontier f => exact ⟨h.1, h.2.trans hfront⟩
    | notLeader | failed => trivial

/-- On its fast path the body has found an entry of the term it verified
at or below the commit index it took. -/
def Body.covers (G : Group ι α) (m : ι) : Body ι → Act ι → Bool
  | .captured T ci, .appliedIndex =>
    !decide (ci ≤ (G.node m).frontier)
      || decide (T ≤ lastTerm ((G.node m).log.take ci))
  | _, _ => true

-- ======== the calls

/-- What a call has reached. -/
def CallOk (S₀ G : Group ι α) (k : Call ι) : Prop :=
  match k.stage with
  | .leading b => BodyOk S₀ G k.node b
  | .polling f => Below S₀ f
  | .returned true => Below S₀ (G.node k.node).frontier
  | _ => True

theorem CallOk.later {k : Call ι} (h : CallOk S₀ G k) (hl : Later G G' e)
    (hn : ∀ j, e ≠ .restart k.node j) : CallOk S₀ G' k := by
  obtain ⟨n, s⟩ := k
  cases s with
  | leading b => exact BodyOk.later h hl hn
  | returned ok =>
    cases ok with
    | false => trivial
    | true => exact Below.mono h (hl.frontier n hn)
  | polling f => exact h
  | queued | fetching | dead => trivial

/-- A flight was detached after its members called. -/
structure FlightOk (Q : Quorums ι) (S : Barriers ι α κ) (d : Door) (n : ι)
    (F : Flight ι α κ) : Prop where
  since : Since Q F.since S.raft
  body : BodyOk F.since S.raft F.site F.body
  site : d = .store → F.site = n
  members : ∀ c ∈ F.members, S.call c ≠ none
    ∧ (S.began c).committed ⊆ F.since.committed

structure Ok (Q : Quorums ι) (S : Barriers ι α κ) : Prop where
  raft : Inv Q S.raft
  began : ∀ c, S.call c ≠ none → Since Q (S.began c) S.raft
  call : ∀ c k, S.call c = some k → CallOk (S.began c) S.raft k
  flight : ∀ d n F, S.flight d n = some F → FlightOk Q S d n F
  pending : ∀ d n b, S.pending d n = some b → ∀ c ∈ b, S.call c ≠ none

variable {S S' : Barriers ι α κ} {c : κ} {d : Door}

theorem called {k : Call ι} (hc : S.call c = some k) : S.call c ≠ none := by
  rw [hc]
  exact Option.some_ne_none _

theorem ok_blank : Ok Q (Barriers.blank : Barriers ι α κ) where
  raft := Raft.inv_blank
  began := fun _ hc => absurd rfl hc
  call := fun _ _ hc => by cases hc
  flight := fun _ _ _ hF => by cases hF
  pending := fun _ _ _ hb => by cases hb

/-- The group moves on, and nobody restarts. -/
theorem Ok.moved (h : Ok Q S) (hi : Inv Q G') (hl : Later S.raft G' e)
    (he : ∀ q k, e ≠ .restart q k) : Ok Q { S with raft := G' } where
  raft := hi
  began := fun c hc => (h.began c hc).later hl
  call := fun c k hk => (h.call c k hk).later hl (he k.node)
  flight := fun d n F hF => {
    h.flight d n F hF with
    since := (h.flight d n F hF).since.later hl
    body := (h.flight d n F hF).body.later hl (he F.site) }
  pending := h.pending

section Stages

variable [DecidableEq κ]

variable {s : Stage ι}

theorem setStage_call {c' : κ} (hc : S.call c ≠ none) :
    (S.setStage c n s).call c' ≠ none ↔ S.call c' ≠ none := by
  unfold Barriers.setStage
  dsimp only
  by_cases h : c' = c
  · subst h
    rw [update_self]
    exact ⟨fun _ => hc, fun _ h => by cases h⟩
  · rw [update_of_ne h]

/-- A call moves on. -/
theorem Ok.setStage (h : Ok Q S) (hc : S.call c ≠ none)
    (hs : CallOk (S.began c) S.raft ⟨n, s⟩) : Ok Q (S.setStage c n s) where
  raft := h.raft
  began := fun c' hc' => h.began c' ((setStage_call hc).mp hc')
  call := by
    intro c' k hk
    unfold Barriers.setStage at hk
    dsimp only at hk
    by_cases hcc : c' = c
    · subst hcc
      rw [update_self] at hk
      obtain rfl := Option.some.inj hk
      exact hs
    · rw [update_of_ne hcc] at hk
      exact h.call c' k hk
  flight := fun d n F hF => {
    h.flight d n F hF with
    members := fun c' hc' =>
      ⟨(setStage_call hc).mpr ((h.flight d n F hF).members c' hc').1,
        ((h.flight d n F hF).members c' hc').2⟩ }
  pending := fun d n b hb c' hc' =>
    (setStage_call hc).mpr (h.pending d n b hb c' hc')

/-- A call begins. -/
theorem Ok.start (h : Ok Q S) (hc : S.call c = none)
    (hs : CallOk S.raft S.raft ⟨n, s⟩) : Ok Q (S.start c n s) := by
  -- nobody waits under a name that is new
  have hne : ∀ c', S.call c' ≠ none → c' ≠ c := by
    rintro c' hc' rfl
    exact hc' hc
  have hcall : ∀ c', c' ≠ c → (S.start c n s).call c' = S.call c'
      ∧ (S.start c n s).began c' = S.began c' :=
    fun c' h => ⟨update_of_ne h .., update_of_ne h ..⟩
  have hself : (S.start c n s).call c = some ⟨n, s⟩
      ∧ (S.start c n s).began c = S.raft :=
    ⟨update_self .., update_self ..⟩
  refine ⟨h.raft, fun c' hc' => ?_, fun c' k hk => ?_,
    fun d m F hF => ?_, fun d m b hb c' hc' => ?_⟩
  · by_cases hcc : c' = c
    · subst hcc
      rw [hself.2]
      exact Since.refl h.raft
    · rw [(hcall c' hcc).1] at hc'
      rw [(hcall c' hcc).2]
      exact h.began c' hc'
  · by_cases hcc : c' = c
    · subst hcc
      obtain rfl := Option.some.inj (hself.1.symm.trans hk)
      rw [hself.2]
      exact hs
    · rw [(hcall c' hcc).1] at hk
      rw [(hcall c' hcc).2]
      exact h.call c' k hk
  · have hF := h.flight d m F hF
    refine { hF with members := fun c' hc' => ?_ }
    have hm := hF.members c' hc'
    rw [(hcall c' (hne c' hm.1)).1, (hcall c' (hne c' hm.1)).2]
    exact hm
  · have hb := h.pending d m b hb c' hc'
    rw [(hcall c' (hne c' hb)).1]
    exact hb

end Stages

variable [DecidableEq ι]

/-- Node `q` restarts. -/
theorem Ok.down (h : Ok Q S) (hi : Inv Q G') (hl : Later S.raft G' e)
    (he : ∀ n k, e = .restart n k → n = q) :
    Ok Q { S.down q with raft := G' } := by
  have hne : ∀ n, n ≠ q → ∀ k, e ≠ .restart n k :=
    fun n hn k heq => hn (he n k heq)
  have hcall : ∀ c, (S.down q).call c ≠ none ↔ S.call c ≠ none := by
    intro c
    unfold Barriers.down
    rw [Ne, Option.map_eq_none_iff]
  refine ⟨hi, fun c hc => (h.began c ((hcall c).mp hc)).later hl,
    fun c k hk => ?_, fun d n F hF => ?_, fun d n b hb c hc => ?_⟩
  · obtain ⟨k₀, hk₀, rfl⟩ := Option.map_eq_some_iff.mp hk
    split
    · trivial
    · next hn => exact (h.call c k₀ hk₀).later hl (hne _ hn)
  · dsimp only [Barriers.down] at hF
    split at hF
    · cases hF
    · obtain ⟨F₀, hF₀, rfl⟩ := Option.map_eq_some_iff.mp hF
      obtain ⟨h1, h2, h3, h4⟩ := h.flight d n F₀ hF₀
      split
      · exact ⟨h1.later hl, trivial, h3,
          fun c hc => ⟨(hcall c).mpr (h4 c hc).1, (h4 c hc).2⟩⟩
      · next hn =>
        exact ⟨h1.later hl, h2.later hl (hne _ hn), h3,
          fun c hc => ⟨(hcall c).mpr (h4 c hc).1, (h4 c hc).2⟩⟩
  · dsimp only [Barriers.down] at hb
    split at hb
    · cases hb
    · exact (hcall c).mpr (h.pending d n b hb c hc)

theorem Ok.setFlight {f : Option (Flight ι α κ)} (h : Ok Q S)
    (hf : ∀ F, f = some F → FlightOk Q S d n F) :
    Ok Q (S.setFlight d n f) := by
  refine { h with flight := fun d' n' F hF => ?_ }
  dsimp only [Barriers.setFlight] at hF
  split at hF
  · next hd =>
    obtain ⟨rfl, rfl⟩ := hd
    exact { hf F hF with body := (hf F hF).body }
  · exact { h.flight d' n' F hF with body := (h.flight d' n' F hF).body }

theorem Ok.setPending {b : Option (List κ)} (h : Ok Q S)
    (hb : ∀ l, b = some l → ∀ c ∈ l, S.call c ≠ none) :
    Ok Q (S.setPending d n b) := by
  refine { h with
    flight := fun d' n' F hF => { h.flight d' n' F hF with
      body := (h.flight d' n' F hF).body }
    pending := fun d' n' l hl => ?_ }
  dsimp only [Barriers.setPending] at hl
  split at hl
  · exact hb l hl
  · exact h.pending d' n' l hl

omit [DecidableEq ι] in
/-- A batch is detached: everything its members saw committed is
committed by now. -/
theorem Ok.detach {batch : List κ} {t : ι} (h : Ok Q S)
    (hb : ∀ c ∈ batch, S.call c ≠ none) :
    FlightOk Q S d n ⟨batch, Barriers.site d n t, .called, S.raft⟩ where
  since := Since.refl h.raft
  body := trivial
  site := by
    rintro rfl
    rfl
  members := fun c hc => ⟨hb c hc, (h.began c (hb c hc)).committed⟩

theorem Ok.join {t : ι} (h : Ok Q S) (hc : S.call c ≠ none) :
    Ok Q (S.join d c n t) := by
  have hbatch : ∀ c' ∈ (S.pending d n).getD [] ++ [c], S.call c' ≠ none := by
    intro c' hc'
    rcases List.mem_append.mp hc' with hc' | hc'
    · cases hp : S.pending d n with
      | none =>
        rw [hp] at hc'
        cases hc'
      | some b =>
        rw [hp] at hc'
        exact h.pending d n b hp c' hc'
    · rw [List.mem_singleton.mp hc']
      exact hc
  unfold Barriers.join
  split
  · refine h.setPending fun l hl => ?_
    obtain rfl := Option.some.inj hl
    exact hbatch
  · have h' : Ok Q (S.setPending d n none) :=
      h.setPending fun l hl => by cases hl
    refine h'.setFlight fun F hF => ?_
    obtain rfl := Option.some.inj hF
    exact h'.detach hbatch

variable [DecidableEq κ]

/-- Members take over the result of their flight. -/
theorem Ok.tell {F : Flight ι α κ} {o : Outcome} (h : Ok Q S)
    (hF : FlightOk Q S d n F) (ho : F.body = .done o) :
    Ok Q (S.tell d n F.members o) := by
  have hcall : ∀ c, (S.tell d n F.members o).call c ≠ none
      ↔ S.call c ≠ none := by
    intro c
    dsimp only [Barriers.tell]
    split
    · next hc =>
      rw [hc.2]
      exact iff_of_true (Option.some_ne_none _) (Option.some_ne_none _)
    · exact Iff.rfl
  refine ⟨h.raft, fun c hc => h.began c ((hcall c).mp hc),
    fun c k hk => ?_, fun d' n' F' hF' => ?_, fun d' n' b hb c hc => ?_⟩
  · dsimp only [Barriers.tell] at hk
    split at hk
    · next hc =>
      obtain rfl := Option.some.inj hk
      have hsub := (hF.members c hc.1).2
      have hbody := hF.body
      rw [ho] at hbody
      cases o with
      | frontier f =>
        cases d with
        | store =>
          rw [hF.site rfl] at hbody
          exact fun x hx => (hbody.1 x (hsub hx)).trans hbody.2
        | catalog => exact fun x hx => hbody.1 x (hsub hx)
      | notLeader | failed => cases d <;> trivial
    · exact h.call c k hk
  · exact { h.flight d' n' F' hF' with
      body := (h.flight d' n' F' hF').body
      members := fun c hc => ⟨(hcall c).mpr
        ((h.flight d' n' F' hF').members c hc).1,
        ((h.flight d' n' F' hF').members c hc).2⟩ }
  · exact (hcall c).mpr (h.pending d' n' b hb c hc)

theorem Ok.publish {F : Flight ι α κ} {o : Outcome} {t : ι} (h : Ok Q S)
    (hF : S.flight d n = some F) (ho : F.body = .done o) :
    Ok Q (S.publish d n t F.members o) := by
  have htold := h.tell (h.flight d n F hF) ho
  unfold Barriers.publish
  split
  · exact htold.setFlight fun F hF => by cases hF
  · next batch hp =>
    have h' : Ok Q ((S.tell d n F.members o).setPending d n none) :=
      htold.setPending fun l hl => by cases hl
    refine h'.setFlight fun F hF => ?_
    obtain rfl := Option.some.inj hF
    exact h'.detach (htold.pending d n batch hp)

-- ======== runs

variable [DecidableEq α]

/-- A body changes the group by its barrier entry only, and keeps what it
has established. -/
theorem Body.step_ok {b b' : Body ι} {a : Act ι} (hi : Inv Q G)
    (h₀ : Since Q S₀ G) (h : BodyOk S₀ G m b)
    (hK : b.covers G m a = true) (hs : b.step Q G m a = some (G', b')) :
    (G' = G ∨ Raft.step Q G (.append m none) = some G')
      ∧ BodyOk S₀ G' m b' := by
  have hnode := hi.node m
  have hfront : (G.node m).frontier ≤ (G.node m).applied := by
    rw [hnode.frontier]
    exact (Raft.lastCmd_le _).trans (List.length_take_le _ _)
  unfold Body.step at hs
  split at hs
  · -- VerifyLeader is called
    split at hs <;> cases hs
    · exact ⟨Or.inl rfl, fun q hq => by cases hq⟩
    · exact ⟨Or.inl rfl, trivial⟩
  · -- a node accepts the term
    next T heard p =>
      obtain ⟨hp, hs⟩ := guarded hs
      cases hs
      refine ⟨Or.inl rfl, fun q hq => ?_⟩
      rcases List.mem_cons.mp hq with rfl | hq
      · exact (h₀.term q).trans hp
      · exact h q hq
  · -- a quorum has
    next T heard =>
      obtain ⟨⟨hok, hrole, hT⟩, hs⟩ := guarded hs
      cases hs
      refine ⟨Or.inl rfl, Nat.le_of_eq hT.symm, fun x hx => ⟨?_, ?_⟩⟩
      · exact h₀.inv.committed_le hx hok h
      · intro hxT
        exact (hi.committed x (h₀.committed hx)).2 m hrole
          (hT.trans hxT.symm)
  · cases hs
    exact ⟨Or.inl rfl, h⟩
  · -- the fast path, or not
    next T ci =>
      split at hs
      · next hle =>
        cases hs
        refine ⟨Or.inl rfl, fun x hx => ?_, le_rfl⟩
        obtain ⟨hxT, hlen⟩ := h.2 x hx
        have hcov : T ≤ lastTerm ((G.node m).log.take ci) := by
          simpa [Body.covers, hle] using hK
        have hci : x.2.length ≤ ci := by
          rcases Nat.lt_or_eq_of_le hxT with hlt | heq
          · exact hi.committed_below (h₀.committed hx)
              (hle.trans hfront) hcov hlt
          · exact hlen heq
        exact (Raft.lastCmd_le _).trans (hci.trans hle)
      · cases hs
        exact ⟨Or.inl rfl, h.1, fun x hx => (h.2 x hx).1⟩
  · -- the barrier's entry goes behind all that its leader has
    next T =>
      split at hs
      · next hrole =>
        obtain ⟨G₁, hr, hs⟩ := Option.map_eq_some_iff.mp hs
        cases hs
        refine ⟨Or.inr hr, fun x hx => Nat.lt_succ_of_le ?_⟩
        exact (hi.committed_leader (h₀.committed hx) hrole
          ((h.2 x hx).trans h.1)).length_le
      · cases hs
        exact ⟨Or.inl rfl, trivial⟩
  · next T j =>
    obtain ⟨hc, hs⟩ := guarded hs
    cases hs
    refine ⟨Or.inl rfl, fun x hx => ?_⟩
    exact hi.committed_applied (h₀.committed hx)
      ((Nat.le_of_lt (h x hx)).trans hc.1)
  · cases hs
    exact ⟨Or.inl rfl, h, le_rfl⟩
  · cases hs
  · cases hs
  · next o hf _ =>
    cases hs
    refine ⟨Or.inl rfl, ?_⟩
    cases o with
    | frontier f => exact absurd rfl (hf f)
    | notLeader | failed => trivial
  · cases hs

/-- Every fast path is covered, and no node with a single peer skips the
barrier. -/
def covers (peers : ι → Nat) (S : Barriers ι α κ) : Event ι α κ → Bool
  | .metaReadBarrier _ n => decide (1 < peers n)
  | .flight d n a =>
    match S.flight d n with
    | some F => F.body.covers S.raft F.site a
    | none => true
  | .lead c a =>
    match S.call c with
    | some ⟨n, .leading b⟩ => b.covers S.raft n a
    | _ => true
  | _ => true

omit [DecidableEq κ] in
/-- After a body's statement the group is as it was or has one more
entry. -/
theorem Ok.bodyStep (h : Ok Q S)
    (hG : G' = S.raft ∨ Raft.step Q S.raft (.append m none) = some G') :
    Ok Q { S with raft := G' } := by
  rcases hG with rfl | hG
  · exact h
  · exact h.moved (Raft.inv_step h.raft hG) (Raft.step_later h.raft hG)
      fun q k he => by cases he

theorem ok_step {peers : ι → Nat} {ev : Event ι α κ} (h : Ok Q S)
    (hK : covers peers S ev = true)
    (hs : step Q peers S ev = some S') : Ok Q S' := by
  cases ev with
  | raft e =>
    obtain ⟨R, hR, rfl⟩ := Option.map_eq_some_iff.mp hs
    have hi := Raft.inv_step h.raft hR
    have hl := Raft.step_later h.raft hR
    cases e with
    | restart q k =>
      refine h.down hi hl fun n j he => ?_
      injection he with he _
      exact he.symm
    | _ => exact h.moved hi hl fun q k he => by cases he
  | verifyLeaderAndCatchUp c n =>
    obtain ⟨hc, rfl⟩ := guarded hs
    exact Ok.join (h.start hc trivial) (called (update_self ..))
  | metaReadBarrier c n =>
    have hpeers := of_decide_eq_true hK
    simp only [step] at hs
    split at hs
    · next hc =>
      rw [if_neg (Nat.not_le_of_lt hpeers)] at hs
      split at hs <;> cases hs <;> exact h.start hc trivial
    · cases hs
  | fetch c t =>
    simp only [step] at hs
    split at hs
    · next n hc =>
      have hne := called hc
      split at hs <;> cases hs
      exact Ok.join (h.setStage hne trivial) ((setStage_call hne).mpr hne)
    · cases hs
  | flight d n a =>
    simp only [step] at hs
    split at hs
    · next F hF =>
      obtain ⟨r, hr, rfl⟩ := Option.map_eq_some_iff.mp hs
      have hok := h.flight d n F hF
      simp only [covers, hF] at hK
      obtain ⟨hG, hbody⟩ := Body.step_ok h.raft hok.since hok.body hK hr
      have h' := h.bodyStep hG
      have hok' := h'.flight d n F hF
      refine h'.setFlight fun F' hF' => ?_
      obtain rfl := Option.some.inj hF'
      exact { hok' with body := hbody }
    · cases hs
  | lead c a =>
    simp only [step] at hs
    split at hs
    · next n b hc =>
      obtain ⟨r, hr, rfl⟩ := Option.map_eq_some_iff.mp hs
      have hne := called hc
      simp only [covers, hc] at hK
      obtain ⟨hG, hbody⟩ := Body.step_ok h.raft (h.began c hne)
        (h.call c _ hc) hK hr
      exact (h.bodyStep hG).setStage hne hbody
    · cases hs
  | conclude c =>
    simp only [step] at hs
    split at hs
    · next n o hc =>
      have hne := called hc
      have hok := h.call c _ hc
      split at hs <;> cases hs
      · exact h.setStage hne (Below.mono hok.1 hok.2)
      all_goals exact h.setStage hne trivial
    · cases hs
  | publish d n t =>
    simp only [step] at hs
    split at hs
    · next F hF =>
      split at hs
      · next o ho =>
        cases hs
        exact h.publish hF ho
      · cases hs
    · cases hs
  | poll c =>
    simp only [step] at hs
    split at hs
    · next n f hc =>
      have hne := called hc
      obtain ⟨hle, rfl⟩ := guarded hs
      exact h.setStage hne (Below.mono (h.call c _ hc) hle)
    · cases hs
  | giveUp c =>
    simp only [step] at hs
    split at hs
    case h_4 => cases hs
    all_goals
      next n _ hc =>
        cases hs
        exact h.setStage (called hc) trivial

/-- A call that has returned nil reads from a state machine that has run
every command committed before the call began. -/
theorem barrier_sees_commits {peers : ι → Nat} {tr : List (Event ι α κ)}
    (hr : Reach (step Q peers) (fun S ev => covers peers S ev = true)
      .blank tr S)
    (hc : S.call c = some ⟨n, .returned true⟩) :
    ∀ x ∈ (S.began c).committed, cmds x.2 <+: (S.raft.node n).fsm := by
  have hok : Ok Q S := hr.stateInvariant ok_blank
    fun _ _ _ h hK hs => ok_step h hK hs
  intro x hx
  exact hok.raft.ran ((hok.began c (called hc)).committed hx)
    (hok.call c _ hc x hx)

-- ======== two runs

/-- The majorities of three nodes. -/
def majority : Quorums (Fin 3) where
  ok := fun l => (l.contains 0 && l.contains 1)
    || (l.contains 0 && l.contains 2) || (l.contains 1 && l.contains 2)
  meet := by
    intro a b ha hb
    simp only [Bool.or_eq_true, Bool.and_eq_true, List.contains_iff_mem]
      at ha hb
    rcases ha with (⟨h0, h1⟩ | ⟨h0, h2⟩) | ⟨h1, h2⟩ <;>
      rcases hb with (⟨k0, k1⟩ | ⟨k0, k2⟩) | ⟨k1, k2⟩ <;>
      first
        | exact ⟨0, by assumption, by assumption⟩
        | exact ⟨1, by assumption, by assumption⟩
        | exact ⟨2, by assumption, by assumption⟩

/-- Node 0 wins term 1, and commits command 7 on itself and node 1. -/
def commitSeven : List (Event (Fin 3) Nat Nat) :=
  [.raft (.campaign 0), .raft (.grant 1 ⟨0, 1, []⟩), .raft (.win 0 [0, 1]),
    .raft (.append 0 (some 7)), .raft (.send 0 1),
    .raft (.receive 1 ⟨1, [⟨1, some 7⟩], 0⟩), .raft (.commit 0 1 [0, 1])]

/-- Node 1, which has the entry and not its commitment, wins term 2. -/
def electOne : List (Event (Fin 3) Nat Nat) :=
  [.raft (.campaign 1), .raft (.grant 2 ⟨1, 2, [⟨1, some 7⟩]⟩),
    .raft (.win 1 [1, 2]), .raft (.append 1 none)]

/-- A barrier at `n` that hears `n` and `q` and takes its fast path. -/
def fastRead (n q : Fin 3) : List (Event (Fin 3) Nat Nat) :=
  [.verifyLeaderAndCatchUp 0 n, .flight .store n .verifyLeader,
    .flight .store n (.hear n), .flight .store n (.hear q),
    .flight .store n .confirm, .flight .store n .commitIndex,
    .flight .store n .appliedIndex, .publish .store n n]

/-- The new leader's barrier returns nil before the committed command is
applied: its commit index is what it knew as a follower. -/
theorem barrier_misses_commit :
    ∃ S : Barriers (Fin 3) Nat Nat,
      Reach (step majority fun _ => 3) Free .blank
        (commitSeven ++ electOne ++ fastRead 1 2) S
      ∧ S.call 0 = some ⟨1, .returned true⟩
      ∧ (S.began 0).committed = [(1, [⟨1, some 7⟩])]
      ∧ (S.raft.node 1).fsm = [] :=
  exec_free (by decide)

/-- The leader of term 1, once it has applied its command, returns nil
and has it. -/
theorem barrier_sees_commits_fast :
    ∃ S : Barriers (Fin 3) Nat Nat,
      Reach (step majority fun _ => 3)
        (fun S ev => covers (fun _ => 3) S ev = true) .blank
        (commitSeven ++ [.raft (.apply 0)] ++ fastRead 0 1) S
      ∧ (1, [⟨1, some 7⟩]) ∈ (S.began 0).committed
      ∧ cmds [⟨1, some 7⟩] <+: (S.raft.node 0).fsm := by
  obtain ⟨S, hr, hcall, hcom⟩ : ∃ S : Barriers (Fin 3) Nat Nat,
      Reach (step majority fun _ => 3)
        (fun S ev => covers (fun _ => 3) S ev = true) .blank
        (commitSeven ++ [.raft (.apply 0)] ++ fastRead 0 1) S
      ∧ S.call 0 = some ⟨0, .returned true⟩
      ∧ (1, [⟨1, some 7⟩]) ∈ (S.began 0).committed := by
    apply exec_decide fun _ _ hk => hk
    decide
  exact ⟨S, hr, hcom, barrier_sees_commits hr hcall _ hcom⟩

end Rostam.Cluster.ReadIndex
