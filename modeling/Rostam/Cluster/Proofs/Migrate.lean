/-
A migration whose release is not cut short is safe and ends at its
target.

# What holds

Until the target placement is committed, every owner set the coordinator
can read, and the placement itself, lies between the first owners and
the first owners with the target (`Between`), and what it holds beyond
the first owners votes, hosts and has reached the leader's log end. So a
run that starts over finds the same owners to release, and gains what is
missing. After the commit the coordinator releases exactly the first
owners outside the target.

# What does not

A re-run computes what is left from the owners it reads. Once the target
is committed nothing is left, and owners that were not released stay
voters and hosts; or, from the view that a restart resets, it commits
released owners again. A last index that is not answered is taken for an
empty log. A restart closes the store of an owner that was gained, and
forgets any migration before this one.

`Orderly` excludes these and nothing else: the leader answers the status
call for owners to wait for; a run that has committed its target with
owners to release is neither stopped nor refused a sub-call until they
are released; and when the coordinator's node restarts, the computed
owners are the first ones, and it is one of them if it is an owner at
all.
-/
import Rostam.Cluster.Migrate

namespace Rostam.Cluster.Migrate

open Rostam.Lib

variable {ν : Type} [DecidableEq ν]

variable {a b : List ν}

-- ======== lists

theorem mem_subtract {x : ν} : x ∈ subtract a b ↔ x ∈ a ∧ x ∉ b := by
  unfold subtract
  rw [List.mem_filter, decide_eq_true_eq]

theorem mem_union {x : ν} : x ∈ union a b ↔ x ∈ a ∨ x ∈ b := by
  unfold union
  rw [List.mem_eraseDups, List.mem_append]

theorem subtract_eq_nil : subtract a b = [] ↔ ∀ x ∈ a, x ∈ b := by
  unfold subtract
  rw [List.filter_eq_nil_iff]
  constructor
  · intro h x hx
    have := h x hx
    simpa using this
  · intro h x hx
    simpa using h x hx

-- ======== the condition

/-- The coordinator has committed its target and is releasing owners. -/
def MigratePc.releasing : MigratePc ν → Bool
  | .release _ | .transfer _ | .newLeader _ | .removeVoter _
  | .removeOwner _ => true
  | _ => false

/-- The leader answers the status call of a wait for gained owners; from
the commit of a target with owners to release on, nothing stops the run;
and a restart finds the computed owners to be the first ones, and opens
the store of its node again if it is an owner. -/
def Orderly (m : Migration ν) (first : List ν) (s : MigrateState ν) :
    MigrateEvent ν → Prop
  | .status answered => answered = true
      ∨ ∀ cur leader, s.pc = .capture cur leader → m.gained cur = []
  | .crash node => s.pc.releasing = false
      ∧ (node ∈ s.placement → node ∈ m.computed)
      ∧ ∀ x, x ∈ m.computed ↔ x ∈ first
  | .timeout | .call (.err _) => s.pc.releasing = false
  | .commit (.err true) _ =>
      ∀ cur, s.pc = .commitTarget cur → m.lost cur = []
  | _ => True

-- ======== the invariants

section Invariants

variable (m : Migration ν) (first : List ν)

/-- The node votes and hosts the shard. -/
def MigrateState.Joined (s : MigrateState ν) (x : ν) : Prop :=
  x ∈ s.voters ∧ x ∈ s.hosts

/-- An owner set that a run can read before the target is committed: the
first owners with some of the target, all of which vote and host, and all
but the first of which have caught up. -/
structure Between (s : MigrateState ν) (owners : List ν) : Prop where
  lower : ∀ x ∈ first, x ∈ owners
  upper : ∀ x ∈ owners, x ∈ first ∨ x ∈ m.target
  joined : ∀ x ∈ owners, s.Joined x
  reached : ∀ x ∈ owners, x ∉ first → x ∈ s.reached

/-- The state before the target is committed. No view is ahead of the
placement, so a node outside the placement is gained again by a re-run,
whichever view that reads. -/
structure Gaining (s : MigrateState ν) : Prop where
  placement : Between m first s s.placement
  views : ∀ n, s.view n = [] ∨ Between m first s (s.view n)
  behind : ∀ n, ∀ x ∈ s.view n, x ∈ s.placement
  voters : ∀ x ∈ s.voters, x ∈ first ∨ x ∈ m.target
  hosts : ∀ x ∈ s.hosts, x ∈ first ∨ x ∈ m.target

/-- The state while `rest` is left to release. -/
structure Releasing (s : MigrateState ν) (rest : List ν) : Prop where
  placement : ∀ x, x ∈ s.placement ↔ x ∈ m.target
  joined : ∀ x ∈ m.target, s.Joined x
  voters : ∀ x ∈ s.voters, x ∈ m.target ∨ x ∈ rest
  hosts : ∀ x ∈ s.hosts, x ∈ m.target ∨ x ∈ rest
  outside : ∀ x ∈ rest, x ∉ m.target
  reached : ∀ x ∈ m.target, x ∉ first → x ∈ s.reached

/-- What holds of `s` while the coordinator stands at a place. -/
def Stands (s : MigrateState ν) : MigratePc ν → Prop
  | .idle => Gaining m first s
  | .confirm => Gaining m first s ∧ ∃ cur, Between m first s cur
      ∧ m.gained cur = [] ∧ m.lost cur = []
  | .findLeader cur => Gaining m first s
      ∧ (cur = [] ∨ Between m first s cur)
  | .addOwner cur _ rest => Gaining m first s ∧ Between m first s cur
      ∧ (∀ x ∈ rest, x ∈ m.target)
      ∧ ∀ x ∈ m.gained cur, x ∈ rest ∨ s.Joined x
  | .addVoter cur _ rest => Gaining m first s ∧ Between m first s cur
      ∧ (∀ x ∈ rest, x ∈ m.target)
      ∧ (∀ x ∈ m.gained cur, x ∈ rest ∨ s.Joined x)
      ∧ ∀ x, rest.head? = some x → x ∈ s.hosts
  | .capture cur _ => Gaining m first s ∧ Between m first s cur
      ∧ ∀ x ∈ m.gained cur, s.Joined x
  | .wait cur seen logEnd => Gaining m first s ∧ Between m first s cur
      ∧ (∀ x ∈ m.gained cur, s.Joined x)
      ∧ (m.gained cur = [] ∨ seen = logEnd)
  | .commitUnion cur => Gaining m first s ∧ Between m first s cur
      ∧ (∀ x ∈ m.gained cur, s.Joined x)
      ∧ ∀ x ∈ m.gained cur, x ∈ s.reached
  | .commitTarget cur => Gaining m first s ∧ Between m first s cur
      ∧ (∀ x ∈ m.target, s.Joined x)
      ∧ ∀ x ∈ m.target, x ∉ first → x ∈ s.reached
  | .release rest => Releasing m first s rest
  | .transfer rest => Releasing m first s rest
  | .newLeader rest => Releasing m first s rest
  | .removeVoter rest => Releasing m first s rest
  | .removeOwner rest => Releasing m first s rest
      ∧ ∀ x, rest.head? = some x → x ∉ s.voters
  | .returned => Releasing m first s []

end Invariants

variable {m : Migration ν} {first : List ν} {s s' : MigrateState ν}

variable {pc : MigratePc ν} {cur : List ν} {pushed : Finset ν}
  {next : MigratePc ν} {rest : List ν} {a : ν} {out : CallOut}

-- ======== frames

/-- More voters, more hosts and more nodes that caught up. -/
structure Grows (s s' : MigrateState ν) : Prop where
  voters : s.voters ⊆ s'.voters
  hosts : s.hosts ⊆ s'.hosts
  reached : s.reached ⊆ s'.reached

omit [DecidableEq ν] in
theorem Grows.joined (hg : Grows s s') {x : ν} (h : s.Joined x) :
    s'.Joined x :=
  ⟨hg.voters h.1, hg.hosts h.2⟩

omit [DecidableEq ν] in
theorem Between.grows {owners : List ν} (h : Between m first s owners)
    (hg : Grows s s') : Between m first s' owners := { h with
  joined := fun x hx => hg.joined (h.joined x hx)
  reached := fun x hx hf => hg.reached (h.reached x hx hf) }

omit [DecidableEq ν] in
/-- Nothing but the voters, the hosts and who caught up has changed. -/
theorem Gaining.grows (h : Gaining m first s) (hg : Grows s s')
    (hp : s'.placement = s.placement) (hv : s'.view = s.view)
    (hvot : ∀ x ∈ s'.voters, x ∈ first ∨ x ∈ m.target)
    (hhost : ∀ x ∈ s'.hosts, x ∈ first ∨ x ∈ m.target) :
    Gaining m first s' where
  placement := hp ▸ h.placement.grows hg
  views := fun n => by
    rw [hv]
    exact (h.views n).imp_right (·.grows hg)
  behind := fun n => by
    rw [hv, hp]
    exact h.behind n
  voters := hvot
  hosts := hhost

/-- The same shard, wherever the coordinator stands. -/
structure Same (s s' : MigrateState ν) : Prop where
  placement : s'.placement = s.placement
  view : s'.view = s.view
  voters : s'.voters = s.voters
  hosts : s'.hosts = s.hosts
  reached : s'.reached = s.reached

omit [DecidableEq ν] in
/-- Only the coordinator has moved. -/
theorem same_pc (pc : MigratePc ν) : Same s { s with pc := pc } :=
  ⟨rfl, rfl, rfl, rfl, rfl⟩

omit [DecidableEq ν] in
theorem Same.grows (h : Same s s') : Grows s s' where
  voters := h.voters.symm ▸ Finset.Subset.refl _
  hosts := h.hosts.symm ▸ Finset.Subset.refl _
  reached := h.reached.symm ▸ Finset.Subset.refl _

omit [DecidableEq ν] in
theorem Same.symm (h : Same s s') : Same s' s :=
  ⟨h.placement.symm, h.view.symm, h.voters.symm, h.hosts.symm,
    h.reached.symm⟩

omit [DecidableEq ν] in
theorem Same.joined (h : Same s s') (x : ν) : s'.Joined x ↔ s.Joined x :=
  ⟨h.symm.grows.joined, h.grows.joined⟩

omit [DecidableEq ν] in
theorem Gaining.same (hs : Same s s') (h : Gaining m first s) :
    Gaining m first s' := by
  refine h.grows hs.grows hs.placement hs.view ?_ ?_
  · rw [hs.voters]
    exact h.voters
  · rw [hs.hosts]
    exact h.hosts

omit [DecidableEq ν] in
theorem Releasing.same {rest : List ν} (hs : Same s s')
    (h : Releasing m first s rest) : Releasing m first s' rest := by
  obtain ⟨hplace, hjoin, hvot, hhost, hout, hreach⟩ := h
  refine ⟨?_, fun x hx => (hs.joined x).mpr (hjoin x hx), ?_, ?_, hout, ?_⟩
  · rwa [hs.placement]
  · rwa [hs.voters]
  · rwa [hs.hosts]
  · rwa [hs.reached]

/-- What holds does not depend on where the coordinator stands. -/
theorem Stands.same (hs : Same s s') (h : Stands m first s pc) :
    Stands m first s' pc := by
  have hg : Gaining m first s' ↔ Gaining m first s :=
    ⟨.same hs.symm, .same hs⟩
  have hr : ∀ rest, Releasing m first s' rest ↔ Releasing m first s rest :=
    fun _ => ⟨.same hs.symm, .same hs⟩
  have hb : ∀ owners, Between m first s' owners ↔ Between m first s owners :=
    fun _ => ⟨(·.grows hs.symm.grows), (·.grows hs.grows)⟩
  cases pc <;>
    simpa only [Stands, hg, hr, hb, hs.joined, hs.voters, hs.hosts,
      hs.reached] using h

/-- Before the release, a run that stops leaves a state to start from. -/
theorem Stands.gaining (h : Stands m first s pc)
    (hr : pc.releasing = false) (hn : pc ≠ .returned) : Gaining m first s := by
  cases pc with
  | idle => exact h
  | returned => exact absurd rfl hn
  | release | transfer | newLeader | removeVoter | removeOwner => cases hr
  | _ => exact h.1

-- ======== starts

theorem gained_nil_cur (ht : m.target ≠ []) : m.gained [] ≠ [] := by
  intro h
  cases hm : m.target with
  | nil => exact ht hm
  | cons x xs =>
    have hx := subtract_eq_nil.mp h x (hm ▸ List.mem_cons_self)
    cases hx

theorem start_stands (h : Gaining m first s) (hpc : s.pc = .idle)
    (read : Option ν) :
    Stands m first (m.start s read) (m.start s read).pc := by
  have hview : ∀ o : Option ν, o.elim [] s.view = []
      ∨ Between m first s (o.elim [] s.view) := by
    intro o
    cases o with
    | none => exact .inl rfl
    | some n => exact h.views n
  unfold Migration.start
  split
  · rw [hpc]
    exact h
  · next hok =>
    have ht : m.target ≠ [] := fun he => hok (.inl he)
    dsimp only
    split
    · next he =>
      refine Stands.same (same_pc _) ⟨h, _, ?_, he⟩
      refine (hview read).resolve_left fun hnil => ?_
      rw [hnil] at he
      exact gained_nil_cur ht he.1
    · have hst : Stands m first s (.findLeader (read.elim [] s.view)) :=
        ⟨h, hview read⟩
      exact hst.same (same_pc _)

-- ======== gains

theorem gainNext_stands {cur rest : List ν} {leader : ν}
    (hg : Gaining m first s)
    (hb : Between m first s cur) (ht : ∀ x ∈ rest, x ∈ m.target)
    (hv : ∀ x ∈ m.gained cur, x ∈ rest ∨ s.Joined x) :
    Stands m first s (Migration.gainNext cur leader rest) := by
  cases rest with
  | nil => exact ⟨hg, hb, fun x hx => (hv x hx).resolve_left List.not_mem_nil⟩
  | cons b rest => exact ⟨hg, hb, ht, hv⟩

theorem gained_target {x : ν} (hx : x ∈ m.gained cur) :
    x ∈ m.target := (mem_subtract.mp hx).1

/-- `addOwner` adds a host of the target. -/
theorem callAddOwner_gaining (h : Gaining m first s) {b : ν}
    (hb : b ∈ m.target) (out : CallOut) :
    Grows s (Migration.callAddOwner s b out)
      ∧ (out = .ok → b ∈ (Migration.callAddOwner s b out).hosts)
      ∧ Gaining m first (Migration.callAddOwner s b out) := by
  unfold Migration.callAddOwner
  split
  · have hgrow : Grows s { s with hosts := insert b s.hosts } :=
      ⟨Finset.Subset.refl _, Finset.subset_insert _ _, Finset.Subset.refl _⟩
    refine ⟨hgrow, fun _ => Finset.mem_insert_self _ _,
      h.grows hgrow rfl rfl h.voters fun x hx => ?_⟩
    rcases Finset.mem_insert.mp hx with rfl | hx
    · exact .inr hb
    · exact h.hosts x hx
  · next ht =>
    refine ⟨(same_pc s.pc).grows, ?_, h⟩
    rintro rfl
    exact absurd rfl ht

/-- `addVoter` adds a voter of the target. -/
theorem callAddVoter_gaining (h : Gaining m first s) {b : ν}
    (hb : b ∈ m.target) (out : CallOut) :
    Grows s (Migration.callAddVoter s b out)
      ∧ (out = .ok → b ∈ (Migration.callAddVoter s b out).voters)
      ∧ Gaining m first (Migration.callAddVoter s b out) := by
  unfold Migration.callAddVoter
  split
  · have hgrow : Grows s { s with voters := insert b s.voters } :=
      ⟨Finset.subset_insert _ _, Finset.Subset.refl _, Finset.Subset.refl _⟩
    refine ⟨hgrow, fun _ => Finset.mem_insert_self _ _,
      h.grows hgrow rfl rfl (fun x hx => ?_) h.hosts⟩
    rcases Finset.mem_insert.mp hx with rfl | hx
    · exact .inr hb
    · exact h.voters x hx
  · next ht =>
    refine ⟨(same_pc s.pc).grows, ?_, h⟩
    rintro rfl
    exact absurd rfl ht

/-- The wait has seen every gained owner at the leader's log end. -/
theorem caughtUp_stands {seen logEnd : Nat}
    (h : Stands m first s (.wait cur seen logEnd))
    (hs : m.caughtUp s cur seen logEnd = some s') :
    Stands m first s' s'.pc := by
  obtain ⟨hall, rfl⟩ := guarded hs
  obtain ⟨hg, hb, hv, hseen⟩ := h
  have hgrow : Grows s { s with
      reached := s.reached
        ∪ ((m.gained cur).filter fun b => logEnd ≤ s.applied b).toFinset
      pc := .commitUnion cur } :=
    ⟨Finset.Subset.refl _, Finset.Subset.refl _, Finset.subset_union_left⟩
  refine ⟨hg.grows hgrow rfl rfl hg.voters hg.hosts, hb.grows hgrow,
    fun x hx => hgrow.joined (hv x hx), fun x hx => ?_⟩
  obtain hnil | rfl := hseen
  · rw [hnil] at hx
    cases hx
  · refine Finset.mem_union_right _ (List.mem_toFinset.mpr ?_)
    exact List.mem_filter.mpr ⟨hx, decide_eq_true (hall x hx)⟩

-- ======== restarts

theorem restart_pc (node : ν) : (m.restart s node).pc = .idle := by
  unfold Migration.restart
  dsimp only
  split <;> rfl

/-- Whoever is in the placement hosts after a restart if it did before. -/
theorem restart_keeps {node x : ν}
    (hn : node ∈ s.placement → node ∈ m.computed)
    (hx : x ∈ s.placement) :
    (s.Joined x → (m.restart s node).Joined x)
      ∧ (x ∈ s.reached → x ∈ (m.restart s node).reached) := by
  unfold Migration.restart
  dsimp only
  split
  · exact ⟨fun h => ⟨h.1, Finset.mem_insert_of_mem h.2⟩, id⟩
  · next hc =>
    have hne : x ≠ node := fun he => hc (hn (he ▸ hx))
    exact ⟨fun h => ⟨h.1, Finset.mem_erase.mpr ⟨hne, h.2⟩⟩,
      fun h => Finset.mem_erase.mpr ⟨hne, h⟩⟩

/-- A restart before the target is committed leaves a state to start
from. -/
theorem restart_gaining {node : ν} (h : Gaining m first s)
    (hn : node ∈ s.placement → node ∈ m.computed)
    (hc : ∀ x, x ∈ m.computed ↔ x ∈ first) :
    Gaining m first (m.restart s node) := by
  have hfirst : ∀ x ∈ first, x ∈ s.placement := h.placement.lower
  have hkeep : ∀ owners, Between m first s owners →
      (∀ x ∈ owners, x ∈ s.placement) →
      Between m first (m.restart s node) owners :=
        fun owners hb hin => { hb with
    joined := fun x hx => (restart_keeps hn (hin x hx)).1 (hb.joined x hx)
    reached := fun x hx hf =>
      (restart_keeps hn (hin x hx)).2 (hb.reached x hx hf) }
  have hcomp : Between m first s m.computed := {
    lower := fun x hx => (hc x).mpr hx
    upper := fun x hx => .inl ((hc x).mp hx)
    joined := fun x hx => h.placement.joined x (hfirst x ((hc x).mp hx))
    reached := fun x hx hf => absurd ((hc x).mp hx) hf }
  have hview : ∀ n, (m.restart s node).view n
      = if n = node then m.computed else s.view n := by
    intro n
    unfold Migration.restart
    dsimp only
    split <;> rfl
  have hplace : (m.restart s node).placement = s.placement := by
    unfold Migration.restart
    dsimp only
    split <;> rfl
  have hin : ∀ x ∈ m.computed, x ∈ s.placement := fun x hx =>
    hfirst x ((hc x).mp hx)
  refine ⟨?_, fun n => ?_, fun n => ?_, fun x hx => ?_, fun x hx => ?_⟩
  · rw [hplace]
    exact hkeep _ h.placement fun _ hx => hx
  · rw [hview]
    split
    · exact .inr (hkeep _ hcomp hin)
    · exact (h.views n).imp_right fun hb => hkeep _ hb (h.behind n)
  · rw [hview, hplace]
    split
    · exact hin
    · exact h.behind n
  · have hvot : (m.restart s node).voters = s.voters := by
      unfold Migration.restart
      dsimp only
      split <;> rfl
    exact h.voters x (hvot ▸ hx)
  · unfold Migration.restart at hx
    dsimp only at hx
    split at hx
    · next hnc =>
      rcases Finset.mem_insert.mp hx with rfl | hx
      · exact .inl ((hc x).mp hnc)
      · exact h.hosts x hx
    · exact h.hosts x (Finset.mem_of_mem_erase hx)

-- ======== commits

/-- A commit that was not acknowledged: if it took, the owners have to be
ones a run can start from, and all that a view may hold. -/
theorem commit_err {owners : List ν} {took : Bool} (h : Gaining m first s)
    (hb : took = true → Between m first s owners)
    (hall : took = true → ∀ x, x ∈ first ∨ x ∈ m.target → x ∈ owners) :
    Gaining m first
      (Migration.commitPlacement s owners (.err took) pushed next) := by
  have hgrow : Grows s
      (Migration.commitPlacement s owners (.err took) pushed next) :=
    ⟨Finset.Subset.refl _, Finset.Subset.refl _, Finset.Subset.refl _⟩
  have hupper : ∀ n, ∀ x ∈ s.view n, x ∈ first ∨ x ∈ m.target := fun n x hx =>
    h.placement.upper x (h.behind n x hx)
  refine ⟨?_, fun n => (h.views n).imp_right (·.grows hgrow), fun n x hx => ?_,
    h.voters, h.hosts⟩
  · show Between m first _ (if took then owners else s.placement)
    split
    · next ht => exact (hb ht).grows hgrow
    · exact h.placement.grows hgrow
  · show x ∈ if took then owners else s.placement
    split
    · next ht => exact hall ht x (hupper n x hx)
    · exact h.behind n x hx

/-- A commit that was acknowledged, before the target. -/
theorem commit_ok {owners : List ν} (h : Gaining m first s)
    (hb : Between m first s owners)
    (hall : ∀ x, x ∈ first ∨ x ∈ m.target → x ∈ owners) :
    Gaining m first
      (Migration.commitPlacement s owners .ok pushed next) := by
  have hgrow : Grows s
      (Migration.commitPlacement s owners .ok pushed next) :=
    ⟨Finset.Subset.refl _, Finset.Subset.refl _, Finset.Subset.refl _⟩
  have hview : ∀ n,
      (Migration.commitPlacement s owners .ok pushed next).view n
        = if n ∈ pushed then owners else s.view n := fun _ => rfl
  refine ⟨hb.grows hgrow, fun n => ?_, fun n x hx => ?_, h.voters, h.hosts⟩
  · rw [hview]
    split
    · exact .inr (hb.grows hgrow)
    · exact (h.views n).imp_right (·.grows hgrow)
  · show x ∈ owners
    rw [hview] at hx
    split at hx
    · exact hx
    · exact hall x (h.placement.upper x (h.behind n x hx))

/-- All of the target is among the owners that were read and gained. -/
theorem target_split {x : ν} (hx : x ∈ m.target) :
    x ∈ cur ∨ x ∈ m.gained cur := by
  by_cases hc : x ∈ cur
  · exact .inl hc
  · exact .inr (mem_subtract.mpr ⟨hx, hc⟩)

/-- The union that is committed first. -/
theorem union_between (hb : Between m first s cur)
    (hv : ∀ x ∈ m.gained cur, s.Joined x)
    (hr : ∀ x ∈ m.gained cur, x ∈ s.reached) :
    Between m first s (union cur (m.gained cur)) where
  lower := fun x hx => mem_union.mpr (.inl (hb.lower x hx))
  upper := fun x hx =>
    (mem_union.mp hx).elim (hb.upper x) fun hg => .inr (gained_target hg)
  joined := fun x hx => (mem_union.mp hx).elim (hb.joined x) (hv x)
  reached := fun x hx hf =>
    (mem_union.mp hx).elim (fun hc => hb.reached x hc hf) (hr x)

/-- The union is all of the first owners and the target. -/
theorem union_all (hb : Between m first s cur) (x : ν)
    (hx : x ∈ first ∨ x ∈ m.target) : x ∈ union cur (m.gained cur) := by
  rw [mem_union]
  exact hx.elim (fun hf => .inl (hb.lower x hf)) target_split

/-- Without owners to release, so is the target. -/
theorem target_all (hb : Between m first s cur) (hl : m.lost cur = [])
    (x : ν) (hx : x ∈ first ∨ x ∈ m.target) : x ∈ m.target :=
  hx.elim (fun hf => subtract_eq_nil.mp hl x (hb.lower x hf)) id

/-- Without owners to release, the target itself is one to start from. -/
theorem target_between (hb : Between m first s cur)
    (hv : ∀ x ∈ m.target, s.Joined x)
    (hr : ∀ x ∈ m.target, x ∉ first → x ∈ s.reached)
    (hl : m.lost cur = []) :
    Between m first s m.target where
  lower := fun x hx => target_all hb hl x (.inl hx)
  upper := fun _ hx => .inr hx
  joined := hv
  reached := hr

/-- The target is committed: what is left to release are the owners that
were read and are not in it. -/
theorem target_releasing (hg : Gaining m first s)
    (hb : Between m first s cur) (hv : ∀ x ∈ m.target, s.Joined x)
    (hr : ∀ x ∈ m.target, x ∉ first → x ∈ s.reached) :
    Releasing m first
      (Migration.commitPlacement s m.target .ok pushed next)
      (m.lost cur) := by
  have honly : ∀ x, x ∈ first ∨ x ∈ m.target →
      x ∈ m.target ∨ x ∈ m.lost cur := by
    intro x hx
    by_cases ht : x ∈ m.target
    · exact .inl ht
    · have hf := hx.resolve_right ht
      exact .inr (mem_subtract.mpr ⟨hb.lower x hf, ht⟩)
  exact {
    placement := fun _ => Iff.rfl
    joined := hv
    voters := fun x hx => honly x (hg.voters x hx)
    hosts := fun x hx => honly x (hg.hosts x hx)
    outside := fun x hx => (mem_subtract.mp hx).2
    reached := hr }

theorem releaseNext_stands (h : Releasing m first s rest) :
    Stands m first s (Migration.releaseNext rest) := by
  cases rest with
  | nil => exact h
  | cons a rest => exact h

-- ======== releases

/-- `removeVoter`: the owner leaves the group. -/
theorem removeVoter_releasing (h : Releasing m first s (a :: rest)) :
    Stands m first (Migration.callRemoveVoter s a .ok)
      (.removeOwner (a :: rest)) := by
  have ha : a ∉ m.target := h.outside a List.mem_cons_self
  have hs : Migration.callRemoveVoter s a .ok
      = { s with voters := s.voters.erase a } := rfl
  rw [hs]
  refine ⟨{ h with joined := fun x hx => ?_, voters := fun x hx => ?_ },
    fun x hx => ?_⟩
  · obtain ⟨hvot, hhost⟩ := h.joined x hx
    exact ⟨Finset.mem_erase.mpr ⟨fun he => ha (he ▸ hx), hvot⟩, hhost⟩
  · exact h.voters x (Finset.mem_of_mem_erase hx)
  · injection hx with hx
    exact hx ▸ Finset.notMem_erase a _

/-- `removeOwner`: its store is torn down. -/
theorem removeOwner_releasing
    (h : Stands m first s (.removeOwner (a :: rest))) :
    Releasing m first (Migration.callRemoveOwner s a .ok) rest := by
  obtain ⟨h, hvote⟩ := h
  have ha : a ∉ m.target := h.outside a List.mem_cons_self
  have hav : a ∉ s.voters := hvote a rfl
  have hs : Migration.callRemoveOwner s a .ok
      = { s with hosts := s.hosts.erase a, reached := s.reached.erase a } :=
    rfl
  have hne : ∀ x ∈ m.target, x ≠ a := fun x hx he => ha (he ▸ hx)
  have hrest : ∀ x, x ∈ m.target ∨ x ∈ a :: rest → x ≠ a →
      x ∈ m.target ∨ x ∈ rest := fun x hx hxa =>
    hx.imp_right fun hm => (List.mem_cons.mp hm).resolve_left hxa
  rw [hs]
  exact {
    placement := h.placement
    joined := fun x hx => ⟨(h.joined x hx).1,
      Finset.mem_erase.mpr ⟨hne x hx, (h.joined x hx).2⟩⟩
    voters := fun x hx => hrest x (h.voters x hx) fun he => hav (he ▸ hx)
    hosts := fun x hx => hrest x (h.hosts x (Finset.mem_of_mem_erase hx))
      (Finset.ne_of_mem_erase hx)
    outside := fun x hx => h.outside x (List.mem_cons_of_mem _ hx)
    reached := fun x hx hf =>
      Finset.mem_erase.mpr ⟨hne x hx, h.reached x hx hf⟩ }

-- ======== steps

/-- A leader is found: the gain loop starts, or the release goes on. -/
theorem leader_stands {id : ν} (h : Stands m first s s.pc)
    (hs : m.step s (.leader id) = some s') : Stands m first s' s'.pc := by
  unfold Migration.step at hs
  dsimp only at hs
  split at hs
  · next cur hpc =>
    rw [hpc] at h
    obtain ⟨hg, hb⟩ := h
    obtain ⟨hid, rfl⟩ := guarded hs
    have hb := hb.resolve_left fun hn => (by
      rw [hn] at hid
      cases hid.1)
    exact (gainNext_stands hg hb (fun _ => gained_target) fun _ => .inl).same
      (same_pc _)
  · next rest hpc =>
    rw [hpc] at h
    split at hs
    · cases hs
      exact Releasing.same (same_pc _) h
    · cases hs
  · cases hs

/-- `addOwner` and `addVoter` of the gain loop, whether they succeed or
not. -/
theorem gain_stands {leader b : ν} (hg : Gaining m first s)
    (hb : Between m first s cur) (ht : ∀ x ∈ b :: rest, x ∈ m.target)
    (hv : ∀ x ∈ m.gained cur, x ∈ b :: rest ∨ s.Joined x) :
    Stands m first
        (Migration.after (Migration.callAddOwner s b out) out
          (.addVoter cur leader (b :: rest)))
        (Migration.after (Migration.callAddOwner s b out) out
          (.addVoter cur leader (b :: rest))).pc
      ∧ (b ∈ s.hosts → Stands m first
        (Migration.after (Migration.callAddVoter s b out) out
          (Migration.gainNext cur leader rest))
        (Migration.after (Migration.callAddVoter s b out) out
          (Migration.gainNext cur leader rest)).pc) := by
  have hbt : b ∈ m.target := ht b List.mem_cons_self
  constructor
  · obtain ⟨hgrow, hhost, hg'⟩ := callAddOwner_gaining hg hbt out
    cases out with
    | err took => exact Gaining.same (same_pc _) hg'
    | ok =>
      have hst : Stands m first (Migration.callAddOwner s b .ok)
          (.addVoter cur leader (b :: rest)) := by
        refine ⟨hg', hb.grows hgrow, ht, fun x hx => ?_, fun x hx => ?_⟩
        · exact (hv x hx).imp_right hgrow.joined
        · injection hx with hx
          exact hx ▸ hhost rfl
      exact hst.same (same_pc _)
  · intro hh
    obtain ⟨hgrow, hvote, hg'⟩ := callAddVoter_gaining hg hbt out
    cases out with
    | err took => exact Gaining.same (same_pc _) hg'
    | ok =>
      refine Stands.same (same_pc _) (gainNext_stands hg' (hb.grows hgrow)
        (fun x hx => ht x (List.mem_cons_of_mem _ hx)) fun x hx => ?_)
      rcases hv x hx with hx | hx
      · rcases List.mem_cons.mp hx with rfl | hx
        · exact .inr ⟨hvote rfl, hgrow.hosts hh⟩
        · exact .inl hx
      · exact .inr (hgrow.joined hx)

/-- A sub-call of either loop. -/
theorem call_stands (h : Stands m first s s.pc)
    (ho : Orderly m first s (.call out))
    (hs : m.step s (.call out) = some s') : Stands m first s' s'.pc := by
  have hs : Migration.call s out = some s' := hs
  have hok : s.pc.releasing = true → out = .ok := by
    intro hr
    cases out with
    | ok => rfl
    | err took => exact absurd hr (Bool.eq_false_iff.mp ho)
  unfold Migration.call at hs
  split at hs
  · next cur leader b rest hpc =>
    rw [hpc] at h
    obtain ⟨hg, hb, ht, hv⟩ := h
    cases hs
    exact (gain_stands hg hb ht hv).1
  · next cur leader b rest hpc =>
    rw [hpc] at h
    obtain ⟨hg, hb, ht, hv, hh⟩ := h
    cases hs
    exact (gain_stands hg hb ht hv).2 (hh b rfl)
  · next rest hpc =>
    rw [hpc] at h hok
    obtain rfl := hok rfl
    cases hs
    exact Releasing.same (same_pc _) h
  · next a rest hpc =>
    rw [hpc] at h hok
    obtain rfl := hok rfl
    cases hs
    exact (removeVoter_releasing h).same (same_pc _)
  · next a rest hpc =>
    rw [hpc] at h hok
    obtain rfl := hok rfl
    cases hs
    exact (releaseNext_stands (removeOwner_releasing h)).same (same_pc _)
  · cases hs

/-- A commit of the union or of the target. -/
theorem commit_stands (h : Stands m first s s.pc)
    (ho : Orderly m first s (.commit out pushed))
    (hs : m.step s (.commit out pushed) = some s') :
    Stands m first s' s'.pc := by
  unfold Migration.step at hs
  dsimp only at hs
  split at hs
  · next hpc =>
    rw [hpc] at h
    obtain ⟨hg, cur, hb, hgain, hlost⟩ := h
    have hcur : ∀ x ∈ m.target, x ∈ cur := subtract_eq_nil.mp hgain
    have hv : ∀ x ∈ m.target, s.Joined x := fun x hx =>
      hb.joined x (hcur x hx)
    have hr : ∀ x ∈ m.target, x ∉ first → x ∈ s.reached := fun x hx =>
      hb.reached x (hcur x hx)
    cases hs
    cases out with
    | err took =>
      exact commit_err hg (fun _ => target_between hb hv hr hlost)
        fun _ => target_all hb hlost
    | ok =>
      have hrel : Releasing m first (Migration.commitPlacement s m.target
          .ok pushed .returned) (m.lost cur) :=
        target_releasing hg hb hv hr
      rw [hlost] at hrel
      exact hrel
  · next cur hpc =>
    rw [hpc] at h
    obtain ⟨hg, hb, hv, hr⟩ := h
    have hub := union_between hb hv hr
    have hall := union_all hb
    cases hs
    cases out with
    | err took => exact commit_err hg (fun _ => hub) fun _ => hall
    | ok =>
      have hgrow : Grows s (Migration.commitPlacement s
          (union cur (m.gained cur)) .ok pushed (.commitTarget cur)) :=
        ⟨Finset.Subset.refl _, Finset.Subset.refl _, Finset.Subset.refl _⟩
      refine ⟨commit_ok hg hub hall, hb.grows hgrow, fun x hx => ?_,
        fun x hx hf => ?_⟩
      · exact hub.joined x (hall x (.inr hx))
      · exact hub.reached x (hall x (.inr hx)) hf
  · next cur hpc =>
    rw [hpc] at h
    obtain ⟨hg, hb, hv, hr⟩ := h
    cases hs
    cases out with
    | err took =>
      have hl : took = true → m.lost cur = [] := by
        rintro rfl
        exact ho cur hpc
      exact commit_err hg (fun ht => target_between hb hv hr (hl ht))
        fun ht => target_all hb (hl ht)
    | ok => exact releaseNext_stands (target_releasing hg hb hv hr)
  · cases hs

/-- The status call of the wait. -/
theorem status_stands {answered : Bool} (h : Stands m first s s.pc)
    (ho : Orderly m first s (.status answered))
    (hs : m.step s (.status answered) = some s') :
    Stands m first s' s'.pc := by
  unfold Migration.step at hs
  dsimp only at hs
  split at hs
  · next cur leader hpc =>
    rw [hpc] at h
    obtain ⟨hg, hb, hv⟩ := h
    cases hs
    have hst : Stands m first s (.wait cur
        (if answered = true then s.lastIndex leader else 0)
        (s.lastIndex leader)) := by
      refine ⟨hg, hb, hv, ?_⟩
      rcases ho with rfl | hnil
      · exact .inr rfl
      · exact .inl (hnil cur leader hpc)
    exact hst.same (same_pc _)
  · cases hs

/-- Every step that meets the condition keeps what holds. -/
theorem step_stands {e : MigrateEvent ν} (h : Stands m first s s.pc)
    (ho : Orderly m first s e) (hs : m.step s e = some s') :
    Stands m first s' s'.pc := by
  cases e
  case leader id => exact leader_stands h hs
  case call out => exact call_stands h ho hs
  case commit out pushed => exact commit_stands h ho hs
  case status answered => exact status_stands h ho hs
  case progress applied lastIndex =>
    cases hs
    have hsame : Same s
        { s with applied := applied, lastIndex := lastIndex } :=
      ⟨rfl, rfl, rfl, rfl, rfl⟩
    exact Stands.same hsame h
  all_goals
    unfold Migration.step at hs
    dsimp only at hs
    split at hs <;> rename_i hpc <;> try (cases hs; done)
    all_goals try rw [hpc] at h
  · -- `start`
    cases hs
    exact start_stands h hpc _
  · -- `crash`
    obtain ⟨hr, hn, hc⟩ := ho
    cases hs
    have hg := restart_gaining (h.gaining hr hpc) hn hc
    rw [restart_pc]
    exact hg
  · -- `timeout`, of which a release knows none
    cases hs
    exact Gaining.same (same_pc _) h.1
  · cases hs
    exact Gaining.same (same_pc _) h.1
  · have hr : s.pc.releasing = false := ho
    rw [hpc] at hr
    cases hr
  · exact caughtUp_stands h hs
  · next lead _ _ _ =>
    obtain ⟨-, rfl⟩ := guarded hs
    cases lead <;> exact Releasing.same (same_pc _) h

/-- A sub-call that takes a store away is `removeOwner`. -/
theorem call_hosts (hs : Migration.call s out = some s') (ha : a ∈ s.hosts)
    (ha' : a ∉ s'.hosts) : ∃ rest, s.pc = .removeOwner (a :: rest) := by
  have hafter : ∀ (s : MigrateState ν) next,
      (Migration.after s out next).hosts = s.hosts := by
    intro s next
    cases out <;> rfl
  unfold Migration.call at hs
  split at hs <;> cases hs <;> rename_i hpc <;> rw [hafter] at ha'
  · unfold Migration.callAddOwner at ha'
    split at ha'
    · exact absurd (Finset.mem_insert_of_mem ha) ha'
    · exact absurd ha ha'
  · unfold Migration.callAddVoter at ha'
    split at ha' <;> exact absurd ha ha'
  · exact absurd ha ha'
  · unfold Migration.callRemoveVoter at ha'
    split at ha' <;> exact absurd ha ha'
  · unfold Migration.callRemoveOwner at ha'
    split at ha'
    · obtain rfl : a = _ := by
        by_contra hne
        exact ha' (Finset.mem_erase.mpr ⟨hne, ha⟩)
      exact ⟨_, hpc⟩
    · exact absurd ha ha'

/-- A store goes by `removeOwner`, or when its node restarts. -/
theorem step_hosts {e : MigrateEvent ν} (hs : m.step s e = some s')
    (ha : a ∈ s.hosts) (ha' : a ∉ s'.hosts) :
    e = .crash a ∨ ∃ rest, s.pc = .removeOwner (a :: rest) := by
  cases e
  case call out => exact .inr (call_hosts hs ha ha')
  case crash node =>
    unfold Migration.step at hs
    dsimp only at hs
    split at hs
    · cases hs
    · cases hs
      refine .inl (congrArg _ ?_)
      by_contra hne
      unfold Migration.restart at ha'
      dsimp only at ha'
      split at ha'
      · exact ha' (Finset.mem_insert_of_mem ha)
      · exact ha' (Finset.mem_erase.mpr ⟨fun he => hne he.symm, ha⟩)
  -- every other event leaves the hosts as they are
  all_goals
    refine absurd ha ?_
    suffices hsame : s'.hosts = s.hosts by rwa [← hsame]
    unfold Migration.step Migration.start Migration.caughtUp
      Migration.commitPlacement at hs
    dsimp only at hs
    repeat' split at hs
    all_goals cases hs <;> rfl

/-- A shard at rest is a state to start from. -/
theorem settled_stands (h : s.Settled) : Stands m s.placement s s.pc := by
  have hin : ∀ x, x ∈ s.placement ↔ x ∈ s.placement.toFinset := fun _ =>
    List.mem_toFinset.symm
  have hb : Between m s.placement s s.placement := {
    lower := fun _ hx => hx
    upper := fun _ hx => .inl hx
    joined := fun x hx => by
      unfold MigrateState.Joined
      rw [h.voters, h.hosts, ← hin]
      exact ⟨hx, hx⟩
    reached := fun _ hx hf => absurd hx hf }
  rw [h.idle]
  refine ⟨hb, fun n => ?_, fun n x hx => ?_, fun x hx => ?_, fun x hx => ?_⟩
  · rcases h.views n with hv | hv
    · exact .inl hv
    · exact .inr (hv.symm ▸ hb)
  · rcases h.views n with hv | hv <;> rw [hv] at hx
    · cases hx
    · exact hx
  · rw [h.voters, ← hin] at hx
    exact .inl hx
  · rw [h.hosts, ← hin] at hx
    exact .inl hx

/-- Wherever the coordinator stands, the owners vote and host. -/
theorem Stands.owners (h : Stands m first s pc) :
    ∀ x ∈ s.placement, s.Joined x := by
  have hrel : ∀ rest, Releasing m first s rest →
      ∀ x ∈ s.placement, s.Joined x := fun _ h x hx =>
    h.joined x ((h.placement x).mp hx)
  cases pc with
  | release rest => exact hrel _ h
  | transfer rest => exact hrel _ h
  | newLeader rest => exact hrel _ h
  | removeVoter rest => exact hrel _ h
  | removeOwner rest => exact hrel _ h.1
  | returned => exact hrel _ h
  | _ => exact (Stands.gaining h rfl nofun).placement.joined

/-- A run from a shard at rest, started again until it returns nil, in
which the leader answers the status call of every wait, nothing stops the
coordinator between the commit of its target and the end of the release,
and a restart of its node finds the computed owners to be the first ones
and that node among them if it is an owner. At every moment the committed
owners vote and host; a store goes only by a restart of its node, or is
torn down when its node is in neither the placement nor the voters and
every gained owner has reached the leader's log end; and a run that has
returned nil leaves the target as the placement, the voters and the
hosts. -/
theorem migrate_safe_and_converges (m : Migration ν) (s₀ : MigrateState ν)
    (hset : s₀.Settled) {tr : List (MigrateEvent ν)} {s : MigrateState ν}
    (h : Reach m.step (Orderly m s₀.placement) s₀ tr s) :
    (∀ x ∈ s.placement, x ∈ s.voters ∧ x ∈ s.hosts)
      ∧ (∀ e s', m.step s e = some s' → ∀ a ∈ s.hosts, a ∉ s'.hosts →
        e = .crash a ∨ a ∉ s.placement ∧ a ∉ s.voters
          ∧ ∀ b ∈ m.target, b ∉ s₀.placement → b ∈ s.reached)
      ∧ (s.pc = .returned → s.placement.toFinset = m.target.toFinset
        ∧ s.voters = m.target.toFinset ∧ s.hosts = m.target.toFinset) := by
  have hst : Stands m s₀.placement s s.pc := by
    refine h.stateInvariant (P := fun s => Stands m s₀.placement s s.pc)
      (settled_stands hset) ?_
    exact fun s e s' hp hk hs => step_stands hp hk hs
  refine ⟨hst.owners, fun e s' hs a ha ha' => ?_, fun hpc => ?_⟩
  · refine (step_hosts hs ha ha').imp_right ?_
    rintro ⟨rest, hpc⟩
    rw [hpc] at hst
    obtain ⟨hrel, hvote⟩ := hst
    have hout := hrel.outside a List.mem_cons_self
    exact ⟨mt (hrel.placement a).mp hout, hvote a rfl, hrel.reached⟩
  · rw [hpc] at hst
    have hrel : Releasing m s₀.placement s [] := hst
    have hnone : ∀ x, x ∈ m.target ∨ x ∈ [] → x ∈ m.target := fun _ hx =>
      hx.resolve_right List.not_mem_nil
    refine ⟨?_, ?_, ?_⟩ <;> ext x <;> rw [List.mem_toFinset]
    · rw [List.mem_toFinset]
      exact hrel.placement x
    · exact ⟨fun hx => hnone x (hrel.voters x hx), fun hx =>
        (hrel.joined x hx).1⟩
    · exact ⟨fun hx => hnone x (hrel.hosts x hx), fun hx =>
        (hrel.joined x hx).2⟩

-- ======== runs

/-- A shard at rest on some nodes, the leader's log five entries long. -/
def atRest (owners : List Nat) : MigrateState Nat where
  placement := owners
  view := fun _ => owners
  voters := owners.toFinset
  hosts := owners.toFinset
  applied := fun n => if n ∈ owners then 5 else 0
  lastIndex := fun n => if n ∈ owners then 5 else 0
  reached := ∅
  pc := .idle

theorem atRest_settled (owners : List Nat) : (atRest owners).Settled :=
  ⟨rfl, rfl, rfl, fun _ => .inr rfl⟩

/-- A move to `target`, all nodes being known. -/
def move (target computed : List Nat) : Migration Nat :=
  ⟨target, fun _ => true, computed⟩

/-- A check that the event is one of an orderly run. -/
def calm (m : Migration Nat) (first : List Nat) (s : MigrateState Nat) :
    MigrateEvent Nat → Bool
  | .status answered => answered
  | .crash node => !s.pc.releasing && decide (m.computed = first)
      && (!decide (node ∈ s.placement) || decide (node ∈ m.computed))
  | .timeout | .call (.err _) | .commit (.err _) _ => false
  | _ => true

theorem calm_orderly {m : Migration Nat} {first : List Nat}
    (s : MigrateState Nat) (e : MigrateEvent Nat)
    (h : calm m first s e = true) : Orderly m first s e := by
  cases e
  case status answered => exact .inl h
  case crash node =>
    unfold calm at h
    simp only [Bool.and_eq_true, Bool.not_eq_true', Bool.or_eq_true,
      decide_eq_true_eq, decide_eq_false_iff_not] at h
    obtain ⟨⟨hr, hc⟩, hn⟩ := h
    exact ⟨hr, fun hp => hn.resolve_left (not_not_intro hp),
      fun _ => hc ▸ Iff.rfl⟩
  case timeout => cases h
  case call out =>
    cases out with
    | ok => trivial
    | err took => cases h
  case commit out pushed =>
    cases out with
    | ok => trivial
    | err took => cases h
  all_goals trivial

/-- A run on node `read` up to the commit of the union, with one owner to
gain and the leader's status call answered or not. -/
def gainRun (read leader : Nat) (answered : Bool) : List (MigrateEvent Nat) :=
  [.start (some read), .leader leader, .call .ok, .call .ok,
    .status answered]
  ++ (if answered then [.progress (fun _ => 5) (fun _ => 5)] else [])
  ++ [.caughtUp, .commit .ok {1, 2, 3, 4}]

/-- The release of one owner that does not lead. -/
def releaseRun (leader : Nat) : List (MigrateEvent Nat) :=
  [.isLeader false, .leader leader, .call .ok, .call .ok]

/-- Node 1 runs the coordinator, which crashes once node 2 hosts; the
re-run moves the shard. -/
def crashedRun : List (MigrateEvent Nat) :=
  [.start (some 1), .leader 1, .call .ok, .crash 1] ++ gainRun 1 1 true
    ++ [.commit .ok {1, 2}] ++ releaseRun 2

theorem migrate_safe_and_converges_toTwo :
    ∃ s, Reach (move [2] [1]).step (Orderly (move [2] [1]) [1]) (atRest [1])
        crashedRun s
      ∧ s.pc = .returned ∧ s.voters = {2} := by
  obtain ⟨s, hr, hpc⟩ : ∃ s, Reach (move [2] [1]).step
      (Orderly (move [2] [1]) [1]) (atRest [1]) crashedRun s
      ∧ s.pc = .returned := by
    apply exec_decide calm_orderly
    decide
  exact ⟨s, hr, hpc, ((migrate_safe_and_converges (move [2] [1]) (atRest [1])
    (atRest_settled [1]) hr).2.2 hpc).2.1⟩

/-- The leadership transfer away from node 1 fails after the target is
committed; the re-run finds no owner to gain or to lose. -/
def strandedRun : List (MigrateEvent Nat) :=
  gainRun 1 1 true ++ [.commit .ok {1, 2}, .isLeader true,
    .call (.err false), .start (some 1), .commit .ok {1, 2}]

/-- The status call to the leader, node 3, is lost, so a node that has
received nothing counts as caught up. The next call tears down node 1. -/
def unansweredRun : List (MigrateEvent Nat) :=
  gainRun 3 3 false ++ [.commit .ok {1, 2, 3, 4}, .isLeader false,
    .leader 3, .call .ok]

/-- A run on node 3, which leads and has nothing to gain, up to the
commit of the union. -/
def shrinkRun : List (MigrateEvent Nat) :=
  [.start (some 3), .leader 3, .status true, .caughtUp,
    .commit .ok {1, 3, 4}]

/-- The coordinator on node 3 crashes between two releases, and the
re-run reads the view of the restarted node. -/
def resetViewRun : List (MigrateEvent Nat) :=
  shrinkRun ++ [.commit .ok {1, 3, 4}] ++ releaseRun 3 ++ [.crash 3]
    ++ shrinkRun

/-- Node 2 runs the coordinator, which crashes once node 2 is an owner. -/
def gainedCrashRun : List (MigrateEvent Nat) :=
  gainRun 2 1 true ++ [.crash 2]

/-- Node 3 crashes after an earlier migration, and runs the next one. -/
def movedBeforeRun : List (MigrateEvent Nat) :=
  [.crash 3] ++ gainRun 3 3 true

/-- Five runs that stop, restart or lose a call at the wrong moment. Node
1 is left behind as a voter and a host by a re-run that returns; its
store is torn down while node 2 has nothing of the log; it is made an
owner again after it was released, by a re-run after a restart; node 2 is
an owner whose store the restart of its node has closed; and node 1,
released by an earlier migration, is made an owner again. -/
theorem migrate_rerun_diverges :
    (∃ s, Reach (move [2] [1]).step Free (atRest [1]) strandedRun s
      ∧ s.pc = .returned ∧ 1 ∈ s.voters ∧ 1 ∈ s.hosts)
    ∧ (∃ s s', Reach (move [2, 3, 4] [1, 3, 4]).step Free (atRest [1, 3, 4])
        unansweredRun s
      ∧ (move [2, 3, 4] [1, 3, 4]).step s (.call .ok) = some s'
      ∧ 1 ∈ s.hosts ∧ 1 ∉ s'.hosts
      ∧ s.applied 2 = 0 ∧ s.lastIndex 3 = 5 ∧ 2 ∉ s.reached)
    ∧ (∃ s, Reach (move [3] [1, 3, 4]).step Free (atRest [1, 3, 4])
        resetViewRun s
      ∧ 1 ∈ s.placement ∧ 1 ∉ s.voters ∧ 1 ∉ s.hosts)
    ∧ (∃ s, Reach (move [2] [1]).step Free (atRest [1]) gainedCrashRun s
      ∧ 2 ∈ s.placement ∧ 2 ∉ s.hosts)
    ∧ ∃ s, Reach (move [2] [1, 3]).step Free (atRest [3]) movedBeforeRun s
      ∧ 1 ∈ s.placement ∧ 1 ∉ s.voters ∧ 1 ∉ s.hosts := by
  refine ⟨exec_free (by decide), ?_, exec_free (by decide),
    exec_free (by decide), exec_free (by decide)⟩
  obtain ⟨s, hr, hp, hhosts, happ, hlast, hreached⟩ : ∃ s,
      Reach (move [2, 3, 4] [1, 3, 4]).step Free (atRest [1, 3, 4])
        unansweredRun s
      ∧ ((move [2, 3, 4] [1, 3, 4]).step s (.call .ok)).any
        (fun s' : MigrateState Nat => decide (1 ∉ s'.hosts)) = true
      ∧ 1 ∈ s.hosts ∧ s.applied 2 = 0 ∧ s.lastIndex 3 = 5
      ∧ 2 ∉ s.reached := by
    apply exec_free
    decide
  obtain ⟨s', hs', hgone⟩ := (Option.any_eq_true _ _).mp hp
  exact ⟨s, s', hr, hs', hhosts, of_decide_eq_true hgone, happ, hlast,
    hreached⟩

end Rostam.Cluster.Migrate
