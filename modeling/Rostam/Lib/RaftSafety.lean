/-
Leader completeness of a Raft group, by what acknowledgements keep.

`Keeps T k U l`: whatever of the first `k` entries of term `T`'s leader
every leader of a term between `T` and `U` has, the log `l` has. A node
that acknowledged `k` entries in term `T` keeps them up to its present
term, since it takes entries from leaders only; so its log keeps them at
the moment it votes, and the vote records that (`Won`). A quorum of acks
and a quorum of votes meet, the candidate is as up to date as the voter,
and with terms between `T` and `U` settled already, so is `U`
(`Inv.complete`).

All logs are made of leaders' logs (`Owned`): up to any entry a log is
the log of that entry's leader.
-/
import Rostam.Lib.Raft
import Rostam.Lib.Trace

namespace Rostam.Lib.Raft

variable {ι α : Type}
  {S S' : Group ι α} {Q : Quorums ι} {l l' m P L : List (Entry α)}
  {T U k : Nat} {n q : ι}

-- ======== the logs

theorem lastCmd_concat (l : List (Entry α)) (e : Entry α) :
    lastCmd (l ++ [e]) =
      if e.cmd.isSome then l.length + 1 else lastCmd l := by
  induction l with
  | nil =>
    simp only [List.nil_append, lastCmd, if_true, List.length_nil]
  | cons a l ih =>
    simp only [List.cons_append, lastCmd, ih, List.length_cons]
    split
    · next hc => rw [if_neg (Nat.succ_ne_zero _)]
    · rfl

theorem lastCmd_le (l : List (Entry α)) : lastCmd l ≤ l.length := by
  induction l using List.reverseRecOn with
  | nil => exact le_rfl
  | append_singleton l e ih =>
    rw [lastCmd_concat, List.length_append]
    split
    · exact le_rfl
    · exact Nat.le_add_right_of_le ih

/-- A longer log does not have its last command earlier. -/
theorem lastCmd_mono (h : l <+: m) : lastCmd l ≤ lastCmd m := by
  obtain ⟨r, rfl⟩ := h
  induction r using List.reverseRecOn with
  | nil => rw [List.append_nil]
  | append_singleton r e ih =>
    rw [← List.append_assoc, lastCmd_concat]
    split
    · refine ih.trans ((lastCmd_le _).trans (Nat.le_succ _))
    · exact ih

theorem cmds_append (l m : List (Entry α)) :
    cmds (l ++ m) = cmds l ++ cmds m :=
  List.filterMap_append

theorem cmds_mono (h : l <+: m) : cmds l <+: cmds m := by
  obtain ⟨r, rfl⟩ := h
  rw [cmds_append]
  exact List.prefix_append _ _

/-- Nothing behind the last command is a command. -/
theorem cmds_take_lastCmd (l : List (Entry α)) :
    cmds (l.take (lastCmd l)) = cmds l := by
  induction l using List.reverseRecOn with
  | nil => rfl
  | append_singleton l e ih =>
    rw [lastCmd_concat]
    cases hc : e.cmd with
    | none =>
      rw [Option.isSome_none, if_neg Bool.false_ne_true,
        List.take_append_of_le_length (lastCmd_le l), ih, cmds_append]
      simp only [cmds, List.filterMap_cons, hc, List.filterMap_nil,
        List.append_nil]
    | some c =>
      rw [Option.isSome_some, if_pos rfl, List.take_of_length_le]
      rw [List.length_append]
      exact le_rfl

/-- Terms do not go down along a log. -/
def Sorted (l : List (Entry α)) : Prop := l.Pairwise fun a b => a.term ≤ b.term

theorem lastTerm_concat (l : List (Entry α)) (e : Entry α) :
    lastTerm (l ++ [e]) = e.term := by
  unfold lastTerm
  rw [List.getLast?_concat]
  rfl

/-- The last term is the highest. -/
theorem Sorted.le_lastTerm (hs : Sorted l) {e : Entry α} (he : e ∈ l) :
    e.term ≤ lastTerm l := by
  induction l using List.reverseRecOn with
  | nil => cases he
  | append_singleton l x _ =>
    rw [lastTerm_concat]
    rcases List.mem_append.mp he with he | he
    · exact (List.pairwise_append.mp hs).2.2 e he x List.mem_cons_self
    · rw [List.mem_singleton.mp he]

/-- Two parts of one log: one is part of the other. -/
theorem prefix_total (hl : l <+: L) (hm : m <+: L) : l <+: m ∨ m <+: l :=
  List.prefix_or_prefix_of_prefix hl hm

/-- A merge is one of the two logs. -/
theorem merge_cases [DecidableEq α] (l m : List (Entry α)) :
    merge l m = l ∧ m <+: l ∨ merge l m = m := by
  unfold merge
  split
  · next h => exact Or.inl ⟨rfl, h⟩
  · exact Or.inr rfl

theorem le_merge [DecidableEq α] (l m : List (Entry α)) : m <+: merge l m := by
  rcases merge_cases l m with ⟨he, h⟩ | he <;> rw [he]
  exact h

/-- A merge keeps what its leader has. -/
theorem merge_keeps [DecidableEq α] (hl : P <+: l) (hL : P <+: L)
    (hm : m <+: L) :
    P <+: merge l m := by
  unfold merge
  split
  · exact hl
  · next hno =>
    rcases prefix_total hL hm with h | h
    · exact h
    · exact absurd (h.trans hl) hno

-- ======== what is recorded

/-- Up to any entry the log is that of the entry's leader. -/
def Owned (S : Group ι α) (l : List (Entry α)) : Prop :=
  ∀ p e, p ++ [e] <+: l → ∃ n L, S.book e.term = some (n, L) ∧ p ++ [e] <+: L

/-- Of the first `k` entries of term `T`'s leader the log has what the
leaders between `T` and `U` have. -/
def Keeps (S : Group ι α) (T k U : Nat) (l : List (Entry α)) : Prop :=
  ∀ n L P, S.book T = some (n, L) → P <+: L → P.length ≤ k →
    (∀ V n' L', T < V → V < U → S.book V = some (n', L') → P <+: L') →
    P <+: l

/-- The leader of `T` was elected with log `R` by a quorum. -/
def Won (Q : Quorums ι) (S : Group ι α) (T : Nat) (n : ι)
    (R : List (Entry α)) : Prop :=
  ∃ A, Q.ok A = true ∧ ∀ q ∈ A, ∃ v ∈ S.votes, v.voter = q ∧ v.req = ⟨n, T, R⟩
    ∧ ∀ a ∈ S.acks, a.node = q → a.term < T → Keeps S a.term a.upTo T v.log

/-- A quorum has acknowledged `P` in the term of its last entry. -/
def Chosen (Q : Quorums ι) (S : Group ι α) (T : Nat)
    (P : List (Entry α)) : Prop :=
  P ≠ [] ∧ lastTerm P = T ∧ (∃ n L, S.book T = some (n, L) ∧ P <+: L)
    ∧ ∃ A, Q.ok A = true ∧ ∀ q ∈ A, ∃ a ∈ S.acks,
      a.node = q ∧ a.term = T ∧ P.length ≤ a.upTo

/-- The log is part of what was chosen by term `T`. -/
def Sealed (Q : Quorums ι) (S : Group ι α) (T : Nat)
    (l : List (Entry α)) : Prop :=
  l = [] ∨ ∃ T' P, T' ≤ T ∧ Chosen Q S T' P ∧ l <+: P

/-- What holds of node `q`. -/
structure NodeOk (Q : Quorums ι) (S : Group ι α) (q : ι) (x : Node α) :
    Prop where
  terms : ∀ e ∈ x.log, e.term ≤ x.term
  owned : Owned S x.log
  leads : x.role = .leader → S.book x.term = some (q, x.log)
  runs : x.role = .candidate → (∀ e ∈ x.log, e.term < x.term)
    ∧ (∀ L, S.book x.term ≠ some (q, L))
    ∧ ∀ r ∈ S.requests, r.node = q → r.term = x.term → r.log = x.log
  requests : ∀ r ∈ S.requests, r.node = q → r.term ≤ x.term
  books : ∀ T L, S.book T = some (q, L) → T ≤ x.term
  votes : ∀ v ∈ S.votes, v.voter = q → v.req.term ≤ x.term
  acks : ∀ a ∈ S.acks, a.node = q → a.term ≤ x.term
    ∧ Keeps S a.term a.upTo (x.term + 1) x.log
  commit_le : x.commit ≤ x.log.length
  commit : Sealed Q S x.term (x.log.take x.commit)
  applied_le : x.applied ≤ x.log.length
  applied : Sealed Q S x.term (x.log.take x.applied)
  fsm : x.fsm = cmds (x.log.take x.applied)
  frontier : x.frontier = lastCmd (x.log.take x.applied)

structure Inv (Q : Quorums ι) (S : Group ι α) : Prop where
  node : ∀ q, NodeOk Q S q (S.node q)
  voteReq : ∀ v ∈ S.votes, v.req ∈ S.requests
  voteLog : ∀ v ∈ S.votes, Owned S v.log ∧ upToDate v.req.log v.log = true
  voteOnce : ∀ v ∈ S.votes, ∀ w ∈ S.votes, v.voter = w.voter →
    v.req.term = w.req.term → v.req.node = w.req.node
  voteKeeps : ∀ v ∈ S.votes, S.book v.req.term = none →
    ∀ a ∈ S.acks, a.node = v.voter → a.term < v.req.term →
      Keeps S a.term a.upTo v.req.term v.log
  request : ∀ r ∈ S.requests, Owned S r.log
  book : ∀ T n L, S.book T = some (n, L) → ∃ R X, L = R ++ X
    ∧ (∀ e ∈ R, e.term < T) ∧ (∀ e ∈ X, e.term = T) ∧ Owned S L
    ∧ Won Q S T n R
  ack : ∀ a ∈ S.acks, ∃ n L, S.book a.term = some (n, L) ∧ a.upTo ≤ L.length
  sent : ∀ m ∈ S.sent, (∃ n L, S.book m.term = some (n, L) ∧ m.log <+: L)
    ∧ Sealed Q S m.term (m.log.take m.commit)
  snap : ∀ m ∈ S.snaps, (∃ n L, S.book m.term = some (n, L) ∧ m.log <+: L)
    ∧ Sealed Q S m.term m.log
  committed : ∀ c ∈ S.committed, Chosen Q S c.1 c.2
    ∧ ∀ n, (S.node n).role = .leader → (S.node n).term = c.1 →
      c.2.length ≤ (S.node n).commit

theorem book_inj {b : Option (ι × List (Entry α))} (h : b = some (n, L))
    (h' : b = some (q, l)) : n = q ∧ L = l := by
  rw [h, Option.some.injEq, Prod.mk.injEq] at h'
  exact h'

/-- In a later term no less is kept. -/
theorem Keeps.later (h : Keeps S T k U l) {U' : Nat} (hle : U ≤ U') :
    Keeps S T k U' l :=
  fun n L P hb hP hk hall => h n L P hb hP hk fun V n' L' h1 h2 h3 =>
    hall V n' L' h1 (Nat.lt_of_lt_of_le h2 hle) h3

/-- What was chosen by a term was chosen by any later one. -/
theorem Sealed.later (h : Sealed Q S T l) (hle : T ≤ U) : Sealed Q S U l := by
  rcases h with rfl | ⟨T', P, hT', hc, hl⟩
  · exact Or.inl rfl
  · exact Or.inr ⟨T', P, hT'.trans hle, hc, hl⟩

/-- Part of what was chosen was chosen. -/
theorem Sealed.part (h : Sealed Q S T m) (hl : l <+: m) : Sealed Q S T l := by
  rcases h with rfl | ⟨T', P, hT', hc, hm⟩
  · exact Or.inl (List.prefix_nil.mp hl)
  · exact Or.inr ⟨T', P, hT', hc, hl.trans hm⟩

-- ======== completeness

/-- A non-empty log is owned whole by its last term's leader. -/
theorem Owned.whole (ho : Owned S l) (hne : l ≠ []) :
    ∃ n L, S.book (lastTerm l) = some (n, L) ∧ l <+: L := by
  induction l using List.reverseRecOn with
  | nil => exact absurd rfl hne
  | append_singleton p e _ =>
    rw [lastTerm_concat]
    exact ho p e List.prefix_rfl

theorem lastTerm_mem (hne : l ≠ []) : ∃ e ∈ l, e.term = lastTerm l := by
  induction l using List.reverseRecOn with
  | nil => exact absurd rfl hne
  | append_singleton p e _ =>
    exact ⟨e, List.mem_append_right _ List.mem_cons_self,
      (lastTerm_concat p e).symm⟩

/-- No leader has entries of a later term. -/
theorem Inv.book_terms (hi : Inv Q S) (hb : S.book T = some (n, L)) :
    ∀ e ∈ L, e.term ≤ T := by
  obtain ⟨R, X, rfl, hR, hX, -, -⟩ := hi.book T n L hb
  intro e he
  rcases List.mem_append.mp he with he | he
  · exact Nat.le_of_lt (hR e he)
  · exact Nat.le_of_eq (hX e he)

theorem Owned.part (ho : Owned S m) (h : l <+: m) : Owned S l :=
  fun p e hp => ho p e (hp.trans h)

/-- A leader's log has no later terms, so no log goes down. -/
theorem Owned.sorted (hi : Inv Q S) (ho : Owned S l) : Sorted l := by
  induction l using List.reverseRecOn with
  | nil => exact List.Pairwise.nil
  | append_singleton p e ih =>
    obtain ⟨n, L, hb, hL⟩ := ho p e List.prefix_rfl
    refine List.pairwise_append.mpr ⟨ih (ho.part (List.prefix_append _ _)),
        List.pairwise_singleton _ _, fun a ha x hx => ?_⟩
    rw [List.mem_singleton.mp hx]
    exact hi.book_terms hb a (hL.subset (List.mem_append_left _ ha))

/-- Nor has anything chosen. -/
theorem Chosen.terms (hc : Chosen Q S T P) (hi : Inv Q S) :
    ∀ e ∈ P, e.term ≤ T := by
  obtain ⟨-, -, ⟨n, L, hb, hP⟩, -⟩ := hc
  exact fun e he => hi.book_terms hb e (hP.subset he)

/-- **Leader completeness.** What was chosen in `T` is in the log of
every leader of a later term. -/
theorem Inv.complete (hi : Inv Q S) (hc : Chosen Q S T P) :
    ∀ U n L, T < U → S.book U = some (n, L) → P <+: L := by
  intro U
  induction U using Nat.strong_induction_on with
  | _ U ih =>
    intro n L hlt hb
    obtain ⟨R, X, rfl, hR, -, -, A, hA, hvotes⟩ := hi.book U n L hb
    have hterms := hc.terms hi
    obtain ⟨hne, hlast, ⟨nT, LT, hbT, hPT⟩, B, hB, hacks⟩ := hc
    obtain ⟨x, hxA, hxB⟩ := Q.meet A B hA hB
    obtain ⟨v, hv, -, hreq, hkeeps⟩ := hvotes x hxA
    obtain ⟨a, ha, hax, haT, hlen⟩ := hacks x hxB
    have hkeep := hkeeps a ha hax (haT ▸ hlt)
    rw [haT] at hkeep
    -- the voter had what was chosen when it voted
    have hvoter : P <+: v.log := hkeep nT LT P hbT hPT hlen
      fun V n' L' h1 h2 h3 => ih V h2 n' L' h1 h3
    obtain ⟨hown, hup⟩ := hi.voteLog v hv
    have hownR : Owned S R := by
      have h := hi.request v.req (hi.voteReq v hv)
      rw [hreq] at h
      exact h
    rw [hreq] at hup
    dsimp only at hup
    have hvne : v.log ≠ [] := fun h => by
      rw [h] at hvoter
      exact hne (List.prefix_nil.mp hvoter)
    have hTle : T ≤ lastTerm v.log := by
      obtain ⟨e, he, het⟩ := lastTerm_mem hne
      rw [← hlast, ← het]
      exact (hown.sorted hi).le_lastTerm (hvoter.subset he)
    refine List.IsPrefix.trans ?_ (List.prefix_append R X)
    unfold upToDate at hup
    rw [Bool.or_eq_true, Bool.and_eq_true] at hup
    rcases hup with hup | ⟨hterm, hle⟩
    · -- a later last term: its leader has what was chosen
      have hup := of_decide_eq_true hup
      have hRne : R ≠ [] := fun h => by
        rw [h] at hup
        exact Nat.not_lt_zero _ hup
      obtain ⟨e, he, het⟩ := lastTerm_mem hRne
      obtain ⟨n', L', hb', hRL⟩ := hownR.whole hRne
      have hPL : P <+: L' := ih (lastTerm R) (het ▸ hR e he) n' L'
        (Nat.lt_of_le_of_lt hTle hup) hb'
      rcases prefix_total hPL hRL with h | h
      · exact h
      · have := hterms e (h.subset he)
        omega
    · -- the same last term: both are parts of one leader's log
      have hterm := of_decide_eq_true hterm
      have hle := of_decide_eq_true hle
      have hRne : R ≠ [] := fun h => by
        rw [h] at hle
        exact hvne (List.length_eq_zero_iff.mp (Nat.le_zero.mp hle))
      obtain ⟨n₁, L₁, hb₁, hv₁⟩ := hown.whole hvne
      obtain ⟨n₂, L₂, hb₂, hR₂⟩ := hownR.whole hRne
      rw [hterm] at hb₁
      obtain ⟨-, rfl⟩ := book_inj hb₂ hb₁
      exact hvoter.trans (List.prefix_of_prefix_length_le hv₁ hR₂ hle)

/-- What was chosen by term `T` is in the log of every leader from `T`
on. -/
theorem Inv.sealed_book (hi : Inv Q S) (hs : Sealed Q S T l)
    (hle : T ≤ U) (hb : S.book U = some (n, L)) : l <+: L := by
  rcases hs with rfl | ⟨T', P, hT', hc, hl⟩
  · exact List.nil_prefix
  · refine hl.trans ?_
    rcases Nat.lt_or_eq_of_le (hT'.trans hle) with hlt | heq
    · exact hi.complete hc U n L hlt hb
    · obtain ⟨-, -, ⟨n', L', hb', hP⟩, -⟩ := hc
      rw [heq] at hb'
      rw [(book_inj hb hb').2]
      exact hP

/-- Any two things chosen agree. -/
theorem Inv.sealed_total (hi : Inv Q S) (hl : Sealed Q S T l)
    (hm : Sealed Q S U m) : l <+: m ∨ m <+: l := by
  rcases hl with rfl | ⟨T', P, -, hP, hlP⟩
  · exact Or.inl List.nil_prefix
  · rcases hm with rfl | ⟨U', P', -, hP', hmP⟩
    · exact Or.inr List.nil_prefix
    · have hself : ∀ {T P}, Chosen Q S T P → Sealed Q S T P :=
        fun {T P} h => Or.inr ⟨T, P, le_rfl, h, List.prefix_rfl⟩
      rcases Nat.le_total T' U' with hle | hle
      · obtain ⟨-, -, ⟨n, L, hb, hL⟩, -⟩ := hP'
        exact prefix_total
          (hlP.trans (hi.sealed_book (hself hP) hle hb)) (hmP.trans hL)
      · obtain ⟨-, -, ⟨n, L, hb, hL⟩, -⟩ := hP
        exact prefix_total (hlP.trans hL)
          (hmP.trans (hi.sealed_book (hself hP') hle hb))

-- ======== growing

/-- Node `q` takes a step: the records grow, and what is new is `q`'s. -/
structure Grows (q : ι) (S S' : Group ι α) : Prop where
  node : ∀ n, n ≠ q → S'.node n = S.node n
  requests : S.requests ⊆ S'.requests
  votes : S.votes ⊆ S'.votes
  acks : S.acks ⊆ S'.acks
  newRequest : ∀ r ∈ S'.requests, r ∈ S.requests ∨ r.node = q
  newVote : ∀ v ∈ S'.votes, v ∈ S.votes ∨ v.voter = q
  newAck : ∀ a ∈ S'.acks, a ∈ S.acks ∨ a.node = q ∧ (S.node q).term ≤ a.term
  book : ∀ T n L, S.book T = some (n, L) →
    ∃ X, S'.book T = some (n, L ++ X) ∧ ∀ e ∈ X, e.term = T
  newBook : ∀ T n L, S'.book T = some (n, L) → S.book T = some (n, L) ∨ n = q

section Grows

variable (hg : Grows q S S')
include hg

/-- A leader's log only grows. -/
theorem Grows.book_le (hb : S.book T = some (n, L)) :
    ∃ L', S'.book T = some (n, L') ∧ L <+: L' := by
  obtain ⟨X, hb', -⟩ := hg.book T n L hb
  exact ⟨L ++ X, hb', List.prefix_append _ _⟩

/-- A log stays owned. -/
theorem Grows.owned (ho : Owned S l) : Owned S' l := by
  intro p e hp
  obtain ⟨n, L, hb, hL⟩ := ho p e hp
  obtain ⟨L', hb', hle⟩ := hg.book_le hb
  exact ⟨n, L', hb', hL.trans hle⟩

/-- What was chosen stays chosen. -/
theorem Grows.chosen (hc : Chosen Q S T P) : Chosen Q S' T P := by
  obtain ⟨hne, hlast, ⟨n, L, hb, hP⟩, A, hA, hacks⟩ := hc
  obtain ⟨L', hb', hle⟩ := hg.book_le hb
  refine ⟨hne, hlast, ⟨n, L', hb', hP.trans hle⟩, A, hA, fun x hx => ?_⟩
  obtain ⟨a, ha, h⟩ := hacks x hx
  exact ⟨a, hg.acks ha, h⟩

theorem Grows.sealed (hs : Sealed Q S T l) (hle : T ≤ U) :
    Sealed Q S' U l := by
  rcases hs with rfl | ⟨T', P, hT', hc, hl⟩
  · exact Or.inl rfl
  · exact Or.inr ⟨T', P, hT'.trans hle, hg.chosen hc, hl⟩

omit hg in
theorem prefix_of_append (h : P <+: l ++ m) (hno : ∀ e ∈ P, e ∉ m) :
    P <+: l := by
  rcases prefix_total h (List.prefix_append l m) with hl | ⟨r, hr⟩
  · exact hl
  · rw [← hr, List.prefix_append_right_inj] at h
    cases r with
    | nil =>
      rw [← hr, List.append_nil]
    | cons e r =>
      refine absurd (h.subset List.mem_cons_self) (hno e ?_)
      rw [← hr]
      exact List.mem_append_right _ List.mem_cons_self

/-- Leaders add entries of their own term, so they keep no more of an
earlier one than they did. -/
theorem Grows.keeps (hi : Inv Q S)
    (hk : ∃ n L, S.book T = some (n, L) ∧ k ≤ L.length)
    (h : Keeps S T k U l) : Keeps S' T k U l := by
  intro n L' P hb' hP hlen hall
  obtain ⟨n₀, L₀, hb₀, hk⟩ := hk
  have hP₀ : P <+: L₀ := by
    obtain ⟨L₁, hb₁, hle⟩ := hg.book_le hb₀
    rw [(book_inj hb' hb₁).2] at hP
    exact List.prefix_of_prefix_length_le hP hle (hlen.trans hk)
  refine h n₀ L₀ P hb₀ hP₀ hlen fun V n' L'' hlt hVU hbV => ?_
  obtain ⟨X, hbV', hX⟩ := hg.book V n' L'' hbV
  refine prefix_of_append (hall V n' _ hlt hVU hbV') fun e he heX => ?_
  have h1 := hi.book_terms hb₀ e (hP₀.subset he)
  have h2 := hX e heX
  omega

/-- An election that was won stays won. -/
theorem Grows.won (hi : Inv Q S) {R : List (Entry α)}
    (hw : Won Q S T n R) : Won Q S' T n R := by
  obtain ⟨A, hA, hvotes⟩ := hw
  refine ⟨A, hA, fun x hx => ?_⟩
  obtain ⟨v, hv, hvx, hreq, hkeeps⟩ := hvotes x hx
  refine ⟨v, hg.votes hv, hvx, hreq, fun a ha hax hlt => ?_⟩
  rcases hg.newAck a ha with hold | ⟨haq, hterm⟩
  · exact hg.keeps hi (hi.ack a hold) (hkeeps a hold hax hlt)
  · -- a node that has voted acknowledges nothing below
    have hvoted := (hi.node q).votes v hv (hvx.trans (hax.symm.trans haq))
    rw [hreq] at hvoted
    dsimp only at hvoted
    omega

/-- A node that takes no step is as it was. -/
theorem Grows.nodeOk (hi : Inv Q S) (hn : n ≠ q) :
    NodeOk Q S' n (S'.node n) := by
  have h := hi.node n
  rw [hg.node n hn]
  have hbooks : ∀ T L, S'.book T = some (n, L) → S.book T = some (n, L) :=
    fun T L hb => (hg.newBook T n L hb).resolve_right hn
  have hreqs : ∀ r ∈ S'.requests, r.node = n → r ∈ S.requests :=
    fun r hr hrn => (hg.newRequest r hr).resolve_right
      fun hq => hn (hrn.symm.trans hq)
  refine ⟨h.terms, hg.owned h.owned, fun hl => ?_, fun hc => ?_,
    fun r hr hrn => h.requests r (hreqs r hr hrn) hrn,
    fun T L hb => h.books T L (hbooks T L hb), fun v hv hvn => ?_,
    fun a ha han => ?_, h.commit_le, hg.sealed h.commit le_rfl,
    h.applied_le, hg.sealed h.applied le_rfl, h.fsm, h.frontier⟩
  · obtain ⟨X, hb, -⟩ := hg.book _ _ _ (h.leads hl)
    have hb' := hbooks _ _ hb
    rw [h.leads hl] at hb'
    rw [hb, ← hb']
  · obtain ⟨h1, h2, h3⟩ := h.runs hc
    exact ⟨h1, fun L hb => h2 L (hbooks _ L hb),
      fun r hr hrn => h3 r (hreqs r hr hrn) hrn⟩
  · rcases hg.newVote v hv with hold | hq
    · exact h.votes v hold hvn
    · exact absurd (hvn.symm.trans hq) hn
  · rcases hg.newAck a ha with hold | ⟨hq, -⟩
    · obtain ⟨h1, h2⟩ := h.acks a hold han
      exact ⟨h1, hg.keeps hi (hi.ack a hold) h2⟩
    · exact absurd (han.symm.trans hq) hn

end Grows

/-- What a new vote has to be. -/
structure VoteOk (S : Group ι α) (v : Vote ι α) : Prop where
  req : v.req ∈ S.requests
  owned : Owned S v.log
  upToDate : upToDate v.req.log v.log = true
  once : ∀ w ∈ S.votes, w.voter = v.voter → w.req.term = v.req.term →
    w.req.node = v.req.node
  keeps : S.book v.req.term = none → ∀ a ∈ S.acks, a.node = v.voter →
    a.term < v.req.term → Keeps S a.term a.upTo v.req.term v.log

/-- One step of node `q`: what is new in the records is as it should
be. -/
structure Move (Q : Quorums ι) (q : ι) (S S' : Group ι α) : Prop extends
    Grows q S S' where
  ok : NodeOk Q S' q (S'.node q)
  requestOk : ∀ r ∈ S'.requests, r ∈ S.requests ∨ Owned S' r.log
  voteOk : ∀ v ∈ S'.votes, v ∈ S.votes ∨ VoteOk S' v
  bookOk : ∀ T n L, S'.book T = some (n, L) → S.book T = some (n, L)
    ∨ ∃ R X, L = R ++ X ∧ (∀ e ∈ R, e.term < T) ∧ (∀ e ∈ X, e.term = T)
      ∧ Owned S' L ∧ Won Q S' T n R
  ackOk : ∀ a ∈ S'.acks, a ∈ S.acks
    ∨ ∃ n L, S'.book a.term = some (n, L) ∧ a.upTo ≤ L.length
  sentOk : ∀ m ∈ S'.sent, m ∈ S.sent
    ∨ (∃ n L, S'.book m.term = some (n, L) ∧ m.log <+: L)
      ∧ Sealed Q S' m.term (m.log.take m.commit)
  snapOk : ∀ m ∈ S'.snaps, m ∈ S.snaps
    ∨ (∃ n L, S'.book m.term = some (n, L) ∧ m.log <+: L)
      ∧ Sealed Q S' m.term m.log
  committedOk : ∀ c ∈ S'.committed, c ∈ S.committed ∨ Chosen Q S' c.1 c.2
      ∧ ∀ n, n ≠ q → (S'.node n).role = .leader → (S'.node n).term ≠ c.1
  leaderOk : ∀ c ∈ S'.committed, (S'.node q).role = .leader →
    (S'.node q).term = c.1 → c.2.length ≤ (S'.node q).commit

/-- A step keeps the invariant. -/
theorem Inv.move (hi : Inv Q S) (hm : Move Q q S S') : Inv Q S' := by
  have hg := hm.toGrows
  have hpart : ∀ {x : Append α},
      (∃ n L, S.book x.term = some (n, L) ∧ x.log <+: L) →
      ∃ n L, S'.book x.term = some (n, L) ∧ x.log <+: L := by
    rintro x ⟨n, L, hb, hL⟩
    obtain ⟨L', hb', hle⟩ := hg.book_le hb
    exact ⟨n, L', hb', hL.trans hle⟩
  refine ⟨fun n => ?_, fun v hv => ?_, fun v hv => ?_,
    fun v hv w hw hvw ht => ?_, fun v hv hnone a ha hav hlt => ?_,
    fun r hr => ?_, fun T n L hb => ?_, fun a ha => ?_, fun x hx => ?_,
    fun x hx => ?_, fun c hc => ⟨?_, fun n hl ht => ?_⟩⟩
  · by_cases hn : n = q
    · subst hn
      exact hm.ok
    · exact hg.nodeOk hi hn
  · rcases hm.voteOk v hv with hold | hnew
    · exact hg.requests (hi.voteReq v hold)
    · exact hnew.req
  · rcases hm.voteOk v hv with hold | hnew
    · obtain ⟨h1, h2⟩ := hi.voteLog v hold
      exact ⟨hg.owned h1, h2⟩
    · exact ⟨hnew.owned, hnew.upToDate⟩
  · rcases hm.voteOk v hv with hold | hnew
    · rcases hm.voteOk w hw with hold' | hnew'
      · exact hi.voteOnce v hold w hold' hvw ht
      · exact hnew'.once v hv hvw ht
    · exact (hnew.once w hw hvw.symm ht.symm).symm
  · rcases hm.voteOk v hv with hold | hnew
    · rcases hg.newAck a ha with holda | ⟨haq, hterm⟩
      · refine hg.keeps hi (hi.ack a holda)
          (hi.voteKeeps v hold ?_ a holda hav hlt)
        cases hb : S.book v.req.term with
        | none => rfl
        | some y =>
          obtain ⟨X, hb', -⟩ := hg.book _ y.1 y.2 hb
          rw [hnone] at hb'
          cases hb'
      · have := (hi.node q).votes v hold (hav.symm.trans haq)
        omega
    · exact hnew.keeps hnone a ha hav hlt
  · rcases hm.requestOk r hr with hold | hnew
    · exact hg.owned (hi.request r hold)
    · exact hnew
  · rcases hm.bookOk T n L hb with hold | hnew
    · obtain ⟨R, X, h1, h2, h3, h4, h5⟩ := hi.book T n L hold
      exact ⟨R, X, h1, h2, h3, hg.owned h4, hg.won hi h5⟩
    · exact hnew
  · rcases hm.ackOk a ha with hold | hnew
    · obtain ⟨n, L, hb, hle⟩ := hi.ack a hold
      obtain ⟨L', hb', hL⟩ := hg.book_le hb
      exact ⟨n, L', hb', hle.trans hL.length_le⟩
    · exact hnew
  · rcases hm.sentOk x hx with hold | hnew
    · exact ⟨hpart (hi.sent x hold).1,
        hg.sealed (hi.sent x hold).2 le_rfl⟩
    · exact hnew
  · rcases hm.snapOk x hx with hold | hnew
    · exact ⟨hpart (hi.snap x hold).1,
        hg.sealed (hi.snap x hold).2 le_rfl⟩
    · exact hnew
  · rcases hm.committedOk c hc with hold | hnew
    · exact hg.chosen (hi.committed c hold).1
    · exact hnew.1
  · by_cases hn : n = q
    · subst hn
      exact hm.leaderOk c hc hl ht
    · rcases hm.committedOk c hc with hold | hnew
      · rw [hg.node n hn] at hl ht ⊢
        exact (hi.committed c hold).2 n hl ht
      · exact absurd ht (hnew.2 n hn hl)

end Rostam.Lib.Raft
