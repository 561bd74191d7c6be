/-
Every step of a Raft group keeps the invariant of leader completeness.

One lemma for each step says that it is a `Move`. What follows of a run:
`reach_inv`, and that terms, and the commit index of a node that does not
restart, never go down.
-/
import Rostam.Lib.RaftSafety

namespace Rostam.Lib.Raft

open Function

variable {ι α : Type} {S S' : Group ι α} {Q : Quorums ι} {q n : ι}

-- ======== steps of one node

/-- A step that leaves the elections alone, and acknowledges what its
term's leader has if anything. -/
theorem move_of_node (hi : Inv Q S) (hnode : ∀ n, n ≠ q → S'.node n = S.node n)
    (hreq : S'.requests = S.requests) (hvotes : S'.votes = S.votes)
    (hbook : S'.book = S.book)
    (hacks : S'.acks = S.acks ∨ ∃ T k, S'.acks = ⟨q, T, k⟩ :: S.acks
      ∧ (S.node q).term ≤ T
      ∧ ∃ n L, S.book T = some (n, L) ∧ k ≤ L.length)
    (hok : NodeOk Q S' q (S'.node q))
    (hsent : ∀ m ∈ S'.sent, m ∈ S.sent
      ∨ (∃ n L, S'.book m.term = some (n, L) ∧ m.log <+: L)
        ∧ Sealed Q S' m.term (m.log.take m.commit))
    (hsnap : ∀ m ∈ S'.snaps, m ∈ S.snaps
      ∨ (∃ n L, S'.book m.term = some (n, L) ∧ m.log <+: L)
        ∧ Sealed Q S' m.term m.log)
    (hcom : ∀ c ∈ S'.committed, c ∈ S.committed ∨ Chosen Q S' c.1 c.2
      ∧ ∀ n, n ≠ q → (S'.node n).role = .leader → (S'.node n).term ≠ c.1)
    (hlead : ∀ c ∈ S'.committed, (S'.node q).role = .leader →
      (S'.node q).term = c.1 → c.2.length ≤ (S'.node q).commit) :
    Inv Q S' := by
  have hacks' : ∀ a ∈ S'.acks, a ∈ S.acks ∨ a.node = q
      ∧ (S.node q).term ≤ a.term
      ∧ ∃ n L, S.book a.term = some (n, L) ∧ a.upTo ≤ L.length := by
    intro a ha
    rcases hacks with he | ⟨T, k, he, hT, hL⟩ <;> rw [he] at ha
    · exact Or.inl ha
    · rcases List.mem_cons.mp ha with rfl | ha
      · exact Or.inr ⟨rfl, hT, hL⟩
      · exact Or.inl ha
  refine hi.move (q := q) {
    node := hnode
    requests := by rw [hreq]; exact List.Subset.refl _
    votes := by rw [hvotes]; exact List.Subset.refl _
    acks := ?_
    newRequest := fun r hr => Or.inl (hreq ▸ hr)
    newVote := fun v hv => Or.inl (hvotes ▸ hv)
    newAck := fun a ha => (hacks' a ha).imp_right fun h => ⟨h.1, h.2.1⟩
    book := fun T n L hb => ⟨[], by rw [hbook, List.append_nil, hb],
      fun e he => by cases he⟩
    newBook := fun T n L hb => Or.inl (hbook ▸ hb)
    ok := hok
    requestOk := fun r hr => Or.inl (hreq ▸ hr)
    voteOk := fun v hv => Or.inl (hvotes ▸ hv)
    bookOk := fun T n L hb => Or.inl (hbook ▸ hb)
    ackOk := fun a ha => (hacks' a ha).imp_right fun h => by
      rw [hbook]
      exact h.2.2
    sentOk := hsent
    snapOk := hsnap
    committedOk := hcom
    leaderOk := hlead }
  rcases hacks with he | ⟨T, k, he, -⟩ <;> rw [he]
  · exact List.Subset.refl _
  · exact List.subset_cons_self _ _

/-- A leader sends a part of its log. -/
theorem inv_send {k : Nat} (hi : Inv Q S) (hrole : (S.node n).role = .leader) :
    Inv Q { S with sent := ⟨(S.node n).term, (S.node n).log.take k,
      (S.node n).commit⟩ :: S.sent } := by
  have h := hi.node n
  refine move_of_node (q := n) hi (fun _ _ => rfl) rfl rfl rfl (Or.inl rfl)
    { h with terms := h.terms } ?_ (fun _ => Or.inl) (fun _ => Or.inl)
    fun c hc => (hi.committed c hc).2 n
  intro m hm
  rcases List.mem_cons.mp hm with rfl | hm
  · refine Or.inr ⟨⟨n, _, h.leads hrole, List.take_prefix _ _⟩,
      h.commit.part ?_⟩
    rw [List.take_take, Nat.min_comm, ← List.take_take]
    exact List.take_prefix _ _
  · exact Or.inl hm

/-- A leader sends a snapshot of what it has applied. -/
theorem inv_snapshot (hi : Inv Q S) (hrole : (S.node n).role = .leader) :
    Inv Q { S with snaps := ⟨(S.node n).term,
      (S.node n).log.take (S.node n).applied, (S.node n).applied⟩
        :: S.snaps } := by
  have h := hi.node n
  refine move_of_node (q := n) hi (fun _ _ => rfl) rfl rfl rfl (Or.inl rfl)
    { h with terms := h.terms } (fun _ => Or.inl) ?_ (fun _ => Or.inl)
    fun c hc => (hi.committed c hc).2 n
  intro m hm
  rcases List.mem_cons.mp hm with rfl | hm
  · exact Or.inr ⟨⟨n, _, h.leads hrole, List.take_prefix _ _⟩, h.applied⟩
  · exact Or.inl hm

theorem take_next {l : List (Entry α)} {k : Nat} {e : Entry α}
    (h : l[k]? = some e) : l.take (k + 1) = l.take k ++ [e] := by
  rw [List.take_add_one, h]
  rfl

/-- One more entry is applied. -/
theorem applyNext_eq (x : Node α) (hlt : x.applied < x.log.length)
    (hf : x.fsm = cmds (x.log.take x.applied))
    (hr : x.frontier = lastCmd (x.log.take x.applied)) :
    x.applyNext = { x with
      applied := x.applied + 1
      fsm := cmds (x.log.take (x.applied + 1))
      frontier := lastCmd (x.log.take (x.applied + 1)) } := by
  have hget := List.getElem?_eq_getElem hlt
  have htake := take_next hget
  have hlen : (x.log.take x.applied).length = x.applied := by
    rw [List.length_take]
    omega
  unfold Node.applyNext
  rw [hget, htake, cmds_append, lastCmd_concat, hlen, ← hf, ← hr]
  cases hc : x.log[x.applied] with
  | mk t c =>
    cases c with
    | none => simp [cmds]
    | some c => simp [cmds]

variable [DecidableEq ι]

theorem set_self (S : Group ι α) (q : ι) (x : Node α) :
    (S.set q x).node q = x :=
  update_self ..

theorem set_of_ne (S : Group ι α) (x : Node α) (h : n ≠ q) :
    (S.set q x).node n = S.node n :=
  update_of_ne h ..

/-- A step that changes nothing but a node. -/
theorem inv_set {x : Node α} (hi : Inv Q S) (hok : NodeOk Q (S.set q x) q x)
    (hlead : x.role = .leader → (S.node q).role = .leader
      ∧ (S.node q).term = x.term ∧ (S.node q).commit ≤ x.commit) :
    Inv Q (S.set q x) := by
  refine move_of_node hi (fun n hn => set_of_ne S x hn) rfl rfl rfl
    (Or.inl rfl) ?_ (fun _ => Or.inl) (fun _ => Or.inl) (fun _ => Or.inl)
    ?_
  · rw [set_self]
    exact hok
  · intro c hc hl ht
    rw [set_self] at hl ht ⊢
    obtain ⟨h1, h2, h3⟩ := hlead hl
    exact ((hi.committed c hc).2 q h1 (h2.trans ht)).trans h3

/-- A node hears of a later term. -/
theorem inv_observe {term : Nat} (hi : Inv Q S)
    (hlt : (S.node q).term < term) :
    Inv Q (S.set q { S.node q with term := term, role := .follower }) := by
  have h := hi.node q
  have hle := Nat.le_of_lt hlt
  refine inv_set hi ?_ fun hl => by cases hl
  exact {
    terms := fun e he => (h.terms e he).trans hle
    owned := h.owned
    leads := fun hl => by cases hl
    runs := fun hc => by cases hc
    requests := fun r hr hrq => (h.requests r hr hrq).trans hle
    books := fun T L hb => (h.books T L hb).trans hle
    votes := fun v hv hvq => (h.votes v hv hvq).trans hle
    acks := fun a ha haq => ⟨(h.acks a ha haq).1.trans hle,
      (h.acks a ha haq).2.later (Nat.succ_le_succ hle)⟩
    commit_le := h.commit_le
    commit := h.commit.later hle
    applied_le := h.applied_le
    applied := h.applied.later hle
    fsm := h.fsm
    frontier := h.frontier }

/-- A node restarts from a snapshot of its own. -/
theorem inv_restart {k : Nat} (hi : Inv Q S) (hk : k ≤ (S.node q).applied) :
    Inv Q (S.set q { S.node q with
      role := .follower
      commit := 0
      applied := k
      fsm := cmds ((S.node q).log.take k)
      frontier := lastCmd ((S.node q).log.take k) }) := by
  have h := hi.node q
  refine inv_set hi ?_ fun hl => by cases hl
  exact { h with
    leads := fun hl => by cases hl
    runs := fun hc => by cases hc
    commit_le := Nat.zero_le _
    commit := Or.inl rfl
    applied_le := hk.trans h.applied_le
    applied := h.applied.part (List.take_prefix_take_left hk)
    fsm := rfl
    frontier := rfl }

/-- A node applies what it has committed. -/
theorem inv_apply (hi : Inv Q S)
    (hlt : (S.node q).applied < (S.node q).commit) :
    Inv Q (S.set q (S.node q).applyNext) := by
  have h := hi.node q
  have hle : (S.node q).applied + 1 ≤ (S.node q).log.length :=
    Nat.le_trans hlt h.commit_le
  rw [applyNext_eq _ hle h.fsm h.frontier]
  refine inv_set hi ?_ fun hl => ⟨hl, rfl, le_rfl⟩
  exact { h with
    applied_le := hle
    applied := h.commit.part (List.take_prefix_take_left hlt)
    fsm := rfl
    frontier := rfl }

-- ======== leaders

/-- A leader commits what a quorum has of its term. -/
theorem inv_commit {i : Nat} {A : List ι} (hi : Inv Q S)
    (hrole : (S.node n).role = .leader) (hlt : (S.node n).commit < i)
    (hlen : i ≤ (S.node n).log.length)
    (hlast : lastTerm ((S.node n).log.take i) = (S.node n).term)
    (hA : Q.ok A = true)
    (hacks : ∀ q ∈ A, S.acked q (S.node n).term i = true) :
    Inv Q { S.set n { S.node n with commit := i } with
      committed := ((S.node n).term, (S.node n).log.take i)
        :: S.committed } := by
  have h := hi.node n
  have hbook := h.leads hrole
  have htake : ((S.node n).log.take i).length = i := by
    rw [List.length_take]
    omega
  have hchosen : Chosen Q S (S.node n).term ((S.node n).log.take i) := by
    refine ⟨fun h0 => ?_, hlast, ⟨n, _, hbook, List.take_prefix _ _⟩, A, hA,
      fun q hq => ?_⟩
    · rw [h0, List.length_nil] at htake
      omega
    · obtain ⟨a, ha, hcond⟩ := List.any_eq_true.mp (hacks q hq)
      simp only [Bool.and_eq_true, decide_eq_true_eq] at hcond
      exact ⟨a, ha, hcond.1.1, hcond.1.2, htake.le.trans hcond.2⟩
  refine move_of_node (q := n) hi (fun m hm => set_of_ne S _ hm) rfl rfl
    rfl (Or.inl rfl) ?_ (fun _ => Or.inl) (fun _ => Or.inl) ?_ ?_
  · show NodeOk Q _ n ((S.set n _).node n)
    rw [set_self]
    exact { h with
      commit_le := hlen
      commit := Or.inr ⟨_, _, le_rfl, hchosen, List.prefix_rfl⟩ }
  · intro c hc
    rcases List.mem_cons.mp hc with rfl | hc
    · refine Or.inr ⟨hchosen, fun m hm hl ht => ?_⟩
      have hl' : ((S.set n _).node m).role = .leader := hl
      have ht' : ((S.set n _).node m).term = (S.node n).term := ht
      rw [set_of_ne S _ hm] at hl' ht'
      have hb := (hi.node m).leads hl'
      rw [ht'] at hb
      exact hm (book_inj hb hbook).1
    · exact Or.inl hc
  · intro c hc hl ht
    show c.2.length ≤ ((S.set n _).node n).commit
    have ht' : ((S.set n _).node n).term = c.1 := ht
    rw [set_self] at ht' ⊢
    rcases List.mem_cons.mp hc with rfl | hc
    · exact htake.le
    · exact ((hi.committed c hc).2 n hrole ht').trans (Nat.le_of_lt hlt)

/-- Node `n` leads its term, with `X` behind its log, and acknowledges
the whole of it. -/
def Group.lead (S : Group ι α) (n : ι) (X : List (Entry α)) : Group ι α :=
  { S.set n { S.node n with
      role := .leader, log := (S.node n).log ++ X } with
    acks := ⟨n, (S.node n).term, ((S.node n).log ++ X).length⟩ :: S.acks
    book := update S.book (S.node n).term
      (some (n, (S.node n).log ++ X)) }

theorem lead_book (S : Group ι α) (n : ι) (X : List (Entry α)) :
    (S.lead n X).book (S.node n).term = some (n, (S.node n).log ++ X) :=
  update_self ..

theorem lead_book_ne (X : List (Entry α)) {T : Nat}
    (hT : T ≠ (S.node n).term) : (S.lead n X).book T = S.book T :=
  update_of_ne hT ..

/-- The node led before, or has won its term. -/
def Leads (Q : Quorums ι) (S : Group ι α) (n : ι) : Prop :=
  (S.node n).role = .leader ∨ S.book (S.node n).term = none
      ∧ (∀ e ∈ (S.node n).log, e.term < (S.node n).term)
      ∧ Won Q S (S.node n).term n (S.node n).log

section Lead

variable {X : List (Entry α)} (hi : Inv Q S) (hl : Leads Q S n)
  (hX : ∀ e ∈ X, e.term = (S.node n).term)
include hi hl hX

theorem grows_lead : Grows n S (S.lead n X) where
  node := fun m hm => set_of_ne S _ hm
  requests := List.Subset.refl _
  votes := List.Subset.refl _
  acks := List.subset_cons_self _ _
  newRequest := fun _ => Or.inl
  newVote := fun _ => Or.inl
  newAck := by
    intro a ha
    rcases List.mem_cons.mp ha with rfl | ha
    · exact Or.inr ⟨rfl, le_rfl⟩
    · exact Or.inl ha
  book := by
    intro T m L hb
    by_cases hT : T = (S.node n).term
    · subst hT
      rcases hl with hrole | ⟨hnone, -⟩
      · obtain ⟨rfl, rfl⟩ := book_inj ((hi.node n).leads hrole) hb
        exact ⟨X, lead_book S n X, hX⟩
      · rw [hnone] at hb
        cases hb
    · refine ⟨[], ?_, fun e he => by cases he⟩
      rw [lead_book_ne X hT, List.append_nil, hb]
  newBook := by
    intro T m L hb
    by_cases hT : T = (S.node n).term
    · subst hT
      exact Or.inr (book_inj hb (lead_book S n X)).1
    · exact Or.inl (lead_book_ne X hT ▸ hb)

/-- The new entries are of the leader's own term. -/
theorem owned_lead : Owned (S.lead n X) ((S.node n).log ++ X) := by
  have hg := grows_lead hi hl hX
  intro p e hp
  by_cases hlen : (p ++ [e]).length ≤ (S.node n).log.length
  · exact hg.owned (hi.node n).owned p e
      (List.prefix_of_prefix_length_le hp (List.prefix_append _ _) hlen)
  · -- an entry past the old log is of the leader's term
    refine ⟨n, _, ?_, hp⟩
    rw [show e.term = (S.node n).term from ?_]
    · exact lead_book S n X
    · obtain ⟨r, hr⟩ := hp
      apply hX
      have hmem : e ∈ ((S.node n).log ++ X).drop (S.node n).log.length := by
        rw [← hr, List.append_assoc, List.drop_append]
        refine List.mem_append_right _ ?_
        rw [List.length_append, List.length_singleton] at hlen
        rw [show (S.node n).log.length - p.length = 0 by omega]
        exact List.mem_cons_self
      rw [List.drop_left] at hmem
      exact hmem

theorem nodeOk_lead : NodeOk Q (S.lead n X) n { S.node n with
    role := .leader, log := (S.node n).log ++ X } := by
  have h := hi.node n
  have hg := grows_lead hi hl hX
  have hlen := (List.prefix_append (S.node n).log X).length_le
  have hcom : ((S.node n).log ++ X).take (S.node n).commit = _ :=
    List.take_append_of_le_length h.commit_le
  have happ : ((S.node n).log ++ X).take (S.node n).applied = _ :=
    List.take_append_of_le_length h.applied_le
  refine ⟨fun e he => ?_, owned_lead hi hl hX,
    fun _ => lead_book S n X, (fun hc => by cases hc), h.requests,
    fun T L hb => ?_, h.votes, fun a ha han => ?_, h.commit_le.trans hlen,
    hcom ▸ hg.sealed h.commit le_rfl, h.applied_le.trans hlen,
    happ ▸ hg.sealed h.applied le_rfl, happ ▸ h.fsm, happ ▸ h.frontier⟩
  · rcases List.mem_append.mp he with he | he
    · exact h.terms e he
    · exact Nat.le_of_eq (hX e he)
  · rcases (grows_lead hi hl hX).newBook T n L hb with hb | -
    · exact h.books T L hb
    · by_cases hT : T = (S.node n).term
      · exact Nat.le_of_eq hT
      · exact h.books T L (lead_book_ne X hT ▸ hb)
  · rcases List.mem_cons.mp ha with rfl | ha
    · refine ⟨le_rfl, fun m L P hb hP _ _ => ?_⟩
      rw [(book_inj hb (lead_book S n X)).2] at hP
      exact hP
    · obtain ⟨h1, h2⟩ := h.acks a ha han
      refine ⟨h1, fun m L P hb hP hk hall => ?_⟩
      exact (hg.keeps hi (hi.ack a ha) h2 m L P hb hP hk hall).trans
        (List.prefix_append _ _)

/-- A leader extends its log. -/
theorem inv_lead : Inv Q (S.lead n X) := by
  have hg := grows_lead hi hl hX
  refine hi.move (q := n) { hg with
    ok := ?_
    requestOk := fun _ => Or.inl
    voteOk := fun _ => Or.inl
    bookOk := fun T m L hb => ?_
    ackOk := fun a ha => ?_
    sentOk := fun _ => Or.inl
    snapOk := fun _ => Or.inl
    committedOk := fun _ => Or.inl
    leaderOk := fun c hc _ ht => ?_ }
  · show NodeOk Q _ n ((S.set n _).node n)
    rw [set_self]
    exact nodeOk_lead hi hl hX
  · by_cases hT : T = (S.node n).term
    · subst hT
      obtain ⟨rfl, rfl⟩ := book_inj (lead_book S n X) hb
      right
      rcases hl with hrole | ⟨hnone, hlow, hwon⟩
      · obtain ⟨R, Y, hRY, hR, hY, -, hwon⟩ :=
          hi.book _ _ _ ((hi.node n).leads hrole)
        refine ⟨R, Y ++ X, by rw [hRY, List.append_assoc], hR, ?_,
          owned_lead hi (Or.inl hrole) hX, hg.won hi hwon⟩
        intro e he
        rcases List.mem_append.mp he with he | he
        · exact hY e he
        · exact hX e he
      · exact ⟨_, X, rfl, hlow, hX,
          owned_lead hi (Or.inr ⟨hnone, hlow, hwon⟩) hX, hg.won hi hwon⟩
    · exact Or.inl (lead_book_ne X hT ▸ hb)
  · rcases List.mem_cons.mp ha with rfl | ha
    · exact Or.inr ⟨n, _, lead_book S n X, le_rfl⟩
    · exact Or.inl ha
  · have ht' : ((S.set n _).node n).term = c.1 := ht
    show c.2.length ≤ ((S.set n _).node n).commit
    rw [set_self] at ht' ⊢
    rcases hl with hrole | ⟨hnone, -⟩
    · exact (hi.committed c hc).2 n hrole ht'
    · obtain ⟨-, -, ⟨m, L, hb, -⟩, -⟩ := (hi.committed c hc).1
      rw [← show (S.node n).term = c.1 from ht', hnone] at hb
      cases hb

end Lead

/-- A quorum of votes makes a leader. -/
theorem leads_of_votes {A : List ι} (hi : Inv Q S)
    (hrole : (S.node n).role = .candidate) (hA : Q.ok A = true)
    (hvotes : ∀ q ∈ A, S.votedFor q n (S.node n).term = true) :
    Leads Q S n := by
  obtain ⟨hlow, hbook, hreq⟩ := (hi.node n).runs hrole
  have hvote : ∀ q ∈ A, ∃ v ∈ S.votes, v.voter = q
      ∧ v.req = ⟨n, (S.node n).term, (S.node n).log⟩ := by
    intro q hq
    obtain ⟨v, hv, hcond⟩ := List.any_eq_true.mp (hvotes q hq)
    simp only [Bool.and_eq_true, decide_eq_true_eq] at hcond
    obtain ⟨⟨hvq, hvn⟩, hvt⟩ := hcond
    have hlog := hreq v.req (hi.voteReq v hv) hvn hvt
    refine ⟨v, hv, hvq, ?_⟩
    cases hr : v.req with
    | mk m t l =>
      rw [hr] at hvn hvt hlog
      dsimp only at hvn hvt hlog
      rw [hvn, hvt, hlog]
  -- nobody else can have won the term
  have hnone : S.book (S.node n).term = none := by
    cases hb : S.book (S.node n).term with
    | none => rfl
    | some y =>
      obtain ⟨R, X, -, -, -, -, B, hB, hwon⟩ := hi.book _ y.1 y.2 hb
      obtain ⟨x, hxA, hxB⟩ := Q.meet A B hA hB
      obtain ⟨v, hv, hvx, hvr⟩ := hvote x hxA
      obtain ⟨w, hw, hwx, hwr, -⟩ := hwon x hxB
      have hsame := hi.voteOnce v hv w hw (hvx.trans hwx.symm)
        (by rw [hvr, hwr])
      rw [hvr, hwr] at hsame
      dsimp only at hsame
      refine absurd hb ?_
      rw [show y = (n, y.2) from by rw [hsame]]
      exact hbook y.2
  refine Or.inr ⟨hnone, hlow, A, hA, fun q hq => ?_⟩
  obtain ⟨v, hv, hvq, hvr⟩ := hvote q hq
  have hvt : v.req.term = (S.node n).term := by rw [hvr]
  refine ⟨v, hv, hvq, hvr, fun a ha haq hlt => ?_⟩
  rw [← hvt]
  exact hi.voteKeeps v hv (by rw [hvt, hnone]) a ha
    (haq.trans hvq.symm) (by rw [hvt]; exact hlt)

-- ======== followers

section Accept

variable [DecidableEq α] {m : Append α} (hi : Inv Q S)
  (hm : ∃ k L, S.book m.term = some (k, L) ∧ m.log <+: L)
  (hle : (S.node q).term ≤ m.term)
include hi hm hle

omit [DecidableEq ι] in
/-- What was chosen stays through a merge. -/
theorem merge_sealed {l : List (Entry α)}
    (hs : Sealed Q S (S.node q).term l) (hl : l <+: (S.node q).log) :
    l <+: merge (S.node q).log m.log := by
  obtain ⟨k, L, hb, hL⟩ := hm
  exact merge_keeps hl (hi.sealed_book hs hle hb) hL

omit [DecidableEq ι] in
/-- A merge leaves what was chosen as it is. -/
theorem merge_take {k : Nat} (hk : k ≤ (S.node q).log.length)
    (hs : Sealed Q S (S.node q).term ((S.node q).log.take k)) :
    (merge (S.node q).log m.log).take k = (S.node q).log.take k
      ∧ k ≤ (merge (S.node q).log m.log).length := by
  have hpre := merge_sealed hi hm hle hs (List.take_prefix _ _)
  have hlen : ((S.node q).log.take k).length = k := by
    rw [List.length_take]
    omega
  refine ⟨?_, hlen ▸ hpre.length_le⟩
  have := List.prefix_iff_eq_take.mp hpre
  rw [hlen] at this
  exact this.symm

/-- A follower takes over a leader's log and acknowledges it. -/
theorem inv_accept {c a r : Nat} {f : List α}
    (hc : c ≤ (merge (S.node q).log m.log).length)
    (hcs : Sealed Q S m.term ((merge (S.node q).log m.log).take c))
    (ha : a ≤ (merge (S.node q).log m.log).length)
    (has : Sealed Q S m.term ((merge (S.node q).log m.log).take a))
    (hf : f = cmds ((merge (S.node q).log m.log).take a))
    (hr : r = lastCmd ((merge (S.node q).log m.log).take a)) :
    Inv Q { S.set q ⟨m.term, .follower, merge (S.node q).log m.log,
        c, a, f, r⟩ with
      acks := ⟨q, m.term, m.log.length⟩ :: S.acks } := by
  have h := hi.node q
  obtain ⟨k, L, hb, hL⟩ := hm
  have hack : ∃ k L, S.book m.term = some (k, L) ∧ m.log.length ≤ L.length :=
    ⟨k, L, hb, hL.length_le⟩
  obtain ⟨-, -, -, -, -, hown, -⟩ := hi.book _ _ _ hb
  -- chosen in the old records is chosen in the new
  have hsealed : ∀ {T : Nat} {l : List (Entry α)}, Sealed Q S T l →
      Sealed Q { S.set q ⟨m.term, .follower, merge (S.node q).log m.log,
        c, a, f, r⟩ with
          acks := ⟨q, m.term, m.log.length⟩ :: S.acks } T l := by
    intro T l hs
    rcases hs with rfl | ⟨T', P, hT', ⟨h1, h2, h3, A, hA, hq⟩, hl⟩
    · exact Or.inl rfl
    · refine Or.inr ⟨T', P, hT', ⟨h1, h2, h3, A, hA, fun x hx => ?_⟩, hl⟩
      obtain ⟨y, hy, hyx⟩ := hq x hx
      exact ⟨y, List.mem_cons_of_mem _ hy, hyx⟩
  refine move_of_node hi (fun n hn => set_of_ne S _ hn) rfl rfl rfl
    (Or.inr ⟨m.term, m.log.length, rfl, hle, hack⟩) ?_ (fun _ => Or.inl)
    (fun _ => Or.inl) (fun _ => Or.inl) ?_
  · show NodeOk Q _ q ((S.set q _).node q)
    rw [set_self]
    refine ⟨fun e he => ?_, ?_, (fun hl => by cases hl),
      (fun hc => by cases hc), fun x hx hxq => (h.requests x hx hxq).trans hle,
      fun T L hb => (h.books T L hb).trans hle,
      fun v hv hvq => (h.votes v hv hvq).trans hle, fun y hy hyq => ?_, hc,
      hsealed hcs, ha, hsealed has, hf, hr⟩
    · dsimp only at he
      rcases merge_cases (S.node q).log m.log with ⟨heq, -⟩ | heq <;>
        rw [heq] at he
      · exact (h.terms e he).trans hle
      · exact hi.book_terms hb e (hL.subset he)
    · dsimp only
      rcases merge_cases (S.node q).log m.log with ⟨heq, -⟩ | heq <;>
        rw [heq]
      · exact h.owned
      · exact hown.part hL
    · rcases List.mem_cons.mp hy with rfl | hy
      · refine ⟨le_rfl, fun k' L' P hb' hP hk _ => ?_⟩
        obtain ⟨-, rfl⟩ := book_inj hb hb'
        exact (List.prefix_of_prefix_length_le hP hL hk).trans (le_merge _ _)
      · obtain ⟨h1, h2⟩ := h.acks y hy hyq
        refine ⟨h1.trans hle, fun k' L' P hb' hP hk hall => ?_⟩
        have hP' : P <+: (S.node q).log := h2 k' L' P hb' hP hk
          fun V n' L'' hV1 hV2 => hall V n' L'' hV1
            (Nat.lt_of_lt_of_le hV2 (Nat.succ_le_succ hle))
        refine merge_keeps hP' ?_ hL
        -- the leader taken from has it: it is the same one, or a later one
        rcases Nat.lt_or_eq_of_le (h1.trans hle) with hlt | heq
        · exact hall m.term k L hlt (Nat.lt_succ_self _) hb
        · have hb'' : S.book y.term = some (k', L') := hb'
          rw [heq] at hb''
          rw [(book_inj hb hb'').2]
          exact hP
  · intro c hc hl
    have hl' : ((S.set q _).node q).role = .leader := hl
    rw [set_self] at hl'
    cases hl'

end Accept

/-- A follower takes over what its leader sent. -/
theorem inv_receive [DecidableEq α] {m : Append α} (hi : Inv Q S)
    (hm : m ∈ S.sent) (hle : (S.node q).term ≤ m.term) :
    Inv Q { S.set q { S.node q with
        term := m.term
        role := .follower
        log := merge (S.node q).log m.log
        commit := max (S.node q).commit (min m.commit m.log.length) } with
      acks := ⟨q, m.term, m.log.length⟩ :: S.acks } := by
  have h := hi.node q
  obtain ⟨hbook, hcom⟩ := hi.sent m hm
  obtain ⟨hc1, hc2⟩ := merge_take hi hbook hle h.commit_le h.commit
  obtain ⟨ha1, ha2⟩ := merge_take hi hbook hle h.applied_le h.applied
  have hmerge := le_merge (S.node q).log m.log
  refine inv_accept hi hbook hle ?_ ?_ ha2 ?_ ?_ ?_
  · exact max_le hc2 ((Nat.min_le_right _ _).trans hmerge.length_le)
  · rcases Nat.le_total (S.node q).commit (min m.commit m.log.length) with
      hle' | hle'
    · -- what the leader knew
      rw [max_eq_right hle']
      refine hcom.part (List.prefix_of_prefix_length_le
        (List.take_prefix _ _) ((List.take_prefix _ _).trans hmerge) ?_)
      rw [List.length_take, List.length_take]
      omega
    · rw [max_eq_left hle', hc1]
      exact h.commit.later hle
  · rw [ha1]
    exact h.applied.later hle
  · rw [ha1]
    exact h.fsm
  · rw [ha1]
    exact h.frontier

/-- A follower installs a snapshot. -/
theorem inv_install [DecidableEq α] {m : Append α} (hi : Inv Q S)
    (hm : m ∈ S.snaps) (hle : (S.node q).term ≤ m.term)
    (hlt : (S.node q).applied < m.log.length) :
    Inv Q { S.set q { S.node q with
        term := m.term
        role := .follower
        log := merge (S.node q).log m.log
        applied := m.log.length
        fsm := cmds m.log
        frontier := max (S.node q).frontier (lastCmd m.log) } with
      acks := ⟨q, m.term, m.log.length⟩ :: S.acks } := by
  have h := hi.node q
  obtain ⟨hbook, hsnap⟩ := hi.snap m hm
  obtain ⟨hc1, hc2⟩ := merge_take hi hbook hle h.commit_le h.commit
  obtain ⟨ha1, ha2⟩ := merge_take hi hbook hle h.applied_le h.applied
  have hmerge := le_merge (S.node q).log m.log
  have htake : (merge (S.node q).log m.log).take m.log.length = m.log :=
    (List.prefix_iff_eq_take.mp hmerge).symm
  -- the snapshot holds all that was applied, so its frontier is no less
  have hpre : (merge (S.node q).log m.log).take (S.node q).applied
      <+: (merge (S.node q).log m.log).take m.log.length :=
    List.take_prefix_take_left (Nat.le_of_lt hlt)
  rw [ha1, htake] at hpre
  have hfront : (S.node q).frontier ≤ lastCmd m.log := by
    rw [h.frontier]
    exact lastCmd_mono hpre
  refine inv_accept hi hbook hle hc2 ?_ hmerge.length_le ?_ ?_ ?_
  · rw [hc1]
    exact h.commit.later hle
  · rw [htake]
    exact hsnap
  · rw [htake]
  · rw [htake]
    exact max_eq_right hfront

-- ======== elections

/-- A node votes: for itself as it starts to campaign, or for another. -/
theorem inv_vote (req : Request ι α) {role : Role}
    {reqs : List (Request ι α)} (hi : Inv Q S)
    (hle : (S.node q).term ≤ req.term) (hsub : S.requests ⊆ reqs)
    (hnew : ∀ r ∈ reqs, r ∈ S.requests ∨ r = ⟨q, req.term, (S.node q).log⟩)
    (hreq : req ∈ reqs) (hup : upToDate req.log (S.node q).log = true)
    (honce : ∀ w ∈ S.votes, w.voter = q → w.req.term ≠ req.term)
    (hrole : role = .follower
      ∨ role = .candidate ∧ (S.node q).term < req.term) :
    Inv Q { S.set q { S.node q with term := req.term, role := role } with
      requests := reqs
      votes := ⟨q, req, (S.node q).log⟩ :: S.votes } := by
  have h := hi.node q
  refine hi.move (q := q) {
    node := fun n hn => set_of_ne S _ hn
    requests := hsub
    votes := List.subset_cons_self _ _
    acks := List.Subset.refl _
    newRequest := fun r hr => (hnew r hr).imp_right fun h => by rw [h]
    newVote := ?_
    newAck := fun _ => Or.inl
    book := fun T n L hb => ⟨[], by rw [List.append_nil]; exact hb,
      fun e he => by cases he⟩
    newBook := fun _ _ _ => Or.inl
    ok := ?_
    requestOk := fun r hr => (hnew r hr).imp_right fun hr => by
      rw [hr]
      exact h.owned
    voteOk := ?_
    bookOk := fun _ _ _ => Or.inl
    ackOk := fun _ => Or.inl
    sentOk := fun _ => Or.inl
    snapOk := fun _ => Or.inl
    committedOk := fun _ => Or.inl
    leaderOk := ?_ }
  · intro v hv
    rcases List.mem_cons.mp hv with rfl | hv
    · exact Or.inr rfl
    · exact Or.inl hv
  · show NodeOk Q _ q ((S.set q _).node q)
    rw [set_self]
    refine ⟨fun e he => (h.terms e he).trans hle, h.owned, fun hl => ?_,
      fun hc => ?_, fun r hr hrq => ?_,
      fun T L hb => (h.books T L hb).trans hle, fun v hv hvq => ?_,
      fun a ha haq => ⟨(h.acks a ha haq).1.trans hle,
        (h.acks a ha haq).2.later (Nat.succ_le_succ hle)⟩, h.commit_le,
      h.commit.later hle, h.applied_le, h.applied.later hle, h.fsm,
      h.frontier⟩
    · dsimp only at hl
      rcases hrole with hr | ⟨hr, -⟩ <;> rw [hr] at hl <;> cases hl
    · dsimp only at hc
      rcases hrole with hr | ⟨-, hlt⟩
      · rw [hr] at hc
        cases hc
      · refine ⟨fun e he => Nat.lt_of_le_of_lt (h.terms e he) hlt,
          fun L hb => ?_, fun r hr hrq hrt => ?_⟩
        · exact absurd (h.books _ L hb) (Nat.not_le_of_lt hlt)
        · rcases hnew r hr with hold | hr
          · have := h.requests r hold hrq
            dsimp only at hrt
            omega
          · rw [hr]
    · rcases hnew r hr with hold | hr
      · exact (h.requests r hold hrq).trans hle
      · rw [hr]
    · rcases List.mem_cons.mp hv with rfl | hv
      · exact le_rfl
      · exact (h.votes v hv hvq).trans hle
  · intro v hv
    rcases List.mem_cons.mp hv with rfl | hv
    · refine Or.inr ⟨hreq, h.owned, hup, fun w hw hwq hwt => ?_,
        fun hnone a ha haq hlt n L P hb hP hk hall => ?_⟩
      · rcases List.mem_cons.mp hw with rfl | hw
        · rfl
        · exact absurd hwt (honce w hw hwq)
      · -- nobody leads the voted term yet
        refine (h.acks a ha haq).2 n L P hb hP hk fun V n' L' h1 h2 h3 => ?_
        refine hall V n' L' h1 (Nat.lt_of_le_of_ne ?_ fun he => ?_) h3
        · exact Nat.le_of_lt_succ (Nat.lt_of_lt_of_le h2
            (Nat.succ_le_succ hle))
        · subst he
          have hnone' : S.book req.term = none := hnone
          rw [hnone'] at h3
          cases h3
    · exact Or.inl hv
  · intro c hc hl
    have hl' : ((S.set q _).node q).role = .leader := hl
    rw [set_self] at hl'
    dsimp only at hl'
    rcases hrole with hr | ⟨hr, -⟩ <;> rw [hr] at hl' <;> cases hl'

omit [DecidableEq ι] in
theorem upToDate_self (l : List (Entry α)) : upToDate l l = true := by
  unfold upToDate
  rw [decide_eq_true rfl, decide_eq_true le_rfl, Bool.and_true, Bool.or_true]

-- ======== runs

omit [DecidableEq ι] in
theorem inv_blank : Inv Q (Group.blank : Group ι α) where
  node := fun _ => {
    terms := fun _ he => by cases he
    owned := fun p e hp => by
      have := List.prefix_nil.mp hp
      simp at this
    leads := fun hl => by cases hl
    runs := fun hc => by cases hc
    requests := fun _ hr => by cases hr
    books := fun _ _ hb => by cases hb
    votes := fun _ hv => by cases hv
    acks := fun _ ha => by cases ha
    commit_le := le_rfl
    commit := Or.inl rfl
    applied_le := le_rfl
    applied := Or.inl rfl
    fsm := rfl
    frontier := rfl }
  voteReq := fun _ hv => by cases hv
  voteLog := fun _ hv => by cases hv
  voteOnce := fun _ hv => by cases hv
  voteKeeps := fun _ hv => by cases hv
  request := fun _ hr => by cases hr
  book := fun _ _ _ hb => by cases hb
  ack := fun _ ha => by cases ha
  sent := fun _ hm => by cases hm
  snap := fun _ hm => by cases hm
  committed := fun _ hc => by cases hc

variable [DecidableEq α] {e : Event ι α}

/-- Every step keeps the invariant. -/
theorem inv_step (hi : Inv Q S) (hs : step Q S e = some S') : Inv Q S' := by
  cases e with
  | campaign n =>
    simp only [step] at hs
    cases hs
    refine inv_vote ⟨n, (S.node n).term + 1, (S.node n).log⟩ hi
      (Nat.le_succ _) (List.subset_cons_self _ _) (fun r hr => ?_)
      List.mem_cons_self (upToDate_self _) (fun w hw hwn hwt => ?_)
      (Or.inr ⟨rfl, Nat.lt_succ_self _⟩)
    · rcases List.mem_cons.mp hr with rfl | hr
      · exact Or.inr rfl
      · exact Or.inl hr
    · have := (hi.node n).votes w hw hwn
      dsimp only at hwt
      omega
  | grant q req =>
    obtain ⟨⟨hreq, hle, honce, hup⟩, rfl⟩ := guarded hs
    exact inv_vote req hi hle (List.Subset.refl _) (fun _ => Or.inl) hreq
      hup honce (Or.inl rfl)
  | win n A =>
    obtain ⟨h, rfl⟩ := guarded hs
    have := inv_lead (X := []) hi
      (leads_of_votes hi h.1 h.2.1 h.2.2) fun e he => by cases he
    unfold Group.lead at this
    rw [List.append_nil] at this
    exact this
  | observe q term =>
    obtain ⟨h, rfl⟩ := guarded hs
    exact inv_observe hi h
  | append n cmd =>
    obtain ⟨h, rfl⟩ := guarded hs
    have := inv_lead (X := [⟨(S.node n).term, cmd⟩]) hi (Or.inl h)
      fun e he => by rw [List.mem_singleton.mp he]
    unfold Group.lead at this
    rw [← h] at this
    exact this
  | send n k =>
    obtain ⟨h, rfl⟩ := guarded hs
    exact inv_send hi h
  | receive q m =>
    obtain ⟨h, rfl⟩ := guarded hs
    exact inv_receive hi h.1 h.2.1
  | commit n i A =>
    obtain ⟨⟨h1, h2, h3, h4, h5, h6⟩, rfl⟩ := guarded hs
    exact inv_commit hi h1 h2 h3 h4 h5 h6
  | apply q =>
    obtain ⟨h, rfl⟩ := guarded hs
    exact inv_apply hi h
  | snapshot n =>
    obtain ⟨h, rfl⟩ := guarded hs
    exact inv_snapshot hi h
  | install q m =>
    obtain ⟨h, rfl⟩ := guarded hs
    exact inv_install hi h.1 h.2.1.1 h.2.2
  | restart q k =>
    obtain ⟨h, rfl⟩ := guarded hs
    exact inv_restart hi h

/-- A later state of the same nodes: none has restarted unless `e` says
so. -/
structure Later (S S' : Group ι α) (e : Event ι α) : Prop where
  term : ∀ n, (S.node n).term ≤ (S'.node n).term
  commit : ∀ n, (∀ k, e ≠ .restart n k) →
    (S.node n).commit ≤ (S'.node n).commit
  frontier : ∀ n, (∀ k, e ≠ .restart n k) →
    (S.node n).frontier ≤ (S'.node n).frontier
  committed : S.committed ⊆ S'.committed

omit [DecidableEq α] in
theorem later_set {x : Node α} (hnode : S'.node = (S.set q x).node)
    (hcom : S.committed ⊆ S'.committed) (ht : (S.node q).term ≤ x.term)
    (hc : (∀ k, e ≠ .restart q k) → (S.node q).commit ≤ x.commit)
    (hf : (∀ k, e ≠ .restart q k) → (S.node q).frontier ≤ x.frontier) :
    Later S S' e := by
  have hcases : ∀ n, n = q ∧ S'.node n = x ∨ S'.node n = S.node n := by
    intro n
    rw [hnode]
    by_cases hn : n = q
    · subst hn
      exact Or.inl ⟨rfl, set_self S n x⟩
    · exact Or.inr (set_of_ne S x hn)
  refine ⟨fun n => ?_, fun n hn => ?_, fun n hn => ?_, hcom⟩ <;>
    rcases hcases n with ⟨rfl, he⟩ | he <;> rw [he]
  · exact ht
  · exact hc hn
  · exact hf hn

omit [DecidableEq ι] [DecidableEq α] in
theorem later_of_node (hnode : S'.node = S.node)
    (hcom : S'.committed = S.committed) : Later S S' e :=
  ⟨fun n => by rw [hnode], fun n _ => by rw [hnode],
    fun n _ => by rw [hnode], by rw [hcom]; exact List.Subset.refl _⟩

/-- No step takes a term back, and only a restart a commit index or a
frontier. -/
theorem step_later (hi : Inv Q S) (hs : step Q S e = some S') :
    Later S S' e := by
  cases e with
  | campaign n =>
    simp only [step] at hs
    cases hs
    exact later_set rfl (List.Subset.refl _) (Nat.le_succ _)
      (fun _ => le_rfl) fun _ => le_rfl
  | grant q req =>
    obtain ⟨h, rfl⟩ := guarded hs
    exact later_set rfl (List.Subset.refl _) h.2.1
      (fun _ => le_rfl) fun _ => le_rfl
  | win n A =>
    obtain ⟨-, rfl⟩ := guarded hs
    exact later_set rfl (List.Subset.refl _) le_rfl
      (fun _ => le_rfl) fun _ => le_rfl
  | observe q term =>
    obtain ⟨h, rfl⟩ := guarded hs
    exact later_set rfl (List.Subset.refl _) (Nat.le_of_lt h)
      (fun _ => le_rfl) fun _ => le_rfl
  | append n cmd =>
    obtain ⟨-, rfl⟩ := guarded hs
    exact later_set rfl (List.Subset.refl _) le_rfl
      (fun _ => le_rfl) fun _ => le_rfl
  | send n k =>
    obtain ⟨-, rfl⟩ := guarded hs
    exact later_of_node rfl rfl
  | receive q m =>
    obtain ⟨h, rfl⟩ := guarded hs
    exact later_set rfl (List.Subset.refl _) h.2.1
      (fun _ => Nat.le_max_left _ _) fun _ => le_rfl
  | commit n i A =>
    obtain ⟨h, rfl⟩ := guarded hs
    exact later_set rfl (List.subset_cons_self _ _) le_rfl
      (fun _ => Nat.le_of_lt h.2.1) fun _ => le_rfl
  | apply q =>
    obtain ⟨h, rfl⟩ := guarded hs
    have hq := hi.node q
    rw [applyNext_eq _ (Nat.lt_of_lt_of_le h hq.commit_le) hq.fsm hq.frontier]
    refine later_set rfl (List.Subset.refl _) le_rfl
      (fun _ => le_rfl) fun _ => ?_
    rw [hq.frontier]
    exact lastCmd_mono (List.take_prefix_take_left (Nat.le_succ _))
  | snapshot n =>
    obtain ⟨-, rfl⟩ := guarded hs
    exact later_of_node rfl rfl
  | install q m =>
    obtain ⟨h, rfl⟩ := guarded hs
    exact later_set rfl (List.Subset.refl _) h.2.1.1
      (fun _ => le_rfl) fun _ => Nat.le_max_left _ _
  | restart q k =>
    obtain ⟨-, rfl⟩ := guarded hs
    exact later_set rfl (List.Subset.refl _) le_rfl
      (fun h => absurd rfl (h k)) fun h => absurd rfl (h k)

-- ======== reads

section Reads

omit [DecidableEq ι] [DecidableEq α]

variable {c : Nat × List (Entry α)} (hi : Inv Q S) (hc : c ∈ S.committed)
include hi hc

theorem Inv.sealed_committed : Sealed Q S c.1 c.2 :=
  Or.inr ⟨c.1, c.2, le_rfl, (hi.committed c hc).1, List.prefix_rfl⟩

/-- What is committed was so by the term of any quorum. -/
theorem Inv.committed_le {A : List ι} {T : Nat} (hA : Q.ok A = true)
    (hT : ∀ q ∈ A, (S.node q).term ≤ T) : c.1 ≤ T := by
  obtain ⟨-, -, -, B, hB, hacks⟩ := (hi.committed c hc).1
  obtain ⟨x, hxA, hxB⟩ := Q.meet A B hA hB
  obtain ⟨a, ha, hax, hac, -⟩ := hacks x hxB
  rw [← hac]
  exact ((hi.node x).acks a ha hax).1.trans (hT x hxA)

/-- A leader has what was committed by its term. -/
theorem Inv.committed_leader (hrole : (S.node n).role = .leader)
    (hle : c.1 ≤ (S.node n).term) : c.2 <+: (S.node n).log :=
  hi.sealed_book (hi.sealed_committed hc) hle ((hi.node n).leads hrole)

/-- An applied entry of term `T` has everything committed before `T`
before it. -/
theorem Inv.committed_below {k T : Nat} (hk : k ≤ (S.node n).applied)
    (hT : T ≤ lastTerm ((S.node n).log.take k)) (hlt : c.1 < T) :
    c.2.length ≤ k := by
  have h := hi.node n
  have hseal : Sealed Q S (S.node n).term ((S.node n).log.take k) :=
    h.applied.part (List.take_prefix_take_left hk)
  rcases hi.sealed_total (hi.sealed_committed hc) hseal with hle | hle
  · exact hle.length_le.trans (List.length_take_le _ _)
  · -- otherwise the entry is among those committed earlier
    exfalso
    have hne : (S.node n).log.take k ≠ [] := fun h0 => by
      rw [h0] at hT
      exact absurd (Nat.lt_of_lt_of_le hlt hT) (Nat.not_lt_zero _)
    obtain ⟨e, he, het⟩ := lastTerm_mem hne
    have := (hi.committed c hc).1.terms hi e (hle.subset he)
    omega

/-- What is committed is applied once as many entries are. -/
theorem Inv.committed_applied (hle : c.2.length ≤ (S.node n).applied) :
    lastCmd c.2 ≤ (S.node n).frontier := by
  have h := hi.node n
  rw [h.frontier]
  apply lastCmd_mono
  rcases hi.sealed_total (hi.sealed_committed hc) h.applied with h' | h'
  · exact h'
  · rw [h'.eq_of_length_le]
    rw [List.length_take]
    exact le_min hle (hle.trans h.applied_le)

/-- A state machine whose frontier has reached the last command of
something committed has run all of its commands. -/
theorem Inv.ran (hf : lastCmd c.2 ≤ (S.node n).frontier) :
    cmds c.2 <+: (S.node n).fsm := by
  have h := hi.node n
  rw [h.frontier] at hf
  rw [h.fsm, ← cmds_take_lastCmd c.2]
  apply cmds_mono
  rcases hi.sealed_total (hi.sealed_committed hc) h.applied with hle | hle
  · exact (List.take_prefix _ _).trans hle
  · refine List.prefix_of_prefix_length_le (List.take_prefix _ _) hle ?_
    rw [List.length_take]
    have := lastCmd_le ((S.node n).log.take (S.node n).applied)
    omega

end Reads

end Rostam.Lib.Raft
