/-
Atomicity of the critical sections of `Sections`.

Where every job keeps the discipline at a location, the accesses of
different jobs to it never mix: its lock lets one section at a time
through, and a job has only the one section that touches it. `serial`
says what that is good for: the memory there, and every answer read
there, is what the jobs give when their accesses are replayed one job
after the other.
-/
import Rostam.Lib.Sections
import Rostam.Lib.Trace

namespace Rostam.Lib

open Function

-- ======== what a step does

namespace Pool

variable {ι L A R C E α : Type} [DecidableEq ι] [DecidableEq L]
variable {M : Memory L A R C E} {s s' : Pool ι L A R C E α} {i : ι} {c : C}

/-- How a step moves its job between accesses, and what it does to the
locks. -/
inductive Move (s s' : Pool ι L A R C E α) (i : ι) : Prop
  | enter {locks : List L} {body : Prog A R α} {next : α → Job L A R α} :
      s.pc i = .idle (.crit locks body next) →
      s'.pc = update s.pc i (.lock [] locks body next) →
      s'.owner = s.owner → Move s s' i
  | acquire {held todo : List L} {k : L} {body : Prog A R α}
      {next : α → Job L A R α} :
      s.pc i = .lock held (k :: todo) body next → s.owner k = none →
      s'.pc = update s.pc i (.lock (held ++ [k]) todo body next) →
      s'.owner = update s.owner k (some i) → Move s s' i
  | leave {held : List L} {a : α} {next : α → Job L A R α} :
      s.pc i = .lock held [] (.done a) next →
      s'.pc = update s.pc i (.unlock held (next a)) →
      s'.owner = s.owner → Move s s' i
  | release {held : List L} {k : L} {rest : Job L A R α} :
      s.pc i = .unlock (k :: held) rest →
      s'.pc = update s.pc i (.unlock held rest) →
      s'.owner = update s.owner k none → Move s s' i
  | away {rest : Job L A R α} :
      s.pc i = .unlock [] rest →
      s'.pc = update s.pc i (.idle rest) →
      s'.owner = s.owner → Move s s' i

/-- A job inside a section performs its next access. -/
inductive Act (M : Memory L A R C E) (s s' : Pool ι L A R C E α) (i : ι)
    (c : C) : Prop
  | intro {held : List L} {acc : A} {k : R → Prog A R α}
      {next : α → Job L A R α} :
      s.pc i = .lock held [] (.call acc k) next →
      s'.pc = update s.pc i
        (.lock held [] (k (M.answer acc c s.mem)) next) →
      s'.owner = s.owner →
      (s'.mem = fun l => if M.touches acc l then
        M.write acc c l (s.mem l) else s.mem l) →
      s'.log = s.log ++ [⟨i, acc, c, M.answer acc c s.mem⟩] →
      Act M s s' i c

/-- A move leaves the other jobs where they are. -/
theorem Move.pc_of_ne (h : s.Move s' i) {j : ι} (hj : j ≠ i) :
    s'.pc j = s.pc j := by
  cases h with
  | enter _ hpc _ => rw [hpc, update_of_ne hj]
  | acquire _ _ hpc _ => rw [hpc, update_of_ne hj]
  | leave _ hpc _ => rw [hpc, update_of_ne hj]
  | release _ hpc _ => rw [hpc, update_of_ne hj]
  | away _ hpc _ => rw [hpc, update_of_ne hj]

/-- A step is a move, or it is one access of a job inside a section. -/
theorem step_cases (h : s.step M (i, c) = some s') :
    (s.Move s' i ∧ s'.mem = s.mem ∧ s'.log = s.log) ∨ s.Act M s' i c := by
  unfold step at h
  split at h
  · cases h
  · next locks body next hp =>
    injection h with h; subst h
    exact .inl ⟨.enter hp rfl rfl, rfl, rfl⟩
  · next held k todo body next hp =>
    split at h
    · cases h
    · next ho =>
      injection h with h; subst h
      exact .inl ⟨.acquire hp ho rfl rfl, rfl, rfl⟩
  · next held a next hp =>
    injection h with h; subst h
    exact .inl ⟨.leave hp rfl rfl, rfl, rfl⟩
  · next held acc k next hp =>
    cases h
    exact .inr (.intro hp rfl rfl rfl rfl)
  · next k held rest hp =>
    injection h with h; subst h
    exact .inl ⟨.release hp rfl rfl, rfl, rfl⟩
  · next rest hp =>
    injection h with h; subst h
    exact .inl ⟨.away hp rfl rfl, rfl, rfl⟩

-- ======== locks

/-- The lock table and the jobs agree on who holds what. -/
structure LockInv (s : Pool ι L A R C E α) : Prop where
  owns : ∀ k i, s.owner k = some i ↔ k ∈ (s.pc i).held
  nodup : ∀ i, (s.pc i).held.Nodup

omit [DecidableEq ι] [DecidableEq L] in
theorem lockInv_start (job : ι → Job L A R α) (m₀ : L → E) :
    LockInv (start job m₀ : Pool ι L A R C E α) where
  owns k i := by simp [start, Pc.held]
  nodup i := by simp [start, Pc.held]

omit [DecidableEq ι] [DecidableEq L] in
/-- A step that leaves every job's locks alone keeps the agreement. -/
theorem LockInv.of_held (hi : LockInv s) (ho : s'.owner = s.owner)
    (hh : ∀ j, (s'.pc j).held = (s.pc j).held) : LockInv s' where
  owns k j := by rw [ho, hh]; exact hi.owns k j
  nodup j := by rw [hh]; exact hi.nodup j

omit [DecidableEq L] in
/-- Moving one job's counter to another with the same locks. -/
theorem held_update {pc : ι → Pc L A R α} {p : Pc L A R α}
    (h : p.held = (pc i).held) (j : ι) :
    (update pc i p j).held = (pc j).held := by
  by_cases hj : j = i
  · subst hj; rw [update_self, h]
  · rw [update_of_ne hj]

theorem step_lockInv (hi : LockInv s) (h : s.step M (i, c) = some s') :
    LockInv s' := by
  rcases step_cases h with ⟨hm, -, -⟩ | ⟨hp, hpc, ho, -, -⟩
  · cases hm with
    | enter hp hpc ho =>
      refine hi.of_held ho fun j => ?_
      rw [hpc]
      exact held_update (by rw [hp]; rfl) j
    | leave hp hpc ho =>
      refine hi.of_held ho fun j => ?_
      rw [hpc]
      exact held_update (by rw [hp]; rfl) j
    | away hp hpc ho =>
      refine hi.of_held ho fun j => ?_
      rw [hpc]
      exact held_update (by rw [hp]; rfl) j
    | @acquire held todo k body next hp hfree hpc ho =>
      have hnone : ∀ j, k ∉ (s.pc j).held := by
        intro j hk
        rw [(hi.owns k j).mpr hk] at hfree
        cases hfree
      constructor
      · intro k' j
        rw [hpc, ho]
        by_cases hk : k' = k
        · subst hk
          rw [update_self]
          by_cases hj : j = i
          · subst hj
            simp [update_self, Pc.held]
          · rw [update_of_ne hj]
            simp [Ne.symm hj, hnone j]
        · rw [update_of_ne hk, hi.owns k' j]
          by_cases hj : j = i
          · subst hj
            rw [update_self, hp]
            simp [Pc.held, hk]
          · rw [update_of_ne hj]
      · intro j
        rw [hpc]
        by_cases hj : j = i
        · subst hj
          have hnd := hi.nodup j
          have hk := hnone j
          rw [hp] at hnd hk
          rw [update_self]
          show (held ++ [k]).Nodup
          rw [List.nodup_append]
          refine ⟨hnd, by simp, ?_⟩
          intro a ha b hb
          rw [List.mem_singleton.mp hb]
          rintro rfl
          exact hk ha
        · rw [update_of_ne hj]
          exact hi.nodup j
    | @release held k rest hp hpc ho =>
      have hnd := hi.nodup i
      rw [hp] at hnd
      have hk : k ∉ held := (List.nodup_cons.mp hnd).1
      have hmine : s.owner k = some i :=
        (hi.owns k i).mpr (by rw [hp]; exact List.mem_cons_self)
      constructor
      · intro k' j
        rw [hpc, ho]
        by_cases hk' : k' = k
        · subst hk'
          rw [update_self]
          by_cases hj : j = i
          · subst hj
            rw [update_self]
            simp [Pc.held, hk]
          · rw [update_of_ne hj]
            have hnot : k' ∉ (s.pc j).held := by
              intro hmem
              have hj' := (hi.owns k' j).mpr hmem
              rw [hmine] at hj'
              injection hj' with hj'
              exact hj hj'.symm
            simp [hnot]
        · rw [update_of_ne hk', hi.owns k' j]
          by_cases hj : j = i
          · subst hj
            rw [update_self, hp]
            simp [Pc.held, hk']
          · rw [update_of_ne hj]
      · intro j
        rw [hpc]
        by_cases hj : j = i
        · subst hj
          rw [update_self]
          exact (List.nodup_cons.mp hnd).2
        · rw [update_of_ne hj]
          exact hi.nodup j
  · refine hi.of_held ho fun j => ?_
    rw [hpc]
    exact held_update (by rw [hp]; rfl) j

-- ======== own runs

/-- What a job has done so far, completed by any run of what is left of
it, is a run of the job. -/
def RanInv (job : ι → Job L A R α) (s : Pool ι L A R C E α) : Prop :=
  ∀ i ys b, (s.pc i).Ran ys b →
    (job i).Ran ((s.own i).map (fun ev => (ev.acc, ev.res)) ++ ys) b

omit [DecidableEq L] in
theorem own_append {ev : Event ι A R C} (hlog : s'.log = s.log ++ [ev])
    (j : ι) :
    s'.own j = s.own j ++ if ev.thread = j then [ev] else [] := by
  unfold own
  rw [hlog, List.filter_append]
  by_cases hj : ev.thread = j <;> simp [hj]

theorem step_ranInv {job : ι → Job L A R α} (hi : RanInv job s)
    (h : s.step M (i, c) = some s') : RanInv job s' := by
  rcases step_cases h with ⟨hm, -, hlog⟩ | ⟨hp, hpc, -, -, hlog⟩
  · -- A move leaves the complete runs of what is left as they were.
    have hback : ∀ j ys b, (s'.pc j).Ran ys b → (s.pc j).Ran ys b := by
      intro j ys b hr
      by_cases hj : j = i
      · subst hj
        cases hm with
        | enter hp hpc ho =>
          rw [hpc, update_self] at hr
          obtain ⟨xs, a, ys', hb, hn, rfl⟩ := hr
          rw [hp]
          exact .crit hb hn
        | acquire hp hfree hpc ho =>
          rw [hpc, update_self] at hr
          rw [hp]
          exact hr
        | @leave held a next hp hpc ho =>
          rw [hpc, update_self] at hr
          rw [hp]
          exact ⟨[], a, ys, .done a, hr, rfl⟩
        | release hp hpc ho =>
          rw [hpc, update_self] at hr
          rw [hp]
          exact hr
        | away hp hpc ho =>
          rw [hpc, update_self] at hr
          rw [hp]
          exact hr
      · rwa [hm.pc_of_ne hj] at hr
    intro j ys b hr
    have hown : s'.own j = s.own j := by unfold own; rw [hlog]
    rw [hown]
    exact hi j ys b (hback j ys b hr)
  · intro j ys b hr
    rw [own_append hlog]
    by_cases hj : j = i
    · subst hj
      rw [hpc, update_self] at hr
      obtain ⟨xs, a, ys', hb, hn, rfl⟩ := hr
      have hpre := hi j _ b (by rw [hp]; exact ⟨_, a, ys', .call hb, hn, rfl⟩)
      simpa using hpre
    · rw [hpc, update_of_ne hj] at hr
      rw [if_neg (Ne.symm hj), List.append_nil]
      exact hi j ys b hr

-- ======== serial order

/-- Accesses of different jobs to `l` do not mix: the log there is one
block a job, and a job that has its block is through with `l` or is
the last one, still in its section. -/
structure SerialInv (M : Memory L A R C E) (l : L)
    (s : Pool ι L A R C E α) (order : List ι) : Prop where
  nodup : order.Nodup
  blocks : s.log.filter (fun ev => M.touches ev.acc l)
    = order.flatMap (s.part M l)
  mem : ∀ ev ∈ s.log, M.touches ev.acc l = true → ev.thread ∈ order
  through : ∀ i ∈ order, (s.pc i).Avoids M l
    ∨ ((s.pc i).Inside M l ∧ order.getLast? = some i)
  tidy : ∀ i, (s.pc i).Tidy M l

omit [DecidableEq L] in
theorem serialInv_start {l : L} {job : ι → Job L A R α} (m₀ : L → E)
    (ht : ∀ i, (job i).Tidy M l) :
    SerialInv M l (start job m₀ : Pool ι L A R C E α) [] where
  nodup := List.nodup_nil
  blocks := rfl
  mem _ hev := absurd hev List.not_mem_nil
  through _ hi := absurd hi List.not_mem_nil
  tidy i := ht i

section Step

variable {l : L} {order : List ι}

variable {acc : A}

/-- A move keeps the discipline, and a job through with `l` stays so. -/
theorem Move.keeps (h : s.Move s' i) (ht : (s.pc i).Tidy M l) :
    (s'.pc i).Tidy M l ∧ ((s.pc i).Avoids M l → (s'.pc i).Avoids M l)
      ∧ ((s.pc i).Inside M l →
        (s'.pc i).Avoids M l ∨ (s'.pc i).Inside M l) := by
  cases h with
  | enter hp hpc ho =>
    rw [hp] at ht ⊢
    rw [hpc, update_self]
    exact ⟨ht, id, fun h => h.elim⟩
  | @acquire held todo k body next hp hfree hpc ho =>
    rw [hp] at ht ⊢
    rw [hpc, update_self]
    refine ⟨?_, id, fun h => .inr ⟨List.mem_append_left _ h.1, h.2⟩⟩
    have happ : held ++ [k] ++ todo = held ++ k :: todo := by simp
    simpa only [Pc.Tidy, happ] using ht
  | @leave held a next hp hpc ho =>
    rw [hp] at ht ⊢
    rw [hpc, update_self]
    refine ⟨?_, fun h => h.2 a, fun h => .inl (h.2 a)⟩
    rcases ht with ht | ht
    · exact ht.2 a
    · exact (ht.2 a).tidy
  | release hp hpc ho =>
    rw [hp] at ht ⊢
    rw [hpc, update_self]
    exact ⟨ht, id, fun h => h.elim⟩
  | away hp hpc ho =>
    rw [hp] at ht ⊢
    rw [hpc, update_self]
    exact ⟨ht, id, fun h => h.elim⟩

/-- A move keeps the serial order. -/
theorem SerialInv.move (hs : SerialInv M l s order) (h : s.Move s' i)
    (hlog : s'.log = s.log) : SerialInv M l s' order where
  nodup := hs.nodup
  blocks := by
    have hpart : s'.part M l = s.part M l := by
      funext j; unfold part; rw [hlog]
    rw [hlog, hpart]
    exact hs.blocks
  mem ev hev := hs.mem ev (hlog ▸ hev)
  through j hj := by
    by_cases hji : j = i
    · subst hji
      obtain ⟨-, havoid, hin⟩ := h.keeps (hs.tidy j)
      rcases hs.through j hj with ha | ⟨hi, hlast⟩
      · exact .inl (havoid ha)
      · rcases hin hi with ha | hi'
        · exact .inl ha
        · exact .inr ⟨hi', hlast⟩
    · rw [h.pc_of_ne hji]
      exact hs.through j hj
  tidy j := by
    by_cases hji : j = i
    · subst hji
      exact (h.keeps (hs.tidy j)).1
    · rw [h.pc_of_ne hji]
      exact hs.tidy j

omit [DecidableEq L] in
/-- An access adds to its own job's part of every location it touches. -/
theorem part_append {ev : Event ι A R C} (hlog : s'.log = s.log ++ [ev])
    (l : L) (j : ι) :
    s'.part M l j = s.part M l j
      ++ if ev.thread = j ∧ M.touches ev.acc l = true then
          [ev] else [] := by
  unfold part
  rw [hlog, List.filter_append]
  by_cases hj : ev.thread = j <;> by_cases ht : M.touches ev.acc l = true
    <;> simp [hj, ht]

omit [DecidableEq ι] in
/-- The blocks when the last job of the order adds to its own. -/
theorem flatMap_last {f g : ι → List (Event ι A R C)} {i : ι}
    {xs : List (Event ι A R C)}
    (hn : order.Nodup) (hlast : order.getLast? = some i) (hi : g i = f i ++ xs)
    (hne : ∀ j, j ≠ i → g j = f j) :
    order.flatMap g = order.flatMap f ++ xs := by
  obtain ⟨init, rfl⟩ := List.getLast?_eq_some_iff.mp hlast
  have hnot : i ∉ init := by
    intro hmem
    rw [List.nodup_append] at hn
    exact hn.2.2 i hmem i (by simp) rfl
  have hinit : init.flatMap g = init.flatMap f := by
    apply List.flatMap_congr
    intro j hj
    exact hne j fun h => hnot (h ▸ hj)
  simp [List.flatMap_append, hinit, hi]

omit [DecidableEq L] in
/-- A job keeps its place through an access elsewhere. -/
theorem SerialInv.elsewhere (hs : SerialInv M l s order) {held : List L}
    {acc : A}
    {k : R → Prog A R α} {r : R} {next : α → Job L A R α}
    (hp : s.pc i = .lock held [] (.call acc k) next)
    (hpc : s'.pc = update s.pc i (.lock held [] (k r) next))
    (hlog : s'.log = s.log ++ [⟨i, acc, c, r⟩])
    (ht : M.touches acc l = false) :
    SerialInv M l s' order where
  nodup := hs.nodup
  blocks := by
    have hpart : s'.part M l = s.part M l := by
      funext j
      rw [part_append hlog]
      simp [ht]
    rw [hpart, ← hs.blocks, hlog, List.filter_append]
    simp [ht]
  mem ev hev htouch := by
    rw [hlog] at hev
    rcases List.mem_append.mp hev with hold | hnew
    · exact hs.mem ev hold htouch
    · rw [List.mem_singleton.mp hnew, ht] at htouch
      cases htouch
  through j hj := by
    rw [hpc]
    by_cases hji : j = i
    · subst hji
      have hpre := hs.through j hj
      rw [hp] at hpre
      rw [update_self]
      rcases hpre with ha | hin
      · exact .inl ⟨ha.1.2 r, ha.2⟩
      · exact .inr hin
    · rw [update_of_ne hji]
      exact hs.through j hj
  tidy j := by
    rw [hpc]
    by_cases hji : j = i
    · subst hji
      have hpre := hs.tidy j
      rw [hp] at hpre
      rw [update_self]
      rcases hpre with ha | hin
      · exact .inl ⟨ha.1.2 r, ha.2⟩
      · exact .inr hin
    · rw [update_of_ne hji]
      exact hs.tidy j

omit [DecidableEq L] in
/-- A job that is about to touch `l` is in the one section of it that
may, and not through with it. -/
theorem SerialInv.inside (hs : SerialInv M l s order) {held : List L}
    {k : R → Prog A R α}
    {next : α → Job L A R α} (hp : s.pc i = .lock held [] (.call acc k) next)
    (ht : M.touches acc l = true) :
    (s.pc i).Inside M l ∧ ¬ (s.pc i).Avoids M l := by
  have hbody : ¬ (Prog.call acc k).Avoids M l := by
    intro ha
    have hf : M.touches acc l = false := ha.1
    rw [ht] at hf
    cases hf
  have htidy := hs.tidy i
  rw [hp] at htidy ⊢
  refine ⟨?_, fun ha => hbody ha.1⟩
  rcases htidy with ha | hin
  · exact absurd ha.1 hbody
  · rw [List.append_nil] at hin
    exact hin

omit [DecidableEq L] in
/-- The order after an access to `l`: its job is last in it, and the
others are through. -/
theorem SerialInv.extend (hs : SerialInv M l s order) {order' : List ι} {r : R}
    {p : Pc L A R α}
    (hpc : s'.pc = update s.pc i p) (hlog : s'.log = s.log ++ [⟨i, acc, c, r⟩])
    (ht : M.touches acc l = true) (hp : p.Inside M l ∧ p.Tidy M l)
    (hn : order'.Nodup)
    (hlast : order'.getLast? = some i) (hsub : order ⊆ order')
    (hflat : order'.flatMap (s.part M l) = order.flatMap (s.part M l))
    (hothers : ∀ j ∈ order', j ≠ i → (s.pc j).Avoids M l) :
    SerialInv M l s' order' where
  nodup := hn
  blocks := by
    have h := flatMap_last (f := s.part M l) (g := s'.part M l) hn hlast
      (by rw [part_append hlog, if_pos ⟨rfl, ht⟩])
      (fun j hj => by
        rw [part_append hlog, if_neg fun hc => hj hc.1.symm, List.append_nil])
    rw [h, hflat, ← hs.blocks, hlog, List.filter_append]
    simp [ht]
  mem ev hev htouch := by
    rw [hlog] at hev
    rcases List.mem_append.mp hev with hold | hnew
    · exact hsub (hs.mem ev hold htouch)
    · rw [List.mem_singleton.mp hnew]
      exact List.mem_of_getLast? hlast
  through j hj := by
    rw [hpc]
    by_cases hji : j = i
    · subst hji
      rw [update_self]
      exact .inr ⟨hp.1, hlast⟩
    · rw [update_of_ne hji]
      exact .inl (hothers j hj hji)
  tidy j := by
    rw [hpc]
    by_cases hji : j = i
    · subst hji
      rw [update_self]
      exact hp.2
    · rw [update_of_ne hji]
      exact hs.tidy j

omit [DecidableEq L] in
/-- An access to `l` continues the last block or opens a new one: the
lock of `l` is its job's, so no other job is in a section that may
touch it. -/
theorem SerialInv.here (hs : SerialInv M l s order) (hlock : LockInv s)
    {held : List L}
    {k : R → Prog A R α} {r : R} {next : α → Job L A R α}
    (hp : s.pc i = .lock held [] (.call acc k) next)
    (hpc : s'.pc = update s.pc i (.lock held [] (k r) next))
    (hlog : s'.log = s.log ++ [⟨i, acc, c, r⟩]) (ht : M.touches acc l = true) :
    ∃ order', SerialInv M l s' order' := by
  obtain ⟨hin, hnav⟩ := hs.inside hp ht
  have hafter : (Pc.lock held [] (k r) next).Inside M l
      ∧ (Pc.lock held [] (k r) next).Tidy M l := by
    rw [hp] at hin
    exact ⟨hin, .inr ⟨by simpa using hin.1, hin.2⟩⟩
  have hothers : ∀ j ∈ order, j ≠ i → (s.pc j).Avoids M l := by
    intro j hj hji
    rcases hs.through j hj with ha | ⟨hjin, -⟩
    · exact ha
    · have h1 := (hlock.owns l j).mpr hjin.held_mem
      have h2 := (hlock.owns l i).mpr hin.held_mem
      rw [h1] at h2
      injection h2 with h2
      exact absurd h2 hji
  by_cases hi : i ∈ order
  · -- The job has its block: it is the last one.
    have hlast : order.getLast? = some i := by
      rcases hs.through i hi with ha | ⟨-, hlast⟩
      · exact absurd ha hnav
      · exact hlast
    exact ⟨order, hs.extend hpc hlog ht hafter hs.nodup hlast
      (List.Subset.refl order) rfl hothers⟩
  · -- It opens its block behind everyone else's.
    have hempty : s.part M l i = [] := by
      unfold part
      rw [List.filter_eq_nil_iff]
      intro ev hev hc
      simp only [Bool.and_eq_true, decide_eq_true_eq] at hc
      exact hi (hc.1 ▸ hs.mem ev hev hc.2)
    refine ⟨order ++ [i], hs.extend hpc hlog ht hafter ?_ (by simp)
      (List.subset_append_left order [i]) ?_ ?_⟩
    · rw [List.nodup_append]
      refine ⟨hs.nodup, by simp, ?_⟩
      intro a ha b hb
      rw [List.mem_singleton.mp hb]
      rintro rfl
      exact hi ha
    · rw [List.flatMap_append]
      simp [hempty]
    · intro j hj hji
      rcases List.mem_append.mp hj with hj | hj
      · exact hothers j hj hji
      · exact absurd (List.mem_singleton.mp hj) hji

theorem SerialInv.step (hs : SerialInv M l s order) (hlock : LockInv s)
    (h : s.step M (i, c) = some s') : ∃ order', SerialInv M l s' order' := by
  rcases step_cases h with ⟨hm, -, hlog⟩ | @⟨_, acc, _, _, hp, hpc, -, -, hlog⟩
  · exact ⟨order, hs.move hm hlog⟩
  · cases ht : M.touches acc l with
    | false => exact ⟨order, hs.elsewhere hp hpc hlog ht⟩
    | true => exact hs.here hlock hp hpc hlog ht

end Step

variable {m₀ : L → E}

-- ======== replay

/-- The memory at `l` is what its accesses give, replayed in the order
they took effect. -/
theorem step_replay [DecidableEq R] {l : L}
    (hr : M.replay l (m₀ l) (s.log.filter fun ev => M.touches ev.acc l)
      = some (s.mem l))
    (h : s.step M (i, c) = some s') :
    M.replay l (m₀ l) (s'.log.filter fun ev => M.touches ev.acc l)
      = some (s'.mem l) := by
  rcases step_cases h with ⟨-, hmem, hlog⟩
    | @⟨_, acc, _, _, -, -, -, hmem, hlog⟩
  · rw [hmem, hlog]
    exact hr
  · rw [hmem, hlog, List.filter_append, M.replay_append, hr]
    cases ht : M.touches acc l with
    | false => simp [ht, Memory.replay]
    | true =>
      have ha := M.answer_eq acc c l s.mem ht
      simp [ht, Memory.replay, ha]

/-- **Sections are atomic.** Where every job keeps the discipline at
`l`, in every state of every run there is an order of the jobs such
that replaying each one's accesses to `l` as one block, in that order,
gives every answer read at `l` and the memory there. -/
theorem serial [DecidableEq R] {job : ι → Job L A R α}
    {l : L} (ht : ∀ i, (job i).Tidy M l) {tr : List (ι × C)}
    (h : Reach (step M) Free (start job m₀) tr s) :
    ∃ order : List ι, order.Nodup
      ∧ (∀ ev ∈ s.log, M.touches ev.acc l = true → ev.thread ∈ order)
      ∧ M.replay l (m₀ l) (order.flatMap (s.part M l)) = some (s.mem l) := by
  have hinv := h.stateInvariant
    (P := fun s => LockInv s ∧ (∃ order, SerialInv M l s order)
      ∧ M.replay l (m₀ l) (s.log.filter fun ev => M.touches ev.acc l)
        = some (s.mem l))
    ⟨lockInv_start job m₀, ⟨[], serialInv_start m₀ ht⟩, rfl⟩
    (by
      intro s x s' ⟨hlock, ⟨order, hs⟩, hr⟩ _ hstep
      exact ⟨step_lockInv hlock hstep, hs.step hlock hstep,
        step_replay hr hstep⟩)
  obtain ⟨-, ⟨order, hs⟩, hr⟩ := hinv
  exact ⟨order, hs.nodup, hs.mem, hs.blocks ▸ hr⟩

/-- What a job returned is the outcome of a run of it in which it made
exactly its accesses in the log and was answered as they were. -/
theorem ran {job : ι → Job L A R α} {tr : List (ι × C)}
    (h : Reach (step M) Free (start job m₀) tr s) {i : ι} {b : α}
    (hret : s.pc i = .idle (.ret b)) :
    (job i).Ran ((s.own i).map fun ev => (ev.acc, ev.res)) b := by
  have hinv : RanInv job s := by
    refine h.stateInvariant ?_ ?_
    · intro j ys b hr
      exact hr
    · intro s x s' hs _ hstep
      exact step_ranInv hs hstep
  have hb := hinv i [] b (by rw [hret]; exact .ret b)
  simpa using hb

end Pool

end Rostam.Lib
