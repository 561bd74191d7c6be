/-
The applied index never passes an entry that was not run, and no batching
of the log makes a difference.

Everything is said about the calls of applyEntryData the machine made
(`Run`): they take the state from where it began to where it is (`Ran`),
and those that came to a verdict are one for each command up to an index
that is at least both recorded ones (`At`). This holds after each call
and each change of an index.

`deliver` is the machine without batches: it takes one entry and records
it at once. A call of the real machine ends where `deliver` ends
(`applyBatch_spec`), although the header and the index in memory may lag
behind within a batch; at a wait, a halt and the end of a batch they have
caught up.
-/
import Rostam.Shard.Apply

namespace Rostam.Shard.Apply

open Rostam.Lib

variable {σ E Env : Type}

-- ======== runs

/-- The run came to a verdict, and the process went on. -/
def Run.settles (cfg : Cfg σ E Env) (r : Run E Env) : Bool :=
  classifyApplyErr r.response.err ≠ .retry && !isFatal cfg r.response

/-- The entries that were run to such a verdict, in order. -/
def settled (cfg : Cfg σ E Env) (runs : List (Run E Env)) : List (Log E) :=
  (runs.filter (Run.settles cfg)).map Run.log

/-- `applyEntryData` makes the runs, one after the other, and they take
the state from `s` to `s'`. -/
def Ran (cfg : Cfg σ E Env) : σ → List (Run E Env) → σ → Prop
  | s, [], s' => s' = s
  | s, r :: runs, s' =>
    (cfg.applyEntryData r.env r.log.data s).2 = r.response
      ∧ Ran cfg (cfg.applyEntryData r.env r.log.data s).1 runs s'

/-- The runs of one entry: it is tried again and again, to the last of
them. -/
def Tried (l : Log E) (runs : List (Run E Env)) (last : Run E Env) : Prop :=
  ∃ retried, runs = retried ++ [last] ∧ last.log = l
    ∧ ∀ r ∈ retried, r.log = l ∧ classifyApplyErr r.response.err = .retry

/-- How `applyWithRetry` takes a response when the store closes behind
it. -/
def Outcome.of (r : ApplyResponse) : Outcome :=
  if classifyApplyErr r.err ≠ .retry then .verdict r else .blocked r

/-- The attempts to apply an entry, on the state. -/
def retries (cfg : Cfg σ E Env) (l : Log E) :
    List Env → σ → ApplyResponse → σ × List (Run E Env) × Outcome
  | [], s, r => (s, [], .blocked r)
  | env :: more, s, _ =>
    let x := cfg.applyEntryData env l.data s
    if classifyApplyErr x.2.err ≠ .retry then
      (x.1, [⟨l, env, x.2⟩], .verdict x.2)
    else
      let y := retries cfg l more x.1 x.2
      (y.1, ⟨l, env, x.2⟩ :: y.2.1, y.2.2)

def attempts (cfg : Cfg σ E Env) (d : Delivery E Env) (s : σ) :
    σ × List (Run E Env) × Outcome :=
  retries cfg d.log (d.first :: d.more) s noResponse

section Runs

variable {cfg : Cfg σ E Env} {l : Log E} {runs : List (Run E Env)}
  {last : Run E Env} {s s' : σ}

theorem Ran.snoc (h : Ran cfg s runs s') (l : Log E) (env : Env) :
    Ran cfg s (runs ++ [⟨l, env, (cfg.applyEntryData env l.data s').2⟩])
      (cfg.applyEntryData env l.data s').1 := by
  induction runs generalizing s with
  | nil =>
    obtain rfl : s' = s := h
    exact ⟨rfl, rfl⟩
  | cons r runs ih => exact ⟨h.1, ih h.2⟩

theorem settled_append (cfg : Cfg σ E Env) (a b : List (Run E Env)) :
    settled cfg (a ++ b) = settled cfg a ++ settled cfg b := by
  unfold settled
  rw [List.filter_append, List.map_append]

theorem Run.settles_of_retry {r : Run E Env}
    (h : classifyApplyErr r.response.err = .retry) :
    r.settles cfg = false := by
  simp [Run.settles, h]

/-- A verdict settles the entry if it does not halt the process. -/
theorem Run.settles_of_verdict {r : Run E Env}
    (h : classifyApplyErr r.response.err ≠ .retry) :
    r.settles cfg = !isFatal cfg r.response := by
  simp [Run.settles, h]

theorem settled_singleton (cfg : Cfg σ E Env) (r : Run E Env) :
    settled cfg [r] = if r.settles cfg then [r.log] else [] := by
  unfold settled
  rw [List.filter_cons]
  split <;> rfl

/-- There is a last attempt, and it says how they ended. -/
theorem retries_tried (cfg : Cfg σ E Env) (l : Log E) (more : List Env) :
    ∀ (env : Env) (s : σ) (r : ApplyResponse),
      ∃ last, Tried l (retries cfg l (env :: more) s r).2.1 last
        ∧ (retries cfg l (env :: more) s r).2.2 = .of last.response := by
  induction more with
  | nil =>
    intro env s r
    refine ⟨⟨l, env, (cfg.applyEntryData env l.data s).2⟩, ?_⟩
    rw [retries]
    dsimp only
    split
    · next h => exact ⟨⟨[], rfl, rfl, by simp⟩, (if_pos h).symm⟩
    · next h => exact ⟨⟨[], rfl, rfl, by simp⟩, (if_neg h).symm⟩
  | cons env' more ih =>
    intro env s r
    rw [retries]
    dsimp only
    split
    · next h =>
      exact ⟨⟨l, env, (cfg.applyEntryData env l.data s).2⟩,
        ⟨[], rfl, rfl, by simp⟩, (if_pos h).symm⟩
    · next h =>
      obtain ⟨last, ⟨retried, hown, hlog, hall⟩, hout⟩ :=
        ih env' (cfg.applyEntryData env l.data s).1
          (cfg.applyEntryData env l.data s).2
      refine ⟨last, ⟨_ :: retried, congrArg (_ :: ·) hown, hlog, ?_⟩, hout⟩
      exact List.forall_mem_cons.2 ⟨⟨rfl, not_not.1 h⟩, hall⟩

end Runs

-- ======== one entry at a time

/-- What no batching changes: `recorded` is the higher of the indexes. -/
structure Core (σ E Env : Type) where
  state : σ
  recorded : Nat
  runs : List (Run E Env)
  abandoned : Bool
  halted : Bool

def Fsm.core (f : Fsm σ E Env) : Core σ E Env :=
  ⟨f.state, max f.header f.applied, f.runs, f.abandoned, f.halted⟩

/-- Nothing more is taken. -/
abbrev Core.down (c : Core σ E Env) : Bool := c.abandoned || c.halted

abbrev Fsm.down (f : Fsm σ E Env) : Bool := f.abandoned || f.halted

/-- Behind the attempts. -/
def Core.conclude (cfg : Cfg σ E Env) (idx : Nat) (c : Core σ E Env) :
    Outcome → Core σ E Env
  | .blocked _ => { c with abandoned := true }
  | .verdict r =>
    if isFatal cfg r then { c with halted := true }
    else { c with recorded := idx }

/-- Take one entry, and record it. -/
def deliver (cfg : Cfg σ E Env) (c : Core σ E Env) (d : Delivery E Env) :
    Core σ E Env :=
  if c.down then c
  else if !d.log.command then
    { c with recorded := max c.recorded d.log.index }
  else if cfg.mmap && d.log.index ≤ c.recorded then c
  else
    let x := attempts cfg d c.state
    { c with state := x.1, runs := c.runs ++ x.2.1 }.conclude cfg d.log.index
      x.2.2

/-- The commands up to an index. -/
def upTo (log : List (Log E)) (p : Nat) : List (Log E) :=
  log.filter fun l => l.command && l.index ≤ p

/-- A log: its indexes increase, from one on. -/
structure IsLog (log : List (Log E)) : Prop where
  increasing : (log.map Log.index).Pairwise (· < ·)
  pos : ∀ l ∈ log, 0 < l.index

/-- The commands of `front` are in the recorded index `p`, and `ds` is
to come. -/
structure Front (cfg : Cfg σ E Env) (log front : List (Log E))
    (ds : List (Delivery E Env)) (p : Nat) : Prop where
  split : ∃ after, log = front ++ (ds.map Delivery.log ++ after)
  seen : ∀ l ∈ front, l.command = true → l.index ≤ p
  ahead : cfg.mmap = false → ∀ d ∈ ds, p < d.log.index

/-- The higher of `a` and the indexes of `ds`. -/
def top (a : Nat) (ds : List (Delivery E Env)) : Nat :=
  ds.foldl (fun a d => max a d.log.index) a

/-- The next command behind the index `p`. -/
structure Next (log : List (Log E)) (p : Nat) (l : Log E) : Prop where
  mem : l ∈ log
  le : p ≤ l.index
  upTo : upTo log l.index = upTo log p ++ [l]

section Deliver

variable {cfg : Cfg σ E Env} {log front : List (Log E)} {p : Nat}
  {d : Delivery E Env} {ds : List (Delivery E Env)} {c : Core σ E Env}

/-- What is behind an entry has higher indexes. -/
theorem IsLog.after_lt {l : Log E} {after : List (Log E)}
    (h : IsLog (front ++ l :: after)) : ∀ x ∈ after, l.index < x.index := by
  have hinc := h.increasing
  rw [List.map_append, List.pairwise_append, List.map_cons,
    List.pairwise_cons] at hinc
  exact fun x hx => hinc.2.1.1 _ (List.mem_map_of_mem hx)

theorem Front.behind (h : IsLog log) (hf : Front cfg log front (d :: ds) p) :
    ∀ x ∈ ds, d.log.index < x.log.index := by
  obtain ⟨after, rfl⟩ := hf.split
  intro x hx
  exact h.after_lt x.log (List.mem_append_left _ (List.mem_map_of_mem hx))

/-- Part of what is to come. -/
theorem Front.take {rest : List (Delivery E Env)}
    (h : Front cfg log front (ds ++ rest) p) : Front cfg log front ds p := by
  obtain ⟨after, hlog⟩ := h.split
  refine ⟨⟨rest.map Delivery.log ++ after, ?_⟩, h.seen,
    fun hm x hx => h.ahead hm x (List.mem_append_left _ hx)⟩
  rw [hlog, List.map_append, List.append_assoc]

/-- One entry further. -/
theorem Front.step (h : IsLog log) (hf : Front cfg log front (d :: ds) p) :
    Front cfg log (front ++ [d.log]) ds (max p d.log.index) := by
  obtain ⟨after, hlog⟩ := hf.split
  refine ⟨⟨after, ?_⟩, fun l hl hcmd => ?_, fun hm x hx => ?_⟩
  · rw [hlog, List.append_assoc]
    rfl
  · rcases List.mem_append.1 hl with hl | hl
    · exact (hf.seen l hl hcmd).trans (Nat.le_max_left _ _)
    · rw [List.mem_singleton.1 hl]
      exact Nat.le_max_right _ _
  · exact max_lt (hf.ahead hm x (List.mem_cons_of_mem _ hx))
      (hf.behind h x hx)

/-- Many entries further. -/
theorem Front.steps (h : IsLog log) :
    ∀ (ds rest : List (Delivery E Env)) (front : List (Log E)) (p : Nat),
      Front cfg log front (ds ++ rest) p →
      Front cfg log (front ++ ds.map Delivery.log) rest (top p ds) := by
  intro ds
  induction ds with
  | nil =>
    intro rest front p hf
    rw [List.map_nil, List.append_nil]
    exact hf
  | cons d ds ih =>
    intro rest front p hf
    have := ih rest _ _ (hf.step h)
    rw [List.append_assoc] at this
    exact this

/-- Between the recorded index and the next entry there is no command. -/
theorem Front.upTo_next (h : IsLog log)
    (hf : Front cfg log front (d :: ds) p) (hlt : p < d.log.index) :
    upTo log d.log.index
      = upTo log p ++ if d.log.command then [d.log] else [] := by
  have hseen := hf.seen
  obtain ⟨after, hlog⟩ := hf.split
  rw [List.map_cons, List.cons_append] at hlog
  generalize ds.map Delivery.log ++ after = rest at hlog
  subst hlog
  have hrest := h.after_lt
  have hfront : front.filter (fun l => l.command && l.index ≤ d.log.index)
      = front.filter fun l => l.command && l.index ≤ p := by
    apply List.filter_congr
    intro l hl
    cases hc : l.command with
    | false => rfl
    | true =>
      have := hseen l hl hc
      simp only [Bool.true_and, decide_eq_decide]
      omega
  have hnil : ∀ q, q ≤ d.log.index →
      rest.filter (fun l => l.command && l.index ≤ q) = [] := by
    intro q hq
    rw [List.filter_eq_nil_iff]
    intro l hl hin
    have := hrest l hl
    have := of_decide_eq_true (Bool.and_eq_true_iff.1 hin).2
    omega
  unfold upTo
  rw [List.filter_append, List.filter_append, List.filter_cons,
    List.filter_cons, hfront, hnil _ le_rfl, hnil _ hlt.le]
  cases hc : d.log.command with
  | false => simp
  | true => simp [Nat.not_le.2 hlt]

theorem Front.next (h : IsLog log) (hf : Front cfg log front (d :: ds) p)
    (hc : d.log.command = true) (hlt : p < d.log.index) :
    Next log p d.log := by
  refine ⟨?_, hlt.le, ?_⟩
  · obtain ⟨after, hlog⟩ := hf.split
    rw [hlog]
    exact List.mem_append_right _ List.mem_cons_self
  · rw [hf.upTo_next h hlt, hc]
    rfl

/-- Nothing is taken once the entry before was given up or was fatal. -/
theorem deliver_down (h : c.down = true) : deliver cfg c d = c := if_pos h

theorem foldl_deliver_down (h : c.down = true)
    (ds : List (Delivery E Env)) : ds.foldl (deliver cfg) c = c := by
  induction ds with
  | nil => rfl
  | cons d ds ih => rw [List.foldl_cons, deliver_down h, ih]

theorem deliver_config (h : c.down = false) (hc : d.log.command = false) :
    deliver cfg c d = { c with recorded := max c.recorded d.log.index } := by
  unfold deliver
  rw [if_neg (Bool.not_eq_true _ ▸ h), hc]
  rfl

theorem deliver_skip (h : c.down = false) (hc : d.log.command = true)
    (hm : cfg.mmap = true) (hle : d.log.index ≤ c.recorded) :
    deliver cfg c d = c := by
  unfold deliver
  rw [if_neg (Bool.not_eq_true _ ▸ h), hc, hm, decide_eq_true hle]
  rfl

/-- A new command is run, to its verdict or to the shutdown. -/
theorem deliver_run (h : c.down = false) (hc : d.log.command = true)
    (hnew : cfg.mmap = true → c.recorded < d.log.index) :
    deliver cfg c d
      = { c with
          state := (attempts cfg d c.state).1
          runs := c.runs ++ (attempts cfg d c.state).2.1 }.conclude cfg
        d.log.index (attempts cfg d c.state).2.2 := by
  have hskip : ¬ (cfg.mmap && decide (d.log.index ≤ c.recorded)) = true := by
    intro hs
    obtain ⟨hm, hle⟩ := Bool.and_eq_true_iff.1 hs
    exact Nat.not_le.2 (hnew hm) (of_decide_eq_true hle)
  unfold deliver
  rw [if_neg (Bool.not_eq_true _ ▸ h), hc, if_neg (by decide), if_neg hskip]

theorem Core.conclude_recorded {idx : Nat} {out : Outcome}
    (h : (c.conclude cfg idx out).down = false) :
    (c.conclude cfg idx out).recorded = idx := by
  cases out with
  | blocked r => cases h
  | verdict r =>
    by_cases hr : isFatal cfg r = true
    · simp [Core.conclude, hr] at h
    · simp [Core.conclude, hr]

/-- A delivery that is not interrupted records its entry. -/
theorem Front.deliver_recorded (hf : Front cfg log front (d :: ds) c.recorded)
    (hup : (deliver cfg c d).down = false) :
    (deliver cfg c d).recorded = max c.recorded d.log.index := by
  by_cases hd : c.down = true
  · rw [deliver_down hd] at hup
    exact absurd (hd.symm.trans hup) (by decide)
  have hd := Bool.not_eq_true _ ▸ hd
  cases hc : d.log.command with
  | false => rw [deliver_config hd hc]
  | true =>
    by_cases hskip : cfg.mmap = true ∧ d.log.index ≤ c.recorded
    · rw [deliver_skip hd hc hskip.1 hskip.2, Nat.max_eq_left hskip.2]
    · have hnew : cfg.mmap = true → c.recorded < d.log.index :=
        fun hm => Nat.lt_of_not_le fun hle => hskip ⟨hm, hle⟩
      have hlt : c.recorded < d.log.index := by
        cases hm : cfg.mmap with
        | false => exact hf.ahead hm d List.mem_cons_self
        | true => exact hnew hm
      rw [deliver_run hd hc hnew] at hup ⊢
      rw [Nat.max_eq_right hlt.le]
      exact Core.conclude_recorded hup

/-- And many of them the last. -/
theorem Front.deliver_many (h : IsLog log) :
    ∀ (ds rest : List (Delivery E Env)) (front : List (Log E))
      (c : Core σ E Env), Front cfg log front (ds ++ rest) c.recorded →
      (ds.foldl (deliver cfg) c).down = false →
      (ds.foldl (deliver cfg) c).recorded = top c.recorded ds := by
  intro ds
  induction ds with
  | nil => exact fun _ _ _ _ _ => rfl
  | cons d ds ih =>
    intro rest front c hf hup
    rw [List.foldl_cons] at hup ⊢
    have hd : (deliver cfg c d).down = false := by
      by_contra hd
      have hd := Bool.not_eq_false _ ▸ hd
      rw [foldl_deliver_down hd] at hup
      exact absurd (hd.symm.trans hup) (by decide)
    have hrec := hf.deliver_recorded hd
    rw [ih rest _ _ (hrec ▸ hf.step h) hup, hrec]
    rfl

end Deliver

-- ======== every moment

/-- The indexes are within the commands up to `p`, and the runs took the
state here and settled just these. -/
structure Fits (cfg : Cfg σ E Env) (init : σ) (log : List (Log E)) (p : Nat)
    (m : Moment σ E Env) : Prop where
  header : m.header ≤ p
  applied : m.applied ≤ p
  settled : settled cfg m.runs = upTo log p
  ran : Ran cfg init m.runs m.state
  mem : ∀ r ∈ m.runs, r.log ∈ log

/-- From one moment to a later one. -/
structure Climb (m m' : Moment σ E Env) : Prop where
  header : m.header ≤ m'.header
  life : m.life ≤ m'.life
  applied : m.life = m'.life → m.applied ≤ m'.applied

/-- So are all that were, and the indexes never fell. -/
structure At (cfg : Cfg σ E Env) (init : σ) (log : List (Log E)) (p : Nat)
    (f : Fsm σ E Env) : Prop extends Fits cfg init log p f.toMoment where
  safe : ∀ m ∈ f.past, ∃ q, Fits cfg init log q m
  climb : f.past.Pairwise Climb
  below : ∀ m ∈ f.past, Climb m f.toMoment

/-- The commands settled behind the attempts at the one of index `idx`. -/
def reach (cfg : Cfg σ E Env) (idx p : Nat) : Outcome → Nat
  | .blocked _ => p
  | .verdict r => if isFatal cfg r then p else idx

section Moments

variable {cfg : Cfg σ E Env} {init : σ} {log : List (Log E)}
  {f g : Fsm σ E Env} {idx p q : Nat} {l : Log E}

theorem Climb.refl (m : Moment σ E Env) : Climb m m :=
  ⟨le_rfl, le_rfl, fun _ => le_rfl⟩

theorem Climb.trans {m m' m'' : Moment σ E Env} (h : Climb m m')
    (h' : Climb m' m'') : Climb m m'' := by
  refine ⟨h.header.trans h'.header, h.life.trans h'.life, fun heq => ?_⟩
  have h₁ := h.life
  have h₂ := h'.life
  exact (h.applied (by omega)).trans (h'.applied (by omega))

/-- One more moment. -/
theorem At.note (h : At cfg init log p f) (hpast : g.past = f.past)
    (hc : Climb f.toMoment g.toMoment)
    (hg : Fits cfg init log q g.toMoment) : At cfg init log q g.note := by
  have hbelow : ∀ m ∈ f.past, Climb m g.toMoment :=
    fun m hm => (h.below m hm).trans hc
  have hnote : g.note.past = f.past ++ [g.toMoment] := by
    rw [← hpast]
    rfl
  refine ⟨hg, ?_, ?_, ?_⟩
  · rw [hnote]
    exact List.forall_mem_append.2
      ⟨h.safe, List.forall_mem_singleton.2 ⟨q, hg⟩⟩
  · rw [hnote]
    refine List.pairwise_append.2 ⟨h.climb, List.pairwise_singleton _ _, ?_⟩
    intro m hm m' hm'
    rw [List.mem_singleton.1 hm']
    exact hbelow m hm
  · rw [hnote]
    exact List.forall_mem_append.2
      ⟨hbelow, List.forall_mem_singleton.2 (.refl _)⟩

/-- No command up to the higher index. -/
theorem At.raise (h : At cfg init log p f) (hle : p ≤ q)
    (hu : upTo log q = upTo log p) : At cfg init log q f :=
  ⟨⟨h.header.trans hle, h.applied.trans hle, h.settled.trans hu.symm, h.ran,
    h.mem⟩, h.safe, h.climb, h.below⟩

theorem At.setAppliedIndex (h : At cfg init log p f) (hle : f.header ≤ idx)
    (hidx : idx ≤ p) : At cfg init log p (f.setAppliedIndex cfg idx) := by
  unfold Fsm.setAppliedIndex
  split
  · exact h.note rfl ⟨hle, le_rfl, fun _ => le_rfl⟩
      ⟨hidx, h.applied, h.settled, h.ran, h.mem⟩
  · exact h

theorem At.advanceApplied (h : At cfg init log p f) (hidx : idx ≤ p) :
    At cfg init log p (f.advanceApplied idx) := by
  unfold Fsm.advanceApplied
  split
  · exact h
  · next hlt =>
    exact h.note rfl ⟨le_rfl, le_rfl, fun _ => (Nat.lt_of_not_le hlt).le⟩
      ⟨h.header, hidx, h.settled, h.ran, h.mem⟩

theorem At.recordPrefix (h : At cfg init log p f) (ca : Nat) {ap : Nat}
    (hle : f.header ≤ ap) (hap : ap ≤ p) :
    At cfg init log p (recordPrefix cfg ca ap f) := by
  unfold Apply.recordPrefix
  split
  · exact (h.setAppliedIndex hle hap).advanceApplied hap
  · exact h

/-- One attempt at the next command. -/
theorem At.exec (h : At cfg init log p f) (hn : Next log p l) (env : Env) :
    At cfg init log (reach cfg l.index p (.of (f.exec cfg l env).2))
      (f.exec cfg l env).1 := by
  have hmem : ∀ r ∈ f.runs
      ++ [⟨l, env, (cfg.applyEntryData env l.data f.state).2⟩], r.log ∈ log :=
    List.forall_mem_append.2 ⟨h.mem, List.forall_mem_singleton.2 hn.mem⟩
  have hran := h.ran.snoc l env
  have hset := settled_append cfg f.runs
    [⟨l, env, (cfg.applyEntryData env l.data f.state).2⟩]
  rw [settled_singleton, h.settled] at hset
  refine h.note rfl ⟨le_rfl, le_rfl, fun _ => le_rfl⟩ ?_
  unfold Outcome.of Fsm.exec
  dsimp only
  by_cases hv : classifyApplyErr
      (cfg.applyEntryData env l.data f.state).2.err = .retry
  · rw [if_neg (not_not.2 hv)]
    rw [Run.settles_of_retry hv, if_neg Bool.false_ne_true,
      List.append_nil] at hset
    exact ⟨h.header, h.applied, hset, hran, hmem⟩
  · rw [if_pos hv, reach]
    rw [Run.settles_of_verdict hv] at hset
    split
    · next hr =>
      rw [hr, Bool.not_true, if_neg Bool.false_ne_true,
        List.append_nil] at hset
      exact ⟨h.header, h.applied, hset, hran, hmem⟩
    · next hr =>
      rw [Bool.eq_false_of_not_eq_true hr, Bool.not_false, if_pos rfl,
        ← hn.upTo] at hset
      exact ⟨h.header.trans hn.le, h.applied.trans hn.le, hset, hran, hmem⟩

theorem At.rerun (hn : Next log p l) (more : List Env) :
    ∀ (f : Fsm σ E Env) (r : ApplyResponse), At cfg init log p f →
      At cfg init log (reach cfg l.index p (rerun cfg l more f r).2)
        (rerun cfg l more f r).1 := by
  induction more with
  | nil => exact fun f r h => h
  | cons env more ih =>
    intro f r h
    have hx := h.exec hn env
    unfold Outcome.of at hx
    rw [Apply.rerun]
    split
    · next hv =>
      rw [if_pos hv] at hx
      exact hx
    · next hv =>
      rw [if_neg hv] at hx
      exact ih _ _ hx

theorem At.applyWithRetry {d : Delivery E Env} (h : At cfg init log p f)
    (before : Fsm σ E Env → Fsm σ E Env)
    (hn : Next log p d.log)
    (hb : At cfg init log p (f.exec cfg d.log d.first).1 →
      At cfg init log p (before (f.exec cfg d.log d.first).1)) :
    At cfg init log
      (reach cfg d.log.index p (applyWithRetry cfg d before f).2)
      (applyWithRetry cfg d before f).1 := by
  have hx := h.exec hn d.first
  unfold Outcome.of at hx
  unfold Apply.applyWithRetry
  dsimp only
  split
  · next hv =>
    rw [if_pos hv] at hx
    exact hx
  · next hv =>
    rw [if_neg hv] at hx
    exact At.rerun hn _ _ _ (hb hx)

end Moments

-- ======== the machine without its past

def Fsm.forget (f : Fsm σ E Env) : Fsm σ E Env := { f with past := [] }

section Forget

variable {cfg : Cfg σ E Env} {f : Fsm σ E Env} {ca ap idx : Nat}

theorem setAppliedIndex_forget (cfg : Cfg σ E Env) (idx : Nat)
    (f : Fsm σ E Env) :
    (f.setAppliedIndex cfg idx).forget
      = { f.forget with header := if cfg.mmap then idx else f.header } := by
  unfold Fsm.setAppliedIndex
  cases cfg.mmap with
  | false => rfl
  | true => rfl

theorem advanceApplied_forget (idx : Nat) (f : Fsm σ E Env) :
    (f.advanceApplied idx).forget
      = { f.forget with applied := max f.applied idx } := by
  unfold Fsm.advanceApplied
  split
  · next h =>
    rw [Nat.max_eq_left h]
    rfl
  · next h =>
    rw [Nat.max_eq_right (Nat.lt_of_not_le h).le]
    rfl

/-- What recording the prefix changes. -/
theorem recordPrefix_forget (cfg : Cfg σ E Env) (ca ap : Nat)
    (f : Fsm σ E Env) :
    (recordPrefix cfg ca ap f).forget
      = { f.forget with
          header := if cfg.mmap ∧ ca < ap then ap else f.header
          applied := if ca < ap then max f.applied ap else f.applied } := by
  unfold recordPrefix
  split
  · next h =>
    rw [advanceApplied_forget, setAppliedIndex_forget,
      show (f.setAppliedIndex cfg ap).applied = f.applied from
        congrArg (fun g => g.applied) (setAppliedIndex_forget cfg ap f)]
    simp only [h, and_true]
  · next h =>
    simp only [h, and_false, if_false]
    rfl

theorem rerun_forget (cfg : Cfg σ E Env) (l : Log E) (more : List Env) :
    ∀ (f : Fsm σ E Env) (r : ApplyResponse),
      (rerun cfg l more f r).1.forget
          = { f.forget with
              state := (retries cfg l more f.state r).1
              runs := f.runs ++ (retries cfg l more f.state r).2.1 }
        ∧ (rerun cfg l more f r).2
          = (retries cfg l more f.state r).2.2 := by
  induction more with
  | nil =>
    intro f r
    rw [rerun, retries, List.append_nil]
    exact ⟨rfl, rfl⟩
  | cons env more ih =>
    intro f r
    rw [rerun, retries]
    dsimp only
    by_cases hv : classifyApplyErr
        (cfg.applyEntryData env l.data f.state).2.err ≠ .retry
    · rw [if_pos hv, if_pos (show classifyApplyErr
        (f.exec cfg l env).2.err ≠ .retry from hv)]
      exact ⟨rfl, rfl⟩
    · rw [if_neg hv, if_neg (show ¬ classifyApplyErr
        (f.exec cfg l env).2.err ≠ .retry from hv)]
      obtain ⟨h1, h2⟩ := ih (f.exec cfg l env).1 (f.exec cfg l env).2
      refine ⟨?_, h2⟩
      rw [h1, show (f.exec cfg l env).1.runs = f.runs
        ++ [⟨l, env, (cfg.applyEntryData env l.data f.state).2⟩] from rfl,
        List.append_assoc]
      rfl

/-- The attempts touch the state and the runs only, but for what is
recorded before the first wait. -/
theorem applyWithRetry_forget (cfg : Cfg σ E Env) (d : Delivery E Env)
    (ca ap : Nat) (f : Fsm σ E Env) :
    (applyWithRetry cfg d (recordPrefix cfg ca ap) f).2
        = (attempts cfg d f.state).2.2
      ∧ ∃ w : Bool, (applyWithRetry cfg d (recordPrefix cfg ca ap) f).1.forget
          = { (if w then recordPrefix cfg ca ap f else f).forget with
              state := (attempts cfg d f.state).1
              runs := f.runs ++ (attempts cfg d f.state).2.1 }
        ∧ ∀ r, (attempts cfg d f.state).2.2 = .blocked r → w = true := by
  unfold applyWithRetry attempts
  rw [retries]
  dsimp only
  by_cases hv : classifyApplyErr
      (cfg.applyEntryData d.first d.log.data f.state).2.err ≠ .retry
  · rw [if_pos hv, if_pos (show classifyApplyErr
      (f.exec cfg d.log d.first).2.err ≠ .retry from hv)]
    exact ⟨rfl, false, rfl, fun r hr => by cases hr⟩
  · rw [if_neg hv, if_neg (show ¬ classifyApplyErr
      (f.exec cfg d.log d.first).2.err ≠ .retry from hv)]
    have hpre := recordPrefix_forget cfg ca ap (f.exec cfg d.log d.first).1
    obtain ⟨h1, h2⟩ := rerun_forget cfg d.log d.more
      (recordPrefix cfg ca ap (f.exec cfg d.log d.first).1)
      (f.exec cfg d.log d.first).2
    rw [show (recordPrefix cfg ca ap (f.exec cfg d.log d.first).1).state
        = (cfg.applyEntryData d.first d.log.data f.state).1 from
      congrArg (fun g => g.state) hpre] at h1 h2
    refine ⟨h2, true, ?_, fun _ _ => rfl⟩
    rw [h1, hpre, show (recordPrefix cfg ca ap
        (f.exec cfg d.log d.first).1).runs = f.runs ++ [⟨d.log, d.first,
          (cfg.applyEntryData d.first d.log.data f.state).2⟩] from
      congrArg (fun g => g.runs) hpre, if_pos rfl, recordPrefix_forget,
      List.append_assoc]
    rfl

end Forget

-- ======== batches

/-- Between calls: the index in memory is at most the header, or there
is no header. -/
structure Idle (cfg : Cfg σ E Env) (f : Fsm σ E Env) : Prop where
  mem : cfg.mmap = true → f.applied ≤ f.header
  heap : cfg.mmap = false → f.header = 0

/-- Within a batch that found `ca` in the header. -/
structure Loop (cfg : Cfg σ E Env) (ca maxIdx ap : Nat)
    (f : Fsm σ E Env) : Prop extends Idle cfg f where
  pre : ap = max ca maxIdx
  low : ca ≤ f.header
  high : f.header ≤ ap

/-- What is applied although it is not recorded yet. -/
def Fsm.coreAt (f : Fsm σ E Env) (ap : Nat) : Core σ E Env :=
  { f.core with recorded := max ap f.applied }

/-- A call ends where one entry at a time ends. -/
structure Ends (cfg : Cfg σ E Env) (init : σ) (log : List (Log E))
    (f : Fsm σ E Env) (c : Core σ E Env) : Prop where
  fits : At cfg init log c.recorded f
  idle : Idle cfg f
  core : f.core = c

section Batch

variable {cfg : Cfg σ E Env} {init : σ} {log front : List (Log E)}
  {f g : Fsm σ E Env} {d : Delivery E Env} {ds : List (Delivery E Env)}
  {ca maxIdx ap : Nat}

theorem Loop.of_indexes (h : Loop cfg ca maxIdx ap f)
    (hh : g.header = f.header) (ha : g.applied = f.applied) :
    Loop cfg ca maxIdx ap g := by
  obtain ⟨⟨hmem, hheap⟩, hpre, hlow, hhigh⟩ := h
  rw [← hh] at hheap hlow hhigh
  rw [← hh, ← ha] at hmem
  exact ⟨⟨hmem, hheap⟩, hpre, hlow, hhigh⟩

/-- The loop goes on with a higher index. -/
theorem Loop.next (h : Loop cfg ca maxIdx ap f) (idx : Nat) :
    Loop cfg ca (max maxIdx idx) (max ap idx) f := by
  have hpre := h.pre
  have hhigh := h.high
  exact ⟨h.toIdle, by omega, h.low, by omega⟩

/-- Recording the prefix makes up for what was behind. -/
theorem Loop.recordPrefix (h : Loop cfg ca maxIdx ap f)
    (hg : g = Apply.recordPrefix cfg ca ap f) :
    Loop cfg ca maxIdx ap g ∧ g.core = f.coreAt ap
      ∧ g.coreAt ap = f.coreAt ap
      ∧ max g.applied maxIdx = max f.applied maxIdx := by
  obtain ⟨⟨hmem, hheap⟩, hpre, hlow, hhigh⟩ := h
  have heq := recordPrefix_forget cfg ca ap f
  rw [← hg] at heq
  have hH : g.header = if cfg.mmap ∧ ca < ap then ap else f.header :=
    congrArg (fun g => g.header) heq
  have hA : g.applied = if ca < ap then max f.applied ap else f.applied :=
    congrArg (fun g => g.applied) heq
  have hcore : ∀ n, { g.core with recorded := n }
      = { f.core with recorded := n } := fun n =>
    congrArg (fun g : Fsm σ E Env => { g.core with recorded := n }) heq
  have hnum : (cfg.mmap = true → g.applied ≤ g.header)
      ∧ (cfg.mmap = false → g.header = 0) ∧ ca ≤ g.header ∧ g.header ≤ ap
      ∧ max g.header g.applied = max ap f.applied
      ∧ max ap g.applied = max ap f.applied
      ∧ max g.applied maxIdx = max f.applied maxIdx := by
    cases hm : cfg.mmap with
    | false =>
      have := hheap hm
      rw [hm, if_neg (fun h => Bool.false_ne_true h.1)] at hH
      refine ⟨fun h => absurd h (by decide), fun _ => by omega, ?_⟩
      split at hA <;> omega
    | true =>
      have := hmem hm
      rw [hm] at hH
      have hno : true = false → g.header = 0 := fun h => absurd h (by decide)
      by_cases hlt : ca < ap
      · rw [if_pos ⟨rfl, hlt⟩] at hH
        rw [if_pos hlt] at hA
        exact ⟨fun _ => by omega, hno, by omega⟩
      · rw [if_neg fun h => hlt h.2] at hH
        rw [if_neg hlt] at hA
        exact ⟨fun _ => by omega, hno, by omega⟩
  obtain ⟨h₁, h₂, h₃, h₄, h₅, h₆, h₇⟩ := hnum
  refine ⟨⟨⟨h₁, h₂⟩, hpre, h₃, h₄⟩, ?_, ?_, h₇⟩
  · exact (hcore (max g.header g.applied)).trans
      (congrArg (fun n => { f.core with recorded := n }) h₅)
  · exact (hcore (max ap g.applied)).trans
      (congrArg (fun n => { f.core with recorded := n }) h₆)

/-- Behind the attempts at a command: the loop goes on from where it was,
and at a wait nothing is left to record. -/
theorem Loop.attempted (h : Loop cfg ca maxIdx ap f) {out : Outcome}
    (hg : applyWithRetry cfg d (Apply.recordPrefix cfg ca ap) f = (g, out)) :
    out = (attempts cfg d f.state).2.2 ∧ Loop cfg ca maxIdx ap g
      ∧ g.coreAt ap
        = { f.coreAt ap with
            state := (attempts cfg d f.state).1
            runs := f.runs ++ (attempts cfg d f.state).2.1 }
      ∧ max g.applied maxIdx = max f.applied maxIdx
      ∧ ∀ r, out = .blocked r → g.core = g.coreAt ap := by
  obtain ⟨hout, w, hfor, hw⟩ := applyWithRetry_forget cfg d ca ap f
  rw [hg] at hout hfor
  dsimp only at hout hfor
  -- the machine as the wait left it
  obtain ⟨f₁, hf₁⟩ : ∃ f₁, f₁
      = if w then Apply.recordPrefix cfg ca ap f else f := ⟨_, rfl⟩
  rw [← hf₁] at hfor
  have hone : Loop cfg ca maxIdx ap f₁ ∧ f₁.coreAt ap = f.coreAt ap
      ∧ max f₁.applied maxIdx = max f.applied maxIdx
      ∧ (w = true → f₁.core = f₁.coreAt ap) := by
    cases w with
    | false =>
      obtain rfl : f₁ = f := hf₁
      exact ⟨h, rfl, rfl, fun hw => absurd hw (by decide)⟩
    | true =>
      obtain ⟨hl, hc, hat, happ⟩ := h.recordPrefix hf₁
      exact ⟨hl, hat, happ, fun _ => hc.trans hat.symm⟩
  obtain ⟨hl, hat, happ, hcore⟩ := hone
  have ha : g.applied = f₁.applied := congrArg (fun g => g.applied) hfor
  have hg₁ : g.core = { f₁.core with
      state := (attempts cfg d f.state).1
      runs := f.runs ++ (attempts cfg d f.state).2.1 } :=
    congrArg Fsm.core hfor
  have hgat : g.coreAt ap = { f₁.coreAt ap with
      state := (attempts cfg d f.state).1
      runs := f.runs ++ (attempts cfg d f.state).2.1 } := by
    unfold Fsm.coreAt
    rw [hg₁, ha]
  refine ⟨hout, hl.of_indexes (congrArg (fun g => g.header) hfor) ha, ?_,
    by rw [ha]; exact happ, fun r hr => ?_⟩
  · rw [hgat, hat]
  · rw [hg₁, hgat, hcore (hw r (hout ▸ hr))]

/-- The end of the loop records everything. -/
theorem Loop.finish (h : Loop cfg ca maxIdx ap f)
    (hat : At cfg init log (max ap f.applied) f) :
    Ends cfg init log (batchLoop cfg ca [] maxIdx ap f).1 (f.coreAt ap)
      ∧ (batchLoop cfg ca [] maxIdx ap f).1.applied
        = max f.applied maxIdx := by
  have hpre := h.pre
  have hlow := h.low
  have hhigh := h.high
  have hmem := h.mem
  unfold batchLoop
  by_cases hpos : 0 < maxIdx
  · rw [if_pos hpos]
    by_cases hlt : ca < maxIdx
    · -- the last write is that of the whole prefix
      have heq : maxIdx = ap := by omega
      have hrec : (f.setAppliedIndex cfg maxIdx).advanceApplied maxIdx
          = Apply.recordPrefix cfg ca ap f := by
        rw [heq]
        exact (if_pos (heq ▸ hlt)).symm
      obtain ⟨hloop, hcore, -, happ⟩ := h.recordPrefix hrec
      rw [if_pos hlt, hrec]
      rw [hrec] at hloop hcore happ
      refine ⟨⟨hat.recordPrefix ca hhigh (Nat.le_max_left _ _), hloop.toIdle,
        hcore⟩, ?_⟩
      have hA : (Apply.recordPrefix cfg ca ap f).applied
          = if ca < ap then max f.applied ap else f.applied :=
        congrArg (fun g => g.applied) (recordPrefix_forget cfg ca ap f)
      rw [hA, if_pos (heq ▸ hlt), heq]
    · have hfor := advanceApplied_forget maxIdx f
      have happ : (f.advanceApplied maxIdx).applied = max f.applied maxIdx :=
        congrArg (fun g => g.applied) hfor
      have hhead : (f.advanceApplied maxIdx).header = f.header :=
        congrArg (fun g => g.header) hfor
      rw [if_neg hlt]
      refine ⟨⟨hat.advanceApplied (by omega), ⟨fun hm => ?_, fun hm => ?_⟩,
        ?_⟩, happ⟩
      · have := hmem hm
        rw [happ, hhead]
        omega
      · rw [hhead]
        exact h.heap hm
      · have hmax : max f.header (max f.applied maxIdx)
            = max ap f.applied := by omega
        exact (congrArg Fsm.core hfor).trans
          (congrArg (fun n => { f.core with recorded := n }) hmax)
  · rw [if_neg hpos]
    have hmax : max f.header f.applied = max ap f.applied := by omega
    refine ⟨⟨hat, h.toIdle, ?_⟩, by dsimp only; omega⟩
    exact congrArg (fun r => { f.core with recorded := r }) hmax

/-- An entry the loop does not run: `deliver` records it. -/
theorem Loop.deliver_skip (h : Loop cfg ca maxIdx ap f)
    (hup : f.down = false) (hpos : 0 < d.log.index)
    (hrun : (!d.log.command || decide (d.log.index ≤ ca)) = true) :
    deliver cfg (f.coreAt ap) d = f.coreAt (max ap d.log.index) := by
  have hpre := h.pre
  have hlow := h.low
  cases hc : d.log.command with
  | false =>
    have hmax : max (max ap f.applied) d.log.index
        = max (max ap d.log.index) f.applied := by omega
    rw [deliver_config hup hc]
    exact congrArg (fun r => { f.core with recorded := r }) hmax
  | true =>
    rw [hc, Bool.not_true, Bool.false_or, decide_eq_true_eq] at hrun
    have hm : cfg.mmap = true := by
      -- the heap has no header to be in
      cases hm : cfg.mmap with
      | true => rfl
      | false =>
        have := h.heap hm
        omega
    have hle : d.log.index ≤ max ap f.applied := by omega
    rw [Apply.deliver_skip hup hc hm hle,
      Nat.max_eq_left (show d.log.index ≤ ap by omega)]

/-- And nothing is settled by it. -/
theorem Front.skip (hlog : IsLog log)
    (hf : Front cfg log front (d :: ds) (max ap f.applied))
    (hpre : ap = max ca maxIdx)
    (hrun : (!d.log.command || decide (d.log.index ≤ ca)) = true)
    (hat : At cfg init log (max ap f.applied) f) :
    At cfg init log (max (max ap d.log.index) f.applied) f := by
  by_cases hle : d.log.index ≤ max ap f.applied
  · have hmax : max (max ap d.log.index) f.applied = max ap f.applied := by
      omega
    rw [hmax]
    exact hat
  · have hlt := Nat.lt_of_not_le hle
    have hc : d.log.command = false := by
      by_contra hc
      rw [Bool.eq_true_of_not_eq_false hc, Bool.not_true, Bool.false_or,
        decide_eq_true_eq] at hrun
      omega
    have hu := hf.upTo_next hlog hlt
    rw [hc, if_neg Bool.false_ne_true, List.append_nil] at hu
    have hmax : max (max ap d.log.index) f.applied = d.log.index := by omega
    rw [hmax]
    exact hat.raise hlt.le hu

/-- A blocked entry is given up, behind a prefix that is recorded. -/
theorem Loop.blocked (h : Loop cfg ca maxIdx ap f)
    (hat : At cfg init log (max ap f.applied) f)
    (hcore : f.core = f.coreAt ap) :
    Ends cfg init log f.abandon { f.coreAt ap with abandoned := true } := by
  refine ⟨⟨hat.toFits, hat.safe, hat.climb, hat.below⟩,
    ⟨h.mem, h.heap⟩, ?_⟩
  rw [← hcore]
  rfl

/-- A fatal one halts the process, the prefix recorded first. -/
theorem Loop.fatal (h : Loop cfg ca maxIdx ap f)
    (hat : At cfg init log (max ap f.applied) f) :
    Ends cfg init log (Apply.recordPrefix cfg ca ap f).halt
      { f.coreAt ap with halted := true } := by
  obtain ⟨hl, hcore, -, -⟩ := h.recordPrefix rfl
  have hat := hat.recordPrefix ca h.high (Nat.le_max_left _ _)
  refine ⟨⟨hat.toFits, hat.safe, hat.climb, hat.below⟩,
    ⟨hl.mem, hl.heap⟩, ?_⟩
  rw [← hcore]
  rfl

/-- A command the header does not have is a new one. -/
theorem Loop.lt_index (h : Loop cfg ca maxIdx ap f)
    (hf : Front cfg log front (d :: ds) (max ap f.applied))
    (hmax : maxIdx < d.log.index) (hgt : ca < d.log.index) :
    max ap f.applied < d.log.index := by
  cases hm : cfg.mmap with
  | false => exact hf.ahead hm d List.mem_cons_self
  | true =>
    have h₁ := h.mem hm
    have h₂ := h.high
    have h₃ := h.pre
    omega

/-- Behind the attempts at a new command `deliver` only has to conclude,
and what they settled is settled. -/
theorem Loop.runs (hlog : IsLog log) (h : Loop cfg ca maxIdx ap f)
    (hup : f.down = false)
    (hf : Front cfg log front (d :: ds) (max ap f.applied))
    (hat : At cfg init log (max ap f.applied) f)
    (hcmd : d.log.command = true) (hlt : max ap f.applied < d.log.index)
    {out : Outcome} (hg : applyWithRetry cfg d
      (Apply.recordPrefix cfg ca ap) f = (g, out)) :
    g.down = false ∧ max ap g.applied = max ap f.applied
      ∧ deliver cfg (f.coreAt ap) d
        = (g.coreAt ap).conclude cfg d.log.index out
      ∧ At cfg init log (reach cfg d.log.index (max ap g.applied) out) g := by
  obtain ⟨hout, -, hcore, -, -⟩ := h.attempted hg
  have hrec : max ap g.applied = max ap f.applied :=
    congrArg Core.recorded hcore
  have hat' := hat.applyWithRetry (Apply.recordPrefix cfg ca ap)
    (hf.next hlog hcmd hlt)
    (fun hx => hx.recordPrefix ca h.high (Nat.le_max_left _ _))
  rw [hg, ← hrec] at hat'
  refine ⟨hup ▸ congrArg Core.down hcore, hrec, ?_, hat'⟩
  rw [deliver_run (c := f.coreAt ap) hup hcmd fun _ => hlt, hcore, hout]
  rfl

/-- The loop ends where one entry at a time ends, every moment on the way
fits, and a loop that got to its end brought the index in memory up to
the last entry. -/
theorem batchLoop_spec (hlog : IsLog log) :
    ∀ (ds : List (Delivery E Env)) (front : List (Log E)) (maxIdx ap : Nat)
      (f : Fsm σ E Env),
      Loop cfg ca maxIdx ap f → f.down = false →
      (∀ d ∈ ds, maxIdx < d.log.index) →
      Front cfg log front ds (max ap f.applied) →
      At cfg init log (max ap f.applied) f →
      Ends cfg init log (batchLoop cfg ca ds maxIdx ap f).1
          (ds.foldl (deliver cfg) (f.coreAt ap))
        ∧ ((batchLoop cfg ca ds maxIdx ap f).1.down = false →
          (batchLoop cfg ca ds maxIdx ap f).1.applied
            = top (max f.applied maxIdx) ds) := by
  intro ds
  induction ds with
  | nil =>
    intro front maxIdx ap f h _ _ _ hat
    obtain ⟨hends, happ⟩ := h.finish hat
    exact ⟨hends, fun _ => happ⟩
  | cons d ds ih =>
    intro front maxIdx ap f h hup hmax hf hat
    have hpre := h.pre
    have hlt := hmax d List.mem_cons_self
    have hafter : ∀ x ∈ ds, max maxIdx d.log.index < x.log.index := fun x hx =>
      max_lt (hmax x (List.mem_cons_of_mem _ hx)) (hf.behind hlog x hx)
    have hstep := hf.step hlog
    rw [List.foldl_cons]
    by_cases hrun : (!d.log.command || decide (d.log.index ≤ ca)) = true
    · have hmax : max (max ap f.applied) d.log.index
          = max (max ap d.log.index) f.applied := by omega
      rw [batchLoop, if_pos hrun,
        h.deliver_skip hup (Nat.zero_lt_of_lt hlt) hrun]
      obtain ⟨hends, happ⟩ := ih _ _ _ f (h.next d.log.index) hup hafter
        (hmax ▸ hstep) (hf.skip hlog hpre hrun hat)
      refine ⟨hends, fun hd => (happ hd).trans ?_⟩
      rw [← Nat.max_assoc]
      rfl
    · obtain ⟨hcmd, hgt⟩ : d.log.command = true ∧ ca < d.log.index := by
        simpa using hrun
      have hnew := h.lt_index hf hlt hgt
      rw [batchLoop, if_neg hrun]
      generalize hx : applyWithRetry cfg d (recordPrefix cfg ca ap) f = x
      obtain ⟨g, out⟩ := x
      obtain ⟨-, hloop, -, happ, hwait⟩ := h.attempted hx
      obtain ⟨hdown, hrec, hdel, hat'⟩ := h.runs hlog hup hf hat hcmd hnew hx
      rw [hdel]
      cases out with
      | blocked r =>
        refine ⟨?_, fun hd => by cases hd⟩
        rw [foldl_deliver_down rfl]
        exact hloop.blocked hat' (hwait r rfl)
      | verdict r =>
        by_cases hr : isFatal cfg r = true
        · simp only [Core.conclude, reach, if_pos hr] at hat' ⊢
          refine ⟨?_, fun hd => by simp [Fsm.halt] at hd⟩
          rw [foldl_deliver_down (Bool.or_true _)]
          exact hloop.fatal hat'
        · simp only [Core.conclude, reach, if_neg hr] at hat' ⊢
          have hidx : max (max ap d.log.index) g.applied = d.log.index := by
            omega
          have hcore : g.coreAt (max ap d.log.index)
              = { g.coreAt ap with recorded := d.log.index } :=
            congrArg (fun n => { g.core with recorded := n }) hidx
          rw [Nat.max_eq_right hnew.le, ← hidx] at hstep
          rw [← hidx] at hat'
          obtain ⟨hends, htop⟩ := ih _ _ _ g (hloop.next d.log.index) hdown
            hafter hstep hat'
          rw [← hcore]
          refine ⟨hends, fun hd => (htop hd).trans ?_⟩
          show top (max g.applied (max maxIdx d.log.index)) ds
            = top (max (max f.applied maxIdx) d.log.index) ds
          rw [← Nat.max_assoc, happ]

end Batch

-- ======== responses

/-- The responses of a call, one for each entry in order, from the runs
it made: an entry that is not run is answered at once, one that is run
with the response of its last run, and behind an interruption there is
none. -/
inductive Answers (cfg : Cfg σ E Env) (header : Nat) :
    List (Delivery E Env) → List (Run E Env) →
      List (Option ApplyResponse) → Prop
  | nil : Answers cfg header [] [] []
  | skip {d ds runs rs} : d.log.command = false ∨ d.log.index ≤ header →
      Answers cfg header ds runs rs →
      Answers cfg header (d :: ds) runs (some noResponse :: rs)
  | run {d ds own last runs rs} : d.log.command = true →
      header < d.log.index → Tried d.log own last →
      last.settles cfg = true → Answers cfg header ds runs rs →
      Answers cfg header (d :: ds) (own ++ runs) (some last.response :: rs)
  | stop {d ds own last} : d.log.command = true →
      header < d.log.index → Tried d.log own last →
      last.settles cfg = false →
      Answers cfg header (d :: ds) own
        (some last.response :: ds.map fun _ => none)

section Responses

variable {cfg : Cfg σ E Env} {f g : Fsm σ E Env} {d : Delivery E Env}

theorem recordPrefix_runs (cfg : Cfg σ E Env) (ca ap : Nat)
    (f : Fsm σ E Env) : (recordPrefix cfg ca ap f).runs = f.runs :=
  congrArg (fun g => g.runs) (recordPrefix_forget cfg ca ap f)

/-- The runs of one entry, and what they ended with. -/
theorem applyWithRetry_runs {ca ap : Nat} {out : Outcome}
    (hg : applyWithRetry cfg d (recordPrefix cfg ca ap) f = (g, out)) :
    ∃ own last, g.runs = f.runs ++ own ∧ Tried d.log own last
      ∧ out = .of last.response := by
  obtain ⟨hout, w, hfor, -⟩ := applyWithRetry_forget cfg d ca ap f
  rw [hg] at hout hfor
  obtain ⟨last, htried, hlast⟩ :=
    retries_tried cfg d.log d.more d.first f.state noResponse
  exact ⟨_, last, congrArg (fun g => g.runs) hfor, htried,
    hout.trans hlast⟩

theorem Outcome.of_blocked {r r' : ApplyResponse}
    (h : Outcome.blocked r = .of r') :
    r = r' ∧ classifyApplyErr r'.err = .retry := by
  unfold Outcome.of at h
  split at h
  · cases h
  · next hr =>
    cases h
    exact ⟨rfl, not_not.1 hr⟩

theorem Outcome.of_verdict {r r' : ApplyResponse}
    (h : Outcome.verdict r = .of r') :
    r = r' ∧ classifyApplyErr r'.err ≠ .retry := by
  unfold Outcome.of at h
  split at h
  · next hr =>
    cases h
    exact ⟨rfl, hr⟩
  · cases h

theorem batchLoop_answers (ca : Nat) (ds : List (Delivery E Env)) :
    ∀ (maxIdx ap : Nat) (f : Fsm σ E Env), ∃ runs,
      (batchLoop cfg ca ds maxIdx ap f).1.runs = f.runs ++ runs
        ∧ Answers cfg ca ds runs (batchLoop cfg ca ds maxIdx ap f).2 := by
  induction ds with
  | nil =>
    intro maxIdx ap f
    have hset : (f.setAppliedIndex cfg maxIdx).runs = f.runs :=
      congrArg (fun g => g.runs) (setAppliedIndex_forget cfg maxIdx f)
    have hadv : ∀ g : Fsm σ E Env, (g.advanceApplied maxIdx).runs = g.runs :=
      fun g => congrArg (fun g => g.runs) (advanceApplied_forget maxIdx g)
    refine ⟨[], ?_⟩
    rw [List.append_nil, batchLoop]
    split
    · refine ⟨(hadv _).trans ?_, .nil⟩
      split
      · exact hset
      · rfl
    · exact ⟨rfl, .nil⟩
  | cons d ds ih =>
    intro maxIdx ap f
    rw [batchLoop]
    by_cases hrun : (!d.log.command || decide (d.log.index ≤ ca)) = true
    · rw [if_pos hrun]
      obtain ⟨runs, hruns, hans⟩ := ih (max maxIdx d.log.index)
        (max ap d.log.index) f
      exact ⟨runs, hruns, .skip (by simpa using hrun) hans⟩
    · rw [if_neg hrun]
      obtain ⟨hcmd, hgt⟩ : d.log.command = true ∧ ca < d.log.index := by
        simpa using hrun
      generalize hx : applyWithRetry cfg d (recordPrefix cfg ca ap) f = x
      obtain ⟨g, out⟩ := x
      obtain ⟨own, last, hown, htried, hout⟩ := applyWithRetry_runs hx
      cases out with
      | blocked r =>
        obtain ⟨rfl, hretry⟩ := Outcome.of_blocked hout
        exact ⟨own, hown, .stop hcmd hgt htried (Run.settles_of_retry hretry)⟩
      | verdict r =>
        obtain ⟨rfl, hv⟩ := Outcome.of_verdict hout
        have hset : last.settles cfg = _ := Run.settles_of_verdict hv
        by_cases hr : isFatal cfg last.response = true
        · rw [hr] at hset
          simp only [if_pos hr]
          exact ⟨own, (recordPrefix_runs cfg ca ap g).trans hown,
            .stop hcmd hgt htried hset⟩
        · rw [Bool.eq_false_of_not_eq_true hr] at hset
          simp only [if_neg hr]
          obtain ⟨runs, hruns, hans⟩ := ih (max maxIdx d.log.index)
            (max ap d.log.index) g
          refine ⟨own ++ runs, ?_, .run hcmd hgt htried hset hans⟩
          rw [hruns, hown, List.append_assoc]

end Responses

-- ======== calls

section Calls

variable {cfg : Cfg σ E Env} {init : σ} {log front : List (Log E)}
  {f : Fsm σ E Env} {d : Delivery E Env} {ds : List (Delivery E Env)}

theorem applyBatch_spec (hlog : IsLog log) (hidle : Idle cfg f)
    (hat : At cfg init log (max f.header f.applied) f)
    (hf : Front cfg log front ds (max f.header f.applied))
    (hhalt : f.halted = false) :
    Ends cfg init log (applyBatch cfg ds f).1 (ds.foldl (deliver cfg) f.core)
      ∧ ((applyBatch cfg ds f).1.down = false →
        (applyBatch cfg ds f).1.applied = top f.applied ds) := by
  unfold applyBatch
  cases hab : f.abandoned with
  | true =>
    have hdown : f.core.down = true := by simp [Fsm.core, hab]
    rw [if_pos rfl, foldl_deliver_down hdown]
    exact ⟨⟨hat, hidle, rfl⟩, fun hd =>
      absurd (hdown.symm.trans hd) (by decide)⟩
  | false =>
    have hup : f.down = false := by simp [hab, hhalt]
    have hpos : ∀ d ∈ ds, 0 < d.log.index := by
      obtain ⟨after, hl⟩ := hf.split
      intro d hd
      refine hlog.pos d.log ?_
      rw [hl]
      exact List.mem_append_right _
        (List.mem_append_left _ (List.mem_map_of_mem hd))
    have hloop : Loop cfg f.header 0 f.header f :=
      ⟨hidle, (Nat.max_zero _).symm, le_rfl, le_rfl⟩
    rw [if_neg Bool.false_ne_true]
    have h := batchLoop_spec hlog ds front 0 f.header f hloop hup hpos hf hat
    rw [Nat.max_zero] at h
    exact h

/-- One entry is a batch of one. -/
theorem apply_eq_applyBatch (hc : d.log.command = true)
    (hpos : 0 < d.log.index) :
    ((apply cfg d f).1, [some (apply cfg d f).2]) = applyBatch cfg [d] f := by
  unfold apply applyBatch
  cases f.abandoned with
  | true => rfl
  | false =>
    have hbefore : (recordPrefix cfg f.header f.header :
        Fsm σ E Env → Fsm σ E Env) = id := by
      funext g
      exact if_neg (Nat.lt_irrefl _)
    have hmax : max 0 d.log.index = d.log.index := Nat.zero_max _
    rw [if_neg Bool.false_ne_true, if_neg Bool.false_ne_true]
    by_cases hle : d.log.index ≤ f.header
    · rw [if_pos hle, batchLoop, if_pos (by rw [decide_eq_true hle]; simp),
        batchLoop, hmax, if_pos hpos, if_neg (Nat.not_lt.2 hle)]
    · have hrun : ¬ (!d.log.command || decide (d.log.index ≤ f.header))
          = true := by
        rw [hc, decide_eq_false hle]
        decide
      rw [if_neg hle, batchLoop, if_neg hrun, hbefore]
      generalize applyWithRetry cfg d id f = x
      obtain ⟨g, out⟩ := x
      cases out with
      | blocked r => rfl
      | verdict r =>
        by_cases hr : isFatal cfg r = true
        · simp only [if_pos hr, id]
          rfl
        · simp only [if_neg hr, batchLoop, hmax, if_pos hpos,
            if_pos (Nat.lt_of_not_le hle)]

/-- A call is its entries as one batch. -/
theorem call_eq_applyBatch (call : Call E Env)
    (hc : ∀ d, call = .apply d → d.log.command = true ∧ 0 < d.log.index) :
    Apply.call cfg f call = applyBatch cfg call.deliveries f := by
  cases call with
  | apply d =>
    obtain ⟨hcmd, hpos⟩ := hc d rfl
    exact apply_eq_applyBatch hcmd hpos
  | applyBatch ds => rfl

-- ======== lifetimes

/-- Nothing happens after a halt, or after an entry was given up. -/
theorem live_down (calls : List (Call E Env)) (h : f.down = true) :
    live cfg calls f = f := by
  have hcall : ∀ c : Call E Env,
      (if f.halted then f else (call cfg f c).1) = f := by
    intro c
    split
    · rfl
    · next hh =>
      have hab : f.abandoned = true :=
        (Bool.or_eq_true_iff.1 h).resolve_right hh
      cases c with
      | apply d =>
        show (apply cfg d f).1 = f
        rw [apply, if_pos hab]
      | applyBatch ds =>
        show (applyBatch cfg ds f).1 = f
        rw [applyBatch, if_pos hab]
  unfold live
  induction calls with
  | nil => rfl
  | cons c calls ih => rw [List.foldl_cons, hcall, ih]

/-- The calls of a lifetime end where their entries, one at a time,
end. -/
theorem live_spec (hlog : IsLog log) (calls : List (Call E Env)) :
    ∀ (front : List (Log E)) (f : Fsm σ E Env), Idle cfg f →
      At cfg init log (max f.header f.applied) f →
      (f.down = false → Front cfg log front (calls.flatMap Call.deliveries)
        (max f.header f.applied)) →
      (∀ d, Call.apply d ∈ calls →
        d.log.command = true ∧ 0 < d.log.index) →
      Ends cfg init log (live cfg calls f)
          ((calls.flatMap Call.deliveries).foldl (deliver cfg) f.core)
        ∧ ((live cfg calls f).down = false → (live cfg calls f).applied
          = top f.applied (calls.flatMap Call.deliveries)) := by
  induction calls with
  | nil =>
    intro front f hidle hat _ _
    exact ⟨⟨hat, hidle, rfl⟩, fun _ => rfl⟩
  | cons call calls ih =>
    intro front f hidle hat hf hc
    rw [List.flatMap_cons, List.foldl_append]
    by_cases hdown : f.down = true
    · have hcore : f.core.down = true := hdown
      rw [live_down _ hdown, foldl_deliver_down hcore call.deliveries,
        foldl_deliver_down hcore]
      exact ⟨⟨hat, hidle, rfl⟩,
        fun hd => absurd (hdown.symm.trans hd) (by decide)⟩
    · have hup : f.down = false := Bool.not_eq_true _ ▸ hdown
      obtain ⟨-, hhalt⟩ := Bool.or_eq_false_iff.1 hup
      have hf := hf hup
      rw [List.flatMap_cons] at hf
      have hone : Apply.call cfg f call = applyBatch cfg call.deliveries f :=
        call_eq_applyBatch call fun d hd => hc d (hd ▸ List.mem_cons_self)
      have hlive : live cfg (call :: calls) f
          = live cfg calls (applyBatch cfg call.deliveries f).1 := by
        unfold live
        rw [List.foldl_cons, hhalt, if_neg Bool.false_ne_true, hone]
      obtain ⟨⟨hat₁, hidle₁, hcore₁⟩, happ₁⟩ :=
        applyBatch_spec hlog hidle hat hf.take hhalt
      rw [← hcore₁] at hat₁
      have hmany : (applyBatch cfg call.deliveries f).1.down = false →
          Front cfg log (front ++ call.deliveries.map Delivery.log)
            (calls.flatMap Call.deliveries)
            (applyBatch cfg call.deliveries f).1.core.recorded := by
        intro hd
        rw [hcore₁, Front.deliver_many hlog _ _ _ _ hf
          (by rw [← hcore₁]; exact hd)]
        exact hf.steps hlog
      obtain ⟨hends, happ⟩ := ih _ _ hidle₁ hat₁ hmany
        fun d hd => hc d (List.mem_cons_of_mem _ hd)
      rw [hlive, ← hcore₁]
      refine ⟨hends, fun hd => (happ hd).trans ?_⟩
      by_cases hd₁ : (applyBatch cfg call.deliveries f).1.down = true
      · rw [live_down _ hd₁] at hd
        exact absurd (hd₁.symm.trans hd) (by decide)
      · rw [happ₁ (Bool.not_eq_true _ ▸ hd₁)]
        exact (List.foldl_append).symm

/-- Between lifetimes: the runs settled the commands up to the recorded
index. -/
structure Rest (cfg : Cfg σ E Env) (init : σ) (log : List (Log E))
    (f : Fsm σ E Env) : Prop where
  fits : At cfg init log (max f.header f.applied) f
  idle : Idle cfg f

theorem upTo_zero (hlog : IsLog log) : upTo log 0 = [] := by
  unfold upTo
  rw [List.filter_eq_nil_iff]
  intro l hl hin
  have := hlog.pos l hl
  have := of_decide_eq_true (Bool.and_eq_true_iff.1 hin).2
  omega

/-- The header carries over to the next process, or nothing does. -/
theorem Rest.restart (hlog : IsLog log) (h : Rest cfg init log f) :
    Rest cfg init log (Apply.restart cfg init f)
      ∧ (Apply.restart cfg init f).applied = 0 := by
  obtain ⟨hat, hidle⟩ := h
  have hlife : f.life ≠ f.life + 1 := (Nat.succ_ne_self _).symm
  unfold Apply.restart
  cases hm : cfg.mmap with
  | true =>
    have hmem := hidle.mem hm
    rw [Nat.max_eq_left hmem] at hat
    rw [if_pos rfl]
    refine ⟨⟨?_, fun _ => Nat.zero_le _,
      fun hf => absurd (hm.symm.trans hf) (by decide)⟩, rfl⟩
    refine hat.note rfl ⟨le_rfl, Nat.le_succ _, fun hl => absurd hl hlife⟩ ?_
    show Fits cfg init log (max f.header 0) _
    rw [Nat.max_zero]
    exact ⟨le_rfl, Nat.zero_le _, hat.settled, hat.ran, hat.mem⟩
  | false =>
    rw [if_neg Bool.false_ne_true]
    refine ⟨⟨?_, fun _ => le_rfl, fun _ => rfl⟩, rfl⟩
    exact hat.note rfl ⟨Nat.le_of_eq (hidle.heap hm), Nat.le_succ _,
      fun hl => absurd hl hlife⟩
      ⟨le_rfl, le_rfl, (upTo_zero hlog).symm, rfl, by simp⟩

/-- A lifetime ends where its entries, one at a time, end. -/
theorem Rest.live (hlog : IsLog log) (hrest : Rest cfg init log f)
    (happ : f.applied = 0) {calls : List (Call E Env)}
    (hd : Delivers log f calls) :
    Rest cfg init log (Apply.live cfg calls f)
      ∧ (Apply.live cfg calls f).core
        = (calls.flatMap Call.deliveries).foldl (deliver cfg) f.core
      ∧ ((Apply.live cfg calls f).down = false →
        (Apply.live cfg calls f).applied
          = top 0 (calls.flatMap Call.deliveries)) := by
  obtain ⟨⟨before, after, hsplit, hseen⟩, hcmd⟩ := hd
  have hmem : ∀ d ∈ calls.flatMap Call.deliveries, d.log ∈ log := by
    intro d hd
    rw [hsplit]
    exact List.mem_append_right _
      (List.mem_append_left _ (List.mem_map_of_mem hd))
  have hfront : Front cfg log before (calls.flatMap Call.deliveries)
      (max f.header f.applied) := by
    refine ⟨⟨after, hsplit⟩, fun l hl hc => ?_, fun hm d hd => ?_⟩
    · exact (hseen l hl hc).trans (Nat.le_max_left _ _)
    · rw [hrest.idle.heap hm, happ]
      exact hlog.pos _ (hmem d hd)
  obtain ⟨hends, htop⟩ := live_spec hlog calls before f hrest.idle hrest.fits
    (fun _ => hfront) fun d hd => ⟨hcmd d hd, hlog.pos _ (hmem d
      (List.mem_flatMap.2 ⟨_, hd, List.mem_singleton_self d⟩))⟩
  rw [happ] at htop
  refine ⟨⟨?_, hends.idle⟩, hends.core, htop⟩
  have h := hends.fits
  rw [← hends.core] at h
  exact h

theorem Rest.run (hlog : IsLog log) (lives : List (List (Call E Env))) :
    ∀ f : Fsm σ E Env, Rest cfg init log f →
      DeliversAll cfg init log lives f →
      Rest cfg init log (Apply.run cfg init lives f) := by
  induction lives with
  | nil => exact fun f h _ => h
  | cons calls lives ih =>
    intro f h hd
    obtain ⟨hrest, happ⟩ := h.restart hlog
    exact ih _ (hrest.live hlog happ hd.1).1 hd.2

theorem Rest.fresh (hlog : IsLog log) : Rest cfg init log (.fresh init) :=
  ⟨⟨⟨le_rfl, le_rfl, (upTo_zero hlog).symm, rfl, by simp [Fsm.fresh]⟩,
      by simp [Fsm.fresh], by simp [Fsm.fresh], by simp [Fsm.fresh]⟩,
    fun _ => le_rfl, fun _ => rfl⟩

/-- What the indexes cover was run to a verdict, once. -/
theorem Fits.once (hlog : IsLog log) {m : Moment σ E Env} {p : Nat}
    (h : Fits cfg init log p m) {l : Log E} (hl : l ∈ log)
    (hc : l.command = true) (hle : l.index ≤ max m.header m.applied) :
    (Apply.settled cfg m.runs).filter (·.index = l.index) = [l] := by
  have hp : l.index ≤ p := hle.trans (max_le h.header h.applied)
  have hmem : l ∈ upTo log p :=
    List.mem_filter.2 ⟨hl, by simp [hc, hp]⟩
  have hinc : (upTo log p).Pairwise fun a b => a.index < b.index :=
    (List.pairwise_map.1 hlog.increasing).sublist List.filter_sublist
  rw [h.settled]
  obtain ⟨pre, post, heq⟩ := List.append_of_mem hmem
  rw [heq, List.pairwise_append, List.pairwise_cons] at hinc
  rw [heq, List.filter_append, List.filter_cons,
    if_pos (decide_eq_true rfl),
    List.filter_eq_nil_iff.2, List.filter_eq_nil_iff.2, List.nil_append]
  · intro x hx
    have := hinc.2.1.1 x hx
    simp
    omega
  · intro x hx
    have := hinc.2.2 x hx l List.mem_cons_self
    simp
    omega

/-- Two machines that differ in the past of their indexes, and after an
interruption in the index in memory. -/
structure Alike (f g : Fsm σ E Env) : Prop where
  core : f.core = g.core
  header : f.header = g.header
  applied : (f.abandoned || f.halted) = false → f.applied = g.applied

theorem Idle.header_eq {f g : Fsm σ E Env} (hf : Idle cfg f)
    (hg : Idle cfg g) (h : f.core = g.core) : f.header = g.header := by
  cases hm : cfg.mmap with
  | false => rw [hf.heap hm, hg.heap hm]
  | true =>
    have hrec : max f.header f.applied = max g.header g.applied :=
      congrArg Core.recorded h
    have := hf.mem hm
    have := hg.mem hm
    omega

theorem restart_core {f g : Fsm σ E Env} (h : Alike f g) (init : σ) :
    (restart cfg init f).core = (restart cfg init g).core := by
  have hstate : f.state = g.state := congrArg Core.state h.core
  have hruns : f.runs = g.runs := congrArg Core.runs h.core
  unfold restart
  cases cfg.mmap with
  | false => rfl
  | true =>
    unfold Fsm.note Fsm.core
    rw [if_pos rfl, if_pos rfl]
    rw [hstate, hruns, h.header]

/-- Lifetimes with the same entries, in whatever batches. -/
theorem run_alike (hlog : IsLog log) {lives lives' : List (List (Call E Env))}
    (h : List.Forall₂ (fun a b => a.flatMap Call.deliveries
      = b.flatMap Call.deliveries) lives lives') :
    ∀ f g : Fsm σ E Env, Rest cfg init log f → Rest cfg init log g →
      Alike f g → DeliversAll cfg init log lives f →
      DeliversAll cfg init log lives' g →
      Alike (run cfg init lives f) (run cfg init lives' g) := by
  induction h with
  | nil => exact fun f g _ _ h _ _ => h
  | @cons a b lives lives' hab _ ih =>
    intro f g hf hg h hd hd'
    obtain ⟨hf, hf0⟩ := hf.restart hlog
    obtain ⟨hg, hg0⟩ := hg.restart hlog
    obtain ⟨hrf, hcf, haf⟩ := hf.live hlog hf0 hd.1
    obtain ⟨hrg, hcg, hag⟩ := hg.live hlog hg0 hd'.1
    have hcore : (live cfg a (restart cfg init f)).core
        = (live cfg b (restart cfg init g)).core := by
      rw [hcf, hcg, hab, restart_core h]
    refine ih _ _ hrf hrg
      ⟨hcore, hrf.idle.header_eq hrg.idle hcore, fun hup => ?_⟩ hd.2 hd'.2
    have hup' : (live cfg b (restart cfg init g)).core.down = false := by
      rw [← hcore]
      exact hup
    rw [haf hup, hag hup', hab]

/-- At every moment of any lifetimes, the calls of applyEntryData took
the state here, and each command up to either index was run, once, to a
verdict that did not halt the process; the header never falls, nor does
the index in memory within a lifetime; a call returns one response for
each entry, from the runs it made; and the batches the entries come in
make no difference to the state, the runs and the header, nor, but after
an interruption, to the index in memory. -/
theorem applied_index_safe (cfg : Cfg σ E Env) (init : σ)
    (log : List (Log E)) (hlog : IsLog log) :
    (∀ lives, DeliversAll cfg init log lives (.fresh init) →
      (∀ m ∈ (run cfg init lives (.fresh init)).past,
        Ran cfg init m.runs m.state ∧ (∀ r ∈ m.runs, r.log ∈ log)
        ∧ ∀ l ∈ log, l.command = true → l.index ≤ max m.header m.applied →
          (settled cfg m.runs).filter (·.index = l.index) = [l])
      ∧ (run cfg init lives (.fresh init)).past.Pairwise Climb)
    ∧ (∀ (f : Fsm σ E Env) (c : Call E Env),
      (∀ d ∈ c.deliveries, d.log ∈ log) →
      (∀ d, c = .apply d → d.log.command = true) →
      ∃ runs, (call cfg f c).1.runs = f.runs ++ runs
        ∧ (f.abandoned = false →
          Answers cfg f.header c.deliveries runs (call cfg f c).2)
        ∧ (f.abandoned = true → runs = [] ∧ (call cfg f c).2
          = c.deliveries.map fun _ => some abandonedResponse))
    ∧ ∀ lives lives' : List (List (Call E Env)),
      List.Forall₂ (fun a b => a.flatMap Call.deliveries
        = b.flatMap Call.deliveries) lives lives' →
      DeliversAll cfg init log lives (.fresh init) →
      DeliversAll cfg init log lives' (.fresh init) →
      Alike (run cfg init lives (.fresh init))
        (run cfg init lives' (.fresh init)) := by
  have hfresh : Rest cfg init log (.fresh init) := .fresh hlog
  refine ⟨fun lives hd => ?_, fun f c hmem hcmd => ?_,
    fun lives lives' h hd hd' => ?_⟩
  · have hrest := Rest.run hlog lives _ hfresh hd
    refine ⟨fun m hm => ?_, hrest.fits.climb⟩
    obtain ⟨p, hp⟩ := hrest.fits.safe m hm
    exact ⟨hp.ran, hp.mem, fun l hl hc hle => hp.once hlog hl hc hle⟩
  · rw [call_eq_applyBatch c fun d hd => ⟨hcmd d hd, hlog.pos _
      (hmem d (hd ▸ List.mem_singleton_self d))⟩, applyBatch]
    cases hab : f.abandoned with
    | true =>
      rw [if_pos rfl]
      exact ⟨[], (List.append_nil _).symm, nofun, fun _ => ⟨rfl, rfl⟩⟩
    | false =>
      rw [if_neg Bool.false_ne_true]
      obtain ⟨runs, hruns, hans⟩ :=
        batchLoop_answers f.header c.deliveries 0 f.header f
      exact ⟨runs, hruns, fun _ => hans, nofun⟩
  · exact run_alike hlog h _ _ hfresh hfresh ⟨rfl, rfl, fun _ => rfl⟩ hd hd'

end Calls

-- ======== examples

/-- A replicated counter on mmap, that fails as the environment says. -/
def counter : Cfg Nat Unit (Option ApplyErr) where
  mmap := true
  replicated := true
  applyEntryData := fun err _ n => (if err.isSome then n else n + 1, ⟨[], err⟩)

/-- Entry `i` meets `err`, and the store closes if it is blocked. -/
def entry (i : Nat) (err : Option ApplyErr) :
    Delivery Unit (Option ApplyErr) := ⟨⟨i, true, ()⟩, err, []⟩

/-- What the run of an entry that met `err` leaves. -/
def ran (i : Nat) (err : Option ApplyErr) : Run Unit (Option ApplyErr) :=
  ⟨⟨i, true, ()⟩, err, ⟨[], err⟩⟩

/-- A batch halts at its second entry, which is run again after the
restart. -/
theorem applied_index_safe_halted :
    ⟨2, 2, 1, 2, [ran 1 none, ran 2 (some [.full]), ran 2 none]⟩
        ∈ (run counter 0
          [[.applyBatch [entry 1 none, entry 2 (some [.full])]],
            [.apply (entry 1 none), .apply (entry 2 none)]] (.fresh 0)).past
      ∧ (settled counter [ran 1 none, ran 2 (some [.full]), ran 2 none]).filter
          (·.index = (entry 2 none).log.index) = [(entry 2 none).log] := by
  have hmem : ⟨2, 2, 1, 2, [ran 1 none, ran 2 (some [.full]), ran 2 none]⟩
      ∈ (run counter 0
        [[.applyBatch [entry 1 none, entry 2 (some [.full])]],
          [.apply (entry 1 none), .apply (entry 2 none)]]
            (.fresh 0)).past := by
    decide
  refine ⟨hmem, (((applied_index_safe counter 0 [(entry 1 none).log,
    (entry 2 none).log] ⟨by decide, by decide⟩).1 _ ?_).1 _ hmem).2.2
      (entry 2 none).log (List.mem_cons_of_mem _ List.mem_cons_self) rfl
      (by decide)⟩
  refine ⟨⟨⟨[], [], rfl, by decide⟩, ?_⟩, ⟨⟨[], [], rfl, by decide⟩, ?_⟩,
    trivial⟩
  · intro d hd
    cases List.mem_singleton.1 hd
  · intro d hd
    rcases List.mem_cons.1 hd with h | h
    · cases h
      rfl
    · cases List.mem_singleton.1 h
      rfl

/-- A fatal verdict is one more; and a batch that is blocked behind an
entry the header has does not bring the index in memory up to it, as one
call for each entry does. -/
theorem fatal_runs_again :
    (run counter 0 [[.apply (entry 1 (some [.full]))],
        [.apply (entry 1 none)]] (.fresh 0)).header = 1
      ∧ (run counter 0 [[.apply (entry 1 (some [.full]))],
          [.apply (entry 1 none)]] (.fresh 0)).runs
        = [ran 1 (some [.full]), ran 1 none]
      ∧ classifyApplyErr (some [.full]) ≠ .retry
      ∧ (run counter 0 [[.apply (entry 1 none)], [.apply (entry 1 none),
          .apply (entry 2 (some [.moduleNotResident]))]]
            (.fresh 0)).applied = 1
      ∧ (run counter 0 [[.apply (entry 1 none)], [.applyBatch [entry 1 none,
          entry 2 (some [.moduleNotResident])]]] (.fresh 0)).applied = 0 := by
  decide

end Rostam.Shard.Apply
