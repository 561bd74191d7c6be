/-
Atomicity of the direct store's operations.

Which `opMu` a call holds is decided by its routing key, what its
handler touches by the handler. The two agree for every single-key
operation and for flush, which holds all of them. They agree for
put_batch only as long as the whole batch lies in its first key's shard:
the direct store chunks a batch by size and never groups it by shard, so
a batch writes keys whose shard's lock it does not hold, and a
read-modify-write on such a key loses the batch's write.
-/
import Rostam.Direct.Store
import Rostam.Lib.Serial
import Rostam.Ops.Proofs.Handlers

namespace Rostam.Direct

open Rostam.Lib Rostam.Ops Rostam.Cache

-- ======== what handlers touch

section Handlers

variable {P : Access → Prop} {c : Cache} {key : Key} {α β : Type}

/-- Every access a program can make meets `P`, whatever it returns. -/
def within (P : Access → Prop) : Lifting OpErr Steps Steps where
  rel := fun _ x _ => x.run.All P
  pure := fun _ => Prog.all_pure _
  bind := by
    intro α β A B x y f g hrefl hx hf
    refine Prog.all_bind hx fun r => ?_
    cases r with
    | ok a => exact hf a a (hrefl a)
    | error e => exact Prog.all_pure _
  throw := fun _ => Prog.all_pure _

/-- A program that goes on from a value or an error. -/
theorem all_then {x : Steps α} {f : α → Steps β} (hx : x.run.All P)
    (hf : ∀ a, (f a).run.All P) : (x >>= f).run.All P :=
  (within P).bind (A := Eq) (B := Any) (y := x) (g := f) (fun _ => rfl) hx
    fun a _ _ => hf a

theorem all_lift {acc : Access} (h : P acc) :
    (ExceptT.lift (Prog.access acc) : Steps Res).run.All P :=
  ⟨h, fun _ => trivial⟩

theorem all_txWrite {acc : Access} (h : P acc) : (txWrite acc).run.All P := by
  refine all_then (all_lift h) fun r => ?_
  cases r <;> exact Prog.all_pure _

theorem all_orThrow (err : Option OpErr) :
    (orThrow err : Steps Unit).run.All P := by
  cases err <;> exact Prog.all_pure _

theorem all_replyWith {x : Steps α} {f : α → Reply} (hx : x.run.All P) :
    (replyWith f x).All P := by
  refine Prog.all_bind hx fun r => ?_
  cases r <;> exact Prog.all_pure _

theorem all_delete (h : P (.del key)) :
    ((cacheTx c).delete key).run.All P := by
  refine all_then (all_lift h) fun r => ?_
  cases r with
  | wrote err => cases err <;> exact Prog.all_pure _
  | _ => exact Prog.all_pure _

theorem all_putBatchLoop {entries : List BatchEntry}
    (h : ∀ e ∈ entries, P (.put e.key e.val e.ttl)) (first : Option OpErr) :
    (putBatchLoop (cacheTx c) entries first).run.All P := by
  induction entries generalizing first with
  | nil => exact Prog.all_pure _
  | cons e rest ih =>
    refine all_then (all_txWrite (h e List.mem_cons_self)) fun err => ?_
    exact ih (fun e' he' => h e' (List.mem_cons_of_mem e he')) _

theorem all_handlePutBatch {entries : List BatchEntry}
    (h : ∀ e ∈ entries, P (.put e.key e.val e.ttl)) :
    (handlePutBatch (cacheTx c) entries).run.All P := by
  refine all_then (all_putBatchLoop h none) fun err => ?_
  exact all_then (all_orThrow err) fun _ => Prog.all_pure _

theorem all_flushEach {is : List Nat} (h : ∀ i ∈ is, P (.flush i))
    (first : Option OpErr) : (flushEach is first).run.All P := by
  induction is generalizing first with
  | nil => exact Prog.all_pure _
  | cons i is ih =>
    refine all_then (all_txWrite (h i List.mem_cons_self)) fun err => ?_
    exact ih (fun j hj => h j (List.mem_cons_of_mem i hj)) _

/-- On keys whose accesses meet `P` the context keeps to `P`. -/
theorem cacheTx_related (c : Cache) {K : Key → Prop}
    (hK : ∀ key, K key → P (.get key) ∧ P (.del key)
      ∧ (∀ val ttl, P (.put key val ttl))
        ∧ ∀ val exp, P (.putAbs key val exp)) :
    (cacheTx c).Related (within P) K (cacheTx c) where
  getWithExpiry := by
    intro key hk
    refine all_then (all_lift (hK key hk).1) fun r => ?_
    cases r <;> exact Prog.all_pure _
  put := fun val ttl hk =>
    all_then (all_txWrite ((hK _ hk).2.2.1 val ttl)) all_orThrow
  putAbs := fun val exp hk =>
    all_then (all_txWrite ((hK _ hk).2.2.2 val exp)) all_orThrow
  delete := fun hk => all_delete (c := c) (hK _ hk).2.1
  putBatch := fun entries hk =>
    all_handlePutBatch fun e he => (hK _ (hk e he)).2.2.1 _ _

end Handlers

variable {c : Cache} {l : Nat}

-- ======== confinement

/-- The whole batch lies in its first key's shard. -/
def SameShard (c : Cache) (entries : List BatchEntry) : Prop :=
  ∀ e ∈ entries, ∀ f ∈ entries.head?, c.shardIndex e.key = c.shardIndex f.key

instance (c : Cache) (entries : List BatchEntry) :
    Decidable (SameShard c entries) :=
  inferInstanceAs (Decidable (∀ e ∈ entries, ∀ f ∈ entries.head?, _ = _))

/-- The chunks PutBatch sends. -/
def chunks : Nat → List BatchEntry → List (List BatchEntry)
  | 0, _ => []
  | _ + 1, [] => []
  | fuel + 1, e :: es =>
    (e :: es).take maxPutBatchSize
      :: chunks fuel ((e :: es).drop maxPutBatchSize)

/-- No shard is written by two of the chunks. -/
def Apart (c : Cache) (a b : List BatchEntry) : Prop :=
  ∀ e ∈ a, ∀ f ∈ b, c.shardIndex e.key ≠ c.shardIndex f.key

instance (c : Cache) (a b : List BatchEntry) : Decidable (Apart c a b) :=
  inferInstanceAs (Decidable (∀ e ∈ a, ∀ f ∈ b, _ ≠ _))

/-- A put_batch call holds the lock of every key it writes. -/
def Call.Confined (c : Cache) : Call → Prop
  | .op (.putBatch entries) => SameShard c entries
  | _ => True

/-- The invocation's batches are confined to the shards they lock, and a
batch of several chunks comes back to no shard. -/
def Invocation.Confined (c : Cache) : Invocation → Prop
  | .putBatch entries =>
    (∀ b ∈ chunks entries.length entries, SameShard c b)
      ∧ (chunks entries.length entries).Pairwise (Apart c)
  | .call op => op.Confined c
  | _ => True

/-- The keys of a confined operation lie in its routing key's shard. -/
theorem Call.Confined.keys {o : KvOp} (h : (Call.op o).Confined c) :
    ∀ key ∈ o.keys, c.shardIndex key ∈ (Call.op o).locks c := by
  have hone : ∀ {k : Key}, o.keys = [k] → ∀ key ∈ o.keys,
      c.shardIndex key ∈ (Call.op o).locks c := by
    intro k he key hkey
    have hlocks : (Call.op o).locks c = [c.shardIndex k] := by
      unfold Call.locks
      rw [show (Call.op o).keyExtractor = some k from congrArg List.head? he]
    rw [he, List.mem_singleton] at hkey
    rw [hlocks, hkey]
    exact List.mem_singleton.mpr rfl
  cases o with
  | putBatch entries =>
    intro key hkey
    obtain ⟨e, he, rfl⟩ := List.mem_map.mp hkey
    cases entries with
    | nil => cases he
    | cons f es => exact List.mem_singleton.mpr (h e he f rfl)
  | flush => exact fun key hkey => by cases hkey
  | _ => exact hone rfl

/-- A confined call touches only shards whose `opMu` it holds. -/
theorem Call.handler_within {op : Call} (h : op.Confined c) :
    (op.handler c).All fun acc => acc.shard c ∈ op.locks c := by
  cases op with
  | malformed key => exact Prog.all_pure _
  | op o =>
    refine all_replyWith (Tx.Related.handle (cacheTx_related c
      fun key hk => ⟨hk, hk, fun _ _ => hk, fun _ _ => hk⟩) o h.keys ?_)
    rintro rfl
    exact all_then (all_flushEach (fun i hi => hi) none) all_orThrow

/-- A section keeps the discipline at `l` when it holds the locks of
everything it touches and what follows it keeps away from them. -/
theorem tidy_crit {locks : List Nat} {body : Handler} {next : Reply → StoreJob}
    (hb : body.All fun acc => acc.shard c ∈ locks)
    (hin : l ∈ locks → ∀ r, (next r).Avoids c.memory l)
    (hout : l ∉ locks → ∀ r, (next r).Tidy c.memory l) :
    (Job.crit locks body next).Tidy c.memory l := by
  by_cases hl : l ∈ locks
  · exact .inr ⟨hl, hin hl⟩
  · refine .inl ⟨hb.imp fun acc hacc => ?_, hout hl⟩
    exact decide_eq_false fun he => hl (he ▸ hacc)

/-- Chunks that write no key of shard `l` never touch it. -/
theorem putBatchChunks_avoids (fuel : Nat) (entries : List BatchEntry)
    (h : ∀ b ∈ chunks fuel entries, ∀ e ∈ b, c.shardIndex e.key ≠ l) :
    (putBatchChunks c fuel entries).Avoids c.memory l := by
  induction fuel generalizing entries with
  | zero => trivial
  | succ fuel ih =>
    cases entries with
    | nil => trivial
    | cons e es =>
      refine ⟨all_replyWith (all_handlePutBatch fun f hf => ?_), fun r => ?_⟩
      · exact decide_eq_false (h _ List.mem_cons_self f hf)
      · cases r with
        | err err => trivial
        | bytes b =>
          exact ih _ fun b hb =>
            h b (List.mem_cons_of_mem _ hb)
        | bool b =>
          exact ih _ fun b hb =>
            h b (List.mem_cons_of_mem _ hb)

/-- A confined PutBatch keeps the discipline at every shard. -/
theorem putBatchChunks_tidy (fuel : Nat) (entries : List BatchEntry)
    (hsame : ∀ b ∈ chunks fuel entries, SameShard c b)
    (hapart : (chunks fuel entries).Pairwise (Apart c)) :
    (putBatchChunks c fuel entries).Tidy c.memory l := by
  induction fuel generalizing entries with
  | zero => trivial
  | succ fuel ih =>
    cases entries with
    | nil => trivial
    | cons e es =>
      have hhead := hsame _ List.mem_cons_self
      have hrest := List.pairwise_cons.mp hapart
      refine tidy_crit (Call.handler_within hhead) ?_ ?_
      · intro hl r
        -- The chunk's shard is `l`: its first key's.
        have hle : l = c.shardIndex e.key := List.mem_singleton.mp hl
        have havoid : ∀ b ∈ chunks fuel ((e :: es).drop maxPutBatchSize),
            ∀ f ∈ b, c.shardIndex f.key ≠ l := by
          intro b hb f hf heq
          refine hrest.1 b hb e ?_ f hf (heq ▸ hle).symm
          exact List.mem_cons_self
        cases r with
        | err err => trivial
        | bytes b => exact putBatchChunks_avoids _ _ havoid
        | bool b => exact putBatchChunks_avoids _ _ havoid
      · intro _ r
        have hnext := ih ((e :: es).drop maxPutBatchSize)
          (fun b hb => hsame b (List.mem_cons_of_mem _ hb)) hrest.2
        cases r with
        | err err => trivial
        | bytes b => exact hnext
        | bool b => exact hnext

/-- A confined invocation keeps the discipline at every shard. -/
theorem Invocation.job_tidy {inv : Invocation}
    (h : inv.Confined c) (l : Nat) : (inv.job c).Tidy c.memory l := by
  cases inv with
  | put key val ttl =>
    refine tidy_crit (all_replyWith ?_) (fun _ _ => trivial)
      fun _ _ => trivial
    refine all_then (all_then (all_txWrite ?_) all_orThrow) fun _ =>
      Prog.all_pure _
    exact List.mem_singleton.mpr rfl
  | del key =>
    exact tidy_crit (all_replyWith (all_delete (List.mem_singleton.mpr rfl)))
      (fun _ _ => trivial) fun _ _ => trivial
  | putBatch entries => exact putBatchChunks_tidy _ _ h.1 h.2
  | call op =>
    exact tidy_crit (Call.handler_within h) (fun _ _ => trivial)
      fun _ _ => trivial

-- ======== atomicity

section Atomicity

variable {ι : Type} [DecidableEq ι]

/-- The effects on a key are sequential: there is an order of the
invocations in which replaying each one's accesses to the key's shard as
one block gives every answer it was given and the values stored there.
And whatever an invocation returned is what its operation returns on
those answers. -/
def DirectStore.Serial (c : Cache) (inv : ι → Invocation)
    (m₀ : Nat → Entries) (s : DirectStore ι) (key : Key) : Prop :=
  (∃ order : List ι, order.Nodup
    ∧ (∀ ev ∈ s.log, ev.acc.shard c = c.shardIndex key → ev.thread ∈ order)
    ∧ c.memory.replay (c.shardIndex key) (m₀ (c.shardIndex key))
        (order.flatMap (s.part c.memory (c.shardIndex key)))
      = some (s.mem (c.shardIndex key)))
  ∧ ∀ i reply, s.pc i = .idle (.ret reply) →
      ((inv i).job c).Ran ((s.own i).map fun ev => (ev.acc, ev.res)) reply

/-- **Confined invocations are atomic.** In every state of every run of
invocations whose batches stay in the shards they lock, each key's
effects are sequential. -/
theorem confined_serial (c : Cache) (inv : ι → Invocation)
    (m₀ : Nat → Entries) (hconf : ∀ i, (inv i).Confined c)
    {tr : List (ι × Env)} {s : DirectStore ι}
    (h : Reach (DirectStore.step c) Free (directStore c inv m₀) tr s)
    (key : Key) : s.Serial c inv m₀ key := by
  constructor
  · obtain ⟨order, hn, hmem, hr⟩ := Pool.serial
      (fun i => Invocation.job_tidy (hconf i) (c.shardIndex key)) h
    refine ⟨order, hn, ?_, hr⟩
    intro ev hev he
    exact hmem ev hev (decide_eq_true he)
  · intro i reply hret
    exact Pool.ran h hret

end Atomicity

-- ======== a lost write

/-- Two shards, the last byte of a key choosing between them. -/
def twoShards : Cache where
  hashKey := beDecode
  numShards := 2
  pos := by decide

/-- A clock at rest, nothing refused, nothing evicted. -/
def calm : Env := ⟨0, none, fun _ => false⟩

def emptyShards : Nat → Entries := fun _ _ => none

/-- An incr of a key and a PutBatch that writes the same key behind one
of the other shard. -/
def racing : Bool → Invocation
  | false => .call (.op (.incr [1] 1))
  | true => .putBatch [⟨[0], [7], 0⟩, ⟨[1], beEncode 8 5, 0⟩]

/-- The batch runs between the incr's read and its write. -/
def lostRun : List (Bool × Env) :=
  ([false, false, false] ++ [true, true, true, true]
    ++ [false, false, false, false] ++ [true, true, true]).map (·, calm)

/-- The state the run ends in. -/
def lostEnd : DirectStore Bool :=
  (exec (DirectStore.step twoShards) (fun _ _ => true)
    (directStore twoShards racing emptyShards) lostRun).getD
      (directStore twoShards racing emptyShards)

theorem lostEnd_reach : Reach (DirectStore.step twoShards) Free
    (directStore twoShards racing emptyShards) lostRun lostEnd :=
  exec_reach (k := fun _ _ => true) (fun _ _ _ => trivial) rfl

/-- What the two did to the incr's shard, in the order they did it. -/
theorem lostEnd_log : lostEnd.log = [⟨false, .get [1], calm, .found none⟩,
      ⟨true, .put [0] [7] 0, calm, .wrote none⟩,
      ⟨true, .put [1] (beEncode 8 5) 0, calm, .wrote none⟩,
      ⟨false, .put [1] (beEncode 8 1) 0, calm, .wrote none⟩] := rfl

/-- A list over two threads that names both of them once. -/
theorem both_orders {order : List Bool} (hn : order.Nodup)
    (hf : false ∈ order) (ht : true ∈ order) :
    order = [false, true] ∨ order = [true, false] := by
  rcases order with _ | ⟨a, _ | ⟨b, _ | ⟨c, rest⟩⟩⟩
  · cases hf
  · cases a <;> simp at hf ht
  · cases a <;> cases b <;> simp at hn ⊢
  · cases a <;> cases b <;> cases c <;> simp at hn

/-- The store ends with the incr's 1: the batch's 5, acknowledged, is
gone, and no order of the two gives what was read and stored. -/
theorem batch_write_lost :
    Reach (DirectStore.step twoShards) Free
        (directStore twoShards racing emptyShards) lostRun lostEnd
      ∧ lostEnd.pc true = .idle (.ret (.bytes []))
      ∧ lostEnd.pc false = .idle (.ret (.bytes (beEncode 8 1)))
      ∧ lostEnd.mem 1 [1] = some ⟨beEncode 8 1, 0⟩
      ∧ ¬ lostEnd.Serial twoShards racing emptyShards [1] := by
  refine ⟨lostEnd_reach, rfl, rfl, rfl, ?_⟩
  rintro ⟨⟨order, hn, hmem, hr⟩, -⟩
  have hf : false ∈ order := hmem ⟨false, .get [1], calm, .found none⟩
      (by rw [lostEnd_log]; exact List.mem_cons_self) rfl
  have ht : true ∈ order :=
    hmem ⟨true, .put [1] (beEncode 8 5) 0, calm, .wrote none⟩
      (by rw [lostEnd_log]; exact .tail _ (.tail _ (.head _))) rfl
  rcases both_orders hn hf ht with rfl | rfl
  · -- The incr first: the batch's value would have stayed.
    have hkey := congrArg (Option.map fun m : Entries => m [1]) hr
    have hstored : some (some (beEncode 8 5, 0))
        = some (some (beEncode 8 1, 0)) := hkey
    revert hstored
    decide
  · -- The batch first: the incr would have read its value.
    have hnone : (none : Option Entries) = some (lostEnd.mem 1) := hr
    cases hnone

/-- An incr and a PutBatch in one shard, run the same way: the batch
waits for the lock, and both writes count. -/
def sharing : Bool → Invocation
  | false => .call (.op (.incr [1] 1))
  | true => .putBatch [⟨[1], beEncode 8 5, 0⟩, ⟨[3], [7], 0⟩]

def sharedRun : List (Bool × Env) :=
  ([false, false, false] ++ [true] ++ [false, false, false, false]
    ++ [true, true, true, true]).map (·, calm)

theorem sharing_confined (i : Bool) : (sharing i).Confined twoShards := by
  cases i with
  | false => trivial
  | true => exact ⟨by decide, by decide⟩

theorem confined_serial_shared :
    ∃ s : DirectStore Bool,
      Reach (DirectStore.step twoShards) Free
          (directStore twoShards sharing emptyShards) sharedRun s
        ∧ s.mem 1 [1] = some ⟨beEncode 8 5, 0⟩
        ∧ s.Serial twoShards sharing emptyShards [1] := by
  have hrun : Reach (DirectStore.step twoShards) Free
      (directStore twoShards sharing emptyShards) sharedRun _ :=
    exec_reach (k := fun _ _ => true) (fun _ _ _ => trivial) rfl
  exact ⟨_, hrun, rfl,
    confined_serial twoShards sharing emptyShards sharing_confined hrun [1]⟩

end Rostam.Direct
