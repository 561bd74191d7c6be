/-
The handlers in two contexts.

Whatever compares two transaction contexts primitive by primitive
compares every handler in them (`Tx.Related.handle`): the texts are the
same, and every branch is taken on a value both sides read. The one
exception is the answer of a delete, which tells whether the slot was
still there; it goes into the response and nowhere else.

A store refines the map if its five operations do; then so does every
operation's handler.
-/
import Rostam.Ops.Handlers

namespace Rostam.Ops

open Rostam.Lib Rostam.Cache

-- ======== contexts

/-- Any two responses. -/
def Any {α : Type} (_ _ : α) : Prop := True

section Contexts

variable {M N : Type → Type} [Monad M] [Monad N] [MonadExceptOf OpErr M]
  [MonadExceptOf OpErr N]

/-- The primitives of two contexts compare on the keys of `K`. -/
structure Tx.Related (L : Lifting OpErr M N) (K : Key → Prop) (tx : Tx M)
    (tx' : Tx N) : Prop where
  getWithExpiry : ∀ {key}, K key →
    L.rel Eq (tx.getWithExpiry key) (tx'.getWithExpiry key)
  put : ∀ {key} (val : Bytes) (ttl : Nat), K key →
    L.rel Eq (tx.put key val ttl) (tx'.put key val ttl)
  putAbs : ∀ {key} (val : Bytes) (exp : Nat), K key →
    L.rel Eq (tx.putAbs key val exp) (tx'.putAbs key val exp)
  delete : ∀ {key}, K key → L.rel Any (tx.delete key) (tx'.delete key)
  putBatch : ∀ entries, (∀ e ∈ entries, K (BatchEntry.key e)) →
    L.rel Any (handlePutBatch tx entries) (handlePutBatch tx' entries)

namespace Tx.Related

variable {L : Lifting OpErr M N} {K : Key → Prop} {tx : Tx M} {tx' : Tx N}
  {key : Key} {val : Bytes} {ttl stamp : Nat} {α β : Type}

/-- What follows a read, by the value read. -/
theorem read {x : M α} {y : N α} {f : α → M β} {g : α → N β}
    {B : β → β → Prop} (hx : L.rel Eq x y) (hf : ∀ a, L.rel B (f a) (g a)) :
    L.rel B (x >>= f) (y >>= g) := by
  refine L.bind (fun _ => rfl) hx fun a b hab => ?_
  subst hab
  exact hf a

/-- A response after the last access. -/
theorem respond {A : α → α → Prop} {x : M α} {y : N α} (hrefl : ∀ a, A a a)
    (hx : L.rel A x y) (f : α → β) :
    L.rel Any (x >>= fun a => pure (f a)) (y >>= fun a => pure (f a)) :=
  L.bind hrefl hx fun _ _ _ => L.pure trivial

variable (h : tx.Related L K tx')

include h

theorem get (hk : K key) : L.rel Eq (tx.get key) (tx'.get key) :=
  read (h.getWithExpiry hk) fun _ => L.pure rfl

theorem expire (hk : K key) :
    L.rel Eq (tx.expire key ttl) (tx'.expire key ttl) := by
  refine read (h.get hk) fun a => ?_
  cases a with
  | none => exact L.throw _
  | some v => exact h.put v ttl hk

theorem respondPut (hk : K key) (resp : Bytes) :
    L.rel Any (tx.put key val ttl >>= fun _ => pure resp)
      (tx'.put key val ttl >>= fun _ => pure resp) :=
  respond (fun _ => rfl) (h.put val ttl hk) fun _ => resp

theorem respondPutAbs (hk : K key) (resp : Bytes) :
    L.rel Any (tx.putAbs key val ttl >>= fun _ => pure resp)
      (tx'.putAbs key val ttl >>= fun _ => pure resp) :=
  respond (fun _ => rfl) (h.putAbs val ttl hk) fun _ => resp

theorem respondDelete (hk : K key) (f : Bool → Bytes) :
    L.rel Any (tx.delete key >>= fun b => pure (f b))
      (tx'.delete key >>= fun b => pure (f b)) :=
  respond (fun _ => trivial) (h.delete hk) f

theorem handleIncr (hk : K key) (delta : BitVec 64) :
    L.rel Any (handleIncr tx key delta) (handleIncr tx' key delta) := by
  refine read (h.get hk) fun a => ?_
  cases a with
  | none => exact h.respondPut hk _
  | some v =>
    dsimp only
    split
    · exact L.throw _
    · exact h.respondPut hk _

theorem handleIncrEx (hk : K key) (delta : BitVec 64) :
    L.rel Any (handleIncrEx tx key delta ttl)
      (handleIncrEx tx' key delta ttl) := by
  refine read (h.getWithExpiry hk) fun a => ?_
  cases a with
  | none => exact h.respondPut hk _
  | some v =>
    dsimp only
    split
    · exact L.throw _
    · exact h.respondPutAbs hk _

theorem handlePersist (hk : K key) :
    L.rel Any (handlePersist tx key) (handlePersist tx' key) := by
  refine read (h.getWithExpiry hk) fun a => ?_
  cases a with
  | none => exact L.pure trivial
  | some v =>
    dsimp only
    split
    · exact L.pure trivial
    · exact h.respondPutAbs hk _

theorem handleOperate (hk : K key) (mode : TtlMode)
    (run : Option Bytes → Nat → Except OpErr Outcome) :
    L.rel Any (handleOperate tx stamp key mode ttl run)
      (handleOperate tx' stamp key mode ttl run) := by
  refine read (h.getWithExpiry hk) fun a => ?_
  dsimp only
  split
  · exact L.throw _
  · exact L.pure trivial
  · split
    · exact h.respondDelete hk _
    · exact L.pure trivial
  · -- the write of the new record, by the call's rule for its deadline
    cases mode <;> cases a
    all_goals
      first
      | exact h.respondPut hk _
      | exact h.respondPutAbs hk _

/-- The handlers that compare what they read with what they expect. -/
theorem handleIf {c : Option Bytes → Prop} [DecidablePred c] (hk : K key)
    {resp : Bytes} {f : M Bytes} {g : N Bytes} (hf : L.rel Any f g) :
    L.rel Any (tx.get key >>= fun cur => if c cur then pure resp else f)
      (tx'.get key >>= fun cur => if c cur then pure resp else g) := by
  refine read (h.get hk) fun a => ?_
  split
  · exact L.pure trivial
  · exact hf

/-- Every handler compares, in contexts that do on its keys. -/
theorem handle (op : KvOp) (hk : ∀ key ∈ op.keys, K key)
    (hflush : op = .flush → L.rel Eq tx.flush tx'.flush) :
    L.rel Any (op.handle tx stamp) (op.handle tx' stamp) := by
  have hone : ∀ {key : Key}, op.keys = [key] → K key := fun he =>
    hk _ (he ▸ List.mem_singleton.mpr rfl)
  cases op with
  | put key val ttl => exact h.respondPut (hone rfl) []
  | del key => exact h.respondDelete (hone rfl) flag
  | flush => exact respond (fun _ => rfl) (hflush rfl) fun _ => []
  | expire key ttl =>
    exact respond (fun _ => rfl) (h.expire (hone rfl)) fun _ => []
  | incr key delta => exact h.handleIncr (hone rfl) delta
  | setNX key val ttl =>
    refine read (h.get (hone rfl)) fun a => ?_
    cases a with
    | none => exact h.respondPut (hone rfl) _
    | some v => exact L.pure trivial
  | cas key val expected ttl =>
    exact h.handleIf (hone rfl) (h.respondPut (hone rfl) _)
  | cad key expected =>
    exact h.handleIf (hone rfl) (h.respondDelete (hone rfl) _)
  | getdel key =>
    refine read (h.get (hone rfl)) fun a => ?_
    cases a with
    | none => exact L.pure trivial
    | some v => exact h.respondDelete (hone rfl) _
  | getset key val ttl =>
    exact read (h.get (hone rfl)) fun a => h.respondPut (hone rfl) _
  | persist key => exact h.handlePersist (hone rfl)
  | incrEx key delta ttl => exact h.handleIncrEx (hone rfl) delta
  | caex key expected ttl =>
    exact h.handleIf (hone rfl)
      (respond (fun _ => rfl) (h.expire (hone rfl)) fun _ => [1])
  | putBatch entries =>
    exact h.putBatch entries fun e he => hk _ (List.mem_map_of_mem he)
  | operate key mode ttl run => exact h.handleOperate (hone rfl) mode run

end Tx.Related

end Contexts

-- ======== stores

variable {σ : Type} {S : Store σ} {hash : Key → Nat}
  {R : Nat → σ → Entries → Prop} {t : Nat}

/-- At every clock from `t` on, the store and the map read alike after
the same accesses. -/
structure Refines (S : Store σ) (hash : Key → Nat)
    (R : Nat → σ → Entries → Prop) : Prop where
  getAt : ∀ {t s m} (key : Key), R t s m →
    R t (S.getAt key t s).1 m ∧ (S.getAt key t s).2 = m.read key t
  putAt : ∀ {t s m} (key : Key) (val : Bytes) (ttl : Nat), R t s m →
    (S.putAt key val ttl t s).2 = none →
    R t (S.putAt key val ttl t s).1 (m.put hash key (val, expiryAtFrom ttl t))
  putAbs : ∀ {t s m} (key : Key) (val : Bytes) (exp : Nat), R t s m →
    (S.putAbs key val exp s).2 = none →
    R t (S.putAbs key val exp s).1 (m.put hash key (val, exp))
  del : ∀ {t s m} (key : Key) (b : Bool), R t s m → (S.del key s).2 = .ok b →
    R t (S.del key s).1 (Function.update m key none)
  flush : ∀ {t s m}, R t s m → R t (S.flush s) fun _ => none

/-- The first error of a batch comes out at its end. -/
theorem putBatchLoop_first {entries : List BatchEntry}
    {first : Option OpErr} {s s' : σ}
    (hx : (putBatchLoop (S.tx t) entries first).exec s = (.ok none, s')) :
    first = none := by
  induction entries generalizing first s with
  | nil =>
    injection hx with ha _
    injection ha
  | cons e rest ih =>
    obtain ⟨err, u, _, hrest⟩ := Effect.exec_bind_ok hx
    have h := ih hrest
    cases first with
    | none => rfl
    | some e' => cases h

/-- A write of a handler that goes on is one that went through. -/
theorem write_ok {w : σ → σ × Option Err} {s s' : σ} {a : Unit}
    (hx : ((.ofStep fun s => ((w s).1, .ok ((w s).2.map .cache)))
      >>= orThrow : Effect OpErr σ Unit).exec s = (.ok a, s')) :
    (w s).2 = none ∧ (w s).1 = s' := by
  obtain ⟨e, u, hput, hthrow⟩ := Effect.exec_bind_ok hx
  injection hput with he hu
  injection he with he
  subst hu
  cases e with
  | some e => injection hthrow with hthrow; cases hthrow
  | none =>
    injection hthrow with _ hs
    exact ⟨Option.map_eq_none_iff.mp he, hs⟩

/-- A handler goes on after a delete only if it did not fail. -/
theorem delete_ok {key : Key} {s s' : σ} {a : Bool}
    (hx : ((S.tx t).delete key).exec s = (.ok a, s')) :
    (S.del key s).2 = .ok a ∧ (S.del key s).1 = s' := by
  injection hx with ha hs
  refine ⟨?_, hs⟩
  dsimp only at ha
  cases hd : (S.del key s).2 with
  | error e =>
    rw [hd] at ha
    cases ha
  | ok b =>
    rw [hd] at ha
    injection ha with ha
    rw [ha]

/-- A batch succeeds only if its loop ends without an error. -/
theorem putBatch_ok {entries : List BatchEntry} {s s' : σ} {a : Bytes}
    (hx : (handlePutBatch (S.tx t) entries).exec s = (.ok a, s')) :
    (putBatchLoop (S.tx t) entries none).exec s = (.ok none, s') := by
  obtain ⟨err, u, hloop, hrest⟩ := Effect.exec_bind_ok hx
  obtain ⟨_, u', hthrow, hpure⟩ := Effect.exec_bind_ok hrest
  cases err with
  | some e => injection hthrow with hthrow; cases hthrow
  | none =>
    injection hthrow with _ hu
    injection hpure with _ hs
    rw [hloop, hu, hs]

/-- One put of a batch's loop that ends without an error. -/
theorem putBatchLoop_cons {e : BatchEntry} {rest : List BatchEntry}
    {first : Option OpErr} {s s' : σ}
    (hx : (putBatchLoop (S.tx t) (e :: rest) first).exec s
      = (.ok none, s')) :
    (S.putAt e.key e.val e.ttl t s).2 = none
      ∧ (putBatchLoop (S.tx t) rest none).exec
          (S.putAt e.key e.val e.ttl t s).1 = (.ok none, s') := by
  obtain rfl := putBatchLoop_first hx
  obtain ⟨err, u, hput, hrest⟩ := Effect.exec_bind_ok hx
  injection hput with he hu
  injection he with he
  obtain rfl : err = none := putBatchLoop_first hrest
  subst hu
  exact ⟨Option.map_eq_none_iff.mp he, hrest⟩

/-- A write that goes through is the map's. -/
theorem sim_write {w : σ → σ × Option Err} {m' : Entries → Entries}
    (hw : ∀ s m, R t s m → (w s).2 = none → R t (w s).1 (m' m)) :
    Sim (R t) Eq
      ((.ofStep fun s => ((w s).1, .ok ((w s).2.map .cache)))
        >>= orThrow : Effect OpErr σ Unit)
      ((.ofStep fun m => (m' m, .ok none)) >>= orThrow) := by
  intro s m a s' hR hx
  obtain ⟨hok, rfl⟩ := write_ok hx
  exact ⟨(), _, rfl, hw s m hR hok, rfl⟩

section Primitives

variable (h : Refines S hash R)

include h

/-- The puts of a batch that all succeed. -/
theorem Refines.sim_putBatchLoop (entries : List BatchEntry)
    {s : σ} {m : Entries} {first : Option OpErr} {s' : σ} (hR : R t s m)
    (hx : (putBatchLoop (S.tx t) entries first).exec s = (.ok none, s')) :
    ∃ m', R t s' m'
      ∧ (putBatchLoop ((entriesStore hash).tx t) entries none).exec m
        = (.ok none, m') := by
  induction entries generalizing s m first with
  | nil =>
    injection hx with _ hs
    subst hs
    exact ⟨m, hR, rfl⟩
  | cons e rest ih =>
    obtain ⟨hok, hrest⟩ := putBatchLoop_cons hx
    obtain ⟨m', hR', hm'⟩ := ih (h.putAt e.key e.val e.ttl hR hok) hrest
    refine ⟨m', hR', ?_⟩
    show (_ >>= _ : Effect OpErr Entries (Option OpErr)).exec m = _
    rw [Effect.exec_bind]
    exact hm'

/-- A store that refines the map is a context like the map. -/
theorem Refines.related : (S.tx t).Related
    (Sim.lifting OpErr (R t)) (fun _ => True) ((entriesStore hash).tx t) where
  getWithExpiry := by
    intro key _ s m a s' hR hx
    obtain ⟨hR', heq⟩ := h.getAt key hR
    injection hx with ha hs
    injection ha with ha
    subst hs
    refine ⟨_, m, rfl, hR', ?_⟩
    rw [← ha, heq]
    rfl
  put := fun val ttl _ => sim_write fun _ _ hR hok =>
    h.putAt _ val ttl hR hok
  putAbs := fun val exp _ => sim_write fun _ _ hR hok =>
    h.putAbs _ val exp hR hok
  delete := by
    intro key _ s m a s' hR hx
    obtain ⟨hok, rfl⟩ := delete_ok hx
    exact ⟨_, _, rfl, h.del key a hR hok, trivial⟩
  putBatch := by
    intro entries _ s m a s' hR hx
    obtain ⟨m', hR', hm'⟩ := h.sim_putBatchLoop entries hR (putBatch_ok hx)
    refine ⟨beEncode 4 entries.length, m', ?_, hR', trivial⟩
    show (_ >>= _ : Effect OpErr Entries Bytes).exec m = _
    rw [Effect.exec_bind, hm']
    rfl

end Primitives

/-- Every operation on the cache that succeeds is the same operation on
the map. -/
theorem Refines.sim_applyEntry (h : Refines S hash R) (op : KvOp) :
    Sim (R t) Any (applyEntry S t op)
      (applyEntry (entriesStore hash) t op) := by
  refine h.related.handle op (fun _ _ => trivial) fun _ => ?_
  intro s m a s' hR hx
  injection hx with _ hs
  subst hs
  exact ⟨(), _, rfl, h.flush hR, rfl⟩

end Rostam.Ops
