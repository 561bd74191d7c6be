/-
Two replicas that apply one log of stamped writes.

What a stamped write stores and answers is a function of the collection,
the stamp and the call, with two exceptions that come from the node. The
token bucket refills on the wall clock, so whether a token is there
differs between replicas. The record check names the first bad record
that a map loop meets, and the loop's order is drawn anew on each
replica. `Even` is a step where neither shows: the buckets answer alike,
and no two records of the payload are bad.

The column sidecar does not show. It is charged to the byte budget, but
it is dropped before a write is refused for it, so a point is refused
exactly when it would be without any column.
-/
import Rostam.Lib.Trace
import Rostam.Vector.Proofs.Refused

namespace Rostam.Vector

open Rostam.Lib

variable {F K E : Type}

variable {validateRecord : Bytes → Option E} {order : RangeOrder}
  {payload : Metadata}

-- ======== the record check

/-- At most one record of the payload is bad. -/
def OneBad (validateRecord : Bytes → Option E) (payload : Metadata) : Prop :=
  ∀ x ∈ payload.entries, ∀ y ∈ payload.entries,
    checkRecordValue validateRecord x.1 x.2 ≠ none →
    checkRecordValue validateRecord y.1 y.2 ≠ none → x = y

/-- The check passes if every record does. -/
theorem checkRecordValues_eq_none
    :
    checkRecordValues validateRecord order payload = none
      ↔ ∀ x ∈ payload.entries,
        checkRecordValue validateRecord x.1 x.2 = none := by
  unfold checkRecordValues
  rw [List.findSome?_eq_none_iff]
  exact forall_congr' fun x => by rw [(order.perm payload).mem_iff]

/-- An error is that of some record. -/
theorem checkRecordValues_mem
    {e : VecErr E}
    (h : checkRecordValues validateRecord order payload = some e) :
    ∃ x ∈ payload.entries,
      checkRecordValue validateRecord x.1 x.2 = some e := by
  obtain ⟨x, hx, he⟩ := List.exists_of_findSome?_eq_some h
  exact ⟨x, (order.perm payload).mem_iff.mp hx, he⟩

/-- With one bad record the visiting order does not show. -/
theorem checkRecordValues_order
    (hone : OneBad validateRecord payload)
    (o o' : RangeOrder) :
    checkRecordValues validateRecord o payload
      = checkRecordValues validateRecord o' payload := by
  cases h : checkRecordValues validateRecord o payload with
  | none =>
    exact (checkRecordValues_eq_none.mpr (checkRecordValues_eq_none.mp h)).symm
  | some e =>
    cases h' : checkRecordValues validateRecord o' payload with
    | none =>
      rw [checkRecordValues_eq_none.mpr (checkRecordValues_eq_none.mp h')] at h
      cases h
    | some e' =>
      obtain ⟨x, hx, hxe⟩ := checkRecordValues_mem h
      obtain ⟨y, hy, hye⟩ := checkRecordValues_mem h'
      have hxy : x = y := hone x hx y hy (by simp [hxe]) (by simp [hye])
      rw [hxy, hye] at hxe
      exact hxe.symm

/-- The content of a document is no record. -/
theorem checkRecordValues_withContent
    (content : Bytes)
    (h : checkRecordValues validateRecord order payload = none) :
    checkRecordValues validateRecord order (withContent payload content)
      = none := by
  rw [checkRecordValues_eq_none] at h ⊢
  unfold withContent
  split
  · exact h
  · intro x hx
    rw [AList.entries_insert, List.mem_cons] at hx
    obtain rfl | hx := hx
    · rfl
    · exact h x ((List.kerase_sublist _ _).subset hx)

-- ======== agreement

/-- Two outcomes that differ at most in what a node keeps for itself. -/
def Agree {α : Type} (x y : Hnsw F K × Except (VecErr E) α) : Prop :=
  x.1.store = y.1.store ∧ x.2 = y.2

theorem Agree.pair {α : Type} {a b : Hnsw F K} (h : a.store = b.store)
    (r : Except (VecErr E) α) : Agree (a, r) (b, r) :=
  ⟨h, rfl⟩

theorem Agree.map {α β : Type} {x y : Hnsw F K × Except (VecErr E) α}
    (h : Agree x y) (f : α → β) :
    Agree (x.1, x.2.map f) (y.1, y.2.map f) :=
  ⟨h.1, congrArg (Except.map f) h.2⟩

namespace Hnsw

variable {a b : Hnsw F K} {ea eb : Env}

/-- Columns do not refuse a point. -/
theorem yieldColumns_overBytes (cfg : Config) (h : Hnsw F K) (reclaim : Bool) :
    (h.yieldColumns cfg reclaim).overBytes cfg reclaim
        (h.yieldColumns cfg reclaim).columnBytes
      = h.overBytes cfg reclaim 0 := by
  unfold yieldColumns
  split
  · rfl
  · next hfit =>
    rw [Bool.not_eq_true] at hfit
    rw [hfit]
    unfold overBytes at hfit ⊢
    rw [decide_eq_false_iff_not] at hfit
    symm
    rw [decide_eq_false_iff_not]
    intro hover
    apply hfit
    omega

/-- Stores that agree place a point alike. -/
theorem placeLockedAt_agree (cfg : Config) (fn : Funcs F K E)
    (hs : a.store = b.store) (ea eb : Env)
    (p : Store.Placement F) (now : UInt64) :
    Agree (a.placeLockedAt cfg fn ea p now)
      (b.placeLockedAt cfg fn eb p now) := by
  have hcount : ∀ r, a.overCount cfg r = b.overCount cfg r := by
    intro r
    rw [overCount, overCount, hs]
  have hbytes : ∀ r, a.overBytes cfg r 0 = b.overBytes cfg r 0 := by
    intro r
    rw [overBytes, overBytes, hs]
  unfold placeLockedAt
  dsimp only
  rw [yieldColumns_overBytes, yieldColumns_overBytes, hcount, hbytes, hs]
  split
  · exact .pair hs _
  · split
    · exact .pair hs _
    · split
      · apply Agree.pair
        rw [yieldColumns_store, yieldColumns_store, hs]
      · rw [yieldColumns_store, yieldColumns_store, hs]
        apply Agree.pair
        rw [setStore_store, setStore_store]

/-- What an insert needs of two nodes: the record check and the bucket
answer alike. -/
structure InsertAlike (fn : Funcs F K E) (a b : Hnsw F K) (ea eb : Env)
    (payload : Metadata) : Prop where
  store : a.store = b.store
  check : checkRecordValues fn.validateRecord ea.order payload
    = checkRecordValues fn.validateRecord eb.order payload
  token : (take a.bucket ea.wall).1 = (take b.bucket eb.wall).1

/-- Stores that agree insert alike. -/
theorem insertBody_agree (cfg : Config) {fn : Funcs F K E}
    {pt : Point F} (h : InsertAlike fn a b ea eb pt.payload)
    (keyTTLMs : Map Bytes Int) (cas : CASCond) (now : UInt64) :
    Agree (a.insertBody cfg fn ea pt keyTTLMs cas now)
      (b.insertBody cfg fn eb pt keyTTLMs cas now) := by
  unfold insertBody
  dsimp only
  rw [h.check, h.token, h.store]
  split
  · exact .pair h.store _
  · split
    · exact .pair h.store _
    · split
      · split
        · exact .pair rfl _
        · refine (placeLockedAt_agree cfg fn ?_ ea eb _ now).map _
          rfl
      · exact .pair rfl _

theorem insertIfAbsentBody_agree (cfg : Config) {fn : Funcs F K E}
    {pt : Point F}
    (h : InsertAlike fn a b ea eb pt.payload) (keyExpires : KeyExpires)
    (version now : UInt64) :
    Agree (a.insertIfAbsentBody cfg fn ea pt keyExpires version now)
      (b.insertIfAbsentBody cfg fn eb pt keyExpires version now) := by
  unfold insertIfAbsentBody
  dsimp only
  rw [h.check, h.token, h.store]
  split
  · exact .pair h.store _
  · split
    · exact .pair h.store _
    · split
      · exact .pair h.store _
      · split
        · refine (placeLockedAt_agree cfg fn ?_ ea eb _ now).map _
          rfl
        · exact .pair rfl _

/-- Stores that agree delete alike. -/
theorem deleteBody_agree (hs : a.store = b.store)
    (id : UInt64) (cas : CASCond) (now : UInt64) :
    Agree (E := E) (a.deleteBody id cas now) (b.deleteBody id cas now) := by
  unfold deleteBody
  rw [hs]
  split
  · exact .pair hs _
  · split
    · exact .pair hs _
    · exact .pair rfl _

/-- Stores that agree change payloads alike. -/
theorem payloadOp_agree (fn : Funcs F K E)
    (hs : a.store = b.store) (ea eb : Env) (id : UInt64) (cas : CASCond)
    (now : UInt64) (update : Slot F → Metadata × KeyExpires) :
    Agree (a.payloadOp fn ea id cas now update)
      (b.payloadOp fn eb id cas now update) := by
  unfold payloadOp payloadGate storePayload setStore bumped
  rw [hs]
  split
  · exact .pair hs _
  · exact .pair rfl _

theorem checkedPayloadOp_agree (fn : Funcs F K E)
    (hs : a.store = b.store) {brought : Metadata}
    (hcheck : checkRecordValues fn.validateRecord ea.order brought
      = checkRecordValues fn.validateRecord eb.order brought)
    (id : UInt64) (cas : CASCond) (now : UInt64)
    (update : Slot F → Metadata × KeyExpires) :
    Agree (a.checkedPayloadOp fn ea brought id cas now update)
      (b.checkedPayloadOp fn eb brought id cas now update) := by
  unfold checkedPayloadOp
  rw [hcheck]
  split
  · exact .pair hs _
  · exact payloadOp_agree fn hs ea eb id cas now update

theorem mutatePayloadRecordBody_agree (fn : Funcs F K E)
    (hs : a.store = b.store) (ea eb : Env) (id : UInt64) (key : Bytes)
    (mutator : Option (RecordMutator E)) (cas : CASCond) (stamped : Bool)
    (now : UInt64) :
    Agree (a.mutatePayloadRecordBody fn ea id key mutator cas stamped now)
      (b.mutatePayloadRecordBody fn eb id key mutator cas stamped now) := by
  unfold mutatePayloadRecordBody payloadGate storePayload setStore bumped
  rw [hs]
  cases mutator with
  | none => exact .pair hs _
  | some mutator =>
    dsimp only
    split
    · exact .pair hs _
    · split
      · exact .pair hs _
      · split
        · exact .pair hs _
        · split
          · exact .pair hs _
          · split
            · exact .pair hs _
            · exact .pair hs _
            · exact .pair rfl _

end Hnsw

variable {fn : Funcs F K E} {a b : Hnsw F K} {ea eb : Env}

theorem upsertInsert_agree (cfg : Config)
    {pt : Hnsw.Point F} {content : Bytes}
    (h : Hnsw.InsertAlike fn a b ea eb (withContent pt.payload content))
    (keyTTLMs : Map Bytes Int) (now : UInt64) :
    Agree (upsertInsert cfg fn a ea pt content keyTTLMs now)
      (upsertInsert cfg fn b eb pt content keyTTLMs now) := by
  let full : Hnsw.Point F :=
    { pt with payload := withContent pt.payload content }
  have hfull : Hnsw.InsertAlike fn a b ea eb full.payload := h
  exact (Hnsw.insertBody_agree cfg hfull keyTTLMs none now).map _

/-- A delete does not touch the bucket. -/
theorem Hnsw.deleteBody_bucket (h : Hnsw F K) (id : UInt64) (cas : CASCond)
    (now : UInt64) :
    (h.deleteBody (E := E) id cas now).1.bucket = h.bucket := by
  unfold deleteBody
  split
  · rfl
  · split
    · rfl
    · rfl

/-- Stores that agree upsert alike. -/
theorem upsert_agree (cfg : Config) 
    {pt : Hnsw.Point F}
    (h : Hnsw.InsertAlike fn a b ea eb pt.payload) (stamp : UInt64)
    (content : Bytes) (keyTTLMs : Map Bytes Int) (cas : CASCond) :
    Agree (upsert cfg fn a ea (some stamp) pt content keyTTLMs cas)
      (upsert cfg fn b eb (some stamp) pt content keyTTLMs cas) := by
  have hdel := Hnsw.deleteBody_agree (E := E) h.store pt.id cas stamp
  have hba := Hnsw.deleteBody_bucket (E := E) a pt.id cas stamp
  have hbb := Hnsw.deleteBody_bucket (E := E) b pt.id cas stamp
  unfold upsert
  rw [h.check]
  cases hcheck : checkRecordValues fn.validateRecord eb.order pt.payload with
  | some e => exact .pair h.store _
  | none =>
    have hchecka := h.check.trans hcheck
    dsimp only
    cases ha : a.deleteBody (E := E) pt.id cas stamp with
    | mk a' ra =>
      cases hb : b.deleteBody (E := E) pt.id cas stamp with
      | mk b' rb =>
        rw [ha, hb] at hdel
        rw [ha] at hba
        rw [hb] at hbb
        obtain ⟨hs, hr⟩ := hdel
        subst hr
        cases ra with
        | error e => exact .pair hs _
        | ok _ =>
          refine upsertInsert_agree cfg ⟨hs, ?_, ?_⟩ keyTTLMs stamp
          · rw [checkRecordValues_withContent content hchecka,
              checkRecordValues_withContent content hcheck]
          · rw [hba, hbb]
            exact h.token

-- ======== two nodes

/-- The payload a call brings from outside. -/
def Call.brought : Call F E → Metadata
  | .insert pt .. | .insertIfAbsent pt .. | .upsert pt .. => pt.payload
  | .setPayload _ patch .. => patch
  | .overwritePayload _ payload .. => payload
  | _ => ∅

/-- The call takes a token when it gets as far as an insert. -/
def Call.inserts : Call F E → Bool
  | .insert .. | .insertIfAbsent .. | .upsert .. => true
  | _ => false

/-- The steps of two replicas: both apply the next entry of the log, each
on its own node; a query of either leaves some columns; the sweeper of
either ticks. -/
inductive PairEvent (F E : Type) where
  | apply (stamp : UInt64) (c : Call F E) (ea eb : Env)
  | readA (columns : Nat)
  | readB (columns : Nat)
  | tickA (env : Env) (now : UInt64)
  | tickB (env : Env) (now : UInt64)

/-- One step of the pair. -/
def pairStep (cfg : Config) (fn : Funcs F K E) (p : Hnsw F K × Hnsw F K) :
    PairEvent F E → Option (Hnsw F K × Hnsw F K)
  | .apply stamp c ea eb =>
    some ((p.1.call cfg fn ea (some stamp) c).1,
      (p.2.call cfg fn eb (some stamp) c).1)
  | .readA columns => some ({ p.1 with columnBytes := columns }, p.2)
  | .readB columns => some (p.1, { p.2 with columnBytes := columns })
  | .tickA env now => (p.1.tick cfg fn env now).map fun a => (a, p.2)
  | .tickB env now => (p.2.tick cfg fn env now).map fun b => (p.1, b)

/-- A step where the nodes do not show: an entry that inserts finds a
token on both or on neither, and its payload has at most one bad
record. -/
def Even (fn : Funcs F K E) (p : Hnsw F K × Hnsw F K) : PairEvent F E → Prop
  | .apply _ c ea eb =>
    (c.inserts = true →
      (take p.1.bucket ea.wall).1 = (take p.2.bucket eb.wall).1)
    ∧ OneBad fn.validateRecord c.brought
  | _ => True

/-- One entry has one outcome. -/
theorem call_agree (cfg : Config) 
    (hs : a.store = b.store) {stamp : UInt64} {c : Call F E}
    (heven : Even fn (a, b) (.apply stamp c ea eb)) :
    Agree (a.call cfg fn ea (some stamp) c)
      (b.call cfg fn eb (some stamp) c) := by
  obtain ⟨htoken, hone⟩ := heven
  have hcheck := checkRecordValues_order hone ea.order eb.order
  cases c with
  | insert pt keyTTLMs cas =>
    exact (Hnsw.insertBody_agree cfg ⟨hs, hcheck, htoken rfl⟩ keyTTLMs cas
      stamp).map _
  | insertIfAbsent pt keyExpires version =>
    exact (Hnsw.insertIfAbsentBody_agree cfg ⟨hs, hcheck, htoken rfl⟩
      keyExpires version stamp).map _
  | upsert pt content keyTTLMs cas =>
    exact upsert_agree cfg ⟨hs, hcheck, htoken rfl⟩ stamp content keyTTLMs cas
  | delete id cas => exact (Hnsw.deleteBody_agree hs id cas stamp).map _
  | setPayload id patch keyTTLMs cas =>
    exact (Hnsw.checkedPayloadOp_agree fn hs hcheck id cas stamp _).map _
  | overwritePayload id payload keyTTLMs cas =>
    exact (Hnsw.checkedPayloadOp_agree fn hs hcheck id cas stamp _).map _
  | deletePayloadKeys id keys cas =>
    exact (Hnsw.payloadOp_agree fn hs ea eb id cas stamp _).map _
  | clearPayload id cas =>
    exact (Hnsw.payloadOp_agree fn hs ea eb id cas stamp _).map _
  | mutateRecord id key mutator cas =>
    exact (Hnsw.mutatePayloadRecordBody_agree fn hs ea eb id key mutator cas
      true stamp).map _

/-- Under the cluster policy a step keeps the collections equal. -/
theorem pairStep_store {cfg : Config}
    {p p' : Hnsw F K × Hnsw F K} {ev : PairEvent F E}
    (hs : p.1.store = p.2.store) (heven : Even fn p ev)
    (h : pairStep (effectiveClusterConfig cfg) fn p ev = some p') :
    p'.1.store = p'.2.store := by
  cases ev with
  | apply stamp c ea eb =>
    cases h
    exact (call_agree _ hs heven).1
  | readA columns =>
    cases h
    exact hs
  | readB columns =>
    cases h
    exact hs
  | tickA env now => cases h
  | tickB env now => cases h

/-- Everything a store holds under an id: its slot's vector, payload,
sparse vector, version and deadlines, and whether it is tombstoned. -/
def Store.held (s : Store F K) (id : UInt64) : Option (Slot F × Bool) :=
  (s.arena.slot id).map fun slot =>
    (s.arena.slots slot, decide (slot ∈ s.tombstoned))

/-- Two replicas of one log under the cluster policy, on any clocks and
with any queries in between: in a run whose steps are all even they hold
the same under every id, and the next even entry has one outcome on
both. -/
theorem vector_replicas_agree (cfg : Config) (fn : Funcs F K E) (wa wb : Int)
    {tr : List (PairEvent F E)} {a b : Hnsw F K}
    (h : Reach (pairStep (effectiveClusterConfig cfg) fn) (Even fn)
      (Hnsw.new (effectiveClusterConfig cfg) wa,
        Hnsw.new (effectiveClusterConfig cfg) wb) tr (a, b)) :
    (∀ id, a.store.held id = b.store.held id)
      ∧ ∀ stamp c ea eb, Even fn (a, b) (.apply stamp c ea eb) →
        (a.call (effectiveClusterConfig cfg) fn ea (some stamp) c).2
          = (b.call (effectiveClusterConfig cfg) fn eb (some stamp) c).2 := by
  have hs : a.store = b.store :=
    h.stateInvariant (P := fun p => p.1.store = p.2.store) rfl
      fun _ _ _ hp hk hstep => pairStep_store hp hk hstep
  refine ⟨fun id => by rw [hs], fun stamp c ea eb heven => ?_⟩
  exact (call_agree _ hs heven).2

-- ======== runs

/-- One insert a second. -/
def oneASecond : Config :=
  effectiveClusterConfig { flat with maxInsertsPerSecond := 1 }

/-- An insert of a point without payload. -/
def bareInsert (id : UInt64) : Call UInt32 Unit :=
  .insert ⟨id, [1, 2], 0, ∅, []⟩ ∅ none

/-- The node two seconds later. -/
def laterEnv : Env := { plainEnv with wall := 2 * oneToken }

/-- Two new replicas. -/
def twoNew : Hnsw UInt32 Unit × Hnsw UInt32 Unit :=
  (Hnsw.new oneASecond 0, Hnsw.new oneASecond 0)

/-- They have applied the insert of point 1. -/
def afterOne : Hnsw UInt32 Unit × Hnsw UInt32 Unit :=
  ((twoNew.1.call oneASecond plainFuncs plainEnv (some 1000) (bareInsert 1)).1,
    (twoNew.2.call oneASecond plainFuncs plainEnv (some 1000)
      (bareInsert 1)).1)

theorem afterOne_reach {Q : Hnsw UInt32 Unit × Hnsw UInt32 Unit →
      PairEvent UInt32 Unit → Prop}
    (hk : Q twoNew (.apply 1000 (bareInsert 1) plainEnv plainEnv)) :
    Reach (pairStep oneASecond plainFuncs) Q twoNew
      [.apply 1000 (bareInsert 1) plainEnv plainEnv] afterOne :=
  .step _ .init hk rfl

theorem oneBad_empty {validateRecord : Bytes → Option Unit} :
    OneBad validateRecord ∅ := by
  intro x hx
  cases hx

theorem vector_replicas_agree_afterOne :
    afterOne.1.store.held 1 = afterOne.2.store.held 1
      ∧ (afterOne.1.store.held 1).isSome = true :=
  ⟨(vector_replicas_agree { flat with maxInsertsPerSecond := 1 } plainFuncs 0 0
    (afterOne_reach ⟨fun _ => rfl, oneBad_empty⟩)).1 1, by decide⟩

/-- A payload with two records that do not decode. -/
def twoBad : Metadata :=
  (AList.insert [97] (.record []) ∅).insert [98] (.record [])

/-- No record decodes. -/
def strictFuncs : Funcs UInt32 Unit Unit :=
  { plainFuncs with validateRecord := fun _ => some () }

/-- Map loops against the order of the entries. -/
def reversed : RangeOrder :=
  ⟨fun m => m.entries.reverse, fun m => m.entries.reverse_perm⟩

/-- One replica applies the insert of point 2 two seconds after that of
point 1 and has a token; the other applies it at once and has none. And a
payload with two bad records is refused for one of them on each. -/
theorem vector_replicas_differ :
    (Reach (pairStep oneASecond plainFuncs) Free twoNew
        [.apply 1000 (bareInsert 1) plainEnv plainEnv] afterOne
      ∧ (afterOne.1.call oneASecond plainFuncs laterEnv (some 2000)
          (bareInsert 2)).2 = .ok (.version 1)
      ∧ (afterOne.2.call oneASecond plainFuncs plainEnv (some 2000)
          (bareInsert 2)).2 = .error .rateLimited
      ∧ ((afterOne.1.call oneASecond plainFuncs laterEnv (some 2000)
          (bareInsert 2)).1.store.held 2).isSome = true
      ∧ ((afterOne.2.call oneASecond plainFuncs plainEnv (some 2000)
          (bareInsert 2)).1.store.held 2).isSome = false)
    ∧ (twoNew.1.call oneASecond strictFuncs plainEnv (some 1000)
          (.insert ⟨1, [1, 2], 0, twoBad, []⟩ ∅ none)).2
        = .error (.recordMalformed [98] ())
      ∧ (twoNew.2.call oneASecond strictFuncs
        { plainEnv with order := reversed }
          (some 1000) (.insert ⟨1, [1, 2], 0, twoBad, []⟩ ∅ none)).2
        = .error (.recordMalformed [97] ()) := by
  refine ⟨⟨afterOne_reach trivial, ?_, ?_, ?_, ?_⟩, ?_, ?_⟩
  · rfl
  · rfl
  · decide
  · decide
  · rfl
  · rfl

end Rostam.Vector
