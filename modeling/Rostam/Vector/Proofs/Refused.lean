/-
What a refused write leaves behind.

Every operation of the index checks before it changes anything, so a
refusal leaves the store as it was: what it may cost is a token and the
column sidecar. The reclaim of a dead slot comes after the last check,
and the `arena.Insert` behind it has nothing left to refuse.

An upsert is two operations. Its insert can refuse what the record check
and the precondition let through (a wrong dimension, an empty bucket, a
full collection, a read-only index), and by then the point it was to
replace has been deleted. `replaces` says when that happens, from the
state before the call; in every other case the refusal changes nothing.
-/
import Rostam.Vector.Collection

namespace Rostam.Vector

open Rostam.Lib

variable {F K E : Type}

-- ======== what is seen

/-- Two stores that no reader tells apart: every `Get` at every clock,
the live count and the three indexes. -/
structure Store.Same (s s' : Store F K) : Prop where
  get : ∀ id now, s'.get id now = s.get id now
  live : s'.liveCount = s.liveCount
  payloadIdx : s'.payloadIdx = s.payloadIdx
  sparseIdx : s'.sparseIdx = s.sparseIdx
  bm25 : s'.bm25 = s.bm25

theorem Store.Same.of_eq {s s' : Store F K} (h : s' = s) : s.Same s' := by
  subst h
  exact ⟨fun _ _ => rfl, rfl, rfl, rfl, rfl⟩

-- ======== the arena

namespace Arena

/-- A new point of the right dimension is inserted. -/
theorem insert_ok {dim : Nat} {a : Arena F} {id : UInt64} {vec : List F}
    (hdim : vec.length = dim) (hid : id ∉ a.idMap) :
    ∃ r, a.insert (E := E) dim id vec = .ok r := by
  unfold insert
  rw [if_neg (not_not.mpr hdim), if_neg hid]
  exact ⟨_, rfl⟩

theorem not_mem_delete (a : Arena F) (id : UInt64) :
    id ∉ (a.delete id).idMap := by
  unfold delete
  cases h : a.slot id with
  | none => exact AList.lookup_eq_none.mp h
  | some slot => simp

end Arena

-- ======== operations

/-- A refused commit has not reclaimed the slot it was to take. -/
theorem Store.commit_refused {cfg : Config} {fn : Funcs F K E}
    {s : Store F K} {p : Store.Placement F} {now : UInt64} {e : VecErr E}
    (hdim : p.stored.length = cfg.dim)
    (h : (s.commit cfg fn p now).2 = .error e) :
    (s.commit cfg fn p now).1 = s := by
  unfold Store.commit at h ⊢
  cases hd : s.deadSlot p.id now with
  | none =>
    rw [hd] at h
    dsimp only at h ⊢
    split at h
    · next e' he => rfl
    · cases h
  | some old =>
    rw [hd] at h
    obtain ⟨r, hr⟩ := Arena.insert_ok (E := E)
      (a := (s.reclaim cfg fn p.id old).arena) hdim
      (Arena.not_mem_delete s.arena p.id)
    dsimp only at h
    rw [hr] at h
    cases h

namespace Hnsw

variable {cfg : Config} {fn : Funcs F K E} {h : Hnsw F K} {env : Env}
  {now : UInt64} {e : VecErr E} {cas : CASCond} {id : UInt64}

theorem yieldColumns_store (cfg : Config) (h : Hnsw F K) (reclaim : Bool) :
    (h.yieldColumns cfg reclaim).store = h.store := by
  unfold yieldColumns
  split
  · rfl
  · rfl

/-- A refused placement has at most dropped the columns. -/
theorem placeLockedAt_refused 
    {p : Store.Placement F}
    (hdim : p.stored.length = cfg.dim)
    (he : (h.placeLockedAt cfg fn env p now).2 = .error e) :
    (h.placeLockedAt cfg fn env p now).1.store = h.store := by
  unfold placeLockedAt at he ⊢
  dsimp only at he ⊢
  split
  · rfl
  · next hdrop =>
    rw [if_neg hdrop] at he
    split
    · rfl
    · next hcount =>
      rw [if_neg hcount] at he
      split
      · exact yieldColumns_store cfg h _
      · next hbytes =>
        rw [if_neg hbytes] at he
        rw [setStore, Store.commit_refused hdim he]
        exact yieldColumns_store cfg h _

theorem stored_length (cfg : Config) (fn : Funcs F K E) (vec : List F) :
    (stored cfg fn vec).length = vec.length := by
  unfold stored
  split
  · exact fn.normalize_length vec
  · rfl

theorem map_error {ε α β : Type} {r : Except ε α} {f : α → β} {e : ε}
    (h : r.map f = .error e) : r = .error e := by
  cases r with
  | error e' =>
    injection h with h
    rw [h]
  | ok a => cases h

/-- A refused insert leaves the store alone. -/
theorem insertBody_refused {pt : Point F} {keyTTLMs : Map Bytes Int}
    (he : (h.insertBody cfg fn env pt keyTTLMs cas now).2 = .error e) :
    (h.insertBody cfg fn env pt keyTTLMs cas now).1.store = h.store := by
  unfold insertBody at he ⊢
  dsimp only at he ⊢
  split
  · rfl
  · next hrec =>
    rw [hrec] at he
    split
    · rfl
    · next hdim =>
      rw [if_neg hdim] at he
      split
      · next htake =>
        rw [if_pos htake] at he
        split
        · rfl
        · next hcas =>
          rw [hcas] at he
          refine placeLockedAt_refused ?_ (map_error he)
          exact (stored_length cfg fn pt.vec).trans (not_not.mp hdim)
      · rfl

theorem insertIfAbsentBody_refused 
    {pt : Point F} {keyExpires : KeyExpires}
    {version now : UInt64}
    (he : (h.insertIfAbsentBody cfg fn env pt keyExpires version now).2
      = .error e) :
    (h.insertIfAbsentBody cfg fn env pt keyExpires version now).1.store
      = h.store := by
  unfold insertIfAbsentBody at he ⊢
  dsimp only at he ⊢
  split
  · rfl
  · next hrec =>
    rw [hrec] at he
    split
    · rfl
    · next hdim =>
      rw [if_neg hdim] at he
      split
      · rfl
      · next hlive =>
        rw [if_neg hlive] at he
        split
        · next htake =>
          rw [if_pos htake] at he
          refine placeLockedAt_refused ?_ (map_error he)
          exact (stored_length cfg fn pt.vec).trans (not_not.mp hdim)
        · rfl

/-- A delete that is refused, or finds nothing live, changes nothing. -/
theorem deleteBody_store 
    (hr : (h.deleteBody (E := E) id cas now).2 ≠ .ok true) :
    (h.deleteBody (E := E) id cas now).1 = h := by
  unfold deleteBody at hr ⊢
  split
  · rfl
  · next hcas =>
    rw [hcas] at hr
    dsimp only at hr ⊢
    split
    · rfl
    · next slot hlive =>
      rw [hlive] at hr
      exact absurd rfl hr

/-- A refused payload operation changes nothing. -/
theorem payloadOp_refused {update : Slot F → Metadata × KeyExpires}
    (he : (h.payloadOp fn env id cas now update).2 = .error e) :
    (h.payloadOp fn env id cas now update).1 = h := by
  unfold payloadOp at he ⊢
  split
  · rfl
  · next slot hgate =>
    rw [hgate] at he
    cases he

theorem checkedPayloadOp_refused 
    {brought : Metadata} 
    {update : Slot F → Metadata × KeyExpires}
    (he : (h.checkedPayloadOp fn env brought id cas now update).2 = .error e) :
    (h.checkedPayloadOp fn env brought id cas now update).1 = h := by
  unfold checkedPayloadOp at he ⊢
  split
  · rfl
  · next hrec =>
    rw [hrec] at he
    exact payloadOp_refused he

theorem mutatePayloadRecordBody_refused 
    {key : Bytes}
    {mutator : Option (RecordMutator E)} {stamped : Bool}
    
    (he : (h.mutatePayloadRecordBody fn env id key mutator cas stamped now).2
      = .error e) :
    (h.mutatePayloadRecordBody fn env id key mutator cas stamped now).1
      = h := by
  unfold mutatePayloadRecordBody at he ⊢
  cases mutator with
  | none => rfl
  | some mutator =>
    dsimp only at he ⊢
    split
    · rfl
    · next hkey =>
      rw [if_neg hkey] at he
      cases hgate : h.payloadGate (E := E) id cas now with
      | error e' => rfl
      | ok slot =>
        rw [hgate] at he
        dsimp only at he ⊢
        split
        · rfl
        · next old hold =>
          rw [hold] at he
          dsimp only at he ⊢
          split
          · rfl
          · next act hact =>
            rw [hact] at he
            dsimp only at he ⊢
            split
            · rfl
            · rfl
            · next payload hnew =>
              rw [hnew] at he
              cases he

end Hnsw

variable {h : Hnsw F K}

-- ======== upserts

/-- The call is an upsert that deletes the point it is to replace: its
payload passes the record check, its precondition holds, and its id is
live at the clock of the delete. -/
def Hnsw.replaces (fn : Funcs F K E) (h : Hnsw F K) (env : Env)
    (stamp : Option UInt64) : Call F E → Bool
  | .upsert pt _ _ cas =>
    (checkRecordValues fn.validateRecord env.order pt.payload).isNone
      && (CASCond.check (E := E) cas
        (h.store.currentVersion pt.id (env.now stamp 0))).isNone
      && (h.store.liveSlot pt.id (env.now stamp 1)).isSome
  | _ => false

/-- What a delete of a live point leaves of it. -/
theorem Hnsw.get_deleted {id : UInt64} {cas : CASCond}
    {now : UInt64}
    (hcas : CASCond.check (E := E) cas (h.store.currentVersion id now) = none)
    (hlive : (h.store.liveSlot id now).isSome) (t : UInt64) :
    (h.deleteBody (E := E) id cas now).1.store.get id t = none := by
  obtain ⟨slot, hslot⟩ := Option.isSome_iff_exists.mp hlive
  unfold deleteBody
  rw [hcas]
  rw [hslot]
  have hid : h.store.arena.slot id = some slot :=
    (Option.filter_eq_some_iff.mp hslot).1
  have : (h.store.arena.modify slot fun r =>
      { r with expires := 0, keyExpires := ∅ }).slot id = some slot := hid
  simp [Store.get, Store.liveSlot, this, Store.dead]

/-- The insert of an upsert, refused, leaves the store alone. -/
theorem upsertInsert_refused {cfg : Config} {fn : Funcs F K E}
    {env : Env} {pt : Hnsw.Point F} {content : Bytes}
    {keyTTLMs : Map Bytes Int} {now : UInt64} {e : VecErr E}
    (he : (upsertInsert cfg fn h env pt content keyTTLMs now).2 = .error e) :
    (upsertInsert cfg fn h env pt content keyTTLMs now).1.store = h.store :=
  Hnsw.insertBody_refused (Hnsw.map_error he)

/-- An upsert is refused before it touches anything, or runs its insert
on what its delete left, the delete's own precondition met. -/
theorem upsert_cases (cfg : Config) (fn : Funcs F K E) (h : Hnsw F K)
    (env : Env) (stamp : Option UInt64) (pt : Hnsw.Point F)
    (content : Bytes) (keyTTLMs : Map Bytes Int) (cas : CASCond) :
    (h.replaces fn env stamp (.upsert pt content keyTTLMs cas) = false
        ∧ (upsert cfg fn h env stamp pt content keyTTLMs cas).1 = h)
      ∨ ∃ c : CASCond, CASCond.check (E := E) c
          (h.store.currentVersion pt.id (env.now stamp 1)) = none
        ∧ h.replaces fn env stamp (.upsert pt content keyTTLMs cas)
          = (h.store.liveSlot pt.id (env.now stamp 1)).isSome
        ∧ upsert cfg fn h env stamp pt content keyTTLMs cas
          = upsertInsert cfg fn
            (h.deleteBody (E := E) pt.id c (env.now stamp 1)).1 env pt content
            keyTTLMs (env.now stamp 2) := by
  cases hrec : checkRecordValues fn.validateRecord env.order pt.payload with
  | some e =>
    refine .inl ⟨?_, ?_⟩
    · simp [Hnsw.replaces, hrec]
    · simp [upsert, hrec]
  | none =>
    cases hcas : CASCond.check (E := E) cas
        (h.store.currentVersion pt.id (env.now stamp 0)) with
    | some e =>
      refine .inl ⟨?_, ?_⟩
      · simp [Hnsw.replaces, hcas]
      · cases stamp with
        | some now =>
          have hcas : CASCond.check (E := E) cas
              (h.store.currentVersion pt.id now) = some e := hcas
          simp [upsert, hrec, Hnsw.deleteBody, hcas]
        | none =>
          have hcas : CASCond.check (E := E) cas
              (h.store.currentVersion pt.id (env.clock 0)) = some e :=
            hcas
          simp [upsert, hrec, hcas]
    | none =>
      cases stamp with
      | some now =>
        refine .inr ⟨cas, hcas, ?_, ?_⟩
        · simp [Hnsw.replaces, hrec, hcas]
        · have hcas : CASCond.check (E := E) cas
              (h.store.currentVersion pt.id now) = none := hcas
          simp only [upsert, hrec, Env.now, Option.getD_some]
          cases hdel : h.deleteBody (E := E) pt.id cas now with
          | mk h' r =>
            cases r with
            | ok _ => rfl
            | error e =>
              simp only [Hnsw.deleteBody, hcas] at hdel
              split at hdel
              · cases hdel
              · cases hdel
      | none =>
        refine .inr ⟨none, rfl, ?_, ?_⟩
        · simp [Hnsw.replaces, hrec, hcas]
        · have hcas : CASCond.check (E := E) cas
              (h.store.currentVersion pt.id (env.clock 0)) = none := hcas
          simp only [upsert, hrec, hcas, Env.now, Option.getD_none]

/-- A refused upsert changes nothing exactly when it has not deleted the
point it was to replace. -/
theorem upsert_refused_iff {cfg : Config} {fn : Funcs F K E}
    {env : Env} {stamp : Option UInt64} {pt : Hnsw.Point F}
    {content : Bytes} {keyTTLMs : Map Bytes Int} {cas : CASCond}
    {e : VecErr E}
    (he : (upsert cfg fn h env stamp pt content keyTTLMs cas).2 = .error e) :
    h.store.Same (upsert cfg fn h env stamp pt content keyTTLMs cas).1.store
      ↔ h.replaces fn env stamp (.upsert pt content keyTTLMs cas) = false := by
  obtain ⟨hrep, hup⟩ | ⟨c, hc, hrep, hup⟩ :=
    upsert_cases cfg fn h env stamp pt content keyTTLMs cas
  · rw [hup, hrep]
    exact ⟨fun _ => rfl, fun _ => .of_eq rfl⟩
  · rw [hup] at he ⊢
    rw [upsertInsert_refused he, hrep]
    constructor
    · intro hsame
      by_contra hlive
      rw [Bool.not_eq_false] at hlive
      -- The id is live at the clock of its own delete.
      have hget := hsame.get pt.id (env.now stamp 1)
      rw [Hnsw.get_deleted hc hlive] at hget
      obtain ⟨slot, hslot⟩ := Option.isSome_iff_exists.mp hlive
      rw [Store.get, hslot] at hget
      cases hget
    · intro hlive
      have hnone : h.store.liveSlot pt.id (env.now stamp 1) = none := by
        simpa using hlive
      refine .of_eq (congrArg Hnsw.store (Hnsw.deleteBody_store ?_))
      rw [Hnsw.deleteBody, hc]
      rw [hnone]
      intro hok
      cases hok

-- ======== calls

/-- A refused write changes nothing that a reader sees exactly when it is
not an upsert that has deleted the point it was to replace. -/
theorem refused_write_unchanged_iff (cfg : Config) (fn : Funcs F K E)
    (h : Hnsw F K) (env : Env) (stamp : Option UInt64) (c : Call F E)
    (e : VecErr E) (he : (h.call cfg fn env stamp c).2 = .error e) :
    h.store.Same (h.call cfg fn env stamp c).1.store
      ↔ h.replaces fn env stamp c = false := by
  cases c with
  | upsert pt content keyTTLMs cas => exact upsert_refused_iff he
  | insert pt keyTTLMs cas =>
    have hs := Hnsw.insertBody_refused (Hnsw.map_error he)
    exact ⟨fun _ => rfl, fun _ => .of_eq hs⟩
  | insertIfAbsent pt keyExpires version =>
    have hs := Hnsw.insertIfAbsentBody_refused (Hnsw.map_error he)
    exact ⟨fun _ => rfl, fun _ => .of_eq hs⟩
  | delete id cas =>
    have hr := Hnsw.map_error he
    have hs := Hnsw.deleteBody_store (E := E) (fun hok => by
      rw [hr] at hok
      cases hok)
    exact ⟨fun _ => rfl, fun _ => .of_eq (congrArg Hnsw.store hs)⟩
  | setPayload id patch keyTTLMs cas =>
    have hs := Hnsw.checkedPayloadOp_refused (Hnsw.map_error he)
    exact ⟨fun _ => rfl, fun _ => .of_eq (congrArg Hnsw.store hs)⟩
  | overwritePayload id payload keyTTLMs cas =>
    have hs := Hnsw.checkedPayloadOp_refused (Hnsw.map_error he)
    exact ⟨fun _ => rfl, fun _ => .of_eq (congrArg Hnsw.store hs)⟩
  | deletePayloadKeys id keys cas =>
    have hs := Hnsw.payloadOp_refused (Hnsw.map_error he)
    exact ⟨fun _ => rfl, fun _ => .of_eq (congrArg Hnsw.store hs)⟩
  | clearPayload id cas =>
    have hs := Hnsw.payloadOp_refused (Hnsw.map_error he)
    exact ⟨fun _ => rfl, fun _ => .of_eq (congrArg Hnsw.store hs)⟩
  | mutateRecord id key mutator cas =>
    have hs := Hnsw.mutatePayloadRecordBody_refused (Hnsw.map_error he)
    exact ⟨fun _ => rfl, fun _ => .of_eq (congrArg Hnsw.store hs)⟩

-- ======== runs

/-- Functions for collections without records, text or codes. -/
def plainFuncs : Funcs UInt32 Unit Unit where
  normalize := id
  normalize_length := fun _ => rfl
  validateRecord := fun _ => none
  indexKeys := fun _ => []
  analyzeCounts := fun _ => ∅
  trainPQ := fun _ => ⟨id, []⟩

/-- A node on which it is always second one. -/
def plainEnv : Env := ⟨inOrder, fun _ => 1000, 0, 0⟩

/-- Vectors of two components, no quota. -/
def flat : Config where
  dim := 2
  m := 16
  cosine := false
  maxVectors := 0
  maxBytes := 0
  maxInsertsPerSecond := 0
  fullText := false
  quantPQ := false
  pqDropVecs := false
  ivfTrainThreshold := 0
  suppressSweep := false
  wal := false

/-- A collection that holds point 7. -/
def onePoint : Hnsw UInt32 Unit :=
  ((Hnsw.new flat 0).call flat plainFuncs plainEnv none
    (.insert ⟨7, [1, 2], 0, ∅, []⟩ ∅ none)).1

/-- Point 7 with a vector of one component. -/
def shortPoint : Hnsw.Point UInt32 := ⟨7, [3], 0, ∅, []⟩

theorem refused_write_unchanged_iff_shortInsert :
    (onePoint.call flat plainFuncs plainEnv none
        (.insert shortPoint ∅ none)).2 = .error .dimMismatch
      ∧ onePoint.store.Same (onePoint.call flat plainFuncs plainEnv none
        (.insert shortPoint ∅ none)).1.store := by
  refine ⟨by rfl, ?_⟩
  exact (refused_write_unchanged_iff flat plainFuncs onePoint plainEnv none
    (.insert shortPoint ∅ none) .dimMismatch (by rfl)).mpr (by rfl)

/-- An upsert of point 7 with the short vector is refused, and point 7 is
gone. -/
theorem refused_upsert_deletes :
    (onePoint.call flat plainFuncs plainEnv none
        (.upsert shortPoint [] ∅ none)).2 = .error .dimMismatch
      ∧ ¬ onePoint.store.Same (onePoint.call flat plainFuncs plainEnv none
        (.upsert shortPoint [] ∅ none)).1.store := by
  refine ⟨by rfl, fun hsame => ?_⟩
  have hbefore : (onePoint.store.get 7 1000).isSome = true := by decide
  have hafter : ((onePoint.call flat plainFuncs plainEnv none
      (.upsert shortPoint [] ∅ none)).1.store.get 7 1000).isSome = false := by
    decide
  rw [hsame.get 7 1000, hbefore] at hafter
  cases hafter

end Rostam.Vector
