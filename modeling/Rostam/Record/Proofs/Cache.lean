/-
The cache does not show: a call answers what it would answer if every
schema were decoded afresh, whatever was resolved before.

A cached key is a whole schema blob, and `DecodeSchema` reads a blob the
same whatever stands behind it. So if the bytes that `schemaBlobLen` cuts
off are a key, they are the blob that decoding would consume; the cut
itself is never trusted.
-/
import Rostam.Record.Resolver
import Rostam.Wire.Proofs.Schema

namespace Rostam.Record

open Rostam.Lib Rostam.Wire

variable {blob rest : Bytes} {e : SchemaEntry} {r : Resolver}

-- ======== entries

/-- The entry was decoded from exactly these bytes. -/
def SchemaEntry.Of (e : SchemaEntry) (key : Bytes) : Prop :=
  (e.schema.Normal ∧ e.schema.validate = true) ∧ e.schema.layout = .ok e.layout
    ∧ e.schema.encode = key ∧ e.blobLen = key.length

/-- An entry is what its key decodes to. -/
theorem decodeEntry_ok :
    decodeEntry blob = .ok e
    ↔ ∃ key rest, e.Of key ∧ blob = key ++ rest := by
  unfold decodeEntry
  constructor
  · intro h
    cases hs : decodeSchema blob with
    | error err =>
      rw [hs] at h
      cases h
    | ok x =>
      obtain ⟨s, rest⟩ := x
      rw [hs] at h
      dsimp only at h
      cases hl : s.layout with
      | error err =>
        rw [hl] at h
        cases h
      | ok l =>
        rw [hl] at h
        cases h
        obtain ⟨hgood, rfl⟩ := (decodeSchema_exact _ _ _).mp hs
        refine ⟨s.encode, rest, ⟨hgood, hl, rfl, ?_⟩, rfl⟩
        show (s.encode ++ rest).length - rest.length = s.encode.length
        rw [List.length_append, Nat.add_sub_cancel]
  · rintro ⟨key, rest, ⟨hgood, hl, rfl, hlen⟩, rfl⟩
    rw [(decodeSchema_exact _ _ _).mpr ⟨hgood, rfl⟩]
    dsimp only
    rw [hl]
    rw [List.length_append, Nat.add_sub_cancel, ← hlen]

/-- What is behind the blob does not matter. -/
theorem SchemaEntry.Of.decode {key : Bytes} (h : e.Of key) (rest : Bytes) :
    decodeEntry (key ++ rest) = .ok e :=
  decodeEntry_ok.mpr ⟨key, rest, h, rfl⟩

-- ======== the cache

/-- Every cached entry was decoded from its key. -/
def Resolver.Valid (r : Resolver) : Prop :=
  ∀ c, r.cache = some c → ∀ x ∈ c, SchemaEntry.Of x.2 x.1

theorem Resolver.Valid.new (n : Int) : (Resolver.new n).Valid := by
  intro c hc x hx
  unfold Resolver.new at hc
  split at hc
  · cases hc
    cases hx
  · cases hc

/-- What is stored under a key is of that key. -/
theorem Resolver.Valid.store (hr : r.Valid) {key : Bytes} (he : e.Of key) :
    (r.store key e).Valid := by
  intro c hc x hx
  obtain ⟨c₀, hc₀, rfl⟩ := Option.map_eq_some_iff.mp hc
  rcases List.mem_cons.mp hx with rfl | hx
  · exact he
  · have hx := (List.mem_filter.mp hx).1
    split at hx
    · cases hx
    · exact hr c₀ hc₀ x hx

/-- What a miss stores: the bytes that were consumed. -/
theorem take_blobLen (he : decodeEntry blob = .ok e) :
    e.Of (blob.take e.blobLen) := by
  obtain ⟨key, rest, h, rfl⟩ := decodeEntry_ok.mp he
  rw [h.2.2.2, List.take_left]
  exact h

/-- The cache only has what decoding gives. -/
theorem Resolver.Reachable.valid (hr : r.Reachable) : r.Valid := by
  induction hr with
  | new n => exact .new n
  | store _ he ih => exact ih.store (take_blobLen he)

/-- A hit is what decoding gives. -/
theorem Resolver.Valid.lookup (hr : r.Valid) {n : Nat}
    (hl : r.lookup (blob.take n) = some e) : decodeEntry blob = .ok e := by
  unfold Resolver.lookup at hl
  obtain ⟨c, hc, hl⟩ := Option.bind_eq_some_iff.mp hl
  obtain ⟨x, hx, rfl⟩ := Option.map_eq_some_iff.mp hl
  have hkey := List.find?_some hx
  rw [decide_eq_true_eq] at hkey
  have hof := hr c hc x (List.mem_of_find?_eq_some hx)
  rw [hkey] at hof
  have hdec := hof.decode (blob.drop n)
  rw [List.take_append_drop] at hdec
  exact hdec

-- ======== the calls

theorem schemaMiss_answers (blob : Bytes) :
    Answers Resolver.Reachable (schemaMiss blob) (decodeEntry blob) := by
  intro r hr
  unfold schemaMiss
  rw [Stateful.bind_from]
  have hof : (Stateful.of (decodeEntry blob)
      : ResolverM SchemaEntry).from r = (decodeEntry blob, r) := rfl
  rw [hof]
  cases hd : decodeEntry blob with
  | error err => exact ⟨rfl, hr⟩
  | ok e => exact ⟨rfl, hr.store hd⟩

/-- A hit answers as a miss does. -/
theorem schemaFor_answers (rec : Bytes) :
    Answers Resolver.Reachable (schemaFor rec) (decodeEntry rec.tail) := by
  intro r hr
  have hget : (get : ResolverM Resolver).from r = (.ok r, r) := rfl
  rw [schemaFor, Stateful.bind_from, hget]
  dsimp only
  cases hl : r.cached rec.tail with
  | none => exact schemaMiss_answers rec.tail r hr
  | some e =>
    obtain ⟨n, -, hl⟩ := Option.bind_eq_some_iff.mp hl
    exact ⟨(hr.valid.lookup hl).symm, hr⟩

/-- `Resolve` with every schema decoded afresh. -/
def resolveAfresh (rec : Bytes) (p : Path) : Except Err Result := do
  let (seg, more) ← checkPathShape p
  match rec with
  | [] => .error (.record .emptyRecord)
  | mode :: body =>
    if mode = operateModeSchema then do
      let e ← decodeEntry body
      resolveSchema e rec seg more
    else if mode = operateModeDynamic then resolveDynamic body seg more
    else .error (.record (.unknownMode mode))

/-- A path resolves as it does without the cache. -/
theorem resolve_answers (rec : Bytes) (p : Path) :
    Answers Resolver.Reachable (resolve rec p) (resolveAfresh rec p) := by
  unfold resolve resolveAfresh
  refine (Answers.of _).bind fun x => ?_
  cases rec with
  | nil => exact .throw _
  | cons mode body =>
    dsimp only
    split
    · exact (schemaFor_answers (mode :: body)).bind fun e => .of _
    · split
      · exact .of _
      · exact .throw _

/-- The walk of `RowAbsentProven` with the schema decoded afresh. -/
def proveAfresh (rec : Bytes) (seg row : Segment) : Except Err Unit :=
  match rec with
  | [] => .error (.record .emptyRecord)
  | mode :: body =>
    if mode = operateModeSchema then do
      let e ← decodeEntry body
      proveSchemaRowAbsent e rec seg row
    else if mode = operateModeDynamic then
      proveDynamicRowAbsent body seg row
    else .error (.record (.unknownMode mode))

theorem proveRowAbsent_answers (rec : Bytes) (seg row : Segment) :
    Answers Resolver.Reachable (proveRowAbsent rec seg row)
      (proveAfresh rec seg row) := by
  unfold proveRowAbsent proveAfresh
  cases rec with
  | nil => exact .throw _
  | cons mode body =>
    dsimp only
    split
    · exact (schemaFor_answers (mode :: body)).bind fun e => .of _
    · split
      · exact .of _
      · exact .throw _

/-- `RowAbsentProven` with every schema decoded afresh. -/
def rowAbsentAfresh (rec : Bytes) (p : Path) : Except Err Bool :=
  match p.fieldRow with
  | none => .error (.path .notFieldRow)
  | some (seg, row) => do
    let res ← resolveAfresh rec p
    if res ≠ .absent then .ok false
    else do
      let fres ← resolveAfresh rec ⟨[seg]⟩
      if fres ≠ .table then .ok false
      else do
        proveAfresh rec seg row
        .ok true

/-- A proof of absence does not depend on the cache. -/
theorem rowAbsentProven_answers (rec : Bytes) (p : Path) :
    Answers Resolver.Reachable (rowAbsentProven rec p)
      (rowAbsentAfresh rec p) := by
  unfold rowAbsentProven rowAbsentAfresh
  cases p.fieldRow with
  | none => exact .throw _
  | some x =>
    obtain ⟨seg, row⟩ := x
    refine (resolve_answers rec p).bind fun res => ?_
    split
    · exact .pure _
    · refine (resolve_answers rec ⟨[seg]⟩).bind fun fres => ?_
      split
      · exact .pure _
      · exact (proveRowAbsent_answers rec seg row).bind fun _ => .pure _

-- ======== any number of calls

/-- A call on a shared resolver. -/
inductive Call where
  | resolve (rec : Bytes) (p : Path)
  | rowAbsentProven (rec : Bytes) (p : Path)

def Call.run : Call → ResolverM (Result ⊕ Bool)
  | .resolve rec p => do return .inl (← Record.resolve rec p)
  | .rowAbsentProven rec p => do return .inr (← Record.rowAbsentProven rec p)

/-- The call with every schema decoded afresh. -/
def Call.afresh : Call → Except Err (Result ⊕ Bool)
  | .resolve rec p => do return .inl (← resolveAfresh rec p)
  | .rowAbsentProven rec p => do return .inr (← rowAbsentAfresh rec p)

/-- The answers of the calls, one after the other. -/
def serve (r : Resolver) : List Call → List (Except Err (Result ⊕ Bool))
  | [] => []
  | c :: cs =>
    let (x, r) := c.run.from r
    x :: serve r cs

/-- Every call answers as it does without the cache. -/
theorem Call.answers (c : Call) :
    Answers Resolver.Reachable c.run c.afresh := by
  cases c with
  | resolve rec p => exact (resolve_answers rec p).bind fun _ => .pure _
  | rowAbsentProven rec p =>
    exact (rowAbsentProven_answers rec p).bind fun _ => .pure _

/-- A shared resolver answers every list of calls as if no schema were
ever cached. -/
theorem cache_never_shows (cacheSize : Int) (cs : List Call) :
    serve (.new cacheSize) cs = cs.map Call.afresh := by
  suffices h : ∀ r : Resolver, r.Reachable →
      serve r cs = cs.map Call.afresh from
    h _ (.new cacheSize)
  induction cs with
  | nil => exact fun _ _ => rfl
  | cons c cs ih =>
    intro r hr
    obtain ⟨hx, hr'⟩ := c.answers r hr
    exact congrArg₂ _ hx (ih _ hr')

end Rostam.Record
