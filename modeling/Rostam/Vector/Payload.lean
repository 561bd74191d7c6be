/-
The payload index with its posting maps (vector/payload_index.go).

The index posts a slot under the scalar keys, geo cells, tokens and array
elements of its payload, and keeps for each slot what it posted, to drop
it when the payload changes. A Go map is a finite map; a map of posting
sets is a `Postings`, where a key that differs from itself is an entry
that cannot be found again. `scalarKeyOf` mints no such key;
`elementKeysOf` does.

Float keys compare as `==` does: the two zeros are one key, a NaN differs
from itself. The `range` over the metadata runs in an order that Go
chooses anew each time. The tokenizer and the geo grid are parameters;
the process-wide record resolver answers as a fresh one. The lazily built
caches, the sorted keys and the numeric columns, are left out.
-/
import Mathlib.Algebra.Order.Ring.Int
import Rostam.Lib.Posting
import Rostam.Record.Proofs.Index
import Rostam.Vector.Value

namespace Rostam.Vector.Payload

open Rostam.Lib Rostam.Record

-- ======== keys

/-- `scalarKey`, with the bits of a float. -/
inductive ScalarKey where
  | str (s : Bytes)
  | int (i : Int)
  | float (bits : BitVec 64)
  | bool (b : Bool)
  deriving DecidableEq, Repr

/-- The float key of a value: minus zero is zero. -/
def ScalarKey.ofFloat (bits : BitVec 64) : ScalarKey :=
  .float (if bits.toNat = 2 ^ 63 then 0 else bits)

/-- A key that equals itself. -/
def ScalarKey.self : ScalarKey → Bool
  | .float bits => !isNaN64 bits.toNat
  | _ => true

/-- `scalarKeyOf`. -/
def scalarKeyOf : Value → Option ScalarKey
  | .string s => some (.str s)
  | .int i => some (.int i)
  | .float bits =>
    if isNaN64 bits.toNat then none else some (.ofFloat bits)
  | .bool b => some (.bool b)
  | _ => none

/-- The distinct keys of an array: an element whose key was not seen. A
key that differs from itself never was. -/
def distinctKeys : List ScalarKey → List ScalarKey → List ScalarKey
  | _, [] => []
  | seen, k :: ks =>
    if k.self && k ∈ seen then distinctKeys seen ks
    else k :: distinctKeys (k :: seen) ks

/-- `elementKeysOf`. -/
def elementKeysOf : Value → List ScalarKey
  | .strings ss => distinctKeys [] (ss.map .str)
  | .ints is => distinctKeys [] (is.map .int)
  | .floats fs => distinctKeys [] (fs.map .ofFloat)
  | _ => []

/-- `geoCell`. -/
structure GeoCell where
  col : Int
  row : Int
  deriving DecidableEq, Repr

/-- The pure functions of other packages the index calls. -/
structure Funcs where
  tokenize : Bytes → List Bytes
  cellOf : BitVec 64 → BitVec 64 → GeoCell

-- ======== records

/-- A resolved value as a payload value. -/
def ofRecordValue : Record.Value → Value
  | .int i => .int i
  | .float bits => .float bits
  | .string s => .string s

/-- `SplitField`. -/
def splitField (field : Bytes) : Option (Bytes × Bytes) :=
  if slash ∈ field then
    some (field.takeWhile (· ≠ slash), (field.dropWhile (· ≠ slash)).tail)
  else none

/-- `lookupPath`. -/
def lookupPath (m : Metadata) (field : Bytes) : Option Value :=
  match m.lookup field with
  | some v => some v
  | none =>
    match splitField field with
    | none => none
    | some (payloadKey, path) =>
      match m.lookup payloadKey with
      | some (.record rec) =>
        match parsePath path with
        | .error _ => none
        | .ok p =>
          match resolveAfresh rec p with
          | .error _ => none
          | .ok res => (resultValue res).map ofRecordValue
      | _ => none

/-- `recordShapeIndexed`. -/
def recordShapeIndexed (p : Path) : Bool :=
  match p.segs with
  | [seg] => !seg.byPos && (seg.kind = .field || seg.kind = .count)
  | _ => false

/-- `recordPathIndexedShape`. -/
def recordPathIndexedShape (field : Bytes) : Bool :=
  match splitField field with
  | none => false
  | some (_, path) =>
    match parsePath path with
    | .error _ => false
    | .ok p => recordShapeIndexed p

/-- The key one entry of a record posts under its synthetic name. -/
def recordIndexKey (m : Metadata) (payloadKey : Bytes) (e : Entry) :
    Option (Bytes × ScalarKey) :=
  let name := payloadKey ++ slash :: e.field
  if !recordPathIndexedShape name then none
  else if name ∈ m then none
  else
    match lookupPath m name with
    | none => none
    | some v => (scalarKeyOf v).map fun key => (name, key)

/-- `appendRecordIndexKeys`; `none` is a record that could not be
enumerated. -/
def appendRecordIndexKeys (m : Metadata) (payloadKey rec : Bytes) :
    Option (List (Bytes × ScalarKey)) :=
  match indexAfresh rec with
  | .error _ => none
  | .ok entries => some (entries.filterMap (recordIndexKey m payloadKey))

-- ======== index

/-- `fieldPosts`. -/
structure FieldPosts where
  num : Int
  str : Int
  deriving DecidableEq, Repr

instance : Zero FieldPosts := ⟨⟨0, 0⟩⟩

/-- `payloadIndex`. -/
structure Index where
  fields : Postings Bytes ScalarKey Nat
  slotKeys : Finmap fun _ : Nat => List (Bytes × ScalarKey)
  geo : Postings Bytes GeoCell Nat
  geoSlotCells : Finmap fun _ : Nat => List (Bytes × GeoCell)
  tokens : Postings Bytes Bytes Nat
  tokenSlotKeys : Finmap fun _ : Nat => List (Bytes × Bytes)
  contains : Postings Bytes ScalarKey Nat
  containsSlotKeys : Finmap fun _ : Nat => List (Bytes × ScalarKey)
  posts : Finmap fun _ : Bytes => FieldPosts
  badRecords : Finmap fun _ : Bytes => Int
  badSlotKeys : Finmap fun _ : Nat => List Bytes

/-- `newPayloadIndex`. -/
def Index.new : Index := ⟨∅, ∅, ∅, ∅, ∅, ∅, ∅, ∅, ∅, ∅, ∅⟩

/-- The keys that cells and tokens are: each equals itself. -/
def always {κ : Type} : κ → Bool := fun _ => true

/-- The end of `addPost`: counters that are both zero leave nothing
behind. -/
def putPost (posts : Finmap fun _ : Bytes => FieldPosts) (field : Bytes)
    (c : FieldPosts) : Finmap fun _ : Bytes => FieldPosts :=
  if c = 0 then posts.erase field else posts.insert field c

/-- `addPost`; of a key it takes the kind. -/
def addPost (posts : Finmap fun _ : Bytes => FieldPosts) (field : Bytes)
    (key : ScalarKey) (delta : Int) : Finmap fun _ : Bytes => FieldPosts :=
  let c := (posts.lookup field).getD 0
  match key with
  | .int _ | .float _ => putPost posts field ⟨c.num + delta, c.str⟩
  | .str _ => putPost posts field ⟨c.num, c.str + delta⟩
  | .bool _ => posts

/-- `postScalar`: whether the entry is new, and the index. -/
def Index.postScalar (p : Index) (field : Bytes) (key : ScalarKey)
    (slot : Nat) : Bool × Index :=
  if slot ∈ (p.fields.find ScalarKey.self field key).getD ∅ then (false, p)
  else (true, { p with
    fields := p.fields.post ScalarKey.self field key slot
    posts := addPost p.posts field key 1 })

/-- `drop`. -/
def Index.drop (p : Index) (fk : Bytes × ScalarKey) (slot : Nat) : Index :=
  { p with
    fields := p.fields.drop ScalarKey.self fk.1 fk.2 slot
    posts :=
      if slot ∈ (p.fields.find ScalarKey.self fk.1 fk.2).getD ∅ then
        addPost p.posts fk.1 fk.2 (-1)
      else p.posts }

/-- `addBadRecord`. -/
def addBadRecord (bad : Finmap fun _ : Bytes => Int) (payloadKey : Bytes) :
    Finmap fun _ : Bytes => Int :=
  bad.insert payloadKey ((bad.lookup payloadKey).getD 0 + 1)

/-- `dropBadRecord`. -/
def dropBadRecord (bad : Finmap fun _ : Bytes => Int) (payloadKey : Bytes) :
    Finmap fun _ : Bytes => Int :=
  let n := (bad.lookup payloadKey).getD 0
  if 1 < n then bad.insert payloadKey (n - 1) else bad.erase payloadKey

-- ======== reindex

/-- The lists a call of `reindex` collects. -/
structure Collected where
  keys : List (Bytes × ScalarKey)
  geoCells : List (Bytes × GeoCell)
  tokens : List (Bytes × Bytes)
  contains : List (Bytes × ScalarKey)
  badKeys : List Bytes

/-- Post one scalar entry, and remember it if it is new. -/
def postKey (slot : Nat) (st : Index × Collected)
    (fk : Bytes × ScalarKey) : Index × Collected :=
  let (new, p) := st.1.postScalar fk.1 fk.2 slot
  if new then (p, { st.2 with keys := st.2.keys ++ [fk] }) else (p, st.2)

/-- One token of `addTokens`: posted once. -/
def postToken (slot : Nat) (field : Bytes) (st : Index × Collected)
    (tok : Bytes) : Index × Collected :=
  if slot ∈ (st.1.tokens.find always field tok).getD ∅ then st
  else ({ st.1 with tokens := st.1.tokens.post always field tok slot },
    { st.2 with tokens := st.2.tokens ++ [(field, tok)] })

/-- One key of `addContains`. -/
def postElement (slot : Nat) (field : Bytes) (st : Index × Collected)
    (k : ScalarKey) : Index × Collected :=
  ({ st.1 with
      contains := st.1.contains.post ScalarKey.self field k slot },
    { st.2 with contains := st.2.contains ++ [(field, k)] })

/-- The tokens of a value: those of a string, or of the strings of an
array. -/
def valueTokens (fns : Funcs) : Value → List Bytes
  | .string s => fns.tokenize s
  | .strings ss => ss.flatMap fns.tokenize
  | _ => []

/-- The end of the loop body: a value that is neither a geo point nor a
record. -/
def indexPlain (fns : Funcs) (slot : Nat) (st : Index × Collected)
    (field : Bytes) (v : Value) : Index × Collected :=
  let st := (valueTokens fns v).foldl (postToken slot field) st
  let st := (elementKeysOf v).foldl (postElement slot field) st
  match scalarKeyOf v with
  | none => st
  | some key => postKey slot st (field, key)

/-- The body of the loop of `reindex` over the metadata. -/
def indexField (fns : Funcs) (m : Metadata) (slot : Nat)
    (st : Index × Collected) (e : Sigma fun _ : Bytes => Value) :
    Index × Collected :=
  if e.1 = contentField then st
  else
    match e.2 with
    | .geo lat lon =>
      let cell := fns.cellOf lat lon
      ({ st.1 with geo := st.1.geo.post always e.1 cell slot },
        { st.2 with geoCells := st.2.geoCells ++ [(e.1, cell)] })
    | .record rec =>
      match appendRecordIndexKeys m e.1 rec with
      | none =>
        ({ st.1 with badRecords := addBadRecord st.1.badRecords e.1 },
          { st.2 with badKeys := st.2.badKeys ++ [e.1] })
      | some recKeys => recKeys.foldl (postKey slot) st
    | v => indexPlain fns slot st e.1 v

/-- A reverse entry is stored when there is something to drop. -/
def store {α : Type} (slot : Nat) (l : List α)
    (r : Finmap fun _ : Nat => List α) : Finmap fun _ : Nat => List α :=
  if l.isEmpty then r else r.insert slot l

/-- The first half of `reindex`: drop what the slot posted. -/
def Index.unpost (p : Index) (slot : Nat) : Index :=
  let p := ((p.slotKeys.lookup slot).getD []).foldl
    (fun p fk => p.drop fk slot) p
  { p with
    slotKeys := p.slotKeys.erase slot
    geo := ((p.geoSlotCells.lookup slot).getD []).foldl
      (fun g gc => g.drop always gc.1 gc.2 slot) p.geo
    geoSlotCells := p.geoSlotCells.erase slot
    tokens := ((p.tokenSlotKeys.lookup slot).getD []).foldl
      (fun t ft => t.drop always ft.1 ft.2 slot) p.tokens
    tokenSlotKeys := p.tokenSlotKeys.erase slot
    contains := ((p.containsSlotKeys.lookup slot).getD []).foldl
      (fun c fk => c.drop ScalarKey.self fk.1 fk.2 slot) p.contains
    containsSlotKeys := p.containsSlotKeys.erase slot
    badRecords := ((p.badSlotKeys.lookup slot).getD []).foldl
      dropBadRecord p.badRecords
    badSlotKeys := p.badSlotKeys.erase slot }

/-- `reindex`, with the order in which it ranges over the metadata. -/
def Index.reindex (fns : Funcs) (order : RangeOrder) (p : Index)
    (slot : Nat) (m : Metadata) : Index :=
  let p := p.unpost slot
  if m.entries.isEmpty then p
  else
    let (p, c) := (order.visit m).foldl (indexField fns m slot)
      (p, ⟨[], [], [], [], []⟩)
    { p with
      slotKeys := store slot c.keys p.slotKeys
      geoSlotCells := store slot c.geoCells p.geoSlotCells
      tokenSlotKeys := store slot c.tokens p.tokenSlotKeys
      containsSlotKeys := store slot c.contains p.containsSlotKeys
      badSlotKeys := store slot c.badKeys p.badSlotKeys }

/-- One call of `reindex`. -/
structure Call where
  slot : Nat
  payload : Metadata
  order : RangeOrder

/-- A sequence of calls, from an empty index. -/
def run (fns : Funcs) (calls : List Call) : Index :=
  calls.foldl (fun p c => p.reindex fns c.order c.slot c.payload) .new

end Rostam.Vector.Payload
