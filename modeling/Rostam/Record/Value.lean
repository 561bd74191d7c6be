/-
Values of cells and the index entries of a record (sdk/record/value.go).

Of the kinds of a payload value the three that a cell can have are
modelled. A float is its bits.
-/
import Rostam.Record.Resolver

namespace Rostam.Record

open Rostam.Lib Rostam.Wire

/-- `vtypes.Value`, as far as a cell gives one. -/
inductive Value where
  | int (i : Int)
  | float (bits : BitVec 64)
  | string (s : Bytes)
  deriving DecidableEq, Repr

/-- `CellValue`. -/
def cellValue (c : Cell) : Option Value :=
  match c.type with
  | .u64 | .uvarint =>
    if 2 ^ 63 - 1 < c.u.toNat then
      some (.float (BitVec.ofNat 64 (f64OfNat c.u.toNat)))
    else some (.int c.u.toInt)
  | .u8 | .u16 | .u32 | .i8 | .i16 | .i32 | .i64 | .ivarint =>
    some (.int c.u.toInt)
  | .f32 | .f64 => some (.float c.f)
  | .bytes | .fixed => some (.string c.b)
  | _ => none

/-- `ResultValue`. -/
def resultValue : Result → Option Value
  | .scalar c => cellValue c
  | .count n => some (.int n)
  | _ => none

/-- `isNaNValue`. -/
def isNaNValue : Value → Bool
  | .float bits => isNaN64 bits.toNat
  | _ => false

/-- `Entry`. -/
structure Entry where
  field : Bytes
  value : Value
  deriving DecidableEq, Repr

/-- `strconv.Itoa` of a position. -/
def itoa (n : Nat) : Bytes :=
  (Nat.toDigits 10 n).map fun c => UInt8.ofNat c.toNat

/-- `schemaFieldLabel`. -/
def schemaFieldLabel (storeNames : Bool) (name : Bytes) (pos : Nat) : Bytes :=
  if storeNames then name else hash :: itoa pos

/-- The entry of a scalar field, if it has a value to index. -/
def scalarEntry (label : Bytes) (c : Cell) : List Entry :=
  match cellValue c with
  | some v => if isNaNValue v then [] else [⟨label, v⟩]
  | none => []

/-- The entry of a table field. -/
def countEntry (label : Bytes) (nRows : Nat) : List Entry :=
  [⟨label ++ countSuffix, .int nRows⟩]

-- ======== schema mode

/-- What `walkSchemaFields` reports: the field's position and declaration,
its bytes and, for a table, its row count. -/
abbrev Visit (α : Type) :=
  Nat → FieldDef → Bytes → Option Nat → Except Err (List α)

/-- The loop of `walkSchemaFields` from field `pos` on: `tail` is what is
left of the variable-length positions, `b` of their bytes. -/
def walkFrom {α : Type} (l : Layout) (values : Bytes) (visit : Visit α) :
    List FieldDef → Nat → List Nat → Bytes → Except Err (List α)
  | [], _, _, _ => .ok []
  | f :: fs, pos, tail, b =>
    match l.fixedOff[pos]?.getD none with
    | some off =>
      if values.length < off then .error (.record (.beforeField pos))
      else do
        let x ← visit pos f (values.drop off) none
        let xs ← walkFrom l values visit fs (pos + 1) tail b
        .ok (x ++ xs)
    | none =>
      match tail with
      | [] => .error (.record (.neitherLayoutHalf pos))
      | i :: tail =>
        if i ≠ pos then .error (.record (.neitherLayoutHalf pos))
        else if f.type = .table then do
          let (nRows, rows) ← schemaTableHeader (Layout.table l pos) b
          let x ← visit pos f b (some nRows)
          let xs ← walkFrom l values visit fs (pos + 1) tail
            (rows.drop (nRows * ((Layout.table l pos).elim 0
              TableLayout.rowWidth)))
          .ok (x ++ xs)
        else do
          let n ← cellDataLen f.type f.n b
          let x ← visit pos f b none
          let xs ← walkFrom l values visit fs (pos + 1) tail (b.drop n)
          .ok (x ++ xs)

/-- `walkSchemaFields`; what the visits return is collected. -/
def walkSchemaFields {α : Type} (s : Schema) (l : Layout) (values : Bytes)
    (visit : Visit α) : Except Err (List α) :=
  if values.length < l.fixedLen then .error (.record .insideFixedFields)
  else walkFrom l values visit s.fields 0 l.varTail (values.drop l.fixedLen)

/-- The visit of `indexEntriesSchema`. -/
def visitField (s : Schema) : Visit Entry := fun pos f b nRows? =>
  let label := schemaFieldLabel s.storeNames f.name pos
  match nRows? with
  | some nRows => .ok (countEntry label nRows)
  | none => do
    let cell ← readCellAt f.type f.n b
    .ok (scalarEntry label cell)

/-- `indexEntriesSchema`, with the entry `schemaFor` returned. -/
def indexEntriesSchema (e : SchemaEntry) (rec : Bytes) :
    Except Err (List Entry) := do
  let values ← valuesOf e rec
  walkSchemaFields e.schema e.layout values (visitField e.schema)

-- ======== dynamic mode

/-- The loop of `indexEntriesDynamic`. -/
def indexDynamicFields : Nat → Option Bytes → Bytes → Except Err (List Entry)
  | 0, _, _ => .ok []
  | k + 1, prev, b => do
    let (name, b) ← readName b
    if outOfOrder prev name then .error (.record .fieldsOrder)
    else do
      let ((t, n), b) ← readTypeTag b
      if t = .table then do
        let (inner, rest) ← dynamicTableInner b
        let (nRows, _) ← dynamicTableRows inner
        let es ← indexDynamicFields k (some name) rest
        .ok (countEntry name nRows ++ es)
      else do
        let cell ← readCellAt t n b
        let rest ← skipDynamicValue t n b
        let es ← indexDynamicFields k (some name) rest
        .ok (scalarEntry name cell ++ es)

/-- `indexEntriesDynamic`; `rec` is the record behind its mode byte. -/
def indexEntriesDynamic (rec : Bytes) : Except Err (List Entry) := do
  let (nFields, b) ← readFieldCount rec
  indexDynamicFields nFields none b

/-- `IndexEntries`. -/
def indexEntries (rec : Bytes) : ResolverM (List Entry) :=
  match rec with
  | [] => throw (.record .emptyRecord)
  | mode :: body =>
    if mode = operateModeSchema then do
      let e ← schemaFor rec
      Stateful.of (indexEntriesSchema e rec)
    else if mode = operateModeDynamic then
      Stateful.of (indexEntriesDynamic body)
    else throw (.record (.unknownMode mode))

end Rostam.Record
