/-
Paths resolved against the bytes of a stored record, without decoding it
(sdk/record/resolve.go).

The source walks by an offset into `rec`; here a walk holds what is left
of `rec` from that offset on, so a row is a slice of the rows' bytes and a
reader's remainder is the next offset. Its offsets stay inside `rec`, and
the refusals of an offset outside have no counterpart.

`Resolver.schemaFor` is the one place where the cache is read or written.
What stands behind it takes the schema entry it returned as an argument,
and each call that looks a schema up hands the cache on.
-/
import Rostam.Record.Path

namespace Rostam.Record

open Rostam.Lib Rostam.Wire

-- ======== errors

/-- What an `ErrRecord` says. -/
inductive RecordErr where
  | emptyRecord
  | unknownMode (b : UInt8)
  | insideSchemaBlob
  | noTableLayout
  | beforeField (i : Nat)
  | insideFixedFields
  | neitherLayoutHalf (i : Nat)
  | noRowWidth
  | tableRows (n : Nat)
  | tableTooShort (n : Nat)
  | notATable
  | schemaRowsOrder
  | rowMissed
  | recordFields (n : Nat)
  | recordTooShort (n : Nat)
  | fieldsOrder
  | fieldNotInRecord
  | rowPastTable
  | emptyRow
  | rowKeyLength (n : Nat)
  | rowInsideKey
  | rowsOrder
  | schemaBlob (e : WireErr)
  | schemaLayout (e : WireErr)
  | rowColumns (n : Nat)
  | rowTooShort (n : Nat)
  | columnsOrder
  | columnHoldsTable
  | tablePastRecord
  | tableCap (n : Nat)
  | beforePolicy
  | unknownPolicy (b : UInt8)
  | beforeEvictionColumn
  | insideEvictionColumn
  | policyWithoutColumn
  | truncatedName
  | nameLength (n : Nat)
  | truncatedTypeTag
  | truncatedFixedWidth
  | fixedZero
  | truncatedF32
  | nonCanonicalF32NaN
  | truncatedF64
  | nonCanonicalF64NaN
  | cell (e : WireErr)
  | bytesLength (n : Nat)
  | bytesPastRecord
  | tableAsCell
  | noStoredWidth (t : CellType)
  | insideCell (w : Nat)
  | truncatedVarint
  | nonCanonicalVarint
  deriving DecidableEq, Repr

/-- An error wraps `ErrPath` or `ErrRecord`. -/
inductive Err where
  | path (e : PathErr)
  | record (e : RecordErr)
  deriving DecidableEq, Repr

/-- `Result`: each kind with what is meaningful for it. -/
inductive Result where
  | absent
  | scalar (cell : Cell)
  | count (n : Nat)
  | rowPresent
  | table
  deriving DecidableEq, Repr

-- ======== byte readers

/-- `bytes.Compare`, and `compareBytesString`. -/
def compareBytes (a b : Bytes) : Ordering := a.compareLex compare b

/-- `readCanonicalUvarint`. -/
def readCanonicalUvarint : Reader Err Nat := fun b =>
  match uvarint b with
  | none => .error (.record .truncatedVarint)
  | some (v, rest) =>
    if b.length - rest.length ≠ minUvarintLen v then
      .error (.record .nonCanonicalVarint)
    else .ok (v, rest)

/-- `fitsRemaining`. -/
def fitsRemaining (n remaining : Nat) : Bool := n ≤ remaining

/-- `readName`. -/
def readName : Reader Err Bytes := fun b => do
  let (n, b) ← readByte (.record .truncatedName) b
  if n.toNat = 0 ∨ operateMaxNameLen < n.toNat then
    .error (.record (.nameLength n.toNat))
  else readBytes (.record .truncatedName) n.toNat b

/-- `readTypeTag`. -/
def readTypeTag : Reader Err (CellType × UInt8) := fun b => do
  let (tag, b) ← readByte (.record .truncatedTypeTag) b
  if CellType.ofByte tag = .fixed then do
    let (n, b) ← readByte (.record .truncatedFixedWidth) b
    if n = 0 then .error (.record .fixedZero) else .ok ((.fixed, n), b)
  else .ok ((CellType.ofByte tag, 0), b)

/-- The spellings `readCellAt` refuses before it decodes the cell. -/
def cellSpelling (t : CellType) (b : Bytes) : Except Err Unit :=
  match t with
  | .uvarint | .ivarint | .bytes => do
    let _ ← readCanonicalUvarint b
    .ok ()
  | .f32 =>
    if b.length < 4 then .error (.record .truncatedF32)
    else if isNaN32 (leDecode (b.take 4))
        ∧ leDecode (b.take 4) ≠ canonicalNaN32 then
      .error (.record .nonCanonicalF32NaN)
    else .ok ()
  | .f64 =>
    if b.length < 8 then .error (.record .truncatedF64)
    else if isNaN64 (leDecode (b.take 8))
        ∧ leDecode (b.take 8) ≠ canonicalNaN64 then
      .error (.record .nonCanonicalF64NaN)
    else .ok ()
  | _ => .ok ()

/-- `readCellAt`. -/
def readCellAt (t : CellType) (n : UInt8) (b : Bytes) : Except Err Cell := do
  cellSpelling t b
  match decodeCellData t n b with
  | .error e => .error (.record (.cell e))
  | .ok (c, _) => .ok c

/-- `cellDataLen`. -/
def cellDataLen (t : CellType) (n : UInt8) (b : Bytes) : Except Err Nat :=
  match t with
  | .unset => .ok 0
  | .uvarint | .ivarint => do
    let (_, rest) ← readCanonicalUvarint b
    .ok (b.length - rest.length)
  | .bytes => do
    let (ln, rest) ← readCanonicalUvarint b
    if operateMaxBytesLen < ln then .error (.record (.bytesLength ln))
    else if !countFitsIn ln rest.length 1 then
      .error (.record .bytesPastRecord)
    else .ok (b.length - rest.length + ln)
  | .table => .error (.record .tableAsCell)
  | _ =>
    match cellWidth t n with
    | some (w + 1) =>
      if b.length < w + 1 then .error (.record (.insideCell (w + 1)))
      else .ok (w + 1)
    | _ => .error (.record (.noStoredWidth t))

-- ======== schema mode

/-- `schemaEntry`. -/
structure SchemaEntry where
  schema : Schema
  layout : Layout
  blobLen : Nat
  deriving DecidableEq, Repr

/-- `schemaFieldPos`; `none` is a segment that names nothing. -/
def schemaFieldPos (s : Schema) (seg : Segment) : Except Err (Option Nat) :=
  if seg.byPos then
    if s.fields.length ≤ seg.pos then .ok none else .ok (some seg.pos)
  else if !s.storeNames then .error (.path .noStoredNames)
  else .ok (s.fieldPos seg.name)

/-- The layout of field `i`, if it is a table. -/
def Layout.table (l : Layout) (i : Nat) : Option TableLayout :=
  l.tables[i]?.getD none

/-- `schemaTableHeader`: the row count and the rows' bytes. -/
def schemaTableHeader (tl : Option TableLayout) (b : Bytes) :
    Except Err (Nat × Bytes) :=
  match tl with
  | none => .error (.record .noRowWidth)
  | some tl =>
    if tl.rowWidth < 1 then .error (.record .noRowWidth)
    else do
      let (nRows, rows) ← readCanonicalUvarint b
      if operateMaxRows < nRows then .error (.record (.tableRows nRows))
      else if !countFitsIn nRows rows.length tl.rowWidth then
        .error (.record (.tableTooShort nRows))
      else .ok (nRows, rows)

/-- One field of the variable-length tail, skipped. -/
def skipTail (s : Schema) (l : Layout) (i : Nat) (b : Bytes) :
    Except Err Bytes :=
  match s.fields[i]? with
  | none => .error (.record (.neitherLayoutHalf i))
  | some f =>
    if f.type = .table then do
      let (nRows, rows) ← schemaTableHeader (Layout.table l i) b
      .ok (rows.drop (nRows * ((Layout.table l i).elim 0
        TableLayout.rowWidth)))
    else do
      let n ← cellDataLen f.type f.n b
      .ok (b.drop n)

/-- The walk of `schemaFieldOffset` through the tail. -/
def tailOffset (s : Schema) (l : Layout) (target : Nat) :
    List Nat → Bytes → Except Err Bytes
  | [], _ => .error (.record (.neitherLayoutHalf target))
  | i :: is, b =>
    if i = target then .ok b
    else do
      let b ← skipTail s l i b
      tailOffset s l target is b

/-- `schemaFieldOffset`: what is left of the record from the field on. -/
def schemaFieldOffset (s : Schema) (l : Layout) (target : Nat)
    (values : Bytes) : Except Err Bytes :=
  match l.fixedOff[target]?.getD none with
  | some off =>
    if values.length < off then .error (.record (.beforeField target))
    else .ok (values.drop off)
  | none =>
    if values.length < l.fixedLen then .error (.record .insideFixedFields)
    else tailOffset s l target l.varTail (values.drop l.fixedLen)

/-- `leByte`. -/
def leByte (v i : Nat) : UInt8 :=
  if 8 ≤ i then 0 else UInt8.ofNat (v / 256 ^ i)

/-- `leValueOf`: a `uint64`, shifted a byte at a time. -/
def leValueOf : Bytes → Nat
  | [] => 0
  | b :: bs => (leValueOf bs * 256 + b.toNat) % 2 ^ 64

/-- `compareStoredKeyBytes`. -/
def compareStoredKeyBytes (keyType : CellType) (k target : Bytes) :
    Ordering :=
  if keyType = .fixed then compareBytes k target
  else compare (leValueOf k) (leValueOf target)

/-- The loop of `compareStoredKeyValue` over a FIXED key, from byte `i`
on. -/
def compareFixedValue (v : Nat) : Nat → Bytes → Ordering
  | _, [] => .eq
  | i, b :: bs =>
    (compare b (leByte v i)).then (compareFixedValue v (i + 1) bs)

/-- `compareStoredKeyValue`. -/
def compareStoredKeyValue (keyType : CellType) (k : Bytes) (v : Nat) :
    Ordering :=
  if keyType = .fixed then compareFixedValue v 0 k
  else compare (leValueOf k) v

/-- The key a row segment names: its bytes, or a number. -/
inductive RowTarget where
  | bytes (target : Bytes)
  | value (v : Nat)
  deriving DecidableEq, Repr

/-- `schemaRowTarget`; `none` if no row of that width can carry the key. -/
def schemaRowTarget (seg : Segment) (kw : Nat) : Option RowTarget :=
  if seg.keyQuoted then
    if seg.key.length ≠ kw then none else some (.bytes seg.key)
  else
    match parseUint seg.keyText 64 with
    | none => none
    | some v =>
      if kw < 8 ∧ 2 ^ (8 * kw) ≤ v then none else some (.value v)

/-- A stored key against the key a row segment names. -/
def compareTarget (keyType : CellType) (k : Bytes) : RowTarget → Ordering
  | .bytes target => compareStoredKeyBytes keyType k target
  | .value v => compareStoredKeyValue keyType k v

/-- The stored key of row `i`. -/
def schemaRowKey (tl : TableLayout) (rows : Bytes) (i : Nat) : Bytes :=
  (rows.drop (i * tl.rowWidth)).take tl.keyWidth

/-- The search of `findSchemaRow` between `lo` and `hi`. -/
def searchRows (below : Nat → Bool) (lo hi : Nat) : Nat :=
  if h : lo < hi then
    let mid := (lo + hi) / 2
    if below mid then searchRows below (mid + 1) hi
    else searchRows below lo mid
  else lo
termination_by hi - lo
decreasing_by all_goals omega

/-- `findSchemaRow`. -/
def findSchemaRow (tl : TableLayout) (keyType : CellType) (nRows : Nat)
    (rows : Bytes) (seg : Segment) : Option Nat :=
  match schemaRowTarget seg tl.keyWidth with
  | none => none
  | some t =>
    let lo := searchRows (fun i =>
      compareTarget keyType (schemaRowKey tl rows i) t = .lt) 0 nRows
    if nRows ≤ lo then none
    else if compareTarget keyType (schemaRowKey tl rows lo) t ≠ .eq then
      none
    else some lo

/-- The column a third segment names; `none` is a column the table does
not have. -/
def schemaColPos (s : Schema) (cols : List ColumnDef) (seg : Segment) :
    Except Err (Option Nat) :=
  if seg.byPos then
    if cols.length ≤ seg.pos then .ok none else .ok (some seg.pos)
  else if !s.storeNames then .error (.path .noStoredNames)
  else .ok (cols.findIdx? fun c => c.name = seg.name)

/-- The cell of column `ci` in row `idx`. -/
def readColumn (tl : TableLayout) (cols : List ColumnDef) (rows : Bytes)
    (idx ci : Nat) : Except Err Result :=
  match cols[ci]? with
  | none => .ok .absent
  | some c => do
    let cell ← readCellAt c.type c.n
      (rows.drop (idx * tl.rowWidth + tl.colOff[ci]?.getD 0))
    .ok (.scalar cell)

/-- A row of a table, and the column behind it. -/
def resolveSchemaRow (s : Schema) (td : TableDef) (tl : TableLayout)
    (b : Bytes) (row : Segment) (more : List Segment) :
    Except Err Result := do
  let (nRows, rows) ← schemaTableHeader (some tl) b
  match findSchemaRow tl td.keyType nRows rows row, more with
  | none, _ => .ok .absent
  | some _, [] => .ok .rowPresent
  | some idx, col :: _ => do
    match ← schemaColPos s td.cols col with
    | none => .ok .absent
    | some ci => readColumn tl td.cols rows idx ci

/-- A field of a schema record, and the segments behind it. -/
def resolveSchemaField (s : Schema) (l : Layout) (values : Bytes)
    (pos : Nat) (f : FieldDef) (seg : Segment) :
    List Segment → Except Err Result
  | more =>
    if seg.kind = .count then
      if f.type ≠ .table then .error (.path .countOnNonTable)
      else do
        let b ← schemaFieldOffset s l pos values
        let (nRows, _) ← schemaTableHeader (Layout.table l pos) b
        .ok (.count nRows)
    else
      match more with
      | [] =>
        if f.type = .table then .ok .table
        else do
          let b ← schemaFieldOffset s l pos values
          let cell ← readCellAt f.type f.n b
          .ok (.scalar cell)
      | row :: more =>
        if f.type ≠ .table then .error (.path .rowOnNonTable)
        else
          match Layout.table l pos, f.table with
          | some tl, some td => do
            let b ← schemaFieldOffset s l pos values
            resolveSchemaRow s td tl b row more
          | _, _ => .error (.record .noTableLayout)

/-- The values behind the schema blob. -/
def valuesOf (e : SchemaEntry) (rec : Bytes) : Except Err Bytes :=
  if rec.length < 1 + e.blobLen then .error (.record .insideSchemaBlob)
  else .ok (rec.drop (1 + e.blobLen))

/-- `resolveSchema`, with the entry `schemaFor` returned. -/
def resolveSchema (e : SchemaEntry) (rec : Bytes) (seg : Segment)
    (more : List Segment) : Except Err Result := do
  let values ← valuesOf e rec
  match ← schemaFieldPos e.schema seg with
  | none => .ok .absent
  | some pos =>
    match e.schema.fields[pos]? with
    | none => .ok .absent
    | some f => resolveSchemaField e.schema e.layout values pos f seg more

-- ======== dynamic mode

/-- `dynamicTableInner`: the table's body, and what is behind it. -/
def dynamicTableInner : Reader Err Bytes := fun b => do
  let (byteLen, b) ← readCanonicalUvarint b
  if !fitsRemaining byteLen b.length then .error (.record .tablePastRecord)
  else .ok (b.take byteLen, b.drop byteLen)

/-- The count in front of entries of at least three bytes. -/
def readCount (max : Nat) (tooMany tooShort : Nat → RecordErr) :
    Reader Err Nat := fun b => do
  let (n, b) ← readCanonicalUvarint b
  if max < n then .error (.record (tooMany n))
  else if !countFitsIn n b.length 3 then .error (.record (tooShort n))
  else .ok (n, b)

/-- `dynamicTableRows`: the row count and the rows' bytes. -/
def dynamicTableRows (inner : Bytes) : Except Err (Nat × Bytes) := do
  let (capV, b) ← readCanonicalUvarint inner
  if operateMaxRows < capV then .error (.record (.tableCap capV))
  else do
    let (policy, b) ← readByte (.record .beforePolicy) b
    if operatePolicyMaxCol < policy then
      .error (.record (.unknownPolicy policy))
    else do
      let (byColLen, b) ← readByte (.record .beforeEvictionColumn) b
      let (_, b) ← readBytes (.record .insideEvictionColumn) byColLen.toNat b
      if (policy = operatePolicyMinCol ∨ policy = operatePolicyMaxCol)
          ∧ byColLen.toNat = 0 then
        .error (.record .policyWithoutColumn)
      else readCount operateMaxRows .tableRows .tableTooShort b

/-- `skipDynamicValue`. -/
def skipDynamicValue (t : CellType) (n : UInt8) (b : Bytes) :
    Except Err Bytes :=
  if t = .table then do
    let (_, b) ← dynamicTableInner b
    .ok b
  else do
    let ln ← cellDataLen t n b
    .ok (b.drop ln)

/-- One framed row of a dynamic table: its key and what follows the key
in it. -/
def readRow : Reader Err (Bytes × Bytes) := fun b => do
  let (rowLen, b) ← readCanonicalUvarint b
  if !fitsRemaining rowLen b.length then .error (.record .rowPastTable)
  else
    let row := b.take rowLen
    let rest := b.drop rowLen
    do
      let (klen, row) ← readByte (.record .emptyRow) row
      if klen.toNat = 0 ∨ operateMaxKeyLen < klen.toNat then
        .error (.record (.rowKeyLength klen.toNat))
      else do
        let (key, content) ← readBytes (.record .rowInsideKey) klen.toNat row
        .ok ((key, content), rest)

/-- The entry is not behind the previous one. -/
def outOfOrder (prev : Option Bytes) (x : Bytes) : Bool :=
  prev.any fun p => compareBytes p x ≠ .lt

/-- The column loop of `resolveDynamicRow`. -/
def resolveDynamicCol (name : Bytes) :
    Nat → Option Bytes → Bytes → Except Err Result
  | 0, _, _ => .ok .absent
  | k + 1, prev, b => do
    let (colName, b) ← readName b
    if outOfOrder prev colName then .error (.record .columnsOrder)
    else if compareBytes colName name = .gt then .ok .absent
    else do
      let ((t, n), b) ← readTypeTag b
      if t = .table then .error (.record .columnHoldsTable)
      else if compareBytes colName name = .eq then do
        let cell ← readCellAt t n b
        .ok (.scalar cell)
      else do
        let ln ← cellDataLen t n b
        resolveDynamicCol name k (some colName) (b.drop ln)

/-- `resolveDynamicRow`. -/
def resolveDynamicRow (content : Bytes) : List Segment → Except Err Result
  | [] => .ok .rowPresent
  | col :: _ =>
    if col.byPos then .error (.path .dynamicColumnPosition)
    else do
      let (nCols, b) ← readCount operateMaxCols .rowColumns .rowTooShort
        content
      resolveDynamicCol col.name nCols none b

/-- The key a row segment names in a dynamic table; `none` if it names
no key. -/
def dynamicRowTarget (seg : Segment) : Option Bytes :=
  if seg.keyQuoted then some seg.key
  else (parseUint seg.keyText 64).map (leEncode 8)

/-- The row loop of `resolveDynamicField`. -/
def findDynamicRow (target : Bytes) (more : List Segment) :
    Nat → Option Bytes → Bytes → Except Err Result
  | 0, _, _ => .ok .absent
  | k + 1, prev, b => do
    let ((key, content), b) ← readRow b
    if outOfOrder prev key then .error (.record .rowsOrder)
    else
      match compareBytes key target with
      | .gt => .ok .absent
      | .eq => resolveDynamicRow content more
      | .lt => findDynamicRow target more k (some key) b

/-- `resolveDynamicField`. -/
def resolveDynamicField (t : CellType) (n : UInt8) (b : Bytes)
    (seg : Segment) (more : List Segment) : Except Err Result :=
  if seg.kind = .count then
    if t ≠ .table then .error (.path .countOnNonTable)
    else do
      let (inner, _) ← dynamicTableInner b
      let (nRows, _) ← dynamicTableRows inner
      .ok (.count nRows)
  else
    match more with
    | [] =>
      if t = .table then .ok .table
      else do
        let cell ← readCellAt t n b
        .ok (.scalar cell)
    | row :: more =>
      if t ≠ .table then .error (.path .rowOnNonTable)
      else do
        let (inner, _) ← dynamicTableInner b
        let (nRows, rows) ← dynamicTableRows inner
        match dynamicRowTarget row with
        | none => .ok .absent
        | some target => findDynamicRow target more nRows none rows

/-- The field loop of `resolveDynamic`. -/
def findDynamicField (seg : Segment) (more : List Segment) :
    Nat → Option Bytes → Bytes → Except Err Result
  | 0, _, _ => .ok .absent
  | k + 1, prev, b => do
    let (name, b) ← readName b
    if outOfOrder prev name then .error (.record .fieldsOrder)
    else if compareBytes name seg.name = .gt then .ok .absent
    else do
      let ((t, n), b) ← readTypeTag b
      if compareBytes name seg.name = .eq then
        resolveDynamicField t n b seg more
      else do
        let b ← skipDynamicValue t n b
        findDynamicField seg more k (some name) b

/-- The field count of a dynamic record. -/
def readFieldCount : Reader Err Nat :=
  readCount operateMaxFields .recordFields .recordTooShort

/-- `resolveDynamic`; `rec` is the record behind its mode byte. -/
def resolveDynamic (rec : Bytes) (seg : Segment) (more : List Segment) :
    Except Err Result :=
  if seg.byPos then .error (.path .dynamicFieldPosition)
  else do
    let (nFields, b) ← readFieldCount rec
    findDynamicField seg more nFields none b

-- ======== proven absence

/-- The row loop of `proveSchemaRowAbsent`, from row `i` on. -/
def proveSchemaRows (tl : TableLayout) (keyType : CellType) (rows : Bytes)
    (t : RowTarget) : Nat → Nat → Option Bytes → Except Err Unit
  | 0, _, _ => .ok ()
  | k + 1, i, prev =>
    let key := schemaRowKey tl rows i
    if prev.any fun p => compareStoredKeyBytes keyType p key ≠ .lt then
      .error (.record .schemaRowsOrder)
    else if compareTarget keyType key t = .eq then
      .error (.record .rowMissed)
    else proveSchemaRows tl keyType rows t k (i + 1) (some key)

/-- `proveSchemaRowAbsent`, with the entry `schemaFor` returned. -/
def proveSchemaRowAbsent (e : SchemaEntry) (rec : Bytes)
    (seg row : Segment) : Except Err Unit := do
  let values ← valuesOf e rec
  match ← schemaFieldPos e.schema seg with
  | none => .error (.record .notATable)
  | some pos =>
    match e.schema.fields[pos]? with
    | none => .error (.record .notATable)
    | some f =>
      if f.type ≠ .table then .error (.record .notATable)
      else
        match f.table, Layout.table e.layout pos with
        | some td, some tl => do
          let b ← schemaFieldOffset e.schema e.layout pos values
          let (nRows, rows) ← schemaTableHeader (some tl) b
          match schemaRowTarget row tl.keyWidth with
          | none => .ok ()
          | some t => proveSchemaRows tl td.keyType rows t nRows 0 none
        | _, _ => .error (.record .notATable)

/-- The row loop of `proveDynamicTableRowAbsent`. -/
def proveDynamicRows (target : Bytes) :
    Nat → Option Bytes → Bytes → Except Err Unit
  | 0, _, _ => .ok ()
  | k + 1, prev, b => do
    let ((key, _), b) ← readRow b
    if outOfOrder prev key then .error (.record .rowsOrder)
    else if key = target then .error (.record .rowMissed)
    else proveDynamicRows target k (some key) b

/-- `proveDynamicTableRowAbsent`. -/
def proveDynamicTableRowAbsent (inner : Bytes) (row : Segment) :
    Except Err Unit := do
  let (nRows, rows) ← dynamicTableRows inner
  match dynamicRowTarget row with
  | none => .ok ()
  | some target => proveDynamicRows target nRows none rows

/-- One field of `proveDynamicRowAbsent`: the named one has to be a table
without the row. -/
def proveDynamicField (seg row : Segment) (name : Bytes) (t : CellType)
    (b : Bytes) (proved : Bool) : Except Err Bool :=
  if compareBytes name seg.name = .eq then
    if t ≠ .table then .error (.record .notATable)
    else do
      let (inner, _) ← dynamicTableInner b
      proveDynamicTableRowAbsent inner row
      .ok true
  else .ok proved

/-- The field loop of `proveDynamicRowAbsent`; the result says whether
the named table was seen. -/
def proveDynamicFields (seg row : Segment) :
    Nat → Bool → Option Bytes → Bytes → Except Err Bool
  | 0, proved, _, _ => .ok proved
  | k + 1, proved, prev, b => do
    let (name, b) ← readName b
    if outOfOrder prev name then .error (.record .fieldsOrder)
    else do
      let ((t, n), b) ← readTypeTag b
      let proved ← proveDynamicField seg row name t b proved
      let b ← skipDynamicValue t n b
      proveDynamicFields seg row k proved (some name) b

/-- `proveDynamicRowAbsent`; `rec` is the record behind its mode byte. -/
def proveDynamicRowAbsent (rec : Bytes) (seg row : Segment) :
    Except Err Unit :=
  if seg.byPos then .error (.path .dynamicFieldPosition)
  else do
    let (nFields, b) ← readFieldCount rec
    let proved ← proveDynamicFields seg row nFields false none b
    if !proved then .error (.record .fieldNotInRecord) else .ok ()

end Rostam.Record
