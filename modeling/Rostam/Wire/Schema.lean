/-
Schemas of operate records: the field declarations, their blob, the
checks a schema passes and the byte layout it implies
(sdk/wire/operate_schema.go).

Names are byte strings. `DecodeSchema` works on an offset into `b`; here
each part takes what is left of `b` and returns what is behind it, with
the running budget of declarations beside it. The names section is cut
out of `b` first and read as a buffer of its own.
-/
import Rostam.Wire.Cell

namespace Rostam.Wire

open Rostam.Lib

-- ======== caps

def operateMaxFields : Nat := 65535
def operateMaxCols : Nat := 65535
def operateMaxSchemaBytes : Nat := 4096
def operateMaxRows : Nat := 2 ^ 20
def operateMaxRowWidth : Nat := 4096
def operateMaxKeyLen : Nat := 255
def operateMaxNameLen : Nat := 255
def operateMaxNameBytes : Nat := 4096

/-- `OperatePolicyMinCol`; the policies count from none, min key, max key
to min column, max column. -/
def operatePolicyMinCol : UInt8 := 3
def operatePolicyMaxCol : UInt8 := 4

-- ======== declarations

/-- `ColumnDef`. -/
structure ColumnDef where
  name : Bytes
  type : CellType
  n : UInt8
  deriving DecidableEq, Repr

/-- `TableDef`. -/
structure TableDef where
  keyType : CellType
  keyN : UInt8
  cols : List ColumnDef
  cap : Nat
  policy : UInt8
  byCol : Nat
  deriving DecidableEq, Repr

/-- `FieldDef`. -/
structure FieldDef where
  name : Bytes
  type : CellType
  n : UInt8
  table : Option TableDef
  deriving DecidableEq, Repr

/-- `Schema`. -/
structure Schema where
  version : Nat
  storeNames : Bool
  fields : List FieldDef
  deriving DecidableEq, Repr

-- ======== encoding

/-- A type tag and, for FIXED, its width. -/
def appendType (t : CellType) (n : UInt8) : Bytes :=
  t.toByte :: if t = .fixed then [n] else []

/-- `appendName`. -/
def appendName (name : Bytes) : Bytes := UInt8.ofNat name.length :: name

def TableDef.encode (t : TableDef) : Bytes := appendType t.keyType t.keyN
    ++ (appendUvarint t.cols.length
      ++ (t.cols.flatMap (fun c => appendType c.type c.n)
        ++ (appendUvarint t.cap ++ (t.policy :: appendUvarint t.byCol))))

/-- The declared table of a field, if its type is one. -/
def FieldDef.table? (f : FieldDef) : Option TableDef :=
  if f.type = .table then f.table else none

def FieldDef.encode (f : FieldDef) : Bytes :=
  appendType f.type f.n ++ (f.table?.elim [] TableDef.encode)

/-- The columns of a field, if it is a table. -/
def FieldDef.cols (f : FieldDef) : List ColumnDef :=
  f.table?.elim [] TableDef.cols

/-- The names section: the fields' names, then the columns'. -/
def Schema.names (s : Schema) : Bytes :=
  s.fields.flatMap (fun f => appendName f.name) ++ s.fields.flatMap fun f =>
      f.cols.flatMap fun c => appendName c.name

/-- The declarations in front of the names section. -/
def Schema.head (s : Schema) : Bytes := leEncode 2 s.version
    ++ ((if s.storeNames then 1 else 0) :: (appendUvarint s.fields.length
        ++ s.fields.flatMap FieldDef.encode))

/-- `Schema.Encode`. -/
def Schema.encode (s : Schema) : Bytes :=
  s.head ++ if s.storeNames then appendUvarint s.names.length ++ s.names
    else appendUvarint 0

-- ======== validation

/-- `validOperateKeyType`. -/
def validOperateKeyType (t : CellType) : Bool :=
  t = .u8 || t = .u16 || t = .u32 || t = .u64 || t = .fixed

/-- No name within a list is too long or, if not empty, repeated. -/
def namesOk (names : List Bytes) : Bool :=
  names.all (fun n => n.length ≤ operateMaxNameLen)
    && (names.filter (fun n => n ≠ [])).Nodup

/-- The checks of one column; an unknown type has no width either. -/
def ColumnDef.ok (c : ColumnDef) : Bool :=
  (cellWidth c.type c.n).any fun w => 1 ≤ w

/-- The stored width of a row: the key and the columns. -/
def TableDef.rowWidth (t : TableDef) : Nat :=
  (cellWidth t.keyType t.keyN).getD 0
    + (t.cols.map fun c => (cellWidth c.type c.n).getD 0).sum

/-- The checks of one table. -/
def TableDef.ok (t : TableDef) : Bool := validOperateKeyType t.keyType
    && !(t.keyType = .fixed && t.keyN.toNat < 1)
    && t.cols.length ≤ operateMaxCols
    && t.cap ≤ operateMaxRows
    && t.policy ≤ operatePolicyMaxCol
    && !((t.policy = operatePolicyMinCol || t.policy = operatePolicyMaxCol)
      && t.cols.length ≤ t.byCol)
    && t.cols.all ColumnDef.ok
    && namesOk (t.cols.map ColumnDef.name)
    && t.rowWidth ≤ operateMaxRowWidth

/-- A tag at or above `OperateTypeCount`. -/
def CellType.isUnknown : CellType → Bool
  | .unknown .. => true
  | _ => false

/-- The checks of one field. -/
def FieldDef.ok (f : FieldDef) : Bool := !f.type.isUnknown && f.type ≠ .unset
    && !(f.type = .fixed && f.n.toNat < 1)
    && (f.type ≠ .table || f.table.any TableDef.ok)

/-- `Schema.Validate`: every failure is `ErrOperateSchema`. -/
def Schema.validate (s : Schema) : Bool := s.fields.length ≤ operateMaxFields
    && s.fields.all FieldDef.ok
    && namesOk (s.fields.map FieldDef.name)
    && s.encode.length ≤ operateMaxSchemaBytes

-- ======== decoding

/-- A type tag and, for FIXED, its width. -/
def decodeType : Reader WireErr (CellType × UInt8) := fun b => do
  let (tag, b) ← readByte .shortArgs b
  if CellType.ofByte tag = .fixed then do
    let (n, b) ← readByte .shortArgs b
    .ok ((.fixed, n), b)
  else .ok ((CellType.ofByte tag, 0), b)

/-- A column, unnamed so far. -/
def decodeColumn : Reader WireErr ColumnDef := fun b => do
  let (t, b) ← decodeType b
  .ok (⟨[], t.1, t.2⟩, b)

/-- A table's declaration, charged to the budget. -/
def decodeTableDef (budget : Nat) : Reader WireErr (TableDef × Nat) :=
  fun b => do
    let (key, b) ← decodeType b
    let (nCols, b) ← decodeCanonicalUvarint b
    if operateMaxCols < nCols ∨ budget < nCols then .error .operateSchema
    else if !countFitsIn nCols b.length 1 then .error .shortArgs
    else do
      let (cols, b) ← readMany decodeColumn nCols b
      let (cap, b) ← decodeCanonicalUvarint b
      if operateMaxRows < cap then .error .operateSchema
      else do
        let (policy, b) ← readByte .shortArgs b
        let (byCol, b) ← decodeCanonicalUvarint b
        if operateMaxCols < byCol then .error .operateSchema
        else .ok ((⟨key.1, key.2, cols, cap, policy, byCol⟩,
          budget - nCols), b)

/-- A field's declaration, unnamed so far. -/
def decodeField (budget : Nat) : Reader WireErr (FieldDef × Nat) :=
  fun b => do
    let (t, b) ← decodeType b
    if t.1 = .table then do
      let ((td, budget), b) ← decodeTableDef budget b
      .ok ((⟨[], t.1, t.2, some td⟩, budget), b)
    else .ok ((⟨[], t.1, t.2, none⟩, budget), b)

/-- The field loop. -/
def decodeFields : Nat → Nat → Reader WireErr (List FieldDef × Nat)
  | 0, budget, b => .ok (([], budget), b)
  | n + 1, budget, b => do
    let ((f, budget), b) ← decodeField budget b
    let ((fs, budget), b) ← decodeFields n budget b
    .ok ((f :: fs, budget), b)

/-- One name of the names section. -/
def readSchemaName : Reader WireErr Bytes := fun buf => do
  let (ln, buf) ← readByte .shortArgs buf
  if operateMaxNameLen < ln.toNat then .error .operateSchema
  else readBytes .shortArgs ln.toNat buf

/-- Read a name for each of a list, in order. -/
def nameAll {α : Type} (set : α → Bytes → α) : List α → Reader WireErr (List α)
  | [], buf => .ok ([], buf)
  | x :: xs, buf => do
    let (name, buf) ← readSchemaName buf
    let (xs, buf) ← nameAll set xs buf
    .ok (set x name :: xs, buf)

/-- Name the fields. -/
def nameFields : List FieldDef → Reader WireErr (List FieldDef) :=
  nameAll fun f name => { f with name := name }

/-- Name the columns of one table. -/
def nameColumns : List ColumnDef → Reader WireErr (List ColumnDef) :=
  nameAll fun c name => { c with name := name }

/-- Name the columns of every table, in field order. -/
def nameTables : List FieldDef → Reader WireErr (List FieldDef)
  | [], buf => .ok ([], buf)
  | f :: fs, buf => do
    match f.table? with
    | some t => do
      let (cols, buf) ← nameColumns t.cols buf
      let (fs, buf) ← nameTables fs buf
      .ok ({ f with table := some { t with cols := cols } } :: fs, buf)
    | none => do
      let (fs, buf) ← nameTables fs buf
      .ok (f :: fs, buf)

/-- The whole names section. -/
def decodeNames (fields : List FieldDef) (buf : Bytes) :
    Except WireErr (List FieldDef) := do
  let (fields, buf) ← nameFields fields buf
  let (fields, buf) ← nameTables fields buf
  if buf ≠ [] then .error .operateSchema else .ok fields

/-- The fields with the names section applied, if there is one. -/
def decodeNamed (storeNames : Bool) (fields : List FieldDef) (buf : Bytes) :
    Except WireErr (List FieldDef) :=
  if storeNames then decodeNames fields buf else .ok fields

/-- `DecodeSchema`. -/
def decodeSchema : Reader WireErr Schema := fun b =>
  if b.length < 4 then .error .shortArgs
  else do
    let (version, b) ← readBytes .shortArgs 2 b
    let (flags, b) ← readByte .shortArgs b
    if 1 < flags.toNat then .error .operateSchema
    else do
      let storeNames := decide (flags.toNat = 1)
      let (nFields, b) ← decodeCanonicalUvarint b
      if operateMaxFields < nFields ∨ operateMaxSchemaBytes < nFields then
        .error .operateSchema
      else if !countFitsIn nFields b.length 1 then .error .shortArgs
      else do
        let ((fields, budget), b) ← decodeFields nFields
          (operateMaxSchemaBytes - nFields) b
        let (nameBytes, b) ← decodeCanonicalUvarint b
        if operateMaxNameBytes < nameBytes ∨ budget < nameBytes then
          .error .operateSchema
        else if !countFitsIn nameBytes b.length 1 then .error .shortArgs
        else if storeNames = false ∧ nameBytes ≠ 0 then
          .error .operateSchema
        else do
          let named ← decodeNamed storeNames fields (b.take nameBytes)
          let s : Schema := ⟨leDecode version, storeNames, named⟩
          if !s.validate then .error .operateSchema
          else .ok (s, b.drop nameBytes)

/-- `Schema.FieldPos`. -/
def Schema.fieldPos (s : Schema) (name : Bytes) : Option Nat :=
  if name = [] then none else s.fields.findIdx? fun f => f.name = name

-- ======== layout

/-- `TableLayout`. -/
structure TableLayout where
  keyWidth : Nat
  rowWidth : Nat
  colOff : List Nat
  deriving DecidableEq, Repr

/-- `Layout`. A `none` of `fixedOff` is the source's -1. -/
structure Layout where
  fixedOff : List (Option Nat)
  fixedLen : Nat
  varTail : List Nat
  tables : List (Option TableLayout)
  deriving DecidableEq, Repr

/-- The column offsets from `off` on, and the width behind the last. -/
def layoutCols (off : Nat) : List ColumnDef → Except WireErr (List Nat × Nat)
  | [] => .ok ([], off)
  | c :: cs =>
    match cellWidth c.type c.n with
    | some (w + 1) => do
      let (offs, width) ← layoutCols (off + (w + 1)) cs
      .ok (off :: offs, width)
    | _ => .error .operateSchema

/-- The layout of one table. -/
def layoutTable (t : TableDef) : Except WireErr TableLayout :=
  match cellWidth t.keyType t.keyN with
  | some (kw + 1) => do
    let (offs, width) ← layoutCols (kw + 1) t.cols
    .ok ⟨kw + 1, width, offs⟩
  | _ => .error .operateSchema

/-- The loop of `Layout`, from field `i` at fixed offset `off` on. -/
def layoutFrom (i off : Nat) : List FieldDef → Except WireErr Layout
  | [] => .ok ⟨[], off, [], []⟩
  | f :: fs =>
    if f.type = .fixed ∧ f.n.toNat < 1 then .error .operateSchema
    else
      match cellWidth f.type f.n with
      | some w => do
        let l ← layoutFrom (i + 1) (off + w) fs
        .ok { l with
          fixedOff := some off :: l.fixedOff
          tables := none :: l.tables }
      | none =>
        if f.type = .table then
          match f.table with
          | none => .error .operateSchema
          | some t => do
            let tl ← layoutTable t
            let l ← layoutFrom (i + 1) off fs
            .ok { l with
              fixedOff := none :: l.fixedOff
              varTail := i :: l.varTail
              tables := some tl :: l.tables }
        else do
          let l ← layoutFrom (i + 1) off fs
          .ok { l with
            fixedOff := none :: l.fixedOff
            varTail := i :: l.varTail
            tables := none :: l.tables }

/-- `Schema.Layout`. -/
def Schema.layout (s : Schema) : Except WireErr Layout :=
  layoutFrom 0 0 s.fields

end Rostam.Wire
