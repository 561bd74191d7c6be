/-
Record paths: the segments of a path string and its parser
(sdk/record/path.go).

Strings are byte strings. The errors keep what their texts show: the
input, a length or a count. `%w` makes each of them an `ErrPath`.
-/
import Rostam.Lib.Bytes
import Rostam.Wire.Schema

namespace Rostam.Record

open Rostam.Lib Rostam.Wire

-- ======== errors

/-- What an `ErrPath` says: the refusals of the parser, then those of a
path that does not apply to a record's shape. -/
inductive PathErr where
  | emptyPath
  | pathTooLong (bytes : Nat)
  | tooManySegments (s : Bytes)
  | emptySegment (s : Bytes)
  | noFieldBeforeCount (s : Bytes)
  | countNotOnlySegment (s : Bytes)
  | emptyFieldOrColumn
  | malformedPosition (s : Bytes)
  | nonCanonicalPosition (s : Bytes)
  | positionOutOfRange (s : Bytes)
  | quotedKeyRawTooLong (raw : Nat) (s : Bytes)
  | malformedQuotedKey (s : Bytes)
  | quotedKeyTooLong (bytes : Nat) (s : Bytes)
  | positionAsRowKey (s : Bytes)
  | rowKeyForm (s : Bytes)
  | rowKeyTooLong (s : Bytes)
  | rowKeyRange (s : Bytes)
  | nameLength (s : Bytes)
  | nameCharacter (s : Bytes)
  | segmentCount (n : Nat)
  | firstNotField
  | countNotOnly
  | secondNotRow
  | thirdNotColumn
  | countOnNonTable
  | rowOnNonTable
  | noStoredNames
  | dynamicFieldPosition
  | dynamicColumnPosition
  | notFieldRow
  deriving DecidableEq, Repr

-- ======== segments

/-- `SegKind`. -/
inductive SegKind where
  | field | row | col | count
  deriving DecidableEq, Repr

/-- `Segment`. -/
structure Segment where
  kind : SegKind
  name : Bytes
  pos : Nat
  byPos : Bool
  key : Bytes
  keyText : Bytes
  keyQuoted : Bool
  deriving DecidableEq, Repr

/-- `Path`. -/
structure Path where
  segs : List Segment
  deriving DecidableEq, Repr

/-- A field, count or column segment, by name. -/
def Segment.named (kind : SegKind) (name : Bytes) : Segment :=
  ⟨kind, name, 0, false, [], [], false⟩

/-- A field, count or column segment, by position. -/
def Segment.at (kind : SegKind) (pos : Nat) : Segment :=
  ⟨kind, [], pos, true, [], [], false⟩

-- ======== limits

def maxPos : Nat := operateMaxFields
def maxPosDigits : Nat := 5
def maxRowKeyDigits : Nat := 20
def maxNameLen : Nat := 255
def maxPathBytes : Nat :=
  maxNameLen + 1 + (2 + 2 * operateMaxKeyLen) + 1 + maxNameLen

def slash : UInt8 := 47
def hash : UInt8 := 35
def quote : UInt8 := 34
def backslash : UInt8 := 92

/-- `countSuffix`: "#count". -/
def countSuffix : Bytes := [hash, 99, 111, 117, 110, 116]

-- ======== decimals

/-- `isAllDigits`. -/
def isAllDigits (s : Bytes) : Bool := s ≠ [] && s.all fun c => 48 ≤ c && c ≤ 57

/-- The number a digit string denotes. -/
def decimal (s : Bytes) : Nat := s.foldl (fun v c => 10 * v + (c.toNat - 48)) 0

/-- `strconv.ParseUint` in base ten; `none` is any of its errors. -/
def parseUint (s : Bytes) (bitSize : Nat) : Option Nat :=
  if isAllDigits s && decimal s < 2 ^ bitSize then some (decimal s) else none

-- ======== parsing

/-- `validateName`. -/
def validateName (s : Bytes) : Except PathErr Unit :=
  if s.length < 1 ∨ maxNameLen < s.length then .error (.nameLength s)
  else if s.any (fun c => c = slash || c = hash || c = quote) then
    .error (.nameCharacter s)
  else .ok ()

/-- `parseNameOrPos`: the segment of the given kind. -/
def parseNameOrPos (kind : SegKind) (s : Bytes) : Except PathErr Segment :=
  match s with
  | [] => .error .emptyFieldOrColumn
  | c :: rest =>
    if c = hash then
      if !isAllDigits rest then .error (.malformedPosition s)
      else if maxPosDigits < rest.length
          ∨ (1 < rest.length ∧ rest.head? = some 48) then
        .error (.nonCanonicalPosition s)
      else
        match parseUint rest 32 with
        | none => .error (.positionOutOfRange s)
        | some v =>
          if maxPos < v then .error (.positionOutOfRange s)
          else .ok (.at kind v)
    else do
      validateName s
      .ok (.named kind s)

/-- `parseFieldSeg`; the kind of the segment says whether it is a count. -/
def parseFieldSeg (s : Bytes) (onlySeg : Bool) : Except PathErr Segment :=
  if countSuffix.isSuffixOf s then
    let base := s.take (s.length - countSuffix.length)
    if base = [] then .error (.noFieldBeforeCount s)
    else if !onlySeg then .error (.countNotOnlySegment s)
    else parseNameOrPos .count base
  else parseNameOrPos .field s

/-- `parseColSeg`. -/
def parseColSeg (s : Bytes) : Except PathErr Segment := parseNameOrPos .col s

/-- The text between the quotes of a row key, unescaped. -/
def unescape : Bytes → Option Bytes
  | [] => some []
  | c :: rest =>
    if c = quote then none
    else if c = backslash then
      match rest with
      | [] => none
      | next :: rest =>
        if next ≠ quote ∧ next ≠ backslash then none
        else (unescape rest).map (next :: ·)
    else (unescape rest).map (c :: ·)

/-- `unescapeQuoted`. -/
def unescapeQuoted (s : Bytes) : Option Bytes :=
  if s.length < 2 ∨ s.head? ≠ some quote ∨ s.getLast? ≠ some quote then none
  else unescape s.tail.dropLast

/-- `parseRowSeg`. -/
def parseRowSeg (s : Bytes) : Except PathErr Segment :=
  if s.head? = some quote then
    if 2 + 2 * operateMaxKeyLen < s.length then
      .error (.quotedKeyRawTooLong (s.length - 2) s)
    else
      match unescapeQuoted s with
      | none => .error (.malformedQuotedKey s)
      | some key =>
        if operateMaxKeyLen < key.length then
          .error (.quotedKeyTooLong key.length s)
        else .ok ⟨.row, [], 0, false, key, s, true⟩
  else if s.head? = some hash then .error (.positionAsRowKey s)
  else if !isAllDigits s then .error (.rowKeyForm s)
  else if maxRowKeyDigits < s.length then .error (.rowKeyTooLong s)
  else if parseUint s 64 = none then .error (.rowKeyRange s)
  else .ok ⟨.row, [], 0, false, [], s, false⟩

/-- The segments behind the first. -/
def parseMore : List Bytes → Except PathErr (List Segment)
  | [] => .ok []
  | row :: cols => do
    let r ← parseRowSeg row
    let cs ← cols.mapM parseColSeg
    .ok (r :: cs)

/-- `ParsePath`. -/
def parsePath (s : Bytes) : Except PathErr Path :=
  if s = [] then .error .emptyPath
  else if maxPathBytes < s.length then .error (.pathTooLong s.length)
  else
    match s.splitOn slash with
    | [] => .error (.emptySegment s)
    | part :: parts =>
      if 2 < parts.length then .error (.tooManySegments s)
      else if (part :: parts).any List.isEmpty then .error (.emptySegment s)
      else do
        let fieldSeg ← parseFieldSeg part parts.isEmpty
        let more ← parseMore parts
        .ok ⟨fieldSeg :: more⟩

end Rostam.Record
