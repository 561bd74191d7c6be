/-
The path grammar of the record package (sdk/record/doc.go), as relations
between a text and the segments it denotes.

The relations are read off the documentation, not off the parser: names,
canonical positions, decimal and quoted row keys, the `#count` form, and
the one to three segments of a path. What stands between the quotes of a
row key is only bound by its escapes and its length.
-/
import Rostam.Record.Path

namespace Rostam.Record

open Rostam.Lib Rostam.Wire

/-- Decimal digits, at least one. -/
def IsDigits (d : Bytes) : Prop := d ≠ [] ∧ ∀ c ∈ d, 48 ≤ c ∧ c ≤ 57

/-- A name: 1 to 255 bytes without a slash, a hash or a quote. -/
structure IsName (s : Bytes) : Prop where
  pos : 1 ≤ s.length
  le : s.length ≤ 255
  free : ∀ c ∈ s, c ≠ slash ∧ c ≠ hash ∧ c ≠ quote

/-- The digits of a position: at most five, no leading zero but that of
"0" itself, and not above 65535. -/
structure IsPosition (d : Bytes) : Prop where
  digits : IsDigits d
  short : d.length ≤ 5
  canonical : d.head? = some 48 → d.length = 1
  le : decimal d ≤ 65535

/-- A field or a column: a name, or "#N". -/
inductive NameOrPos (kind : SegKind) : Bytes → Segment → Prop where
  | name {s : Bytes} : IsName s → NameOrPos kind s (.named kind s)
  | pos {d : Bytes} : IsPosition d →
      NameOrPos kind (hash :: d) (.at kind (decimal d))

/-- What the text between two quotes denotes. -/
inductive Quoted : Bytes → Bytes → Prop where
  | nil : Quoted [] []
  | plain {c : UInt8} {t k : Bytes} : c ≠ quote → c ≠ backslash →
      Quoted t k → Quoted (c :: t) (c :: k)
  | escape {c : UInt8} {t k : Bytes} : c = quote ∨ c = backslash →
      Quoted t k → Quoted (backslash :: c :: t) (c :: k)

/-- A row key: at most 20 digits of a `uint64`, or a quoted string of at
most 255 bytes. -/
inductive RowKey : Bytes → Segment → Prop where
  | decimal {d : Bytes} : IsDigits d → d.length ≤ 20 →
      decimal d < 2 ^ 64 → RowKey d ⟨.row, [], 0, false, [], d, false⟩
  | quoted {t k : Bytes} : Quoted t k → k.length ≤ 255 →
      RowKey (quote :: (t ++ [quote]))
        ⟨.row, [], 0, false, k, quote :: (t ++ [quote]), true⟩

/-- A path, and the segments it denotes. -/
inductive Derives : Bytes → Path → Prop where
  | field {s : Bytes} {f : Segment} : NameOrPos .field s f →
      Derives s ⟨[f]⟩
  | count {s : Bytes} {f : Segment} : NameOrPos .count s f →
      Derives (s ++ countSuffix) ⟨[f]⟩
  | row {s r : Bytes} {f k : Segment} : NameOrPos .field s f →
      RowKey r k → Derives (s ++ slash :: r) ⟨[f, k]⟩
  | col {s r c : Bytes} {f k g : Segment} : NameOrPos .field s f →
      RowKey r k → NameOrPos .col c g →
      Derives (s ++ slash :: (r ++ slash :: c)) ⟨[f, k, g]⟩

end Rostam.Record
