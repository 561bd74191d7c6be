/-
Proven absence is absence, and a row that was found is there, on any
bytes.

What the bytes hold is said without the lookups: the rows of a table are
scanned in the order they are framed, up to the declared count or the
first row that cannot be read, and no order is assumed. A schema table
frames rows of one width; a dynamic one frames each by its length. A row
segment names one key at a table, or none.

Where a field begins is found as the code finds it, by skipping what is
before it. What is skipped as a cell is what the codec decodes as one
(`schemaFieldOffset_walks`, `skipDynamicValue_decodes`).

The searches rest on the order of the rows. Neither direction does: the
search compares the row it ends at once more, and the proof walk compares
every row.
-/
import Rostam.Record.Proofs.Cache
import Rostam.Wire.Proofs.Layout

namespace Rostam.Record

open Rostam.Lib Rostam.Wire

-- ======== framed tables

/-- The keys of a table's framed rows. Schema tables have keys of one
width. -/
structure FramedTable where
  keyWidth : Option Nat
  keys : List Bytes
  deriving DecidableEq, Repr

/-- The key a row segment names at a table, if any: the bytes of a quoted
one, the little-endian encoding of a decimal one. -/
def FramedTable.rowKey (t : FramedTable) (row : Segment) : Option Bytes :=
  if row.keyQuoted then
    if t.keyWidth.all fun w => row.key.length = w then some row.key else none
  else
    (parseUint row.keyText 64).bind fun v =>
      if v < 256 ^ t.keyWidth.getD 8 then
        some (leEncode (t.keyWidth.getD 8) v)
      else none

/-- The rows of a schema table: `b` starts at its row count. -/
def framedSchemaRows (tl : TableLayout) (b : Bytes) : Option FramedTable :=
  match schemaTableHeader (some tl) b with
  | .error _ => none
  | .ok (nRows, rows) =>
    some ⟨some tl.keyWidth, (List.range nRows).map (schemaRowKey tl rows)⟩

/-- The fields of a schema record a segment names: at most one, and its
rows if it is a table that can be reached. -/
def schemaFields (e : SchemaEntry) (rec : Bytes) (seg : Segment) :
    List (Option FramedTable) :=
  match schemaFieldPos e.schema seg with
  | .ok (some pos) =>
    match Layout.table e.layout pos, valuesOf e rec with
    | some tl, .ok values =>
      match schemaFieldOffset e.schema e.layout pos values with
      | .ok b => [framedSchemaRows tl b]
      | .error _ => [none]
    | _, _ => [none]
  | _ => []

/-- The keys of the framed rows of a dynamic table. -/
def framedRows : Nat → Bytes → List Bytes
  | 0, _ => []
  | k + 1, b =>
    match readRow b with
    | .error _ => []
    | .ok ((key, _), b) => key :: framedRows k b

/-- A dynamic table: `b` starts at its length. -/
def framedDynamic (b : Bytes) : Option FramedTable :=
  match dynamicTableInner b with
  | .error _ => none
  | .ok (inner, _) =>
    match dynamicTableRows inner with
    | .error _ => none
    | .ok (nRows, rows) => some ⟨none, framedRows nRows rows⟩

/-- The framed fields of a dynamic record: name, type and where the value
starts. -/
def framedFields : Nat → Bytes → List (Bytes × CellType × Bytes)
  | 0, _ => []
  | k + 1, b =>
    match readName b with
    | .error _ => []
    | .ok (name, b) =>
      match readTypeTag b with
      | .error _ => []
      | .ok ((t, n), b) =>
        (name, t, b) :: match skipDynamicValue t n b with
          | .error _ => []
          | .ok b => framedFields k b

/-- The fields of that name among the framed ones. -/
def namedAmong (seg : Segment) (fields : List (Bytes × CellType × Bytes)) :
    List (Option FramedTable) :=
  (fields.filter fun x => x.1 = seg.name).map fun x =>
    if x.2.1 = .table then framedDynamic x.2.2 else none

/-- The fields of a dynamic record that carry a name. -/
def dynamicFields (body : Bytes) (seg : Segment) : List (Option FramedTable) :=
  match readFieldCount body with
  | .error _ => []
  | .ok (nFields, b) => namedAmong seg (framedFields nFields b)

/-- The fields of a record that a segment names, scanned over the bytes:
`some` for a table whose rows can be scanned. -/
def fieldsNamed (rec : Bytes) (seg : Segment) : List (Option FramedTable) :=
  match rec with
  | [] => []
  | mode :: body =>
    if mode = operateModeSchema then
      match decodeEntry body with
      | .error _ => []
      | .ok e => schemaFields e rec seg
    else if mode = operateModeDynamic then
      if seg.byPos then [] else dynamicFields body seg
    else []

-- ======== the walk and the codec

section Walk

variable {t : CellType} {n : UInt8} {b rest : Bytes}

theorem readCanonicalUvarint_ok {v : Nat} :
    readCanonicalUvarint b = .ok (v, rest)
      ↔ v < 2 ^ 64 ∧ b = appendUvarint v ++ rest := by
  rw [← uvarint_canonical_iff]
  unfold readCanonicalUvarint
  cases uvarint b with
  | none => simp
  | some x =>
    obtain ⟨v', rest'⟩ := x
    rw [check_ok, not_not, ok_pair, Option.some.injEq, Prod.mk.injEq]
    constructor
    · rintro ⟨h, rfl, rfl⟩
      exact ⟨⟨rfl, rfl⟩, h⟩
    · rintro ⟨⟨rfl, rfl⟩, h⟩
      exact ⟨h, rfl, rfl⟩

/-- A cell of a width of its own is decoded where there are the bytes. -/
theorem cellWidth_decodes {w : Nat} (hw : cellWidth t n = some w)
    (hn : t = .fixed → n ≠ 0) (hlen : w ≤ b.length) :
    ∃ c, decodeCellData t n b = .ok (c, b.drop w) := by
  have hread : ∀ w, w ≤ b.length →
      readBytes WireErr.shortArgs w b = .ok (b.take w, b.drop w) :=
    fun w h => if_neg (Nat.not_lt.mpr h)
  cases t with
  | uvarint | ivarint | bytes | table => cases hw
  | unknown _ _ => cases hw
  | unset =>
    cases hw
    exact ⟨_, rfl⟩
  | fixed =>
    cases hw
    rw [decodeCellData, if_neg (hn rfl), hread _ hlen]
    exact ⟨_, rfl⟩
  | _ =>
    cases hw
    simp only [decodeCellData, decodeUint, decodeInt, hread _ hlen]
    exact ⟨_, rfl⟩

/-- What the walk skips as a cell is what the codec decodes as one. -/
theorem cellDataLen_decodes {ln : Nat} (h : cellDataLen t n b = .ok ln) :
    ∃ c, decodeCellData t n b = .ok (c, b.drop ln) := by
  have hwide : ∀ w, cellWidth t n = some (w + 1) →
      (if b.length < w + 1 then .error (.record (.insideCell (w + 1)))
        else .ok (w + 1) : Except Err Nat) = .ok ln →
      ∃ c, decodeCellData t n b = .ok (c, b.drop ln) := by
    intro w hw h
    obtain ⟨hlen, h⟩ := check_ok.mp h
    cases h
    refine cellWidth_decodes hw ?_ (Nat.le_of_not_lt hlen)
    rintro rfl rfl
    cases hw
  cases t with
  | unset =>
    cases h
    exact ⟨_, rfl⟩
  | uvarint | ivarint =>
    obtain ⟨⟨v, rest⟩, hv, h⟩ := bind_ok.mp h
    obtain ⟨hlt, rfl⟩ := readCanonicalUvarint_ok.mp hv
    cases h
    rw [List.length_append, Nat.add_sub_cancel, List.drop_left,
      decodeCellData, decodeUvarint_ok.mpr (uvarint_append hlt rest)]
    exact ⟨_, rfl⟩
  | bytes =>
    obtain ⟨⟨v, rest⟩, hv, h⟩ := bind_ok.mp h
    obtain ⟨hlt, rfl⟩ := readCanonicalUvarint_ok.mp hv
    obtain ⟨hmax, h⟩ := check_ok.mp h
    obtain ⟨hfits, h⟩ := check_ok.mp h
    cases h
    rw [Bool.not_eq_true, Bool.not_eq_false', countFits_one] at hfits
    rw [List.length_append, Nat.add_sub_cancel, List.drop_length_add_append,
      decodeCellData, decodeUvarint_ok.mpr (uvarint_append hlt rest)]
    change ∃ c, (if operateMaxBytesLen < v then _ else _) = _
    rw [if_neg hmax, readBytes, if_neg (Nat.not_lt.mpr hfits)]
    exact ⟨_, rfl⟩
  | table => cases h
  | unknown _ _ => cases h
  | fixed =>
    cases hw : n.toNat with
    | zero => simp [cellDataLen, cellWidth, hw] at h
    | succ w =>
      have hsome : cellWidth .fixed n = some (w + 1) := congrArg some hw
      simp only [cellDataLen, hsome] at h
      exact hwide w hsome h
  | _ => exact hwide _ rfl h

/-- A dynamic value the walk skips is a cell the codec decodes, if it is no
table. -/
theorem skipDynamicValue_decodes (ht : t ≠ .table)
    (h : skipDynamicValue t n b = .ok rest) :
    ∃ c, decodeCellData t n b = .ok (c, rest) := by
  rw [skipDynamicValue, if_neg ht] at h
  obtain ⟨ln, hln, h⟩ := bind_ok.mp h
  cases h
  exact cellDataLen_decodes hln

variable {s : Schema} {l : Layout}

/-- So is a field of the tail. -/
theorem skipTail_decodes {i : Nat} {f : FieldDef}
    (hf : s.fields[i]? = some f) (ht : f.type ≠ .table)
    (h : skipTail s l i b = .ok rest) :
    ∃ c, decodeCellData f.type f.n b = .ok (c, rest) := by
  simp only [skipTail, hf, if_neg ht] at h
  obtain ⟨ln, hln, h⟩ := bind_ok.mp h
  cases h
  exact cellDataLen_decodes hln

/-- The cells of the fixed fields, decoded one after the other. -/
def decodeFixed (fs : List FieldDef) (b : Bytes) : Except WireErr Bytes :=
  (fs.filter fun f => (cellWidth f.type f.n).isSome).foldlM
    (fun b f => (decodeCellData f.type f.n b).map Prod.snd) b

/-- They fill the fixed area. -/
theorem layoutFrom_decodes {fs : List FieldDef} {values : Bytes} :
    ∀ {i off : Nat} {l : Layout}, layoutFrom i off fs = .ok l →
      l.fixedLen ≤ values.length →
      off ≤ l.fixedLen
        ∧ decodeFixed fs (values.drop off) = .ok (values.drop l.fixedLen) := by
  induction fs with
  | nil =>
    intro i off l h _
    cases h
    exact ⟨le_rfl, rfl⟩
  | cons f fs ih =>
    intro i off l h hlen
    have hfixed : f.type = .fixed → f.n ≠ 0 := by
      rw [layoutFrom] at h
      intro ht hn
      exact (check_ok.mp h).1 ⟨ht, by rw [hn]; decide⟩
    rcases layoutFrom_cons h with ⟨w, l', hw, hl', rfl⟩
      | ⟨l', tl, hw, hl', -, -, rfl⟩
    · obtain ⟨hoff, hrest⟩ := ih hl' hlen
      have hlen' : off + w ≤ values.length := hoff.trans hlen
      obtain ⟨c, hc⟩ := cellWidth_decodes (b := values.drop off) hw hfixed
        (by rw [List.length_drop]; omega)
      refine ⟨(Nat.le_add_right off w).trans hoff, ?_⟩
      rw [decodeFixed, List.filter_cons_of_pos (by rw [hw]; rfl),
        List.foldlM_cons, hc, List.drop_drop]
      exact hrest
    · obtain ⟨hoff, hrest⟩ := ih hl' hlen
      refine ⟨hoff, ?_⟩
      rw [decodeFixed, List.filter_cons_of_neg (by rw [hw]; decide)]
      exact hrest

/-- The walk stops at the field, behind the fields before it. -/
theorem tailOffset_walks {target : Nat} {is : List Nat} :
    ∀ {b : Bytes}, tailOffset s l target is b = .ok rest →
      ∃ pre post, is = pre ++ target :: post
        ∧ pre.foldlM (fun b i => skipTail s l i b) b = .ok rest := by
  induction is with
  | nil =>
    intro b h
    cases h
  | cons i is ih =>
    intro b h
    rw [tailOffset] at h
    split at h
    · next hi =>
      cases h
      exact ⟨[], is, by rw [hi]; rfl, rfl⟩
    · obtain ⟨b', hskip, h⟩ := bind_ok.mp h
      obtain ⟨pre, post, rfl, hpre⟩ := ih h
      refine ⟨i :: pre, post, rfl, ?_⟩
      rw [List.foldlM_cons, hskip]
      exact hpre

/-- A table of a schema record begins behind the cells of the fixed fields
and the fields of the tail before it. -/
theorem schemaFieldOffset_walks {pos : Nat} {f : FieldDef} {values : Bytes}
    (hl : s.layout = .ok l) (hf : s.fields[pos]? = some f)
    (ht : f.type = .table)
    (h : schemaFieldOffset s l pos values = .ok b) :
    ∃ tail pre post, decodeFixed s.fields values = .ok tail
      ∧ l.varTail = pre ++ pos :: post
      ∧ pre.foldlM (fun b i => skipTail s l i b) tail = .ok b := by
  have hoff := (layout_at hl hf).tail (by rw [ht]; rfl)
  rw [schemaFieldOffset, hoff] at h
  obtain ⟨hlen, h⟩ := check_ok.mp h
  obtain ⟨pre, post, hvar, hpre⟩ := tailOffset_walks h
  exact ⟨_, pre, post,
    (layoutFrom_decodes hl (Nat.le_of_not_lt hlen)).2, hvar, hpre⟩

end Walk

-- ======== keys

variable {b rest : Bytes}

variable {k : Bytes} {v : Nat} {keyType : CellType}

theorem compareBytes_eq (a b : Bytes) : compareBytes a b = .eq ↔ a = b := by
  unfold compareBytes
  exact Std.LawfulEqCmp.compare_eq_iff_eq

/-- Up to eight bytes nothing is shifted out. -/
theorem leValueOf_eq (h : k.length ≤ 8) :
    leValueOf k = leDecode k := by
  induction k with
  | nil => rfl
  | cons x k ih =>
    rw [List.length_cons] at h
    have hlt := leDecode_lt (x :: k)
    have hcap : 256 ^ (x :: k).length ≤ 2 ^ 64 := by
      have : (256 : Nat) ^ (x :: k).length ≤ 256 ^ 8 :=
        Nat.pow_le_pow_right (by decide) h
      exact this
    rw [leDecode] at hlt ⊢
    rw [leValueOf, ih (by omega), Nat.mod_eq_of_lt (by omega)]
    omega

theorem leDecode_inj {k k' : Bytes} (hlen : k.length = k'.length)
    (h : leDecode k = leDecode k') : k = k' := by
  rw [← leEncode_leDecode k, ← leEncode_leDecode k', hlen, h]

/-- A number that fits a width is decoded from its encoding only. -/
theorem leDecode_eq_iff (hv : v < 256 ^ k.length) :
    leDecode k = v ↔ k = leEncode k.length v := by
  constructor
  · intro h
    rw [← h, leEncode_leDecode]
  · intro h
    rw [h, leDecode_leEncode]
    exact Nat.mod_eq_of_lt hv

/-- Byte by byte, a FIXED key is compared with the encoding. -/
theorem compareFixedValue_eq (hv : v < 2 ^ 64) (k : Bytes) :
    ∀ i, compareFixedValue v i k = .eq
      ↔ k = leEncode k.length (v / 256 ^ i) := by
  induction k with
  | nil => exact fun i => ⟨fun _ => rfl, fun _ => rfl⟩
  | cons x k ih =>
    intro i
    have hbyte : leByte v i = UInt8.ofNat (v / 256 ^ i % 256) := by
      unfold leByte
      split
      · next hi =>
        have : v / 256 ^ i = 0 := by
          refine Nat.div_eq_of_lt (Nat.lt_of_lt_of_le hv ?_)
          have : (256 : Nat) ^ 8 ≤ 256 ^ i :=
            Nat.pow_le_pow_right (by decide) hi
          exact this
        rw [this]
        rfl
      · exact (UInt8.ofNat_mod_size ..).symm
    rw [compareFixedValue, Ordering.then_eq_eq, ih,
      Std.LawfulEqCmp.compare_eq_iff_eq, hbyte, List.length_cons, leEncode,
      List.cons.injEq, Nat.div_div_eq_div_mul, Nat.pow_succ]

theorem parseUint_lt {s : Bytes} {n v : Nat} (h : parseUint s n = some v) :
    v < 2 ^ n := by
  unfold parseUint at h
  split at h
  · next hd =>
    injection h with h
    rw [Bool.and_eq_true, decide_eq_true_eq] at hd
    exact h ▸ hd.2
  · cases h

/-- The key widths a layout can have for a key type. -/
def KeyWidth (keyType : CellType) (kw : Nat) : Prop :=
  keyType = .fixed ∨ kw ≤ 8

theorem compareStoredKeyBytes_eq {k target : Bytes}
    (hw : KeyWidth keyType k.length) (hlen : target.length = k.length) :
    compareStoredKeyBytes keyType k target = .eq ↔ k = target := by
  unfold compareStoredKeyBytes
  split
  · exact compareBytes_eq _ _
  · next hf =>
    have h8 := hw.resolve_left hf
    rw [leValueOf_eq h8, leValueOf_eq (hlen ▸ h8),
      Std.LawfulEqCmp.compare_eq_iff_eq]
    exact ⟨leDecode_inj hlen.symm, fun h => by rw [h]⟩

theorem compareStoredKeyValue_eq 
    (hw : KeyWidth keyType k.length) (hv : v < 2 ^ 64)
    (hlt : v < 256 ^ k.length) :
    compareStoredKeyValue keyType k v = .eq ↔ k = leEncode k.length v := by
  unfold compareStoredKeyValue
  split
  · rw [compareFixedValue_eq hv, Nat.pow_zero, Nat.div_one]
  · next hf =>
    rw [leValueOf_eq (hw.resolve_left hf),
      Std.LawfulEqCmp.compare_eq_iff_eq, leDecode_eq_iff hlt]

/-- What the source checks of a decimal key is that it fits the width. -/
theorem fits_width {kw v : Nat} (hv : v < 2 ^ 64) :
    ¬ (kw < 8 ∧ 2 ^ (8 * kw) ≤ v) ↔ v < 256 ^ kw := by
  have hpow : (2 : Nat) ^ (8 * kw) = 256 ^ kw := by
    rw [Nat.pow_mul]
  rw [hpow]
  constructor
  · intro h
    by_cases hk : kw < 8
    · exact Nat.lt_of_not_le fun hle => h ⟨hk, hle⟩
    · refine Nat.lt_of_lt_of_le hv ?_
      have : (256 : Nat) ^ 8 ≤ 256 ^ kw :=
        Nat.pow_le_pow_right (by decide) (Nat.le_of_not_lt hk)
      exact this
  · rintro h ⟨-, hle⟩
    exact absurd h (Nat.not_lt.mpr hle)

/-- A segment with no target names no key. -/
theorem rowKey_none {kw : Nat} {row : Segment} {keys : List Bytes}
    (ht : schemaRowTarget row kw = none) :
    FramedTable.rowKey ⟨some kw, keys⟩ row = none := by
  unfold schemaRowTarget at ht
  unfold FramedTable.rowKey
  split at ht
  · next hq =>
    rw [if_pos hq]
    split at ht
    · next hlen =>
      exact if_neg fun hall => hlen (of_decide_eq_true hall)
    · cases ht
  · next hq =>
    rw [if_neg hq]
    cases hp : parseUint row.keyText 64 with
    | none => rfl
    | some v =>
      rw [hp] at ht
      dsimp only at ht
      split at ht
      · next hfit =>
        have hlt := mt (fits_width (parseUint_lt hp)).mpr (not_not.mpr hfit)
        exact if_neg hlt
      · cases ht

/-- A stored key equals the target if and only if it is the key the
segment names. -/
theorem compareTarget_eq {kw : Nat} {row : Segment}
    {t : RowTarget} {keys : List Bytes}
    (hw : KeyWidth keyType kw) (ht : schemaRowTarget row kw = some t)
    (hk : k.length = kw) :
    compareTarget keyType k t = .eq
      ↔ FramedTable.rowKey ⟨some kw, keys⟩ row = some k := by
  unfold schemaRowTarget at ht
  unfold FramedTable.rowKey
  subst hk
  split at ht
  · next hq =>
    rw [if_pos hq]
    split at ht
    · cases ht
    · next hlen =>
      have hlen := not_not.mp hlen
      cases ht
      have hall : ((some k.length).all fun w => row.key.length = w)
          = true := decide_eq_true hlen
      rw [if_pos hall, Option.some.injEq]
      exact (compareStoredKeyBytes_eq hw hlen).trans eq_comm
  · next hq =>
    rw [if_neg hq]
    cases hp : parseUint row.keyText 64 with
    | none =>
      rw [hp] at ht
      cases ht
    | some v =>
      rw [hp] at ht
      have hv := parseUint_lt hp
      dsimp only at ht
      obtain ⟨hfit, ht⟩ := Option.ite_none_left_eq_some.mp ht
      cases ht
      have hlt := (fits_width hv).mp hfit
      have hkey : ((some v).bind fun v =>
          if v < 256 ^ (some k.length).getD 8 then
            some (leEncode ((some k.length).getD 8) v)
          else none) = some (leEncode k.length v) := if_pos hlt
      rw [hkey, Option.some.injEq]
      exact (compareStoredKeyValue_eq hw hv hlt).trans eq_comm

-- ======== schema rows

variable {e : SchemaEntry} {rec values : Bytes} {seg row : Segment}

variable {tl : TableLayout} {rows : Bytes} {t : CellType} {p : Path}

theorem schemaTableHeader_ok {nRows : Nat}
    (h : schemaTableHeader (some tl) b = .ok (nRows, rows)) :
    readCanonicalUvarint b = .ok (nRows, rows) ∧ nRows ≤ operateMaxRows
      ∧ nRows * tl.rowWidth ≤ rows.length := by
  simp only [schemaTableHeader, check_ok, bind_ok, Prod.exists, ok_pair,
    Nat.not_lt] at h
  obtain ⟨-, _, _, hn, hmax, hfit, rfl, rfl⟩ := h
  simp only [countFitsIn, Bool.not_eq_true, Bool.not_eq_false',
    Bool.and_eq_true, decide_eq_true_eq] at hfit
  exact ⟨hn, hmax, (Nat.le_div_iff_mul_le hfit.1).mp hfit.2⟩

/-- The key of a framed row has the table's key width. -/
theorem schemaRowKey_length {nRows i : Nat}
    (hle : tl.keyWidth ≤ tl.rowWidth)
    (hfit : nRows * tl.rowWidth ≤ rows.length) (hi : i < nRows) :
    (schemaRowKey tl rows i).length = tl.keyWidth := by
  have hrow : (i + 1) * tl.rowWidth ≤ nRows * tl.rowWidth :=
    Nat.mul_le_mul_right _ hi
  rw [Nat.succ_mul] at hrow
  unfold schemaRowKey
  rw [List.length_take, List.length_drop]
  omega

/-- What the layout holds for a table field. -/
theorem layout_table {l : Layout} {j : Nat} {f : FieldDef} (h : l.At j f)
    (ht : f.type = .table) :
    ∃ td tl, f.table = some td ∧ layoutTable td = .ok tl
      ∧ Layout.table l j = some tl := by
  obtain ⟨td, tl, htd, htl, hl⟩ := h.table ht
  refine ⟨td, tl, htd, htl, ?_⟩
  unfold Layout.table
  rw [hl]
  rfl

theorem keyWidth_of_layout {td : TableDef}
    (h : layoutTable td = .ok tl) : KeyWidth td.keyType tl.keyWidth := by
  obtain ⟨hw, -⟩ := layoutTable_ok h
  by_cases hf : td.keyType = .fixed
  · exact .inl hf
  · exact .inr (cellWidth_le hf hw)

/-- The proof walk compares every row. -/
theorem proveSchemaRows_ok {keyType : CellType}
    {t : RowTarget} (k : Nat) : ∀ (i : Nat)
    (prev : Option Bytes),
    proveSchemaRows tl keyType rows t k i prev = .ok () →
      ∀ j, i ≤ j → j < i + k →
        compareTarget keyType (schemaRowKey tl rows j) t ≠ .eq := by
  induction k with
  | zero =>
    intro i prev _ j hj hj'
    omega
  | succ k ih =>
    intro i prev h j hj hj'
    rw [proveSchemaRows] at h
    obtain ⟨-, h₁⟩ := check_ok.mp h
    obtain ⟨hne, h₂⟩ := check_ok.mp h₁
    rcases Nat.eq_or_lt_of_le hj with rfl | hlt
    · exact hne
    · exact ih (i + 1) _ h₂ j hlt (by omega)

/-- A row the search ends at has the key it looked for. -/
theorem findSchemaRow_some {keyType : CellType} {nRows idx : Nat}
    (h : findSchemaRow tl keyType nRows rows row = some idx) :
    idx < nRows ∧ ∃ t, schemaRowTarget row tl.keyWidth = some t
      ∧ compareTarget keyType (schemaRowKey tl rows idx) t = .eq := by
  unfold findSchemaRow at h
  cases ht : schemaRowTarget row tl.keyWidth with
  | none =>
    rw [ht] at h
    cases h
  | some t =>
    rw [ht] at h
    dsimp only at h
    split at h
    · cases h
    · next hlt =>
      split at h
      · cases h
      · next heq =>
        cases h
        exact ⟨Nat.lt_of_not_le hlt, t, rfl, not_not.mp heq⟩

/-- The rows of the table a segment names, where a walk reached them. -/
theorem schemaFields_eq {pos nRows : Nat} 
    (hv : valuesOf e rec = .ok values)
    (hp : schemaFieldPos e.schema seg = .ok (some pos))
    (htl : Layout.table e.layout pos = some tl)
    (hb : schemaFieldOffset e.schema e.layout pos values = .ok b)
    (hh : schemaTableHeader (some tl) b = .ok (nRows, rows)) :
    schemaFields e rec seg = [some ⟨some tl.keyWidth,
      (List.range nRows).map (schemaRowKey tl rows)⟩] := by
  simp only [schemaFields, framedSchemaRows, hp, htl, hv, hb, hh]

/-- A row of the table is the one a segment names if and only if the key
comparison says so. -/
theorem compareRow_eq {td : TableDef} {nRows i : Nat} {t : RowTarget}
    {keys : List Bytes} (htl : layoutTable td = .ok tl)
    (hh : schemaTableHeader (some tl) b = .ok (nRows, rows)) (hi : i < nRows)
    (ht : schemaRowTarget row tl.keyWidth = some t) :
    compareTarget td.keyType (schemaRowKey tl rows i) t = .eq
      ↔ FramedTable.rowKey ⟨some tl.keyWidth, keys⟩ row
        = some (schemaRowKey tl rows i) := by
  obtain ⟨-, -, hfit⟩ := schemaTableHeader_ok hh
  obtain ⟨-, -, hle, -⟩ := layoutTable_ok htl
  exact compareTarget_eq (keyWidth_of_layout htl) ht
    (schemaRowKey_length hle hfit hi)

theorem schema_absent (hl : e.schema.layout = .ok e.layout)
    (h : proveSchemaRowAbsent e rec seg row = .ok ()) :
    ∃ t, schemaFields e rec seg = [some t]
      ∧ ∀ key ∈ t.keys, t.rowKey row ≠ some key := by
  simp only [proveSchemaRowAbsent, bind_ok] at h
  obtain ⟨values, hv, opos, hp, h⟩ := h
  split at h
  · cases h
  split at h
  · cases h
  next f hf =>
  obtain ⟨ht, h⟩ := check_ok.mp h
  obtain ⟨td, tl, htd, htl, hlt⟩ :=
    layout_table (layout_at hl hf) (not_not.mp ht)
  rw [htd, hlt] at h
  simp only [bind_ok, Prod.exists] at h
  obtain ⟨b, hb, nRows, rows, hh, h⟩ := h
  refine ⟨_, schemaFields_eq hv hp hlt hb hh, fun key hkey => ?_⟩
  obtain ⟨i, hi, rfl⟩ := List.mem_map.mp hkey
  have hi := List.mem_range.mp hi
  cases htgt : schemaRowTarget row tl.keyWidth with
  | none =>
    rw [rowKey_none htgt]
    exact fun hne => (by cases hne)
  | some t =>
    rw [htgt] at h
    have hne := proveSchemaRows_ok nRows 0 none h i (Nat.zero_le _) (by omega)
    exact mt (compareRow_eq htl hh hi htgt).mpr hne

theorem schema_present (hl : e.schema.layout = .ok e.layout)
    (hk : seg.kind = .field)
    (h : resolveSchema e rec seg [row] = .ok .rowPresent) :
    ∃ t, schemaFields e rec seg = [some t]
      ∧ ∃ key ∈ t.keys, t.rowKey row = some key := by
  simp only [resolveSchema, bind_ok] at h
  obtain ⟨values, hv, opos, hp, h⟩ := h
  split at h
  · cases h
  split at h
  · cases h
  next f hf =>
  rw [resolveSchemaField, if_neg (by rw [hk]; decide)] at h
  obtain ⟨ht, h⟩ := check_ok.mp h
  obtain ⟨td, tl, htd, htl, hlt⟩ :=
    layout_table (layout_at hl hf) (not_not.mp ht)
  rw [htd, hlt] at h
  simp only [bind_ok, resolveSchemaRow, Prod.exists] at h
  obtain ⟨b, hb, nRows, rows, hh, h⟩ := h
  refine ⟨_, schemaFields_eq hv hp hlt hb hh, ?_⟩
  cases hfind : findSchemaRow tl td.keyType nRows rows row with
  | none =>
    rw [hfind] at h
    cases h
  | some idx =>
    obtain ⟨hidx, t, htgt, heq⟩ := findSchemaRow_some hfind
    exact ⟨schemaRowKey tl rows idx, List.mem_map_of_mem
      (List.mem_range.mpr hidx), (compareRow_eq htl hh hidx htgt).mp heq⟩

-- ======== dynamic rows

/-- The proof walk reads every row, so all of them are framed. -/
theorem proveDynamicRows_ok {target : Bytes} (k : Nat) :
    ∀ (prev : Option Bytes) (b : Bytes),
      proveDynamicRows target k prev b = .ok () →
        ∀ key ∈ framedRows k b, key ≠ target := by
  induction k with
  | zero => exact fun _ _ _ _ hk => (by cases hk)
  | succ k ih =>
    intro prev b h key hkey
    simp only [proveDynamicRows, bind_ok, Prod.exists, check_ok] at h
    obtain ⟨_, _, _, hr, -, hne, h⟩ := h
    rw [framedRows, hr] at hkey
    rcases List.mem_cons.mp hkey with rfl | hkey
    · exact hne
    · exact ih _ _ h key hkey

/-- A row the lookup found is framed. -/
theorem findDynamicRow_present {target : Bytes} (k : Nat) :
    ∀ (prev : Option Bytes) (b : Bytes),
      findDynamicRow target [] k prev b = .ok .rowPresent →
        target ∈ framedRows k b := by
  induction k with
  | zero => exact fun _ _ h => (by cases h)
  | succ k ih =>
    intro prev b h
    simp only [findDynamicRow, bind_ok, Prod.exists, check_ok] at h
    obtain ⟨key, _, _, hr, -, h⟩ := h
    rw [framedRows, hr]
    split at h
    · cases h
    · next hc =>
      rw [(compareBytes_eq _ _).mp hc]
      exact List.mem_cons_self
    · exact List.mem_cons_of_mem _ (ih _ _ h)

-- ======== dynamic fields

/-- The key a segment names in a dynamic table. -/
theorem dynamicRowTarget_eq (row : Segment) (keys : List Bytes) :
    dynamicRowTarget row = FramedTable.rowKey ⟨none, keys⟩ row := by
  unfold dynamicRowTarget FramedTable.rowKey
  split
  · rfl
  · cases hp : parseUint row.keyText 64 with
    | none => rfl
    | some v => exact (if_pos (parseUint_lt hp)).symm

/-- The field is a table without the row. -/
def Lacks (row : Segment) (x : Option FramedTable) : Prop :=
  ∃ t, x = some t ∧ ∀ key ∈ t.keys, t.rowKey row ≠ some key

/-- The field is a table with the row. -/
def Holds (row : Segment) (x : Option FramedTable) : Prop :=
  ∃ t, x = some t ∧ ∃ key ∈ t.keys, t.rowKey row = some key

theorem framedDynamic_eq {inner rest rows : Bytes} {nRows : Nat}
    (hi : dynamicTableInner b = .ok (inner, rest))
    (hr : dynamicTableRows inner = .ok (nRows, rows)) :
    framedDynamic b = some ⟨none, framedRows nRows rows⟩ := by
  simp only [framedDynamic, hi, hr]

theorem dynamicTable_absent {inner rest : Bytes}
    (hi : dynamicTableInner b = .ok (inner, rest))
    (h : proveDynamicTableRowAbsent inner row = .ok ()) :
    Lacks row (framedDynamic b) := by
  simp only [proveDynamicTableRowAbsent, bind_ok, Prod.exists] at h
  obtain ⟨nRows, rows, hr, h₁⟩ := h
  refine ⟨_, framedDynamic_eq hi hr, ?_⟩
  intro key hkey
  rw [← dynamicRowTarget_eq]
  cases ht : dynamicRowTarget row with
  | none => exact fun hne => (by cases hne)
  | some target =>
    rw [ht] at h₁
    intro heq
    injection heq with heq
    exact proveDynamicRows_ok nRows none rows h₁ key hkey heq.symm

theorem namedAmong_cons (seg : Segment) (x : Bytes × CellType × Bytes)
    (fields : List (Bytes × CellType × Bytes)) :
    namedAmong seg (x :: fields) = (if x.1 = seg.name then
          [if x.2.1 = .table then framedDynamic x.2.2 else none] else [])
        ++ namedAmong seg fields := by
  unfold namedAmong
  rw [List.filter_cons]
  by_cases h : x.1 = seg.name
  · rw [if_pos (decide_eq_true h), if_pos h]
    rfl
  · rw [if_neg (fun hd => h (of_decide_eq_true hd)), if_neg h]
    rfl

/-- One framed field, and those behind it. -/
theorem framedFields_cons {name b₁ b₂ : Bytes} {n : UInt8}
    {k : Nat} (hn : readName b = .ok (name, b₁))
    (ht : readTypeTag b₁ = .ok ((t, n), b₂)) :
    ∃ more, framedFields (k + 1) b = (name, t, b₂) :: more
      ∧ ∀ b₃, skipDynamicValue t n b₂ = .ok b₃ → more = framedFields k b₃ := by
  rw [framedFields]
  simp only [hn, ht]
  refine ⟨_, rfl, fun b₃ hs => ?_⟩
  rw [hs]

theorem proveDynamicField_ok {name : Bytes}
    {proved res : Bool}
    (h : proveDynamicField seg row name t b proved = .ok res) :
    (name = seg.name → res = true
      ∧ Lacks row (if t = .table then framedDynamic b else none))
      ∧ (name ≠ seg.name → res = proved) := by
  unfold proveDynamicField at h
  split at h
  · next hc =>
    have hname := (compareBytes_eq _ _).mp hc
    refine ⟨fun _ => ?_, fun hne => absurd hname hne⟩
    simp only [check_ok, bind_ok, Prod.exists, not_not, Except.ok.injEq] at h
    obtain ⟨ht, inner, rest, hi, _, hp, rfl⟩ := h
    rw [if_pos ht]
    exact ⟨rfl, dynamicTable_absent hi hp⟩
  · next hc =>
    have hname : name ≠ seg.name := mt (compareBytes_eq _ _).mpr hc
    injection h with h
    exact ⟨fun heq => absurd heq hname, fun _ => h.symm⟩

/-- The proof walk meets every framed field. -/
theorem proveDynamicFields_ok (k : Nat) :
    ∀ (proved res : Bool)
    (prev : Option Bytes) (b : Bytes),
    proveDynamicFields seg row k proved prev b = .ok res →
      (∀ x ∈ namedAmong seg (framedFields k b), Lacks row x)
        ∧ (res = true → proved = true
          ∨ namedAmong seg (framedFields k b) ≠ []) := by
  induction k with
  | zero =>
    intro proved res prev b h
    injection h with h
    exact ⟨fun _ hx => (by cases hx), fun hr => .inl (h.trans hr)⟩
  | succ k ih =>
    intro proved res prev b h
    simp only [proveDynamicFields, bind_ok, Prod.exists, check_ok] at h
    obtain ⟨name, b₁, hn, -, t, n, b₂, ht, proved', hp, b₃, hs, h₅⟩ := h
    obtain ⟨hnamed, hother⟩ := proveDynamicField_ok hp
    obtain ⟨more, hframed, hmore⟩ := framedFields_cons (k := k) hn ht
    obtain ⟨hall, hres⟩ := ih _ _ _ _ h₅
    rw [hframed, namedAmong_cons, hmore b₃ hs]
    by_cases hname : name = seg.name
    · rw [if_pos hname]
      refine ⟨List.forall_mem_cons.mpr ⟨(hnamed hname).2, hall⟩,
        fun _ => .inr (List.cons_ne_nil _ _)⟩
    · rw [if_neg hname, List.nil_append, ← hother hname]
      exact ⟨hall, hres⟩

/-- A row found in a dynamic table. -/
theorem resolveDynamicField_present {n : UInt8} (hk : seg.kind = .field)
    (h : resolveDynamicField t n b seg [row] = .ok .rowPresent) :
    Holds row (if t = .table then framedDynamic b else none) := by
  rw [resolveDynamicField, if_neg (by rw [hk]; decide)] at h
  simp only [check_ok, not_not, bind_ok, Prod.exists] at h
  obtain ⟨ht, inner, rest, hi, nRows, rows, hr, h₃⟩ := h
  rw [if_pos ht]
  refine ⟨_, framedDynamic_eq hi hr, ?_⟩
  cases htgt : dynamicRowTarget row with
  | none =>
    rw [htgt] at h₃
    cases h₃
  | some target =>
    rw [htgt] at h₃
    exact ⟨target, findDynamicRow_present nRows none rows h₃,
      (dynamicRowTarget_eq row _).symm.trans htgt⟩

/-- A row the field walk found is in a framed field. -/
theorem findDynamicField_present (hk : seg.kind = .field) (k : Nat) :
    ∀ (prev : Option Bytes) (b : Bytes),
      findDynamicField seg [row] k prev b = .ok .rowPresent →
        ∃ x ∈ namedAmong seg (framedFields k b), Holds row x := by
  induction k with
  | zero => exact fun _ _ h => (by cases h)
  | succ k ih =>
    intro prev b h
    simp only [findDynamicField, bind_ok, Prod.exists, check_ok] at h
    obtain ⟨name, b₁, hn, -, h⟩ := h
    split at h
    · cases h
    · simp only [bind_ok, Prod.exists] at h
      obtain ⟨t, n, b₂, ht, h⟩ := h
      obtain ⟨more, hframed, hmore⟩ := framedFields_cons (k := k) hn ht
      rw [hframed, namedAmong_cons]
      split at h
      · next hc =>
        rw [if_pos ((compareBytes_eq _ _).mp hc)]
        exact ⟨_, List.mem_cons_self, resolveDynamicField_present hk h⟩
      · obtain ⟨b₃, hs, h⟩ := bind_ok.mp h
        obtain ⟨x, hx, hholds⟩ := ih _ _ h
        rw [hmore b₃ hs]
        exact ⟨x, List.mem_append_right _ hx, hholds⟩

-- ======== any record

theorem checkPathShape_segs {more : List Segment}
    (h : checkPathShape p = .ok (seg, more)) : p.segs = seg :: more := by
  unfold checkPathShape at h
  split at h
  · cases h
  · next heq =>
    simp only [check_ok, Except.ok.injEq, Prod.mk.injEq] at h
    obtain ⟨-, -, -, -, -, rfl, rfl⟩ := h
    exact heq

theorem fieldRow_segs (h : p.fieldRow = some (seg, row)) :
    p.segs = [seg, row] ∧ seg.kind = .field ∧ row.kind = .row := by
  unfold Path.fieldRow at h
  split at h
  · next heq =>
    split at h
    · next hk =>
      injection h with h
      injection h with h₁ h₂
      subst h₁ h₂
      exact ⟨heq, hk⟩
    · cases h
  · cases h

theorem proveAfresh_ok (h : proveAfresh rec seg row = .ok ()) :
    fieldsNamed rec seg ≠ [] ∧ ∀ x ∈ fieldsNamed rec seg, Lacks row x := by
  unfold proveAfresh at h
  unfold fieldsNamed
  cases rec with
  | nil => cases h
  | cons mode body =>
    dsimp only at h ⊢
    split at h
    · next hm =>
      obtain ⟨e, he, h₁⟩ := bind_ok.mp h
      obtain ⟨key, rest, hof, -⟩ := decodeEntry_ok.mp he
      obtain ⟨t, hfields, hlacks⟩ := schema_absent hof.2.1 h₁
      rw [if_pos hm, he]
      dsimp only
      rw [hfields]
      exact ⟨List.cons_ne_nil _ _, List.forall_mem_cons.mpr
        ⟨⟨t, rfl, hlacks⟩, fun _ hx => (by cases hx)⟩⟩
    · next hm =>
      rw [if_neg hm]
      split at h
      · next hd =>
        rw [if_pos hd]
        simp only [proveDynamicRowAbsent, check_ok, bind_ok, Prod.exists,
          Bool.not_eq_true, Bool.not_eq_false'] at h
        obtain ⟨hpos, nFields, b, hn, proved, hp, hproved, -⟩ := h
        obtain ⟨hall, hsome⟩ := proveDynamicFields_ok _ _ _ _ _ hp
        simp only [hpos, Bool.false_eq_true, if_false, dynamicFields, hn]
        exact ⟨(hsome hproved).resolve_left Bool.false_ne_true, hall⟩
      · cases h

theorem resolveAfresh_present (hp : p.fieldRow = some (seg, row))
    (h : resolveAfresh rec p = .ok .rowPresent) :
    ∃ x ∈ fieldsNamed rec seg, Holds row x := by
  obtain ⟨hsegs, hk, -⟩ := fieldRow_segs hp
  unfold resolveAfresh at h
  obtain ⟨⟨seg', more⟩, hshape, h₁⟩ := bind_ok.mp h
  have hcons := checkPathShape_segs hshape
  rw [hsegs] at hcons
  injection hcons with hseg hmore
  subst hseg hmore
  unfold fieldsNamed
  cases rec with
  | nil => cases h₁
  | cons mode body =>
    dsimp only at h₁ ⊢
    split at h₁
    · next hm =>
      obtain ⟨e, he, h₂⟩ := bind_ok.mp h₁
      obtain ⟨key, rest, hof, -⟩ := decodeEntry_ok.mp he
      obtain ⟨t, hfields, hholds⟩ := schema_present hof.2.1 hk h₂
      rw [if_pos hm, he]
      dsimp only
      rw [hfields]
      exact ⟨some t, List.mem_cons_self, t, rfl, hholds⟩
    · next hm =>
      rw [if_neg hm]
      split at h₁
      · next hd =>
        rw [if_pos hd]
        simp only [resolveDynamic, check_ok, bind_ok, Prod.exists] at h₁
        obtain ⟨hpos, nFields, b, hn, h₂⟩ := h₁
        simp only [if_neg hpos, dynamicFields, hn]
        exact findDynamicField_present hk _ _ _ h₂
      · cases h₁

/-- On any bytes, and with any cache: a row proven absent is in no framed
field of that name, all of which are tables, and there is one; a row that
is reported present is in one. -/
theorem row_absent_sound (r : Resolver) (hr : r.Reachable) (rec : Bytes)
    (p : Path) (seg row : Segment) (hp : p.fieldRow = some (seg, row)) :
    (((rowAbsentProven rec p).from r).1 = .ok true → fieldsNamed rec seg ≠ []
        ∧ ∀ x ∈ fieldsNamed rec seg, ∃ t, x = some t
          ∧ ∀ key ∈ t.keys, t.rowKey row ≠ some key)
      ∧ (((resolve rec p).from r).1 = .ok .rowPresent →
        ∃ x ∈ fieldsNamed rec seg, ∃ t, x = some t
          ∧ ∃ key ∈ t.keys, t.rowKey row = some key) := by
  refine ⟨fun h => ?_, fun h => ?_⟩
  · rw [(rowAbsentProven_answers rec p r hr).1] at h
    unfold rowAbsentAfresh at h
    rw [hp] at h
    obtain ⟨res, -, h₁⟩ := bind_ok.mp h
    split at h₁
    · cases h₁
    · obtain ⟨fres, -, h₂⟩ := bind_ok.mp h₁
      split at h₂
      · cases h₂
      · obtain ⟨_, hprove, -⟩ := bind_ok.mp h₂
        exact proveAfresh_ok hprove
  · rw [(resolve_answers rec p r hr).1] at h
    exact resolveAfresh_present hp h

/-- A dynamic record with one table `t` of one row, keyed "k". -/
def oneRow : Bytes := [2, 1, 1, 116, 14, 8, 0, 0, 0, 1, 3, 1, 107, 0]

/-- A quoted row key. -/
def quotedRow (key : Bytes) : Segment := ⟨.row, [], 0, false, key, [], true⟩

/-- The row of a quoted key in the field `t`. -/
def rowOf (key : Bytes) : Path := ⟨[.named .field [116], quotedRow key]⟩

theorem row_absent_sound_oneRow :
    (((rowAbsentProven oneRow (rowOf [106])).from (.new 1)).1 = .ok true
      ∧ ∀ x ∈ fieldsNamed oneRow (.named .field [116]), ∃ t, x = some t
        ∧ ∀ key ∈ t.keys, t.rowKey (quotedRow [106]) ≠ some key)
      ∧ ((resolve oneRow (rowOf [107])).from (.new 1)).1 = .ok .rowPresent
      ∧ ∃ x ∈ fieldsNamed oneRow (.named .field [116]), ∃ t, x = some t
        ∧ ∃ key ∈ t.keys, t.rowKey (quotedRow [107]) = some key := by
  have habsent : ((rowAbsentProven oneRow (rowOf [106])).from (.new 1)).1
      = .ok true := by decide
  have hpresent : ((resolve oneRow (rowOf [107])).from (.new 1)).1
      = .ok .rowPresent := by decide
  exact ⟨⟨habsent, ((row_absent_sound _ (.new 1) oneRow (rowOf [106]) _ _
      rfl).1 habsent).2⟩,
    hpresent, (row_absent_sound _ (.new 1) oneRow (rowOf [107]) _ _
      rfl).2 hpresent⟩

end Rostam.Record
