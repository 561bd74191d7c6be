/-
A schema blob has one spelling: `DecodeSchema` accepts exactly what
`Encode` writes for the schemas that pass `Validate` and carry nothing
the blob has no room for (`Schema.Normal`).

Each reader gets its exactness lemma, from the tags up. The counts and
the running budget never refuse such a schema: every declaration costs at
least the byte it is charged.
-/
import Rostam.Wire.Schema

namespace Rostam.Wire

open Rostam.Lib

variable {b rest : Bytes}

variable {t : TableDef} {f : FieldDef}

-- ======== tags

/-- Every byte is the code of its cell type. -/
theorem toByte_ofByte (b : UInt8) : (CellType.ofByte b).toByte = b := by
  by_cases h : 16 ≤ b.toNat
  · unfold CellType.ofByte
    rw [dif_pos h]
    rfl
  · have hall : ∀ n, n < 16 →
        (CellType.ofByte (UInt8.ofNat n)).toByte = UInt8.ofNat n := by decide
    have hb := hall b.toNat (Nat.lt_of_not_le h)
    rw [UInt8.ofNat_toNat] at hb
    exact hb

theorem ofByte_toByte (t : CellType) : CellType.ofByte t.toByte = t := by
  cases t with
  | unknown tag h =>
    unfold CellType.ofByte CellType.toByte
    rw [dif_pos h]
  | _ => rfl

theorem decodeUvarint_ok {v : Nat} :
    decodeUvarint b = .ok (v, rest) ↔ uvarint b = some (v, rest) := by
  unfold decodeUvarint
  cases uvarint b <;> simp

/-- Only the shortest spelling of a number decodes. -/
theorem decodeCanonicalUvarint_exact :
    Exact decodeCanonicalUvarint appendUvarint (· < 2 ^ 64) := by
  intro b v rest
  rw [← uvarint_canonical_iff]
  simp only [decodeCanonicalUvarint, bind_ok, Prod.exists, decodeUvarint_ok,
    check_ok, ok_pair, not_not]
  constructor
  · rintro ⟨_, _, hu, hlen, rfl, rfl⟩
    exact ⟨hu, hlen⟩
  · rintro ⟨hu, hlen⟩
    exact ⟨v, rest, hu, hlen, rfl, rfl⟩

/-- Nothing beside a type but the width of a FIXED. -/
def Plain (t : CellType) (n : UInt8) : Prop := t ≠ .fixed → n = 0

/-- A type decodes from its own spelling only. -/
theorem decodeType_exact : Exact decodeType (fun x => appendType x.1 x.2)
    fun x => Plain x.1 x.2 := by
  rintro b ⟨t, n⟩ rest
  simp only [decodeType, bind_ok, Prod.exists, readByte_ok]
  constructor
  · rintro ⟨tag, b, rfl, h⟩
    split at h
    · next hf =>
      simp only [bind_ok, Prod.exists, readByte_ok, ok_pair,
        Prod.mk.injEq] at h
      obtain ⟨_, _, rfl, ⟨rfl, rfl⟩, rfl⟩ := h
      refine ⟨fun hne => absurd rfl hne, ?_⟩
      rw [← toByte_ofByte tag, hf]
      rfl
    · next hf =>
      simp only [ok_pair, Prod.mk.injEq] at h
      obtain ⟨⟨rfl, rfl⟩, rfl⟩ := h
      refine ⟨fun _ => rfl, ?_⟩
      rw [appendType, if_neg hf, toByte_ofByte]
      rfl
  · rintro ⟨hp, rfl⟩
    refine ⟨t.toByte, _, rfl, ?_⟩
    rw [ofByte_toByte]
    split
    · next hf =>
      subst hf
      rfl
    · next hf =>
      rw [hp hf]
      rfl

-- ======== declarations

/-- A column as it is declared: no name yet. -/
def ColumnDef.Bare (c : ColumnDef) : Prop := c.name = [] ∧ Plain c.type c.n

/-- A column decodes from its own spelling only. -/
theorem decodeColumn_exact :
    Exact decodeColumn (fun c => appendType c.type c.n) ColumnDef.Bare := by
  intro b c rest
  simp only [decodeColumn, bind_ok, Prod.exists, decodeType_exact.ok, ok_pair]
  constructor
  · rintro ⟨_, _, _, ⟨hp, rfl⟩, rfl, rfl⟩
    exact ⟨⟨rfl, hp⟩, rfl⟩
  · rintro ⟨⟨hn, hp⟩, rfl⟩
    refine ⟨_, _, _, ⟨hp, rfl⟩, ?_, rfl⟩
    rw [← hn]

/-- A table declaration within the decoder's own bounds. -/
structure TableDef.Declared (t : TableDef) : Prop where
  key : Plain t.keyType t.keyN
  cols : t.cols.length ≤ operateMaxCols
  cap : t.cap ≤ operateMaxRows
  byCol : t.byCol ≤ operateMaxCols

theorem countFits_one {n m : Nat} : countFitsIn n m 1 = true ↔ n ≤ m := by
  unfold countFitsIn
  rw [Nat.div_one, decide_eq_true (Nat.le_refl 1), Bool.true_and,
    decide_eq_true_eq]

theorem count_fits {n m : Nat} (h : n ≤ m) :
    ¬ (!countFitsIn n m 1) = true := by
  rw [countFits_one.mpr h]
  decide

theorem lt_u64 {n : Nat} (h : n ≤ operateMaxRows) : n < 2 ^ 64 :=
  Nat.lt_of_le_of_lt h (by decide)

/-- Columns cost at least a byte each. -/
theorem length_le_flatMap {α : Type} (w : α → Bytes)
    (hw : ∀ x, 0 < (w x).length) (l : List α) :
    l.length ≤ (l.flatMap w).length := by
  induction l with
  | nil => exact le_rfl
  | cons x l ih =>
    rw [List.flatMap_cons, List.length_append, List.length_cons]
    have := hw x
    omega

theorem appendType_pos (t : CellType) (n : UInt8) :
    0 < (appendType t n).length := Nat.zero_lt_succ _

/-- The table definitions that decode. -/
theorem decodeTableDef_ok {budget budget' : Nat} :
    decodeTableDef budget b = .ok ((t, budget'), rest)
      ↔ t.Declared ∧ (∀ c ∈ t.cols, c.Bare) ∧ t.cols.length ≤ budget
        ∧ budget' = budget - t.cols.length ∧ b = t.encode ++ rest := by
  simp only [decodeTableDef, bind_ok, check_ok, ok_pair, Prod.exists,
    decodeType_exact.ok, decodeCanonicalUvarint_exact.ok, readByte_ok,
    readMany_ok decodeColumn_exact, not_or, Nat.not_lt, Prod.mk.injEq,
    TableDef.encode, List.append_assoc, List.cons_append]
  constructor
  · rintro ⟨_, _, _, ⟨hkey, rfl⟩, _, _, ⟨-, rfl⟩, ⟨hcols, hbud⟩, -, cols, _,
      ⟨rfl, hbare, rfl⟩, cap, _, ⟨-, rfl⟩, hcap, policy, _, rfl, byCol, _,
      ⟨-, rfl⟩, hby, ⟨rfl, rfl⟩, rfl⟩
    exact ⟨⟨hkey, hcols, hcap, hby⟩, hbare, hbud, rfl, rfl⟩
  · rintro ⟨⟨hkey, hcols, hcap, hby⟩, hbare, hbud, rfl, rfl⟩
    have hu : ∀ n, n ≤ operateMaxCols → n < 2 ^ 64 := fun n h =>
      lt_u64 (h.trans (by decide))
    refine ⟨_, _, _, ⟨hkey, rfl⟩, _, _, ⟨hu _ hcols, rfl⟩, ⟨hcols, hbud⟩,
      count_fits ?_, _, _, ⟨rfl, hbare, rfl⟩, _, _, ⟨lt_u64 hcap, rfl⟩, hcap,
      _, _, rfl, _, _, ⟨hu _ hby, rfl⟩, hby, ⟨rfl, rfl⟩, rfl⟩
    rw [List.length_append]
    exact Nat.le_trans (length_le_flatMap _
      (fun c => appendType_pos c.type c.n) _) (Nat.le_add_right _ _)

/-- A field as it is declared: no names yet. -/
structure FieldDef.Bare (f : FieldDef) : Prop where
  name : f.name = []
  type : Plain f.type f.n
  table : f.table.isSome = true ↔ f.type = .table
  declared : ∀ t, f.table = some t → t.Declared ∧ ∀ c ∈ t.cols, c.Bare

/-- A field whose type says whether it has a table. -/
theorem table?_of_iff
    (h : f.table.isSome = true ↔ f.type = .table) : f.table? = f.table := by
  unfold FieldDef.table?
  split
  · rfl
  · next hne =>
    cases ht : f.table with
    | none => rfl
    | some t => exact absurd (h.mp (by rw [ht]; rfl)) hne

/-- The columns a declaration is charged for. -/
def colCount (fs : List FieldDef) : Nat := (fs.map fun f => f.cols.length).sum

theorem decodeField_ok {budget budget' : Nat} :
    decodeField budget b = .ok ((f, budget'), rest)
      ↔ f.Bare ∧ f.cols.length ≤ budget
        ∧ budget' = budget - f.cols.length ∧ b = f.encode ++ rest := by
  simp only [decodeField, bind_ok, Prod.exists, decodeType_exact.ok]
  constructor
  · rintro ⟨t, n, _, ⟨hp, rfl⟩, h⟩
    split at h
    · next htab =>
      simp only [bind_ok, Prod.exists, decodeTableDef_ok, ok_pair,
        Prod.mk.injEq] at h
      obtain ⟨td, _, _, ⟨hd, hbare, hbud, rfl, rfl⟩, ⟨rfl, rfl⟩, rfl⟩ := h
      subst htab
      refine ⟨⟨rfl, hp, ⟨fun _ => rfl, fun _ => rfl⟩, ?_⟩, hbud, rfl, ?_⟩
      · rintro t ht
        injection ht with ht
        exact ht ▸ ⟨hd, hbare⟩
      · exact (List.append_assoc ..).symm
    · next htab =>
      simp only [ok_pair, Prod.mk.injEq] at h
      obtain ⟨⟨rfl, rfl⟩, rfl⟩ := h
      have hno : (⟨[], t, n, none⟩ : FieldDef).table? = none := by
        rw [FieldDef.table?, if_neg htab]
      refine ⟨⟨rfl, hp, ?_, fun _ ht => (by cases ht)⟩, ?_⟩
      · exact ⟨fun h => (by cases h), fun h => absurd h htab⟩
      · rw [FieldDef.cols, FieldDef.encode, hno]
        exact ⟨Nat.zero_le _, rfl, congrArg (· ++ _) (List.append_nil _).symm⟩
  · rintro ⟨hbare, hbud, rfl, rfl⟩
    have htab := table?_of_iff hbare.table
    rw [FieldDef.cols, htab] at hbud
    rw [FieldDef.encode, List.append_assoc, FieldDef.cols, htab]
    refine ⟨_, _, _, ⟨hbare.type, rfl⟩, ?_⟩
    obtain ⟨name, type, n, table⟩ := f
    obtain rfl : name = [] := hbare.name
    cases table with
    | some t =>
      obtain ⟨hd, hc⟩ := hbare.declared t rfl
      rw [if_pos (hbare.table.mp rfl)]
      exact bind_ok.mpr ⟨_, decodeTableDef_ok.mpr ⟨hd, hc, hbud, rfl, rfl⟩,
        rfl⟩
    | none =>
      rw [if_neg fun h => by cases hbare.table.mpr h]
      rfl

/-- The field lists that decode. -/
theorem decodeFields_ok (n : Nat) :
    ∀ (budget budget' : Nat)
    (fs : List FieldDef) (b rest : Bytes),
    decodeFields n budget b = .ok ((fs, budget'), rest)
      ↔ fs.length = n ∧ (∀ f ∈ fs, f.Bare) ∧ colCount fs ≤ budget
        ∧ budget' = budget - colCount fs
        ∧ b = fs.flatMap FieldDef.encode ++ rest := by
  induction n with
  | zero =>
    intro budget budget' fs b rest
    simp only [decodeFields, ok_pair, Prod.mk.injEq]
    constructor
    · rintro ⟨⟨rfl, rfl⟩, rfl⟩
      exact ⟨rfl, fun _ h => (by cases h), Nat.zero_le _, rfl, rfl⟩
    · rintro ⟨hlen, -, -, rfl, rfl⟩
      obtain rfl := List.length_eq_zero_iff.mp hlen
      exact ⟨⟨rfl, rfl⟩, rfl⟩
  | succ n ih =>
    intro budget budget' fs b rest
    have hcount : ∀ f fs, colCount (f :: fs) = f.cols.length + colCount fs :=
      fun f fs => List.sum_cons
    simp only [decodeFields, bind_ok, Prod.exists, decodeField_ok, ih, ok_pair,
      Prod.mk.injEq]
    constructor
    · rintro ⟨f, _, _, ⟨hbare, hle, rfl, rfl⟩, fs, _, _,
        ⟨hlen, hall, hle', rfl, rfl⟩, ⟨rfl, rfl⟩, rfl⟩
      have := hcount f fs
      refine ⟨congrArg (· + 1) hlen, List.forall_mem_cons.mpr
        ⟨hbare, hall⟩, by omega, by omega, ?_⟩
      rw [List.flatMap_cons, List.append_assoc]
    · rintro ⟨hlen, hall, hle, rfl, rfl⟩
      cases fs with
      | nil => cases hlen
      | cons f fs =>
        obtain ⟨hbare, hall⟩ := List.forall_mem_cons.mp hall
        have := hcount f fs
        rw [List.flatMap_cons, List.append_assoc, this, Nat.sub_add_eq]
        exact ⟨f, _, _, ⟨hbare, by omega, rfl, rfl⟩, fs, _, _,
          ⟨Nat.succ.inj hlen, hall, by omega, rfl, rfl⟩, ⟨rfl, rfl⟩, rfl⟩

-- ======== names

theorem readSchemaName_exact :
    Exact readSchemaName appendName (·.length ≤ operateMaxNameLen) := by
  intro b name rest
  simp only [readSchemaName, bind_ok, Prod.exists, readByte_ok, check_ok,
    readBytes_ok, Nat.not_lt]
  constructor
  · rintro ⟨ln, _, rfl, hmax, hlen, rfl⟩
    refine ⟨hlen.trans_le hmax, ?_⟩
    rw [appendName, hlen, UInt8.ofNat_toNat]
    rfl
  · rintro ⟨hlen, rfl⟩
    have hn : (UInt8.ofNat name.length).toNat = name.length :=
      toNat_digit (Nat.lt_of_le_of_lt hlen (by decide))
    exact ⟨_, _, rfl, hn.trans_le hlen, hn.symm, rfl⟩

def ColumnDef.unname (c : ColumnDef) : ColumnDef := { c with name := [] }

def FieldDef.unname (f : FieldDef) : FieldDef := { f with name := [] }

/-- The field with its columns unnamed. -/
def FieldDef.unnameCols (f : FieldDef) : FieldDef :=
  { f with table := f.table?.elim f.table (fun t =>
      some { t with cols := t.cols.map ColumnDef.unname }) }

/-- Naming a list: what was there up to the names, with the names that
were read. -/
theorem nameAll_ok {α : Type} (set : α → Bytes → α) (get : α → Bytes)
    (strip : α → α) (hget : ∀ x name, get (set x name) = name)
    (hset : ∀ x y, strip x = strip y → set x (get y) = y)
    (hstrip : ∀ x name, strip (set x name) = strip x) (xs : List α) :
    ∀ (b rest : Bytes) (ys : List α), nameAll set xs b = .ok (ys, rest)
        ↔ ys.map strip = xs.map strip
          ∧ (∀ y ∈ ys, (get y).length ≤ operateMaxNameLen)
          ∧ b = ys.flatMap (fun y => appendName (get y)) ++ rest := by
  induction xs with
  | nil =>
    intro b rest ys
    rw [nameAll, ok_pair]
    constructor
    · rintro ⟨rfl, rfl⟩
      exact ⟨rfl, fun _ h => (by cases h), rfl⟩
    · rintro ⟨hmap, -, rfl⟩
      obtain rfl := List.map_eq_nil_iff.mp hmap
      exact ⟨rfl, rfl⟩
  | cons x xs ih =>
    intro b rest ys
    simp only [nameAll, bind_ok, Prod.exists, readSchemaName_exact.ok, ih,
      ok_pair]
    constructor
    · rintro ⟨name, _, ⟨hlen, rfl⟩, zs, _, ⟨hmap, hall, rfl⟩, rfl, rfl⟩
      refine ⟨?_, List.forall_mem_cons.mpr ⟨?_, hall⟩, ?_⟩
      · rw [List.map_cons, List.map_cons, hmap, hstrip]
      · rw [hget]
        exact hlen
      · rw [List.flatMap_cons, List.append_assoc, hget]
    · rintro ⟨hmap, hall, rfl⟩
      cases ys with
      | nil => cases hmap
      | cons y ys =>
        rw [List.map_cons, List.map_cons] at hmap
        injection hmap with hy hmap
        obtain ⟨hlen, hall⟩ := List.forall_mem_cons.mp hall
        rw [List.flatMap_cons, List.append_assoc]
        refine ⟨_, _, ⟨hlen, rfl⟩, ys, rest, ⟨hmap, hall, rfl⟩, ?_, rfl⟩
        rw [hset x y hy.symm]

/-- Names are filled in, and nothing else. -/
theorem nameFields_ok {fs fs' : List FieldDef} :
    nameFields fs b = .ok (fs', rest)
      ↔ fs'.map FieldDef.unname = fs.map FieldDef.unname
        ∧ (∀ f ∈ fs', f.name.length ≤ operateMaxNameLen)
        ∧ b = fs'.flatMap (fun f => appendName f.name) ++ rest := by
  refine nameAll_ok (fun f name => { f with name := name }) FieldDef.name
    FieldDef.unname (fun _ _ => rfl) (fun x y h => ?_) (fun _ _ => rfl) fs b
    rest fs'
  exact congrArg (fun z : FieldDef => { z with name := y.name }) h

theorem nameColumns_ok {cs cs' : List ColumnDef} :
    nameColumns cs b = .ok (cs', rest)
      ↔ cs'.map ColumnDef.unname = cs.map ColumnDef.unname
        ∧ (∀ c ∈ cs', c.name.length ≤ operateMaxNameLen)
        ∧ b = cs'.flatMap (fun c => appendName c.name) ++ rest := by
  refine nameAll_ok (fun c name => { c with name := name }) ColumnDef.name
    ColumnDef.unname (fun _ _ => rfl) (fun x y h => ?_) (fun _ _ => rfl) cs
    b rest cs'
  exact congrArg (fun z : ColumnDef => { z with name := y.name }) h

/-- The names of a field's columns. -/
def FieldDef.colNames (f : FieldDef) : Bytes :=
  f.cols.flatMap fun c => appendName c.name

def TableDef.unname (t : TableDef) : TableDef :=
  { t with cols := t.cols.map ColumnDef.unname }

theorem table?_eq_some 
    (h : f.table? = some t) : f.type = .table ∧ f.table = some t := by
  unfold FieldDef.table? at h
  split at h
  · next ht => exact ⟨ht, h⟩
  · cases h

theorem unnameCols_some (h : f.table? = some t) :
    f.unnameCols = { f with table := some t.unname } := by
  unfold FieldDef.unnameCols
  rw [h]
  rfl

theorem unnameCols_none (h : f.table? = none) : f.unnameCols = f := by
  unfold FieldDef.unnameCols
  rw [h]
  rfl

theorem unnameCols_table? (f : FieldDef) :
    f.unnameCols.table? = f.table?.map TableDef.unname := by
  cases h : f.table? with
  | none => rw [unnameCols_none h, h]; rfl
  | some t =>
    rw [unnameCols_some h, FieldDef.table?, if_pos (table?_eq_some h).1]
    rfl

/-- Fields that differ in their columns' names, read back from one of
them. -/
theorem unnameCols_eq {f g : FieldDef} (h : g.unnameCols = f.unnameCols) :
    (f.table? = none → g.table? = none ∧ g = f)
      ∧ ∀ t, f.table? = some t → ∃ u, g.table? = some u
        ∧ u.cols.map ColumnDef.unname = t.cols.map ColumnDef.unname
        ∧ g = { f with table := some { t with cols := u.cols } } := by
  have htab : g.table?.map TableDef.unname = f.table?.map TableDef.unname := by
    rw [← unnameCols_table?, ← unnameCols_table?, h]
  refine ⟨fun hf => ?_, fun t hf => ?_⟩
  · rw [hf, Option.map_none, Option.map_eq_none_iff] at htab
    refine ⟨htab, ?_⟩
    rw [unnameCols_none htab, unnameCols_none hf] at h
    exact h
  · rw [hf, Option.map_some] at htab
    obtain ⟨u, hu, huv⟩ := Option.map_eq_some_iff.mp htab
    refine ⟨u, hu, congrArg TableDef.cols huv, ?_⟩
    rw [unnameCols_some hu, unnameCols_some hf] at h
    have hut : { t with cols := u.cols } = u :=
      congrArg (fun x : TableDef => { x with cols := u.cols }) huv.symm
    have hgf : { f with table := g.table } = g :=
      congrArg (fun x : FieldDef => { x with table := g.table }) h.symm
    rw [hut, ← (table?_eq_some hu).2, hgf]

theorem nameTables_ok (fs : List FieldDef) :
    ∀ (b rest : Bytes) (fs' : List FieldDef), nameTables fs b = .ok (fs', rest)
        ↔ fs'.map FieldDef.unnameCols = fs.map FieldDef.unnameCols
          ∧ (∀ f ∈ fs', ∀ c ∈ f.cols, c.name.length ≤ operateMaxNameLen)
          ∧ b = fs'.flatMap FieldDef.colNames ++ rest := by
  induction fs with
  | nil =>
    intro b rest fs'
    rw [nameTables, ok_pair]
    constructor
    · rintro ⟨rfl, rfl⟩
      exact ⟨rfl, fun _ h => (by cases h), rfl⟩
    · rintro ⟨hmap, -, rfl⟩
      obtain rfl := List.map_eq_nil_iff.mp hmap
      exact ⟨rfl, rfl⟩
  | cons f fs ih =>
    intro b rest fs'
    rw [nameTables]
    cases hf : f.table? with
    | none =>
      have hno : f.cols = [] := by rw [FieldDef.cols, hf]; rfl
      simp only [bind_ok, Prod.exists, ih, ok_pair]
      constructor
      · rintro ⟨gs, _, ⟨hmap, hall, rfl⟩, rfl, rfl⟩
        refine ⟨by rw [List.map_cons, List.map_cons, hmap],
          List.forall_mem_cons.mpr ⟨?_, hall⟩, ?_⟩
        · rw [hno]
          exact fun _ hc => (by cases hc)
        · rw [List.flatMap_cons, FieldDef.colNames, hno]
          rfl
      · rintro ⟨hmap, hall, rfl⟩
        cases fs' with
        | nil => cases hmap
        | cons g gs =>
          rw [List.map_cons, List.map_cons] at hmap
          injection hmap with hg hmap
          obtain ⟨hgn, rfl⟩ := (unnameCols_eq hg).1 hf
          obtain ⟨-, hall⟩ := List.forall_mem_cons.mp hall
          rw [List.flatMap_cons, FieldDef.colNames, hno]
          exact ⟨gs, rest, ⟨hmap, hall, rfl⟩, rfl, rfl⟩
    | some t =>
      obtain ⟨htype, htab⟩ := table?_eq_some hf
      simp only [bind_ok, Prod.exists, nameColumns_ok, ih, ok_pair]
      constructor
      · rintro ⟨cols, _, ⟨hcmap, hcall, rfl⟩, gs, _, ⟨hmap, hall, rfl⟩, rfl,
          rfl⟩
        have hg : ({ f with table := some { t with cols := cols } }
            : FieldDef).table? = some { t with cols := cols } := by
          rw [FieldDef.table?, if_pos htype]
        have hgc : ({ f with table := some { t with cols := cols } }
            : FieldDef).cols = cols := by
          rw [FieldDef.cols, hg]
          rfl
        refine ⟨?_, List.forall_mem_cons.mpr ⟨?_, hall⟩, ?_⟩
        · rw [List.map_cons, List.map_cons, hmap, unnameCols_some hg,
            unnameCols_some hf, TableDef.unname, TableDef.unname]
          rw [hcmap]
        · rw [hgc]
          exact hcall
        · rw [List.flatMap_cons, FieldDef.colNames, hgc, List.append_assoc]
      · rintro ⟨hmap, hall, rfl⟩
        cases fs' with
        | nil => cases hmap
        | cons g gs =>
          rw [List.map_cons, List.map_cons] at hmap
          injection hmap with hg hmap
          obtain ⟨u, hu, hcu, hgf⟩ := (unnameCols_eq hg).2 t hf
          obtain ⟨hlen, hall⟩ := List.forall_mem_cons.mp hall
          have hgc : g.cols = u.cols := by
            rw [FieldDef.cols, hu]
            rfl
          rw [List.flatMap_cons, FieldDef.colNames, hgc, List.append_assoc]
          refine ⟨_, _, ⟨hcu, hgc ▸ hlen, rfl⟩, gs, rest, ⟨hmap, hall, rfl⟩,
            ?_, rfl⟩
          rw [← hgf]

-- ======== schemas

/-- The field carries nothing its declaration has no room for. -/
structure FieldDef.Normal (f : FieldDef) : Prop where
  type : Plain f.type f.n
  table : f.table.isSome = true ↔ f.type = .table
  key : ∀ t, f.table = some t → Plain t.keyType t.keyN
  byCol : ∀ t, f.table = some t → t.byCol ≤ operateMaxCols
  cols : ∀ t, f.table = some t → ∀ c ∈ t.cols, Plain c.type c.n

/-- The schema carries nothing its blob has no room for. -/
structure Schema.Normal (s : Schema) : Prop where
  version : s.version < 2 ^ 16
  fields : ∀ f ∈ s.fields, f.Normal
  names : s.storeNames = false →
    ∀ f ∈ s.fields, f.name = [] ∧ ∀ c ∈ f.cols, c.name = []

/-- The field as it is declared, before the names section. -/
def FieldDef.bare (f : FieldDef) : FieldDef := f.unnameCols.unname

theorem bare_table? (f : FieldDef) :
    f.bare.table? = f.table?.map TableDef.unname := unnameCols_table? f

/-- The encoding has no names. -/
theorem bare_encode (f : FieldDef) : f.bare.encode = f.encode := by
  unfold FieldDef.encode
  rw [bare_table?]
  cases f.table? with
  | none => rfl
  | some t =>
    show appendType f.type f.n ++ t.unname.encode
      = appendType f.type f.n ++ t.encode
    congr 1
    unfold TableDef.encode TableDef.unname
    rw [List.length_map, List.flatMap_map]
    rfl

theorem bare_cols_length (f : FieldDef) :
    f.bare.cols.length = f.cols.length := by
  unfold FieldDef.cols
  rw [bare_table?]
  cases f.table? with
  | none => rfl
  | some t => exact List.length_map ..

theorem colCount_bare (fs : List FieldDef) :
    colCount (fs.map FieldDef.bare) = colCount fs := by
  unfold colCount
  rw [List.map_map]
  congr 2
  funext f
  exact bare_cols_length f

theorem flatMap_bare (fs : List FieldDef) :
    (fs.map FieldDef.bare).flatMap FieldDef.encode
      = fs.flatMap FieldDef.encode := by
  rw [List.flatMap_map]
  congr 1
  funext f
  exact bare_encode f

/-- A field without names is its own bare form. -/
theorem bare_of_unnamed (hn : f.name = [])
    (hc : ∀ c ∈ f.cols, c.name = []) : f.bare = f := by
  have hcols : f.unnameCols = f := by
    cases ht : f.table? with
    | none => exact unnameCols_none ht
    | some t =>
      obtain ⟨-, htab⟩ := table?_eq_some ht
      have hmem : f.cols = t.cols := by
        rw [FieldDef.cols, ht]
        rfl
      have hun : t.cols.map ColumnDef.unname = t.cols := by
        refine (List.map_congr_left fun c hct => ?_).trans (List.map_id _)
        show { c with name := [] } = c
        rw [← hc c (hmem ▸ hct)]
      rw [unnameCols_some ht, TableDef.unname, hun, ← htab]
  unfold FieldDef.bare
  rw [hcols]
  show { f with name := [] } = f
  rw [← hn]

/-- The columns of a declared field have no names yet. -/
theorem FieldDef.Bare.unnamed (h : f.Bare) : ∀ c ∈ f.cols, c.name = [] := by
  intro c hc
  unfold FieldDef.cols at hc
  cases ht : f.table? with
  | none =>
    rw [ht] at hc
    cases hc
  | some t =>
    rw [ht] at hc
    exact ((h.declared t (table?_eq_some ht).2).2 c hc).1

theorem FieldDef.Bare.bare_eq (h : f.Bare) : f.bare = f :=
  bare_of_unnamed h.name h.unnamed

theorem bare_table_some 
    (h : f.table? = some t) : f.bare.table = some t.unname := by
  show f.unnameCols.table = _
  rw [unnameCols_some h]

theorem bare_isSome (f : FieldDef) : f.bare.table.isSome = f.table.isSome := by
  cases h : f.table? with
  | none =>
    show f.unnameCols.table.isSome = _
    rw [unnameCols_none h]
  | some t =>
    rw [bare_table_some h, (table?_eq_some h).2]
    rfl

/-- What the blob has room for is what a declaration can say. -/
theorem normal_of_bare (h : f.bare.Bare) : f.Normal := by
  have hiff : f.table.isSome = true ↔ f.type = .table := by
    rw [← bare_isSome]
    exact h.table
  have hdecl : ∀ t, f.table = some t →
      t.unname.Declared ∧ ∀ c ∈ t.unname.cols, c.Bare := fun t ht =>
    h.declared _ (bare_table_some ((table?_of_iff hiff).trans ht))
  exact {
    type := h.type
    table := hiff
    key := fun t ht => (hdecl t ht).1.key
    byCol := fun t ht => (hdecl t ht).1.byCol
    cols := fun t ht c hc =>
      ((hdecl t ht).2 c.unname (List.mem_map_of_mem hc)).2 }

/-- A valid field without its names is bare. -/
theorem bare_of_normal (h : f.Normal) (hok : f.ok = true) : f.bare.Bare where
  name := rfl
  type := h.type
  table := by
    rw [bare_isSome]
    exact h.table
  declared := by
    intro u hu
    have hsome : f.table.isSome = true := by
      rw [← bare_isSome, hu]
      rfl
    obtain ⟨t, ht⟩ := Option.isSome_iff_exists.mp hsome
    have hu' := bare_table_some ((table?_of_iff h.table).trans ht)
    rw [hu] at hu'
    injection hu' with hu'
    subst hu'
    have htok : t.ok = true := by
      unfold FieldDef.ok at hok
      rw [Bool.and_eq_true, Bool.or_eq_true] at hok
      rcases hok.2 with hne | hok
      · exact absurd (h.table.mp hsome) (of_decide_eq_true hne)
      · rw [ht] at hok
        exact hok
    simp only [TableDef.ok, Bool.and_eq_true, decide_eq_true_eq] at htok
    refine ⟨⟨h.key t ht, ?_, htok.1.1.1.1.1.2, h.byCol t ht⟩, ?_⟩
    · show (t.cols.map ColumnDef.unname).length ≤ _
      rw [List.length_map]
      exact htok.1.1.1.1.1.1.2
    · intro c hc
      obtain ⟨d, hd, rfl⟩ := List.mem_map.mp hc
      exact ⟨rfl, h.cols t ht d hd⟩

-- ======== blobs

theorem unnameCols_unnameCols (f : FieldDef) :
    f.unnameCols.unnameCols = f.unnameCols := by
  cases h : f.table? with
  | none => rw [unnameCols_none h, unnameCols_none h]
  | some t =>
    have h' : f.unnameCols.table? = some t.unname := by
      rw [unnameCols_table?, h]
      rfl
    have hun : t.unname.unname = t.unname := by
      unfold TableDef.unname
      rw [List.map_map]
      rfl
    rw [unnameCols_some h', hun, unnameCols_some h]

/-- The names section is read back as the names it was written from. -/
theorem decodeNames_ok {fs named : List FieldDef} (hfs : ∀ f ∈ fs, f.Bare) :
    decodeNames fs b = .ok named ↔ named.map FieldDef.bare = fs
        ∧ (∀ f ∈ named, f.name.length ≤ operateMaxNameLen)
        ∧ (∀ f ∈ named, ∀ c ∈ f.cols, c.name.length ≤ operateMaxNameLen)
        ∧ b = named.flatMap (fun f => appendName f.name)
          ++ named.flatMap FieldDef.colNames := by
  have hbare : fs.map FieldDef.bare = fs :=
    (List.map_congr_left fun f hf => (hfs f hf).bare_eq).trans (List.map_id _)
  have hname : fs.map FieldDef.unname = fs := by
    refine (List.map_congr_left fun f hf => ?_).trans (List.map_id _)
    show { f with name := [] } = f
    rw [← (hfs f hf).name]
  -- The names of the fields do not depend on their columns' names.
  have hkeep : ∀ gs : List FieldDef,
      (gs.map FieldDef.unnameCols).flatMap (fun f => appendName f.name)
        = gs.flatMap fun f => appendName f.name := fun gs =>
    List.flatMap_map ..
  simp only [decodeNames, bind_ok, Prod.exists, nameFields_ok, nameTables_ok,
    check_ok, not_not, Except.ok.injEq]
  constructor
  · rintro ⟨fs₁, _, ⟨hmap₁, hlen₁, rfl⟩, fs₂, _, ⟨hmap₂, hlen₂, rfl⟩, rfl, rfl⟩
    have hnames : ∀ f ∈ fs₂, f.name.length ≤ operateMaxNameLen := by
      intro f hf
      have hmem : f.unnameCols ∈ fs₁.map FieldDef.unnameCols :=
        hmap₂ ▸ List.mem_map_of_mem hf
      obtain ⟨g, hg, hgf⟩ := List.mem_map.mp hmem
      have heq : g.unnameCols.name = f.unnameCols.name :=
        congrArg FieldDef.name hgf
      exact (congrArg List.length heq).symm.trans_le (hlen₁ g hg)
    refine ⟨?_, hnames, hlen₂, ?_⟩
    · calc fs₂.map FieldDef.bare
          = (fs₂.map FieldDef.unnameCols).map FieldDef.unname :=
            List.map_map.symm
        _ = (fs₁.map FieldDef.unnameCols).map FieldDef.unname := by
            rw [hmap₂]
        _ = (fs₁.map FieldDef.unname).map FieldDef.unnameCols := by
            rw [List.map_map, List.map_map]
            rfl
        _ = (fs.map FieldDef.unname).map FieldDef.unnameCols := by
            rw [hmap₁]
        _ = fs.map FieldDef.bare := List.map_map
        _ = fs := hbare
    · rw [← hkeep fs₁, ← hmap₂, hkeep, List.append_nil]
  · rintro ⟨hmap, hlen₁, hlen₂, rfl⟩
    refine ⟨named.map FieldDef.unnameCols, _, ⟨?_, ?_, by rw [hkeep]⟩, named,
      [], ⟨?_, hlen₂, (List.append_nil _).symm⟩, rfl, rfl⟩
    · rw [List.map_map, hname]
      exact hmap
    · intro f hf
      obtain ⟨g, hg, rfl⟩ := List.mem_map.mp hf
      exact hlen₁ g hg
    · rw [List.map_map]
      exact List.map_congr_left fun f _ => (unnameCols_unnameCols f).symm

/-- The fields that come out of the names section, if there is one. -/
theorem decodeNamed_ok {storeNames : Bool} {fs named : List FieldDef}
    (hfs : ∀ f ∈ fs, f.Bare) :
    decodeNamed storeNames fs b = .ok named ↔ named.map FieldDef.bare = fs
        ∧ (storeNames = true → (∀ f ∈ named, f.name.length ≤ operateMaxNameLen)
          ∧ (∀ f ∈ named, ∀ c ∈ f.cols, c.name.length ≤ operateMaxNameLen)
          ∧ b = named.flatMap (fun f => appendName f.name)
            ++ named.flatMap FieldDef.colNames)
        ∧ (storeNames = false →
          ∀ f ∈ named, f.name = [] ∧ ∀ c ∈ f.cols, c.name = []) := by
  cases storeNames with
  | true =>
    have hd : decodeNamed true fs b = decodeNames fs b := rfl
    rw [hd, decodeNames_ok hfs]
    constructor
    · rintro ⟨hmap, h⟩
      exact ⟨hmap, fun _ => h, fun hne => (by cases hne)⟩
    · rintro ⟨hmap, h, -⟩
      exact ⟨hmap, h rfl⟩
  | false =>
    have hd : decodeNamed false fs b = .ok fs := rfl
    rw [hd, Except.ok.injEq]
    constructor
    · rintro rfl
      refine ⟨?_, fun hne => (by cases hne), fun _ f hf =>
        ⟨(hfs f hf).name, (hfs f hf).unnamed⟩⟩
      exact (List.map_congr_left fun f hf => (hfs f hf).bare_eq).trans
        (List.map_id _)
    · rintro ⟨rfl, -, h⟩
      exact (List.map_congr_left fun f hf =>
        bare_of_unnamed (h rfl f hf).1 (h rfl f hf).2).trans (List.map_id _)

/-- The names section as it is stored. -/
def Schema.stored (s : Schema) : Bytes := if s.storeNames then s.names else []

/-- The parts of a blob, in the order they are read. -/
theorem encode_append (s : Schema) (rest : Bytes) :
    s.encode ++ rest
      = leEncode 2 s.version ++ ((if s.storeNames then 1 else 0)
        :: (appendUvarint s.fields.length ++ (s.fields.flatMap FieldDef.encode
            ++ (appendUvarint s.stored.length ++ (s.stored ++ rest))))) := by
  unfold Schema.encode Schema.head Schema.stored
  cases s.storeNames with
  | true => simp only [if_true, List.append_assoc, List.cons_append]
  | false =>
    simp only [Bool.false_eq_true, if_false, List.append_assoc,
      List.cons_append, List.length_nil, List.nil_append]

/-- A field costs a byte, and another for each column. -/
theorem FieldDef.cols_lt_encode (f : FieldDef) :
    f.cols.length < f.encode.length := by
  unfold FieldDef.encode FieldDef.cols
  rw [List.length_append]
  have hp := appendType_pos f.type f.n
  cases f.table? with
  | none => exact Nat.lt_of_lt_of_le hp (Nat.le_add_right _ _)
  | some t =>
    have hc := length_le_flatMap (fun c : ColumnDef =>
      appendType c.type c.n) (fun c => appendType_pos _ _) t.cols
    show t.cols.length < _ + t.encode.length
    unfold TableDef.encode
    simp only [List.length_append]
    omega

/-- The bytes a declaration costs at least. -/
theorem encode_charges (s : Schema) :
    4 ≤ s.encode.length
      ∧ s.fields.length + colCount s.fields + s.stored.length
        ≤ s.encode.length := by
  have hfield : ∀ fs : List FieldDef,
      fs.length + colCount fs ≤ (fs.flatMap FieldDef.encode).length := by
    intro fs
    induction fs with
    | nil => exact le_rfl
    | cons f fs ih =>
      have hcount : colCount (f :: fs) = f.cols.length + colCount fs :=
        List.sum_cons
      have hone := f.cols_lt_encode
      rw [List.flatMap_cons, List.length_append, List.length_cons]
      omega
  have h := hfield s.fields
  have hu := appendUvarint_pos s.fields.length
  have hu' := appendUvarint_pos s.stored.length
  rw [← List.append_nil s.encode, encode_append]
  simp only [List.length_append, List.length_cons, leEncode_length,
    List.append_nil]
  omega

/-- What `Validate` checks, apart. -/
theorem validate_iff (s : Schema) :
    s.validate = true
      ↔ s.fields.length ≤ operateMaxFields ∧ (∀ f ∈ s.fields, f.ok = true)
        ∧ namesOk (s.fields.map FieldDef.name) = true
        ∧ s.encode.length ≤ operateMaxSchemaBytes := by
  unfold Schema.validate
  simp only [Bool.and_eq_true, decide_eq_true_eq, List.all_eq_true, and_assoc]

/-- Names that pass the check are not too long. -/
theorem namesOk_length {names : List Bytes} (h : namesOk names = true) :
    ∀ n ∈ names, n.length ≤ operateMaxNameLen := by
  unfold namesOk at h
  rw [Bool.and_eq_true, List.all_eq_true] at h
  exact fun n hn => of_decide_eq_true (h.1 n hn)

/-- The names of a valid field's columns are not too long. -/
theorem ok_colNames (hok : f.ok = true) :
    ∀ c ∈ f.cols, c.name.length ≤ operateMaxNameLen := by
  intro c hc
  unfold FieldDef.cols at hc
  cases ht : f.table? with
  | none =>
    rw [ht] at hc
    cases hc
  | some t =>
    rw [ht] at hc
    obtain ⟨htype, htab⟩ := table?_eq_some ht
    unfold FieldDef.ok at hok
    rw [Bool.and_eq_true, Bool.or_eq_true, htab] at hok
    rcases hok.2 with hne | htok
    · exact absurd htype (of_decide_eq_true hne)
    · have htok : t.ok = true := htok
      unfold TableDef.ok at htok
      simp only [Bool.and_eq_true] at htok
      exact namesOk_length htok.1.2 _ (List.mem_map_of_mem hc)

/-- `DecodeSchema` accepts what `Encode` writes for a valid schema in
normal form, and nothing else. -/
theorem decodeSchema_exact : Exact decodeSchema Schema.encode
      fun s => s.Normal ∧ s.validate = true := by
  intro b s rest
  simp only [decodeSchema, check_ok, bind_ok, Prod.exists, readBytes_ok,
    readByte_ok, decodeCanonicalUvarint_exact.ok, decodeFields_ok, ok_pair]
  constructor
  · rintro ⟨-, version, _, ⟨hvlen, rfl⟩, flags, _, rfl, hfle, nFields, _,
      ⟨-, rfl⟩, -, -, fs, _, _, ⟨hlen, hbare, -, -, rfl⟩, nameBytes, b₅,
      ⟨-, rfl⟩, -, hfit, hzero, named, hnamed, hval, rfl, rfl⟩
    obtain ⟨hmap, hstored, hbarren⟩ := (decodeNamed_ok hbare).mp hnamed
    have hfit : nameBytes ≤ b₅.length := countFits_one.mp (by simpa using hfit)
    have hver16 : leDecode version < 2 ^ 16 := by
      have hlt := leDecode_lt version
      rw [hvlen] at hlt
      exact hlt
    refine ⟨⟨⟨hver16, ?_, hbarren⟩, by simpa using hval⟩, ?_⟩
    · intro f hf
      exact normal_of_bare (hbare _ (hmap ▸ List.mem_map_of_mem hf))
    · have hn' : named.length = nFields := by
        rw [← hlen, ← hmap, List.length_map]
      have henc : named.flatMap FieldDef.encode
          = fs.flatMap FieldDef.encode := by
        rw [← flatMap_bare, hmap]
      have hv : leEncode 2 (leDecode version) = version := by
        rw [← hvlen, leEncode_leDecode]
      rw [encode_append]
      rw [hv, hn', henc]
      -- The flag byte says whether the section holds names or nothing.
      by_cases hone : flags.toNat = 1
      · rw [decide_eq_true hone] at hstored ⊢
        obtain ⟨-, -, htake⟩ := hstored rfl
        have hflags : flags = 1 := UInt8.toNat_inj.mp hone
        have hnames : (⟨leDecode version, true, named⟩ : Schema).stored
            = b₅.take nameBytes := htake.symm
        have hnlen : (b₅.take nameBytes).length = nameBytes := by
          rw [List.length_take, Nat.min_eq_left hfit]
        rw [hnames, hnlen, hflags, if_pos rfl, List.take_append_drop]
      · rw [decide_eq_false hone] at hzero ⊢
        have hflags : flags = 0 :=
          UInt8.toNat_inj.mp (show flags.toNat = 0 by omega)
        have hnb0 : nameBytes = 0 := by
          by_contra hne
          exact hzero ⟨rfl, hne⟩
        rw [hflags, hnb0]
        rfl
  · rintro ⟨⟨hnorm, hval⟩, rfl⟩
    obtain ⟨hfl, hok, hnok, hbytes⟩ := (validate_iff s).mp hval
    obtain ⟨hfour, hcharge⟩ := encode_charges s
    have hbare : ∀ f ∈ s.fields.map FieldDef.bare, f.Bare := by
      intro f hf
      obtain ⟨g, hg, rfl⟩ := List.mem_map.mp hf
      exact bare_of_normal (hnorm.fields g hg) (hok g hg)
    have hv : leDecode (leEncode 2 s.version) = s.version := by
      rw [leDecode_leEncode]
      exact Nat.mod_eq_of_lt hnorm.version
    have hu64 : ∀ n, n ≤ operateMaxSchemaBytes → n < 2 ^ 64 := fun n h =>
      Nat.lt_of_le_of_lt h (by decide)
    have hflag : decide ((if s.storeNames then (1 : UInt8) else 0).toNat = 1)
        = s.storeNames := by
      cases s.storeNames with
      | true => rfl
      | false => rfl
    have hnamed : decodeNamed s.storeNames (s.fields.map FieldDef.bare)
        s.stored = .ok s.fields := by
      refine (decodeNamed_ok hbare).mpr
        ⟨rfl, fun hst => ⟨?_, ?_, ?_⟩, hnorm.names⟩
      · exact fun f hf => namesOk_length hnok _ (List.mem_map_of_mem hf)
      · exact fun f hf => ok_colNames (hok f hf)
      · rw [Schema.stored, if_pos hst]
        rfl
    have hlen : s.encode.length ≤ (s.encode ++ rest).length := by
      rw [List.length_append]
      exact Nat.le_add_right _ _
    rw [encode_append] at hlen ⊢
    refine ⟨by omega, _, _, ⟨leEncode_length .., rfl⟩, _, _, rfl, ?_, _, _,
      ⟨hu64 _ (by omega), rfl⟩, by omega, count_fits ?_, _, _, _,
      ⟨List.length_map .., hbare, ?_, rfl, by rw [flatMap_bare]⟩, _, _,
      ⟨hu64 _ (by omega), rfl⟩, ?_, count_fits ?_, ?_, s.fields, ?_, ?_, ?_,
        ?_⟩
    · cases s.storeNames <;> decide
    · rw [List.length_append]
      have := length_le_flatMap FieldDef.encode
        (fun f => Nat.zero_lt_of_lt f.cols_lt_encode) s.fields
      omega
    · rw [colCount_bare]
      omega
    · have hcaps : operateMaxNameBytes = operateMaxSchemaBytes := rfl
      rw [colCount_bare]
      omega
    · rw [List.length_append]
      exact Nat.le_add_right _ _
    · rw [hflag]
      rintro ⟨hst, hne⟩
      refine hne ?_
      rw [Schema.stored, hst]
      rfl
    · rw [List.take_left, hflag]
      exact hnamed
    · rw [hv, hflag]
      show ¬ (!s.validate) = true
      rw [hval]
      decide
    · rw [hv, hflag]
    · rw [List.drop_left]

/-- A schema blob is canonical and delimits itself: what is accepted is
the encoding of the schema it gives, behind any other bytes it gives the
same schema, and no other schema's blob starts with it. -/
theorem schema_blob_canonical {b b' rest rest' : Bytes} {s s' : Schema}
    (h : decodeSchema b = .ok (s, rest))
    (h' : decodeSchema b' = .ok (s', rest')) :
    b = s.encode ++ rest ∧ (∀ t, decodeSchema (s.encode ++ t) = .ok (s, t))
      ∧ (s.encode <+: b' → s' = s ∧ b' = s.encode ++ rest') := by
  obtain ⟨hgood, rfl⟩ := (decodeSchema_exact _ _ _).1 h
  have hd : ∀ t, decodeSchema (s.encode ++ t) = .ok (s, t) := fun t =>
    (decodeSchema_exact _ _ _).2 ⟨hgood, rfl⟩
  refine ⟨rfl, hd, ?_⟩
  rintro ⟨t, rfl⟩
  rw [hd t] at h'
  cases h'
  exact ⟨rfl, rfl⟩

theorem schema_blob_canonical_u16 :
    ([1, 0, 0, 1, 1, 0, 42] : Bytes)
      = Schema.encode ⟨1, false, [⟨[], .u16, 0, none⟩]⟩ ++ [42] := by
  have h : decodeSchema [1, 0, 0, 1, 1, 0, 42]
      = .ok (⟨1, false, [⟨[], .u16, 0, none⟩]⟩, [42]) := by rfl
  exact (schema_blob_canonical h h).1

end Rostam.Wire
