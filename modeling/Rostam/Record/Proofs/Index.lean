/-
Index enumeration against resolution: the entry a path spells is what
the path resolves to.

Enumeration and resolution are two walks over the same bytes. In schema
mode the walk over all fields is at each field where the search for that
field ends (`walk_visits`); in dynamic mode both read the fields in the
same order, and a name is met before any greater one.

A spelling is not a name. `f#count` spells the row count of a table `f`,
and also a scalar whose stored name ends so; the path is always read the
first way, so the converse asks that the field in front of `#count` is a
table.
-/
import Rostam.Record.Proofs.RowAbsent
import Rostam.Record.Value

namespace Rostam.Record

open Rostam.Lib Rostam.Wire

variable {s : Bytes} {seg : Segment}

-- ======== paths

/-- A name that a path can spell. -/
def Spellable (name : Bytes) : Prop := name ≠ [] ∧ hash ∉ name

theorem named_name (kind : SegKind) (name : Bytes) :
    (Segment.named kind name).name = name := rfl

/-- The text of a one-segment path by name. -/
def Segment.text (seg : Segment) : Bytes :=
  if seg.kind = .count then seg.name ++ countSuffix else seg.name

theorem validateName_ok (h : validateName s = .ok ()) : Spellable s := by
  unfold validateName at h
  obtain ⟨hlen, h₁⟩ := check_ok.mp h
  obtain ⟨hany, -⟩ := check_ok.mp h₁
  refine ⟨?_, fun hmem => hany ?_⟩
  · rintro rfl
    exact hlen (.inl Nat.one_pos)
  · refine List.any_eq_true.mpr ⟨hash, hmem, ?_⟩
    decide

/-- A segment by name is the name it was parsed from. -/
theorem parseNameOrPos_named {kind : SegKind} 
    (h : parseNameOrPos kind s = .ok seg) (hn : seg.byPos = false) :
    seg = .named kind s ∧ Spellable s := by
  unfold parseNameOrPos at h
  cases s with
  | nil => cases h
  | cons c rest =>
    dsimp only at h
    split at h
    · simp only [check_ok] at h
      obtain ⟨-, -, h⟩ := h
      split at h
      · cases h
      · obtain ⟨-, h⟩ := check_ok.mp h
        cases h
        cases hn
    · obtain ⟨_, hv, h₁⟩ := bind_ok.mp h
      injection h₁ with h₁
      exact ⟨h₁.symm, validateName_ok hv⟩

theorem parseFieldSeg_named {only : Bool}
    (h : parseFieldSeg s only = .ok seg) (hn : seg.byPos = false) :
    s = seg.text ∧ Spellable seg.name
      ∧ (seg = .named .field seg.name ∨ seg = .named .count seg.name) := by
  unfold parseFieldSeg at h
  split at h
  · next hsuf =>
    obtain ⟨pre, rfl⟩ := List.isSuffixOf_iff_suffix.mp hsuf
    obtain ⟨-, h₁⟩ := check_ok.mp h
    obtain ⟨-, h₂⟩ := check_ok.mp h₁
    rw [List.length_append, Nat.add_sub_cancel, List.take_left] at h₂
    obtain ⟨hseg, hsp⟩ := parseNameOrPos_named h₂ hn
    subst hseg
    exact ⟨rfl, hsp, .inr rfl⟩
  · obtain ⟨hseg, hsp⟩ := parseNameOrPos_named h hn
    subst hseg
    exact ⟨rfl, hsp, .inl rfl⟩

/-- A path of one segment by name spells that segment. -/
theorem parsePath_one {text : Bytes} {p : Path}
    (h : parsePath text = .ok p) (hp : p.segs = [seg])
    (hn : seg.byPos = false) :
    text = seg.text ∧ Spellable seg.name
      ∧ (seg = .named .field seg.name ∨ seg = .named .count seg.name) := by
  simp only [parsePath, check_ok] at h
  obtain ⟨-, -, h⟩ := h
  split at h
  · cases h
  next part parts hs =>
  simp only [check_ok, bind_ok, Except.ok.injEq] at h
  obtain ⟨-, -, fieldSeg, hf, more, hm, rfl⟩ := h
  injection hp with hseg hmore
  subst hseg hmore
  -- One segment was parsed, so there was one part: the whole text.
  cases parts with
  | nil =>
    have htext : [slash].intercalate (text.splitOn slash) = text :=
      List.intercalate_splitOn slash
    rw [hs] at htext
    have htext : part = text := by simpa using htext
    exact htext ▸ parseFieldSeg_named hf hn
  | cons row cols =>
    obtain ⟨r, -, hm⟩ := bind_ok.mp hm
    obtain ⟨cs, -, hm⟩ := bind_ok.mp hm
    cases hm

/-- A spellable name is not a count's spelling. -/
theorem Spellable.ne_count {name base : Bytes} (h : Spellable name) :
    base ++ countSuffix ≠ name := by
  rintro rfl
  exact h.2 (List.mem_append_right _ List.mem_cons_self)

-- ======== entries

variable {b rest : Bytes} {label name : Bytes} {seg : Segment} {t : CellType}
  {n : UInt8}

variable {x : Entry} {prev : Option Bytes} {part : List Entry}

theorem mem_scalarEntry {c : Cell} :
    x ∈ scalarEntry label c ↔ x.field = label
      ∧ cellValue c = some x.value ∧ isNaNValue x.value = false := by
  unfold scalarEntry
  cases hc : cellValue c with
  | none => exact ⟨fun h => (by cases h), fun h => (by cases h.2.1)⟩
  | some v =>
    dsimp only
    constructor
    · intro h
      split at h
      · cases h
      · next hn =>
        obtain rfl := List.mem_singleton.mp h
        exact ⟨rfl, rfl, Bool.eq_false_iff.mpr hn⟩
    · rintro ⟨rfl, hv, hn⟩
      cases hv
      rw [if_neg (Bool.eq_false_iff.mp hn)]
      exact List.mem_singleton.mpr rfl

theorem mem_countEntry {nRows : Nat} :
    x ∈ countEntry label nRows
      ↔ x = ⟨label ++ countSuffix, .int nRows⟩ := List.mem_singleton

-- ======== dynamic fields

/-- The entries of one dynamic field. -/
def fieldPart (name : Bytes) (t : CellType) (n : UInt8) (b : Bytes) :
    Except Err (List Entry) :=
  if t = .table then do
    let (inner, _) ← dynamicTableInner b
    let (nRows, _) ← dynamicTableRows inner
    .ok (countEntry name nRows)
  else do
    let cell ← readCellAt t n b
    .ok (scalarEntry name cell)

/-- A table has its row count, any other field its scalar. -/
theorem fieldPart_ok (h : fieldPart name t n b = .ok part) :
    (t = .table ∧ ∃ inner rest nRows rows,
        dynamicTableInner b = .ok (inner, rest)
        ∧ dynamicTableRows inner = .ok (nRows, rows)
        ∧ part = countEntry name nRows)
      ∨ t ≠ .table ∧ ∃ cell, readCellAt t n b = .ok cell
        ∧ part = scalarEntry name cell := by
  unfold fieldPart at h
  split at h <;> rename_i ht <;>
    simp only [bind_ok, Prod.exists, Except.ok.injEq] at h
  · obtain ⟨inner, rest, hi, nRows, rows, hr, rfl⟩ := h
    exact .inl ⟨ht, inner, rest, nRows, rows, hi, hr, rfl⟩
  · obtain ⟨cell, hc, rfl⟩ := h
    exact .inr ⟨ht, cell, hc, rfl⟩

/-- One round of the enumeration. -/
theorem indexDynamicFields_succ {k : Nat}
    {es : List Entry} (h : indexDynamicFields (k + 1) prev b = .ok es) :
    ∃ name b₁ t n b₂ part b₃ more, readName b = .ok (name, b₁)
      ∧ outOfOrder prev name = false
      ∧ readTypeTag b₁ = .ok ((t, n), b₂)
      ∧ fieldPart name t n b₂ = .ok part
      ∧ skipDynamicValue t n b₂ = .ok b₃
      ∧ indexDynamicFields k (some name) b₃ = .ok more
      ∧ es = part ++ more := by
  simp only [indexDynamicFields, bind_ok, Prod.exists, check_ok,
    Bool.not_eq_true] at h
  obtain ⟨name, b₁, hn, hord, t, n, b₂, ht, h⟩ := h
  split at h <;> rename_i htab <;>
    simp only [bind_ok, Prod.exists, Except.ok.injEq] at h
  · obtain ⟨inner, b₃, hi, nRows, rows, hr, more, hm, rfl⟩ := h
    refine ⟨name, b₁, t, n, b₂, countEntry name nRows, b₃, more, hn, hord,
      ht, ?_, ?_, hm, rfl⟩
    · rw [fieldPart, if_pos htab]
      exact bind_ok.mpr ⟨_, hi, bind_ok.mpr ⟨_, hr, rfl⟩⟩
    · rw [skipDynamicValue, if_pos htab]
      exact bind_ok.mpr ⟨_, hi, rfl⟩
  · obtain ⟨cell, hc, b₃, hs, more, hm, rfl⟩ := h
    refine ⟨name, b₁, t, n, b₂, scalarEntry name cell, b₃, more, hn, hord,
      ht, ?_, hs, hm, rfl⟩
    rw [fieldPart, if_neg htab]
    exact bind_ok.mpr ⟨_, hc, rfl⟩

/-- One round of the search for a field. -/
theorem findDynamicField_succ {k : Nat}
    {more : List Segment} {b₁ b₂ b₃ : Bytes} (hn : readName b = .ok (name, b₁))
    (hord : outOfOrder prev name = false)
    (ht : readTypeTag b₁ = .ok ((t, n), b₂))
    (hs : skipDynamicValue t n b₂ = .ok b₃) :
    findDynamicField seg more (k + 1) prev b
      = if compareBytes name seg.name = .gt then .ok .absent
        else if compareBytes name seg.name = .eq then
          resolveDynamicField t n b₂ seg more
        else findDynamicField seg more k (some name) b₃ := by
  rw [findDynamicField, hn]
  show (if outOfOrder prev name = true then _ else _) = _
  rw [hord, if_neg Bool.false_ne_true, ht]
  show (if compareBytes name seg.name = .gt then _ else if _ then _ else _) = _
  rw [hs]
  rfl

/-- What a field resolves to is among its entries. -/
theorem fieldPart_covers {res : Result} {v : Value}
    (hp : fieldPart seg.name t n b = .ok part)
    (h : resolveDynamicField t n b seg [] = .ok res)
    (hv : resultValue res = some v) (hnan : isNaNValue v = false) :
    ⟨seg.text, v⟩ ∈ part := by
  unfold resolveDynamicField at h
  unfold Segment.text
  rcases fieldPart_ok hp with ⟨ht, inner, b₁, nRows, rows, hi, hr, rfl⟩
    | ⟨ht, cell, hc, rfl⟩
  · split at h <;> rename_i hk
    · simp only [ht, ne_eq, not_true, if_false, bind_ok, hi, hr,
        Except.ok.injEq, exists_eq_left'] at h
      subst h
      injection hv with hv
      rw [if_pos hk, ← hv]
      exact mem_countEntry.mpr rfl
    · cases h
      cases hv
  · split at h <;> rename_i hk
    · cases h
    · simp only [bind_ok, hc, Except.ok.injEq, exists_eq_left'] at h
      subst h
      rw [if_neg hk]
      exact mem_scalarEntry.mpr ⟨rfl, hv, hnan⟩

/-- An entry under a spellable name is that of a scalar, and the field
resolves to its value. -/
theorem fieldPart_resolves 
    (hp : fieldPart name t n b = .ok part) (hx : x ∈ part)
    (hsp : Spellable x.field) :
    x.field = name ∧ ∃ cell, cellValue cell = some x.value
      ∧ resolveDynamicField t n b (.named .field name) []
        = .ok (.scalar cell) := by
  rcases fieldPart_ok hp with ⟨-, inner, b₁, nRows, rows, -, -, rfl⟩
    | ⟨ht, cell, hc, rfl⟩
  · obtain rfl := mem_countEntry.mp hx
    exact absurd rfl hsp.ne_count
  · obtain ⟨hf, hv, -⟩ := mem_scalarEntry.mp hx
    refine ⟨hf, cell, hv, ?_⟩
    show (if t = .table then _ else _) = _
    rw [if_neg ht, hc]
    rfl

/-- The rows of a table that was enumerated can be counted. -/
theorem fieldPart_count
    (hp : fieldPart name t n b = .ok part) (ht : t = .table) :
    ∃ nRows, resolveDynamicField t n b (.named .count name) []
      = .ok (.count nRows) := by
  rcases fieldPart_ok hp with ⟨-, inner, b₁, nRows, rows, hi, hr, -⟩ | ⟨hne, -⟩
  · refine ⟨nRows, ?_⟩
    show (if t ≠ .table then _ else _) = _
    rw [if_neg (not_not.mpr ht)]
    exact bind_ok.mpr ⟨_, hi, bind_ok.mpr ⟨_, hr, rfl⟩⟩
  · exact absurd ht hne

-- ======== the dynamic walks

/-- A name behind the previous one. -/
theorem ordered_iff {x : Bytes} :
    outOfOrder prev x = false
      ↔ ∀ p, prev = some p → compareBytes p x = .lt := by
  unfold outOfOrder
  cases prev <;> simp

theorem compareBytes_trans {x y z : Bytes} (hxy : compareBytes x y = .lt)
    (hyz : compareBytes y z = .lt) : compareBytes x z = .lt := by
  unfold compareBytes at *
  exact Std.TransCmp.lt_trans hxy hyz

/-- Where resolution finds a value, enumeration has its entry. -/
theorem indexDynamic_covers {res : Result} {v : Value}
    (hv : resultValue res = some v) (hnan : isNaNValue v = false) (k : Nat) :
    ∀ (prev : Option Bytes) (b : Bytes) (es : List Entry),
      indexDynamicFields k prev b = .ok es →
      findDynamicField seg [] k prev b = .ok res → ⟨seg.text, v⟩ ∈ es := by
  induction k with
  | zero =>
    intro prev b es _ h
    cases h
    cases hv
  | succ k ih =>
    intro prev b es hix h
    obtain ⟨name, b₁, t, n, b₂, part, b₃, more, hn, hord, ht, hp, hs, hm,
      rfl⟩ := indexDynamicFields_succ hix
    rw [findDynamicField_succ hn hord ht hs] at h
    split at h
    · cases h
      cases hv
    · split at h
      · next hc =>
        obtain rfl := (compareBytes_eq _ _).mp hc
        exact List.mem_append_left _ (fieldPart_covers hp h hv hnan)
      · exact List.mem_append_right _ (ih _ _ _ hm h)

/-- An entry under a spellable name is found by the search for it. -/
theorem indexDynamic_resolves (hsp : Spellable x.field) (k : Nat) :
    ∀ (prev : Option Bytes) (b : Bytes) (es : List Entry),
      indexDynamicFields k prev b = .ok es → x ∈ es →
      outOfOrder prev x.field = false ∧ ∃ cell, cellValue cell = some x.value
          ∧ findDynamicField (.named .field x.field) [] k prev b
            = .ok (.scalar cell) := by
  induction k with
  | zero =>
    intro prev b es hix hx
    cases hix
    cases hx
  | succ k ih =>
    intro prev b es hix hx
    obtain ⟨name, b₁, t, n, b₂, part, b₃, more, hn, hord, ht, hp, hs, hm,
      rfl⟩ := indexDynamicFields_succ hix
    rw [findDynamicField_succ hn hord ht hs]
    rcases List.mem_append.mp hx with hx | hx
    · obtain ⟨rfl, cell, hv, hres⟩ := fieldPart_resolves hp hx hsp
      have hc : compareBytes x.field x.field = .eq :=
        (compareBytes_eq _ _).mpr rfl
      refine ⟨hord, cell, hv, ?_⟩
      rw [named_name, hc, if_neg (by decide), if_pos rfl]
      exact hres
    · obtain ⟨hlt, cell, hv, hres⟩ := ih _ _ _ hm hx
      -- The names in front are smaller, so the search does not stop.
      have hlt := ordered_iff.mp hlt name rfl
      refine ⟨ordered_iff.mpr fun p hp => compareBytes_trans
        (ordered_iff.mp hord p hp) hlt, cell, hv, ?_⟩
      rw [named_name, hlt, if_neg (by decide), if_neg (by decide)]
      exact hres

/-- The rows of an enumerated table can be counted. -/
theorem indexDynamic_counts (k : Nat) :
    ∀ (prev : Option Bytes) (b : Bytes) (es : List Entry),
      indexDynamicFields k prev b = .ok es →
      findDynamicField (.named .field name) [] k prev b = .ok .table →
      ∃ nRows, findDynamicField (.named .count name) [] k prev b
        = .ok (.count nRows) := by
  induction k with
  | zero => exact fun _ _ _ _ h => (by cases h)
  | succ k ih =>
    intro prev b es hix h
    obtain ⟨name', b₁, t, n, b₂, part, b₃, more, hn, hord, ht, hp, hs, hm,
      rfl⟩ := indexDynamicFields_succ hix
    rw [findDynamicField_succ hn hord ht hs] at h ⊢
    rw [named_name] at h ⊢
    split at h
    · cases h
    · next hgt =>
      rw [if_neg hgt]
      split at h
      · next hc =>
        rw [if_pos hc]
        obtain rfl := (compareBytes_eq _ _).mp hc
        refine fieldPart_count hp ?_
        by_contra hne
        have h : (if t = .table then _ else _) = _ := h
        rw [if_neg hne] at h
        obtain ⟨cell, -, h₁⟩ := bind_ok.mp h
        cases h₁
      · next hc =>
        rw [if_neg hc]
        exact ih _ _ _ hm h

-- ======== the schema walk

section Walk

variable {s : Schema} {l : Layout} {values : Bytes} {α : Type}
  {visit : Visit α}

variable {pos : Nat} {tail : List Nat}

/-- The walk visited field `pos` where the search for it ends. -/
structure Visited (s : Schema) (l : Layout) (values : Bytes)
    (visit : Visit α) (pos : Nat) (f : FieldDef) (part : List α) : Prop where
  plain : f.type ≠ .table → ∃ b, schemaFieldOffset s l pos values = .ok b
    ∧ visit pos f b none = .ok part
  table : f.type = .table → ∃ b nRows rows,
    schemaFieldOffset s l pos values = .ok b
      ∧ schemaTableHeader (Layout.table l pos) b = .ok (nRows, rows)
      ∧ visit pos f b (some nRows) = .ok part

/-- The searches for the fields of the tail from `pos` on go through
`tail` from `b` on. -/
def TailFrom (s : Schema) (l : Layout) (values : Bytes) (pos : Nat)
    (tail : List Nat) (b : Bytes) : Prop :=
  ∀ j, pos ≤ j → l.fixedOff[j]?.getD none = none →
    schemaFieldOffset s l j values = tailOffset s l j tail b

/-- A field of the tail is passed. -/
theorem TailFrom.skip {b b' : Bytes}
    (h : TailFrom s l values pos (pos :: tail) b)
    (hs : skipTail s l pos b = .ok b') :
    TailFrom s l values (pos + 1) tail b' := by
  intro j hj hfix
  rw [h j (by omega) hfix, tailOffset, if_neg (by omega), hs]
  rfl

theorem TailFrom.next {b : Bytes} (h : TailFrom s l values pos tail b) :
    TailFrom s l values (pos + 1) tail b :=
  fun j hj hfix => h j (by omega) hfix

/-- One round of the walk. -/
theorem walkFrom_cons {f : FieldDef} {fs : List FieldDef}
    {b : Bytes} {xs : List α} (hat : l.At pos f)
    (hf : s.fields[pos]? = some f) (htail : TailFrom s l values pos tail b)
    (h : walkFrom l values visit (f :: fs) pos tail b = .ok xs) :
    ∃ part more tail' b', Visited s l values visit pos f part
      ∧ TailFrom s l values (pos + 1) tail' b'
      ∧ walkFrom l values visit fs (pos + 1) tail' b' = .ok more
      ∧ xs = part ++ more := by
  unfold walkFrom at h
  cases hfix : l.fixedOff[pos]?.getD none with
  | some off =>
    rw [hfix] at h
    simp only [check_ok, bind_ok, Except.ok.injEq] at h
    obtain ⟨hlen, part, hp, more, hm, rfl⟩ := h
    have hoff : schemaFieldOffset s l pos values = .ok (values.drop off) := by
      unfold schemaFieldOffset
      rw [hfix]
      exact if_neg hlen
    refine ⟨part, more, tail, b, ⟨fun _ => ⟨_, hoff, hp⟩, fun ht => ?_⟩,
      htail.next, hm, rfl⟩
    rw [hat.tail (by rw [ht]; rfl)] at hfix
    cases hfix
  | none =>
    rw [hfix] at h
    cases tail with
    | nil => cases h
    | cons i tail =>
      obtain ⟨hi, h₁⟩ := check_ok.mp h
      obtain rfl := not_not.mp hi
      have hoff : schemaFieldOffset s l i values = .ok b := by
        rw [htail i le_rfl hfix, tailOffset, if_pos rfl]
      split at h₁ <;> rename_i ht <;>
        simp only [bind_ok, Prod.exists, Except.ok.injEq] at h₁
      · obtain ⟨nRows, rows, hh, part, hp, more, hm, rfl⟩ := h₁
        refine ⟨part, more, tail, _, ⟨fun hne => absurd ht hne,
          fun _ => ⟨b, nRows, rows, hoff, hh, hp⟩⟩, htail.skip ?_, hm, rfl⟩
        simp only [skipTail, hf, if_pos ht, hh]
        rfl
      · obtain ⟨n, hn, part, hp, more, hm, rfl⟩ := h₁
        refine ⟨part, more, tail, _, ⟨fun _ => ⟨b, hoff, hp⟩,
          fun hne => absurd hne ht⟩, htail.skip ?_, hm, rfl⟩
        simp only [skipTail, hf, if_neg ht, hn]
        rfl

/-- What the walk collected, field by field. -/
structure Collected (s : Schema) (l : Layout) (values : Bytes)
    (visit : Visit α) (fs : List FieldDef) (pos : Nat) (xs : List α) :
    Prop where
  all : ∀ j f, fs[j]? = some f →
    ∃ part, Visited s l values visit (pos + j) f part ∧ ∀ x ∈ part, x ∈ xs
  only : ∀ x ∈ xs, ∃ j f part, fs[j]? = some f
    ∧ Visited s l values visit (pos + j) f part ∧ x ∈ part

theorem walkFrom_collected (hl : s.layout = .ok l) (fs : List FieldDef) :
    ∀ (pos : Nat) (tail : List Nat) (b : Bytes) (xs : List α),
      (∀ j f, fs[j]? = some f → s.fields[pos + j]? = some f) →
      TailFrom s l values pos tail b →
      walkFrom l values visit fs pos tail b = .ok xs →
      Collected s l values visit fs pos xs := by
  induction fs with
  | nil =>
    intro pos tail b xs _ _ h
    cases h
    refine ⟨fun j f hj => ?_, fun x hx => (by cases hx)⟩
    rw [List.getElem?_nil] at hj
    cases hj
  | cons f fs ih =>
    intro pos tail b xs hfs htail h
    have hf : s.fields[pos]? = some f := hfs 0 f rfl
    obtain ⟨part, more, tail', b', hvis, htail', hm, rfl⟩ :=
      walkFrom_cons (layout_at hl hf) hf htail h
    have hrest : ∀ j g, fs[j]? = some g → s.fields[pos + 1 + j]? = some g := by
      intro j g hg
      rw [Nat.add_assoc, Nat.add_comm 1 j]
      exact hfs (j + 1) g hg
    have hcol := ih (pos + 1) tail' b' more hrest htail' hm
    refine ⟨fun j g hj => ?_, fun x hx => ?_⟩
    · cases j with
      | zero =>
        rw [List.getElem?_cons_zero] at hj
        cases hj
        exact ⟨part, hvis, fun x hx => List.mem_append_left _ hx⟩
      | succ j =>
        obtain ⟨part', hvis', hsub⟩ := hcol.all j g hj
        rw [Nat.add_assoc, Nat.add_comm 1 j] at hvis'
        exact ⟨part', hvis', fun x hx =>
          List.mem_append_right _ (hsub x hx)⟩
    · rcases List.mem_append.mp hx with hx | hx
      · exact ⟨0, f, part, rfl, hvis, hx⟩
      · obtain ⟨j, g, part', hj, hvis', hx'⟩ := hcol.only x hx
        rw [Nat.add_assoc, Nat.add_comm 1 j] at hvis'
        exact ⟨j + 1, g, part', hj, hvis', hx'⟩

/-- The walk is at each field where the search for it ends. -/
theorem walk_visits (hl : s.layout = .ok l) {xs : List α}
    (h : walkSchemaFields s l values visit = .ok xs) :
    Collected s l values visit s.fields 0 xs := by
  unfold walkSchemaFields at h
  obtain ⟨hlen, h₁⟩ := check_ok.mp h
  refine walkFrom_collected hl s.fields 0 _ _ xs ?_ ?_ h₁
  · intro j f hj
    rw [Nat.zero_add]
    exact hj
  · intro j _ hfix
    unfold schemaFieldOffset
    rw [hfix]
    exact if_neg hlen

end Walk

-- ======== schema fields

section Schema

variable {s : Schema} {l : Layout} {values : Bytes} {pos : Nat} {f : FieldDef}
  {part : List Entry}

/-- The entries of a visited field. -/
abbrev Indexed (s : Schema) (l : Layout) (values : Bytes) (pos : Nat)
    (f : FieldDef) (part : List Entry) : Prop :=
  Visited s l values (visitField s) pos f part

theorem label_named (hs : s.storeNames = true) (name : Bytes) (pos : Nat) :
    schemaFieldLabel s.storeNames name pos = name := by
  unfold schemaFieldLabel
  rw [if_pos hs]

/-- What a field resolves to is among its entries. -/
theorem Visited.covers (hvis : Indexed s l values pos f part)
    (hs : s.storeNames = true) (hname : f.name = seg.name) {res : Result}
    {v : Value} (h : resolveSchemaField s l values pos f seg [] = .ok res)
    (hv : resultValue res = some v) (hnan : isNaNValue v = false) :
    ⟨seg.text, v⟩ ∈ part := by
  unfold resolveSchemaField at h
  unfold Segment.text
  split at h
  · next hk =>
    obtain ⟨ht, h₁⟩ := check_ok.mp h
    obtain ⟨b, nRows, rows, hb, hh, hp⟩ := hvis.table (not_not.mp ht)
    cases hp
    simp only [bind_ok, hb, hh, Except.ok.injEq, exists_eq_left'] at h₁
    subst h₁
    injection hv with hv
    rw [if_pos hk, ← hv, ← hname]
    exact mem_countEntry.mpr (by rw [label_named hs])
  · next hk =>
    rw [if_neg hk]
    split at h
    · cases h
      cases hv
    · next ht =>
      obtain ⟨b, hb, hp⟩ := hvis.plain ht
      simp only [bind_ok, hb, Except.ok.injEq, exists_eq_left'] at h
      obtain ⟨cell, hc, rfl⟩ := h
      simp only [visitField, bind_ok, hc, Except.ok.injEq,
        exists_eq_left'] at hp
      subst hp
      refine mem_scalarEntry.mpr ⟨?_, hv, hnan⟩
      rw [label_named hs, hname]

/-- An entry under a spellable name is that of a scalar by name, and the
field resolves to its value. -/
theorem Visited.resolves (hvis : Indexed s l values pos f part) {x : Entry}
    (hx : x ∈ part) (hsp : Spellable x.field) :
    s.storeNames = true ∧ f.name = x.field
      ∧ ∃ cell, cellValue cell = some x.value
        ∧ resolveSchemaField s l values pos f (.named .field x.field) []
          = .ok (.scalar cell) := by
  by_cases ht : f.type = .table
  · obtain ⟨b, nRows, rows, -, -, hp⟩ := hvis.table ht
    cases hp
    obtain rfl := mem_countEntry.mp hx
    exact absurd rfl hsp.ne_count
  · obtain ⟨b, hb, hp⟩ := hvis.plain ht
    obtain ⟨cell, hc, hp₁⟩ := bind_ok.mp hp
    cases hp₁
    obtain ⟨hf, hv, -⟩ := mem_scalarEntry.mp hx
    have hs : s.storeNames = true := by
      by_contra hs
      rw [schemaFieldLabel, if_neg hs] at hf
      exact hsp.2 (hf ▸ List.mem_cons_self)
    rw [label_named hs] at hf
    refine ⟨hs, hf.symm, cell, hv, ?_⟩
    show (if f.type = .table then _ else _) = _
    rw [if_neg ht]
    exact bind_ok.mpr ⟨_, hb, bind_ok.mpr ⟨_, hc, rfl⟩⟩

/-- The rows of a table that was enumerated can be counted. -/
theorem Visited.counts (hvis : Indexed s l values pos f part) {name : Bytes}
    (h : resolveSchemaField s l values pos f (.named .field name) []
      = .ok .table) :
    ∃ nRows, resolveSchemaField s l values pos f (.named .count name) []
      = .ok (.count nRows) := by
  have ht : f.type = .table := by
    by_contra ht
    have h : (if f.type = .table then _ else _) = _ := h
    rw [if_neg ht] at h
    obtain ⟨b, -, h₁⟩ := bind_ok.mp h
    obtain ⟨cell, -, h₂⟩ := bind_ok.mp h₁
    cases h₂
  obtain ⟨b, nRows, rows, hb, hh, -⟩ := hvis.table ht
  refine ⟨nRows, ?_⟩
  show (if f.type ≠ .table then _ else _) = _
  rw [if_neg (not_not.mpr ht)]
  exact bind_ok.mpr ⟨_, hb, bind_ok.mpr ⟨_, hh, rfl⟩⟩

/-- Names that passed the check are found where they are. -/
theorem findIdx_of_namesOk {names : List Bytes} (hok : namesOk names = true)
    {j : Nat} {name : Bytes} (hj : names[j]? = some name) (hne : name ≠ []) :
    names.findIdx? (fun x => x = name) = some j := by
  unfold namesOk at hok
  rw [Bool.and_eq_true, decide_eq_true_eq] at hok
  have hpair := List.pairwise_filter.mp hok.2
  obtain ⟨hlt, hj⟩ := List.getElem?_eq_some_iff.mp hj
  refine List.findIdx?_eq_some_iff_getElem.mpr ⟨hlt, decide_eq_true hj, ?_⟩
  intro i hi hd
  have hi' := of_decide_eq_true hd
  have := List.pairwise_iff_getElem.mp hpair i j (by omega) hlt hi
  rw [hi', hj] at this
  exact this (decide_eq_true hne) (decide_eq_true hne) rfl

theorem fieldPos_of_valid (hval : s.validate = true) {j : Nat}
    (hj : s.fields[j]? = some f) (hne : f.name ≠ []) :
    s.fieldPos f.name = some j := by
  obtain ⟨-, -, hnames, -⟩ := (validate_iff s).mp hval
  have hj' : (s.fields.map FieldDef.name)[j]? = some f.name := by
    rw [List.getElem?_map, hj]
    rfl
  have := findIdx_of_namesOk hnames hj' hne
  rw [List.findIdx?_map] at this
  unfold Schema.fieldPos
  rw [if_neg hne]
  exact this

/-- The field a name was resolved to. -/
theorem resolveSchema_named {e : SchemaEntry} {rec : Bytes} {res : Result}
    (hn : seg.byPos = false) (h : resolveSchema e rec seg [] = .ok res)
    (hres : res ≠ .absent) :
    ∃ values pos f, valuesOf e rec = .ok values ∧ e.schema.storeNames = true
      ∧ e.schema.fieldPos seg.name = some pos
      ∧ e.schema.fields[pos]? = some f ∧ f.name = seg.name
      ∧ resolveSchemaField e.schema e.layout values pos f seg []
        = .ok res := by
  unfold resolveSchema at h
  obtain ⟨values, hv, h₁⟩ := bind_ok.mp h
  obtain ⟨opos, hp, h₂⟩ := bind_ok.mp h₁
  unfold schemaFieldPos at hp
  rw [if_neg (by rw [hn]; exact Bool.false_ne_true)] at hp
  obtain ⟨hs, hp₁⟩ := check_ok.mp hp
  injection hp₁ with hp₁
  have hs : e.schema.storeNames = true := by simpa using hs
  cases hpos : e.schema.fieldPos seg.name with
  | none =>
    rw [← hp₁, hpos] at h₂
    injection h₂ with h₂
    exact absurd h₂.symm hres
  | some pos =>
    rw [← hp₁, hpos] at h₂
    dsimp only at h₂
    have hidx := hpos
    unfold Schema.fieldPos at hidx
    split at hidx
    · cases hidx
    · obtain ⟨hlt, hname, -⟩ := List.findIdx?_eq_some_iff_getElem.mp hidx
      have hf := List.getElem?_eq_getElem hlt
      rw [hf] at h₂
      exact ⟨values, pos, _, hv, hs, rfl, hf, of_decide_eq_true hname, h₂⟩

/-- A name that is found resolves to its field. -/
theorem resolveSchema_at {e : SchemaEntry} {rec : Bytes}
    (hv : valuesOf e rec = .ok values) (hs : e.schema.storeNames = true)
    (hn : seg.byPos = false)
    (hpos : e.schema.fieldPos seg.name = some pos)
    (hf : e.schema.fields[pos]? = some f) :
    resolveSchema e rec seg []
      = resolveSchemaField e.schema e.layout values pos f seg [] := by
  have hp : schemaFieldPos e.schema seg = .ok (some pos) := by
    unfold schemaFieldPos
    rw [if_neg (by rw [hn]; exact Bool.false_ne_true), hs, hpos]
    rfl
  unfold resolveSchema
  rw [hv]
  show (schemaFieldPos e.schema seg >>= _) = _
  rw [hp]
  dsimp only [bind, Except.bind]
  rw [hf]

end Schema

-- ======== either mode

section Modes

variable {e : SchemaEntry} {rec body : Bytes} {es : List Entry} {res : Result}
  {v : Value} {x : Entry}

theorem schema_covers (hl : e.schema.layout = .ok e.layout)
    (hix : indexEntriesSchema e rec = .ok es) (hn : seg.byPos = false)
    (h : resolveSchema e rec seg [] = .ok res)
    (hv : resultValue res = some v) (hnan : isNaNValue v = false) :
    ⟨seg.text, v⟩ ∈ es := by
  have hres : res ≠ .absent := by
    rintro rfl
    cases hv
  obtain ⟨values, pos, f, hvals, hs, -, hf, hname, hfield⟩ :=
    resolveSchema_named hn h hres
  obtain ⟨values', hvals', hix₁⟩ := bind_ok.mp hix
  obtain rfl := Except.ok.inj (hvals.symm.trans hvals')
  obtain ⟨part, hvis, hsub⟩ := (walk_visits hl hix₁).all pos f hf
  rw [Nat.zero_add] at hvis
  exact hsub _ (hvis.covers hs hname hfield hv hnan)

theorem schema_resolves (hl : e.schema.layout = .ok e.layout)
    (hval : e.schema.validate = true)
    (hix : indexEntriesSchema e rec = .ok es) (hx : x ∈ es)
    (hsp : Spellable x.field) :
    ∃ cell, cellValue cell = some x.value
      ∧ resolveSchema e rec (.named .field x.field) []
        = .ok (.scalar cell) := by
  obtain ⟨values, hvals, hix₁⟩ := bind_ok.mp hix
  obtain ⟨j, f, part, hf, hvis, hxp⟩ := (walk_visits hl hix₁).only x hx
  rw [Nat.zero_add] at hvis
  obtain ⟨hs, hname, cell, hv, hfield⟩ := hvis.resolves hxp hsp
  have hpos := fieldPos_of_valid hval hf (hname ▸ hsp.1)
  rw [hname] at hpos
  exact ⟨cell, hv, (resolveSchema_at hvals hs rfl hpos hf).trans hfield⟩

theorem schema_counts (hl : e.schema.layout = .ok e.layout)
    (hix : indexEntriesSchema e rec = .ok es)
    (h : resolveSchema e rec (.named .field name) [] = .ok .table) :
    ∃ nRows, resolveSchema e rec (.named .count name) []
      = .ok (.count nRows) := by
  obtain ⟨values, pos, f, hvals, hs, hpos, hf, -, hfield⟩ :=
    resolveSchema_named rfl h (by decide)
  obtain ⟨values', hvals', hix₁⟩ := bind_ok.mp hix
  obtain rfl := Except.ok.inj (hvals.symm.trans hvals')
  obtain ⟨part, hvis, -⟩ := (walk_visits hl hix₁).all pos f hf
  rw [Nat.zero_add] at hvis
  obtain ⟨nRows, hcount⟩ := hvis.counts hfield
  have hpos : e.schema.fieldPos (Segment.named .count name).name
      = some pos := hpos
  exact ⟨nRows, (resolveSchema_at hvals hs rfl hpos hf).trans hcount⟩

/-- The walk of resolution starts where that of enumeration does. -/
theorem resolveDynamic_at {nFields : Nat}
    (hc : readFieldCount body = .ok (nFields, b)) (hn : seg.byPos = false) :
    resolveDynamic body seg [] = findDynamicField seg [] nFields none b := by
  unfold resolveDynamic
  rw [if_neg (by rw [hn]; exact Bool.false_ne_true), hc]
  rfl

theorem dynamic_covers (hix : indexEntriesDynamic body = .ok es)
    (hn : seg.byPos = false) (h : resolveDynamic body seg [] = .ok res)
    (hv : resultValue res = some v) (hnan : isNaNValue v = false) :
    ⟨seg.text, v⟩ ∈ es := by
  obtain ⟨⟨nFields, b⟩, hc, hix₁⟩ := bind_ok.mp hix
  rw [resolveDynamic_at hc hn] at h
  exact indexDynamic_covers hv hnan nFields none b es hix₁ h

theorem dynamic_resolves (hix : indexEntriesDynamic body = .ok es)
    (hx : x ∈ es) (hsp : Spellable x.field) :
    ∃ cell, cellValue cell = some x.value
      ∧ resolveDynamic body (.named .field x.field) []
        = .ok (.scalar cell) := by
  obtain ⟨⟨nFields, b⟩, hc, hix₁⟩ := bind_ok.mp hix
  rw [resolveDynamic_at hc rfl]
  exact (indexDynamic_resolves hsp nFields none b es hix₁ hx).2

theorem dynamic_counts (hix : indexEntriesDynamic body = .ok es)
    (h : resolveDynamic body (.named .field name) [] = .ok .table) :
    ∃ nRows, resolveDynamic body (.named .count name) []
      = .ok (.count nRows) := by
  obtain ⟨⟨nFields, b⟩, hc, hix₁⟩ := bind_ok.mp hix
  rw [resolveDynamic_at hc rfl] at h ⊢
  exact indexDynamic_counts nFields none b es hix₁ h

/-- `IndexEntries` with every schema decoded afresh. -/
def indexAfresh (rec : Bytes) : Except Err (List Entry) :=
  match rec with
  | [] => .error (.record .emptyRecord)
  | mode :: body =>
    if mode = operateModeSchema then do
      let e ← decodeEntry body
      indexEntriesSchema e rec
    else if mode = operateModeDynamic then indexEntriesDynamic body
    else .error (.record (.unknownMode mode))

theorem indexEntries_answers (rec : Bytes) :
    Answers Resolver.Reachable (indexEntries rec) (indexAfresh rec) := by
  unfold indexEntries indexAfresh
  cases rec with
  | nil => exact .throw _
  | cons mode body =>
    dsimp only
    split
    · exact (schemaFor_answers (mode :: body)).bind fun e => .of _
    · split
      · exact .of _
      · exact .throw _

/-- What enumeration says of the one-segment paths by name, each resolved
by `one`. -/
structure Agrees (rec : Bytes) (es : List Entry)
    (one : Segment → Except Err Result) : Prop where
  resolve : ∀ p seg, checkPathShape p = .ok (seg, []) →
    resolveAfresh rec p = one seg
  covers : ∀ seg res v, seg.byPos = false → one seg = .ok res →
    resultValue res = some v → isNaNValue v = false → ⟨seg.text, v⟩ ∈ es
  resolves : ∀ x ∈ es, Spellable x.field →
    ∃ cell, cellValue cell = some x.value
      ∧ one (.named .field x.field) = .ok (.scalar cell)
  counts : ∀ name, one (.named .field name) = .ok .table →
    ∃ nRows, one (.named .count name) = .ok (.count nRows)

theorem indexAfresh_agrees (hix : indexAfresh rec = .ok es) :
    ∃ one, Agrees rec es one := by
  unfold indexAfresh at hix
  cases rec with
  | nil => cases hix
  | cons mode body =>
    dsimp only at hix
    split at hix
    · next hm =>
      obtain ⟨e, he, hix₁⟩ := bind_ok.mp hix
      obtain ⟨key, rest, hof, -⟩ := decodeEntry_ok.mp he
      refine ⟨fun seg => resolveSchema e (mode :: body) seg [],
        fun p seg hp => ?_,
        fun seg res v => schema_covers hof.2.1 hix₁,
        fun x => schema_resolves hof.2.1 hof.1.2 hix₁,
        fun name => schema_counts hof.2.1 hix₁⟩
      unfold resolveAfresh
      rw [hp]
      show (if mode = operateModeSchema then _ else _) = _
      rw [if_pos hm, he]
      rfl
    · next hm =>
      split at hix
      · next hd =>
        refine ⟨fun seg => resolveDynamic body seg [],
          fun p seg hp => ?_, fun seg res v => dynamic_covers hix,
          fun x => dynamic_resolves hix,
          fun name => dynamic_counts hix⟩
        unfold resolveAfresh
        rw [hp]
        show (if mode = operateModeSchema then _ else _) = _
        rw [if_neg hm, if_pos hd]
      · cases hix

/-- The shape of a one-segment path. -/
theorem checkPathShape_one {p : Path} (hp : p.segs = [seg])
    (hk : seg.kind = .field ∨ seg.kind = .count) :
    checkPathShape p = .ok (seg, []) := by
  unfold checkPathShape
  rw [hp]
  dsimp only
  have h₁ : ¬ (seg.kind ≠ .field ∧ seg.kind ≠ .count) := fun h =>
    hk.elim h.1 h.2
  have h₂ : ¬ (seg.kind = .count ∧ ([] : List Segment) ≠ []) := fun h =>
    h.2 rfl
  rw [if_neg (by decide), if_neg h₁, if_neg h₂]
  rfl

end Modes

/-- A one-segment path by name and the entries of a record, from any
caches. A comparable value that the path resolves to is in the entry with
the path's text. Conversely, the one entry with that text holds what the
path resolves to, if, for a `#count`, the field in front of it is a
table. -/
theorem index_covers_resolution (r₁ r₂ : Resolver) (hr₁ : r₁.Reachable)
    (hr₂ : r₂.Reachable) (rec : Bytes) (es : List Entry)
    (hix : ((indexEntries rec).from r₁).1 = .ok es) (text : Bytes) (p : Path)
    (seg : Segment) (hparse : parsePath text = .ok p) (hp : p.segs = [seg])
    (hn : seg.byPos = false) :
    (∀ res v, ((resolve rec p).from r₂).1 = .ok res →
      resultValue res = some v → isNaNValue v = false →
      ∃ x ∈ es, x.field = text ∧ x.value = v)
      ∧ ∀ x ∈ es, es.filter (fun y => y.field = text) = [x] →
        (seg.kind = .count →
          ((resolve rec ⟨[.named .field seg.name]⟩).from r₂).1 = .ok .table) →
        ∃ res, ((resolve rec p).from r₂).1 = .ok res
          ∧ resultValue res = some x.value := by
  obtain ⟨rfl, hsp, hkind⟩ := parsePath_one hparse hp hn
  rw [(indexEntries_answers rec r₁ hr₁).1] at hix
  obtain ⟨one, hone⟩ := indexAfresh_agrees hix
  have hshape : checkPathShape p = .ok (seg, []) := by
    refine checkPathShape_one hp ?_
    rcases hkind with h | h
    · exact .inl (h ▸ rfl)
    · exact .inr (h ▸ rfl)
  rw [(resolve_answers rec p r₂ hr₂).1, hone.resolve p seg hshape,
    (resolve_answers rec ⟨[.named .field seg.name]⟩ r₂ hr₂).1,
    hone.resolve _ _ (checkPathShape_one rfl (.inl rfl))]
  refine ⟨fun res v hres hv hnan =>
    ⟨_, hone.covers seg res v hn hres hv hnan, rfl, rfl⟩,
    fun x hx hone' htable => ?_⟩
  -- The entry is the only one with the text, so a value that the path
  -- resolves to is its value.
  have honly : ∀ res v, one seg = .ok res → resultValue res = some v →
      isNaNValue v = false → v = x.value := by
    intro res v hres hv hnan
    have hmem : (⟨seg.text, v⟩ : Entry)
        ∈ es.filter fun y => y.field = seg.text :=
      List.mem_filter.mpr ⟨hone.covers seg res v hn hres hv hnan,
        decide_eq_true rfl⟩
    rw [hone'] at hmem
    exact congrArg Entry.value (List.mem_singleton.mp hmem)
  have htext : x.field = seg.text := by
    have hmem : x ∈ es.filter fun y => y.field = seg.text := by
      rw [hone']
      exact List.mem_singleton.mpr rfl
    exact of_decide_eq_true (List.mem_filter.mp hmem).2
  rcases hkind with hk | hk
  · have hfield : seg.text = seg.name := by
      rw [hk]
      rfl
    rw [hfield] at htext
    obtain ⟨cell, hv, hres⟩ := hone.resolves x hx (htext ▸ hsp)
    rw [htext, ← hk] at hres
    exact ⟨_, hres, hv⟩
  · obtain ⟨nRows, hres⟩ := hone.counts seg.name (htable (hk ▸ rfl))
    rw [← hk] at hres
    have hv := honly _ (.int nRows) hres rfl rfl
    exact ⟨_, hres, congrArg some hv⟩

/-- A dynamic record with the byte 5 under `a` and a table `t` of one
row. -/
def scalarAndTable : Bytes :=
  [2, 2, 1, 97, 0, 5, 1, 116, 14, 8, 0, 0, 0, 1, 3, 1, 107, 0]

/-- The spelling of the row count of a name. -/
def countOf (name : UInt8) : Bytes := name :: countSuffix

/-- The row count of `t` is an entry, and the path resolves to it. -/
theorem index_covers_resolution_rowCount :
    ((indexEntries scalarAndTable).from (.new 0)).1
        = .ok [⟨[97], .int 5⟩, ⟨countOf 116, .int 1⟩]
      ∧ ∃ res, ((resolve scalarAndTable ⟨[.named .count [116]]⟩).from
          (.new 1)).1 = .ok res
        ∧ resultValue res = some (.int 1) := by
  have hix : ((indexEntries scalarAndTable).from (.new 0)).1
      = .ok [⟨[97], .int 5⟩, ⟨countOf 116, .int 1⟩] := by decide
  have htable : ((resolve scalarAndTable ⟨[.named .field [116]]⟩).from
      (.new 1)).1 = .ok .table := by decide
  exact ⟨hix, (index_covers_resolution (.new 0) (.new 1) (.new 0) (.new 1)
    scalarAndTable _ hix (countOf 116) ⟨[.named .count [116]]⟩
    (.named .count [116]) (by decide) rfl rfl).2 ⟨countOf 116, .int 1⟩
    (List.mem_cons_of_mem _ List.mem_cons_self) (by decide)
    fun _ => htable⟩

/-- A dynamic record with one scalar: the byte 5 under `name`. -/
def oneScalar (name : Bytes) : Bytes :=
  [2, 1, UInt8.ofNat name.length] ++ name ++ [0, 5]

/-- A scalar that is stored under the name `b#count`: its entry is the
only one with that spelling, and the path asks for the rows of `b`. -/
theorem index_spelling_ambiguous :
    ((indexEntries (oneScalar (countOf 98))).from (.new 0)).1
        = .ok [⟨countOf 98, .int 5⟩]
      ∧ parsePath (countOf 98) = .ok ⟨[.named .count [98]]⟩
      ∧ ((resolve (oneScalar (countOf 98)) ⟨[.named .count [98]]⟩).from
          (.new 0)).1 = .ok .absent
      ∧ resultValue .absent ≠ some (.int 5) := by
  decide

end Rostam.Record
