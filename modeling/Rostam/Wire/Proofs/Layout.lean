/-
What a layout says of each field: its place in the fixed area or in the
tail, and for a table the widths of its rows.
-/
import Rostam.Wire.Schema

namespace Rostam.Wire

open Rostam.Lib

variable {t : CellType} {n : UInt8}

-- ======== tables

/-- Only a FIXED is wider than eight bytes. -/
theorem cellWidth_le (ht : t ≠ .fixed) {w : Nat}
    (hw : cellWidth t n = some w) : w ≤ 8 := by
  cases t with
  | fixed => exact absurd rfl ht
  | uvarint | ivarint | bytes | table => cases hw
  | unknown _ _ => cases hw
  | _ =>
    injection hw with hw
    omega

theorem layoutCols_width {cols : List ColumnDef} {off w : Nat}
    {offs : List Nat} (h : layoutCols off cols = .ok (offs, w)) :
    off ≤ w := by
  induction cols generalizing off offs w with
  | nil =>
    obtain ⟨-, rfl⟩ := Prod.mk.inj (Except.ok.inj h)
    exact le_rfl
  | cons c cs ih =>
    rw [layoutCols] at h
    split at h
    · obtain ⟨⟨offs', w'⟩, hcs, h₁⟩ := bind_ok.mp h
      obtain ⟨-, rfl⟩ := Prod.mk.inj (Except.ok.inj h₁)
      have := ih hcs
      omega
    · cases h

/-- The widths of a table's rows. -/
theorem layoutTable_ok {td : TableDef} {tl : TableLayout}
    (h : layoutTable td = .ok tl) :
    cellWidth td.keyType td.keyN = some tl.keyWidth ∧ 0 < tl.keyWidth
      ∧ tl.keyWidth ≤ tl.rowWidth
      ∧ layoutCols tl.keyWidth td.cols = .ok (tl.colOff, tl.rowWidth) := by
  unfold layoutTable at h
  split at h
  · next kw hkw =>
    obtain ⟨⟨offs, w⟩, hcs, h₁⟩ := bind_ok.mp h
    cases h₁
    exact ⟨hkw, Nat.succ_pos _, layoutCols_width hcs, hcs⟩
  · cases h

-- ======== fields

/-- The places of a field in a layout. -/
structure Layout.At (l : Layout) (j : Nat) (f : FieldDef) : Prop where
  fixed : ∀ w, cellWidth f.type f.n = some w →
    ∃ off, l.fixedOff[j]? = some (some off)
  tail : cellWidth f.type f.n = none → l.fixedOff[j]? = some none
  table : f.type = .table → ∃ td tl, f.table = some td
    ∧ layoutTable td = .ok tl ∧ l.tables[j]? = some (some tl)
  plain : f.type ≠ .table → l.tables[j]? = some none

/-- A table has no width of its own. -/
theorem cellWidth_table : cellWidth .table n = none := rfl

/-- The loop of `Layout`, one field at a time. -/
theorem layoutFrom_cons {i off : Nat} {f : FieldDef} {fs : List FieldDef}
    {l : Layout} (h : layoutFrom i off (f :: fs) = .ok l) :
    (∃ w l', cellWidth f.type f.n = some w
      ∧ layoutFrom (i + 1) (off + w) fs = .ok l'
      ∧ l = { l' with
        fixedOff := some off :: l'.fixedOff
        tables := none :: l'.tables })
    ∨ (∃ l' tl, cellWidth f.type f.n = none
      ∧ layoutFrom (i + 1) off fs = .ok l'
      ∧ (f.type = .table → ∃ td tl', f.table = some td
        ∧ layoutTable td = .ok tl' ∧ tl = some tl')
      ∧ (f.type ≠ .table → tl = none)
      ∧ l = { l' with
        fixedOff := none :: l'.fixedOff
        varTail := i :: l'.varTail
        tables := tl :: l'.tables }) := by
  rw [layoutFrom] at h
  obtain ⟨-, h₁⟩ := check_ok.mp h
  cases hw : cellWidth f.type f.n with
  | some w =>
    rw [hw] at h₁
    obtain ⟨l', hl', h₂⟩ := bind_ok.mp h₁
    injection h₂ with h₂
    exact .inl ⟨w, l', rfl, hl', h₂.symm⟩
  | none =>
    rw [hw] at h₁
    dsimp only at h₁
    refine .inr ?_
    split at h₁
    · next ht =>
      cases htd : f.table with
      | none =>
        rw [htd] at h₁
        cases h₁
      | some td =>
        rw [htd] at h₁
        obtain ⟨tl, htl, h₂⟩ := bind_ok.mp h₁
        obtain ⟨l', hl', h₃⟩ := bind_ok.mp h₂
        injection h₃ with h₃
        exact ⟨l', some tl, rfl, hl', fun _ => ⟨td, tl, rfl, htl, rfl⟩,
          fun hne => absurd ht hne, h₃.symm⟩
    · next ht =>
      obtain ⟨l', hl', h₂⟩ := bind_ok.mp h₁
      injection h₂ with h₂
      exact ⟨l', none, rfl, hl', fun hf => absurd hf ht, fun _ => rfl, h₂.symm⟩

/-- Every field has its places. -/
theorem layoutFrom_at {fs : List FieldDef} :
    ∀ {i off : Nat} {l : Layout}, layoutFrom i off fs = .ok l →
      ∀ {j : Nat} {f : FieldDef}, fs[j]? = some f → l.At j f := by
  induction fs with
  | nil =>
    intro i off l _ j f hj
    rw [List.getElem?_nil] at hj
    cases hj
  | cons g fs ih =>
    intro i off l h j f hj
    rcases layoutFrom_cons h with ⟨w, l', hw, hl', rfl⟩
      | ⟨l', tl, hw, hl', htab, hplain, rfl⟩
    · cases j with
      | zero =>
        rw [List.getElem?_cons_zero] at hj
        cases hj
        refine ⟨fun _ _ => ⟨off, rfl⟩, fun hn => ?_, fun ht => ?_,
          fun _ => rfl⟩
        · rw [hw] at hn
          cases hn
        · rw [ht, cellWidth_table] at hw
          cases hw
      | succ j =>
        rw [List.getElem?_cons_succ] at hj
        obtain ⟨h₁, h₂, h₃, h₄⟩ := ih hl' hj
        exact ⟨h₁, h₂, h₃, h₄⟩
    · cases j with
      | zero =>
        rw [List.getElem?_cons_zero] at hj
        cases hj
        refine ⟨fun w hs => ?_, fun _ => rfl, fun ht => ?_, fun ht => ?_⟩
        · rw [hw] at hs
          cases hs
        · obtain ⟨td, tl', htd, htl, rfl⟩ := htab ht
          exact ⟨td, tl', htd, htl, rfl⟩
        · rw [hplain ht]
          rfl
      | succ j =>
        rw [List.getElem?_cons_succ] at hj
        obtain ⟨h₁, h₂, h₃, h₄⟩ := ih hl' hj
        exact ⟨h₁, h₂, h₃, h₄⟩

theorem layout_at {s : Schema} {l : Layout} (h : s.layout = .ok l) {j : Nat}
    {f : FieldDef} (hj : s.fields[j]? = some f) : l.At j f :=
  layoutFrom_at h hj

end Rostam.Wire
