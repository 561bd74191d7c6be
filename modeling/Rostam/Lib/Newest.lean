/-
Newest records of a log.

A log-structured store appends a record for every write, under an ever
higher sequence, and finds a key's value as the record of that key with
the highest sequence. The log is a set here: where a record lies does
not matter, only which records there are. `contest` is the scan that
recovers the newest record of every key in one pass, in any order.
-/
import Mathlib.Data.List.Induction
import Mathlib.Data.Set.Insert
import Mathlib.Data.Set.Function
import Mathlib.Logic.Function.Basic

namespace Rostam.Lib

open Function

variable {α κ : Type} {key : α → κ} {seq : α → Nat} {L M : Set α}
  {k : κ} {a b : α}

variable {best : κ → Option α}

/-- `a` is the record of `k` with the highest sequence in `L`. -/
structure IsNewest (key : α → κ) (seq : α → Nat) (L : Set α) (k : κ)
    (a : α) : Prop where
  mem : a ∈ L
  key_eq : key a = k
  le : ∀ b ∈ L, key b = k → seq b ≤ seq a

theorem IsNewest.unique (inj : Set.InjOn seq L)
    (ha : IsNewest key seq L k a) (hb : IsNewest key seq L k b) :
    a = b := by
  apply inj ha.mem hb.mem
  have hab : seq a ≤ seq b := hb.le a ha.mem ha.key_eq
  have hba : seq b ≤ seq a := ha.le b hb.mem hb.key_eq
  omega

/-- The newest record stays newest in any part of the log it is in. -/
theorem IsNewest.subset (h : IsNewest key seq L k a) (hM : M ⊆ L)
    (ha : a ∈ M) : IsNewest key seq M k a where
  mem := ha
  key_eq := h.key_eq
  le := fun b hb hk => h.le b (hM hb) hk

/-- A key with a record has a newest one, where sequences are bounded. -/
theorem exists_isNewest {n : Nat} (hn : ∀ a ∈ L, seq a ≤ n)
    (ha : a ∈ L) (hk : key a = k) : ∃ b, IsNewest key seq L k b := by
  -- climb from `a`: either it is the newest, or a later record is there
  induction hd : n - seq a using Nat.strong_induction_on generalizing a with
  | _ d ih =>
    by_cases hmax : ∀ b ∈ L, key b = k → seq b ≤ seq a
    · exact ⟨a, ha, hk, hmax⟩
    · push Not at hmax
      obtain ⟨b, hb, hbk, hlt⟩ := hmax
      have hbn : seq b ≤ n := hn b hb
      exact ih (n - seq b) (by omega) hb hbk rfl

/-- Appending under a higher sequence: the record becomes its own key's
newest and leaves every other key alone. -/
theorem isNewest_insert_iff (top : ∀ b ∈ L, seq b < seq a) :
    IsNewest key seq (insert a L) k b ↔
      key a = k ∧ b = a ∨ key a ≠ k ∧ IsNewest key seq L k b := by
  constructor
  · intro h
    by_cases hk : key a = k
    · refine Or.inl ⟨hk, ?_⟩
      rcases h.mem with hba | hbL
      · exact hba
      · have hle : seq a ≤ seq b := h.le a (Set.mem_insert a L) hk
        have hlt : seq b < seq a := top b hbL
        omega
    · refine Or.inr ⟨hk, h.subset (Set.subset_insert a L) ?_⟩
      rcases h.mem with hba | hbL
      · subst hba
        exact absurd h.key_eq hk
      · exact hbL
  · rintro (⟨hk, hba⟩ | ⟨hk, h⟩)
    · subst hba
      refine ⟨Set.mem_insert b L, hk, ?_⟩
      rintro c (hc | hc) _
      · rw [hc]
      · exact (top c hc).le
    · refine ⟨Set.mem_insert_of_mem a h.mem, h.key_eq, ?_⟩
      rintro c (hc | hc) hck
      · subst hc
        exact absurd hck hk
      · exact h.le c hc hck

-- ======== contest

/-- One record of the recovery scan: it takes its key unless a record at
least as new holds it. -/
def contest [DecidableEq κ] (key : α → κ) (seq : α → Nat)
    (best : κ → Option α) (a : α) : κ → Option α :=
  if ((best (key a)).map fun b => decide (seq a ≤ seq b)).getD false
  then best
  else update best (key a) (some a)

/-- What the scan holds of the records seen so far. -/
structure Best (key : α → κ) (seq : α → Nat) (L : Set α)
    (best : κ → Option α) : Prop where
  newest : ∀ k a, best k = some a → IsNewest key seq L k a
  total : ∀ a ∈ L, best (key a) ≠ none

theorem best_empty : Best key seq ∅ (fun _ => none) where
  newest := fun k a h => by cases h
  total := fun a ha => by cases ha

/-- A record at least as new is already there: nothing changes. -/
theorem Best.keep (h : Best key seq L best)
    (hb : best (key a) = some b) (hle : seq a ≤ seq b) :
    Best key seq (insert a L) best where
  newest := by
    intro k c hc
    have hn := h.newest k c hc
    refine ⟨Set.mem_insert_of_mem a hn.mem, hn.key_eq, ?_⟩
    rintro d (hd | hd) hdk
    · subst hd
      rw [hdk, hc] at hb
      injection hb with hb
      rw [hb]
      exact hle
    · exact hn.le d hd hdk
  total := by
    rintro c (hc | hc)
    · subst hc
      rw [hb]
      exact Option.some_ne_none b
    · exact h.total c hc

/-- No record of the key is as new: the scan takes this one. -/
theorem Best.take [DecidableEq κ] (h : Best key seq L best)
    (hlt : ∀ b, best (key a) = some b → seq b < seq a) :
    Best key seq (insert a L) (update best (key a) (some a)) where
  newest := by
    intro k c hc
    by_cases hk : k = key a
    · subst hk
      rw [update_self] at hc
      cases hc
      refine ⟨Set.mem_insert a L, rfl, ?_⟩
      rintro d (hd | hd) hdk
      · rw [hd]
      · obtain ⟨b, hb⟩ := Option.ne_none_iff_exists'.mp (h.total d hd)
        have hdb : seq d ≤ seq b := (h.newest _ b hb).le d hd rfl
        rw [hdk] at hb
        exact hdb.trans (hlt b hb).le
    · rw [update_of_ne hk] at hc
      have hn := h.newest k c hc
      refine ⟨Set.mem_insert_of_mem a hn.mem, hn.key_eq, ?_⟩
      rintro d (hd | hd) hdk
      · subst hd
        exact absurd hdk.symm hk
      · exact hn.le d hd hdk
  total := by
    rintro c hc
    by_cases hk : key c = key a
    · rw [hk, update_self]
      exact Option.some_ne_none a
    · rw [update_of_ne hk]
      rcases hc with hc | hc
      · subst hc
        exact absurd rfl hk
      · exact h.total c hc

theorem Best.contest [DecidableEq κ] (h : Best key seq L best) (a : α) :
    Best key seq (insert a L) (contest key seq best a) := by
  unfold Lib.contest
  split
  · next hc =>
    obtain ⟨b, hb⟩ : ∃ b, best (key a) = some b := by
      cases hb : best (key a) with
      | none => rw [hb] at hc; cases hc
      | some b => exact ⟨b, rfl⟩
    rw [hb] at hc
    exact h.keep hb (of_decide_eq_true hc)
  · next hc =>
    apply h.take
    intro b hb
    rw [hb] at hc
    have hnot : ¬ seq a ≤ seq b := fun hle =>
      hc (decide_eq_true hle)
    omega

/-- The scan over any list of records finds the newest of every key. -/
theorem best_foldl_contest [DecidableEq κ] (key : α → κ)
    (seq : α → Nat) (l : List α) :
    Best key seq {a | a ∈ l} (l.foldl (contest key seq) fun _ => none) := by
  induction l using List.reverseRecOn with
  | nil =>
    have he : {a | a ∈ ([] : List α)} = ∅ := by ext; simp
    rw [he]
    exact best_empty
  | append_singleton l a ih =>
    have he : {b | b ∈ l ++ [a]} = insert a {b | b ∈ l} := by
      ext b
      simp [or_comm]
    rw [he, List.foldl_append]
    exact ih.contest a

end Rostam.Lib
