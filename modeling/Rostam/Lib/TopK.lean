/-
The best `k` of a collection, up to ties.

A strict weak order ranks the elements and leaves ties open, so there is
more than one best `k`: `IsTopK` says of a sub-multiset that it is one.
Two of them differ only in elements that tie at the worst rank
(`IsTopK.filter_eq`), and the best `k` of what remains of several parts,
as long as a best `k` of each part remains, are the best `k` of the parts
together (`IsTopK.of_parts`).
-/
import Mathlib.Algebra.BigOperators.Group.Multiset.Basic
import Mathlib.Data.Multiset.Sort

namespace Rostam.Lib

variable {α β : Type}

/-- A comparison that is a strict weak order: asymmetric and negatively
transitive. -/
structure StrictWeak (less : α → α → Bool) : Prop where
  asymm : ∀ {a b}, less a b = true → less b a = false
  not_less : ∀ {a b c}, less a b = false → less b c = false →
    less a c = false

theorem StrictWeak.irrefl {less : α → α → Bool} (h : StrictWeak less)
    (a : α) : less a a = false := by
  cases ha : less a a with
  | false => rfl
  | true => exact ha.symm.trans (h.asymm ha)

/-- The order of a key. -/
theorem StrictWeak.of_key [LinearOrder β] (f : α → β) :
    StrictWeak fun a b => decide (f a < f b) where
  asymm := fun h => by
    simp only [decide_eq_true_eq, decide_eq_false_iff_not, not_lt] at h ⊢
    exact h.le
  not_less := fun h h' => by
    simp only [decide_eq_false_iff_not, not_lt] at h h' ⊢
    exact h'.trans h

variable {less : α → α → Bool}

/-- How many of `n` are kept under a cap; a negative one is no cap. -/
def capped (k : Int) (n : Nat) : Nat := if k < 0 then n else min k.toNat n

/-- `R` are the best of `S` under the cap `k`: nothing that was left out
is better than anything in `R`. -/
def IsTopK (less : α → α → Bool) (k : Int) (S R : Multiset α) : Prop :=
  ∃ D, R + D = S ∧ R.card = capped k S.card
    ∧ ∀ x ∈ R, ∀ y ∈ D, less y x = false

variable {k : Int} {S R T : Multiset α}

/-- Fewer elements are better than one of the best than there are best. -/
theorem IsTopK.countP_lt (h : IsTopK less k S R) (hw : StrictWeak less)
    {x : α} (hx : x ∈ R) : S.countP (less · x = true) < R.card := by
  obtain ⟨D, rfl, -, hD⟩ := h
  have hnone : D.countP (less · x = true) = 0 := by
    rw [Multiset.countP_eq_zero]
    exact fun y hy hless => by simp [hD x hx y hy] at hless
  have hself : ¬ R.countP (less · x = true) = R.card := by
    rw [Multiset.countP_eq_card]
    exact fun hall => by simpa [hw.irrefl] using hall x hx
  have := Multiset.countP_le_card (less · x = true) R
  rw [Multiset.countP_add, hnone]
  omega

/-- One of the best is not worse than anything that has as many as there
are best before it or level with it. -/
theorem IsTopK.not_less (h : IsTopK less k S R) (hw : StrictWeak less)
    (hT : T ≤ S) (hcard : R.card ≤ T.card) {x y : α} (hx : x ∈ R)
    (hy : ∀ t ∈ T, less y t = false) : less y x = false := by
  cases hyx : less y x with
  | false => rfl
  | true =>
    have hall : T.countP (less · x = true) = T.card := by
      rw [Multiset.countP_eq_card]
      intro t ht
      cases htx : less t x with
      | true => rfl
      | false => rw [hw.not_less (hy t ht) htx] at hyx; cases hyx
    have hle := Multiset.countP_le_of_le (less · x = true) hT
    have hlt := h.countP_lt hw hx
    omega

section Offer

variable {s r : α}

/-- Below the cap everything is among the best. -/
theorem IsTopK.add (h : IsTopK less k S R) (hlt : R.card < k) :
    IsTopK less k (s ::ₘ S) (s ::ₘ R) := by
  obtain ⟨D, rfl, hcard, -⟩ := h
  simp only [capped, Multiset.card_add] at hcard
  have hk : ¬ k < 0 := by omega
  rw [if_neg hk] at hcard
  obtain rfl : D = 0 := Multiset.card_eq_zero.mp (by omega)
  refine ⟨0, by simp, ?_, by simp⟩
  simp only [capped, if_neg hk, add_zero, Multiset.card_cons]
  omega

variable (h : IsTopK less k S (r ::ₘ R)) (hw : StrictWeak less)
  (hroot : ∀ x ∈ r ::ₘ R, less r x = false) (hk : 0 ≤ k ∧ k ≤ (r ::ₘ R).card)

include h hw hroot hk

/-- At the cap, a better one takes the place of the worst. -/
theorem IsTopK.replace (hless : less s r = true) :
    IsTopK less k (s ::ₘ S) (s ::ₘ R) := by
  obtain ⟨D, rfl, hcard, hbest⟩ := h
  refine ⟨r ::ₘ D, by simp [Multiset.cons_swap], ?_, ?_⟩
  · simp only [capped, if_neg (not_lt.mpr hk.1), Multiset.card_cons,
      Multiset.card_add] at hk hcard ⊢
    omega
  · have hrs := hw.asymm hless
    intro x hx y hy
    have hyr : less y r = false := by
      rcases Multiset.mem_cons.mp hy with rfl | hy
      · exact hw.irrefl _
      · exact hbest r (Multiset.mem_cons_self _ _) y hy
    rcases Multiset.mem_cons.mp hx with rfl | hx
    · exact hw.not_less hyr hrs
    · exact hw.not_less hyr (hroot x (Multiset.mem_cons_of_mem hx))

/-- One that is not better is left out. -/
theorem IsTopK.leave (hless : less s r = false) :
    IsTopK less k (s ::ₘ S) (r ::ₘ R) := by
  obtain ⟨D, rfl, hcard, hbest⟩ := h
  refine ⟨s ::ₘ D, by simp, ?_, ?_⟩
  · simp only [capped, if_neg (not_lt.mpr hk.1), Multiset.card_cons,
      Multiset.card_add] at hk hcard ⊢
    omega
  · intro x hx y hy
    rcases Multiset.mem_cons.mp hy with rfl | hy
    · exact hw.not_less hless (hroot x hx)
    · exact hbest x hx y hy

end Offer

/-- Two choices of the best agree before any of them. -/
theorem IsTopK.filter_eq (h : IsTopK less k S R) (hT : IsTopK less k S T)
    (hw : StrictWeak less) {x : α} (hx : x ∈ R) :
    T.filter (less · x = true) = R.filter (less · x = true) := by
  obtain ⟨D, hD, hcard, hbest⟩ := id h
  obtain ⟨E, hE, hcard', hbest'⟩ := hT
  have hnone : ∀ F : Multiset α, (∀ y ∈ F, less y x = false) →
      F.filter (less · x = true) = 0 := by
    intro F hF
    rw [Multiset.filter_eq_nil]
    exact fun y hy => by simp [hF y hy]
  have hno : ∀ y ∈ E, less y x = false := fun y hy =>
    h.not_less hw (Multiset.le_iff_exists_add.mpr ⟨E, hE.symm⟩)
      (hcard.trans hcard'.symm).le hx fun t ht => hbest' t ht y hy
  have heq := congrArg (Multiset.filter (less · x = true)) (hE.trans hD.symm)
  rw [Multiset.filter_add, Multiset.filter_add, hnone E hno,
    hnone D (hbest x hx), add_zero, add_zero] at heq
  exact heq

/-- What a part returned, against all it holds: its own, and a best `k`
of them. -/
def Covers (less : α → α → Bool) (k : Int) (L P : Multiset α) : Prop :=
  L ≤ P ∧ ∃ T ≤ L, IsTopK less k P T

/-- What the parts did not return has as many as the cap allows before it
or level with it. -/
theorem exists_omitted {Ls Ps : List (Multiset α)}
    (h : List.Forall₂ (Covers less k) Ls Ps) :
    ∃ E, Ls.sum + E = Ps.sum ∧ ∀ y ∈ E, ∃ T ≤ Ls.sum,
      (0 ≤ k ∧ T.card = k.toNat) ∧ ∀ t ∈ T, less y t = false := by
  induction h with
  | nil => exact ⟨0, rfl, by simp⟩
  | @cons L P Ls Ps hLP _ ih =>
    obtain ⟨E, hE, hall⟩ := ih
    obtain ⟨hle, T, hT, D, hD, hcard, hbest⟩ := hLP
    obtain ⟨F, rfl⟩ := Multiset.le_iff_exists_add.mp hle
    obtain ⟨Q, rfl⟩ := Multiset.le_iff_exists_add.mp hT
    refine ⟨F + E, ?_, fun y hy => ?_⟩
    · rw [List.sum_cons, List.sum_cons, ← hE, add_add_add_comm]
    · rcases Multiset.mem_add.mp hy with hy | hy
      · refine ⟨T, hT.trans (Multiset.le_add_right _ _), ?_, fun t ht => ?_⟩
        · have hpos := Multiset.card_pos_iff_exists_mem.mpr ⟨y, hy⟩
          simp only [capped, Multiset.card_add] at hcard
          split at hcard <;> omega
        · rw [add_assoc, add_right_inj] at hD
          exact hbest t ht y (hD ▸ Multiset.mem_add.mpr (.inr hy))
      · obtain ⟨T', hT', hrest⟩ := hall y hy
        exact ⟨T', hT'.trans (Multiset.le_add_left _ _), hrest⟩

/-- The best of what the parts returned are the best of the parts. -/
theorem IsTopK.of_parts {Ls Ps : List (Multiset α)} (hw : StrictWeak less)
    (h : List.Forall₂ (Covers less k) Ls Ps) (hR : IsTopK less k Ls.sum R) :
    IsTopK less k Ps.sum R := by
  obtain ⟨E, hE, hall⟩ := exists_omitted h
  obtain ⟨D, hD, hcard, hbest⟩ := id hR
  refine ⟨D + E, by rw [← add_assoc, hD, hE], ?_, fun x hx y hy => ?_⟩
  · rw [hcard, ← hE, Multiset.card_add]
    rcases Multiset.empty_or_exists_mem E with rfl | ⟨y, hy⟩
    · simp
    · obtain ⟨T, hT, hk, -⟩ := hall y hy
      have := Multiset.card_le_card hT
      unfold capped
      split <;> omega
  · rcases Multiset.mem_add.mp hy with hy | hy
    · exact hbest x hx y hy
    · obtain ⟨T, hT, hk, ht⟩ := hall y hy
      refine hR.not_less hw hT ?_ hx ht
      unfold capped at hcard
      split at hcard <;> omega

/-- A sorted list begins with its best. -/
theorem isTopK_take {l : List α} (h : l.Pairwise fun a b => less b a = false)
    (hk : 0 ≤ k) : IsTopK less k l (l.take k.toNat) := by
  refine ⟨l.drop k.toNat, ?_, ?_, fun x hx y hy => ?_⟩
  · rw [Multiset.coe_add, List.take_append_drop]
  · simp [capped, Int.not_lt.mpr hk]
  · rw [← List.take_append_drop k.toNat l] at h
    exact (List.pairwise_append.mp h).2.2 x hx y hy

/-- Sorted choices of the best agree in rank. -/
theorem IsTopK.map_eq [LinearOrder β] {f : α → β} {l l' : List α}
    (h : IsTopK (fun a b => decide (f a < f b)) k S l)
    (h' : IsTopK (fun a b => decide (f a < f b)) k S l')
    (hl : (l.map f).Pairwise (· ≤ ·)) (hl' : (l'.map f).Pairwise (· ≤ ·)) :
    l.map f = l'.map f := by
  have hsort : ∀ l : List α, IsTopK (fun a b => decide (f a < f b)) k S l →
      (l.map f).Pairwise (· ≤ ·) →
      l.map f = ((S.map f).sort (· ≤ ·)).take (capped k S.card) := by
    rintro l ⟨D, rfl, hcard, hbest⟩ hl
    have heq : ((l + D : Multiset α).map f).sort (· ≤ ·)
        = l.map f ++ (D.map f).sort (· ≤ ·) := by
      refine List.Perm.eq_of_pairwise' (Multiset.pairwise_sort _ _) ?_ ?_
      · refine List.pairwise_append.mpr ⟨hl, Multiset.pairwise_sort _ _, ?_⟩
        intro x hx y hy
        obtain ⟨a, ha, rfl⟩ := List.mem_map.mp hx
        obtain ⟨b, hb, rfl⟩ :=
          Multiset.mem_map.mp ((Multiset.mem_sort _).mp hy)
        simpa using hbest a ha b hb
      · rw [← Multiset.coe_eq_coe, Multiset.sort_eq, ← Multiset.coe_add,
          Multiset.sort_eq, Multiset.map_add, Multiset.map_coe]
    rw [heq, ← hcard, Multiset.coe_card, ← List.length_map f, List.take_left]
  rw [hsort l h hl, hsort l' h' hl']

end Rostam.Lib
