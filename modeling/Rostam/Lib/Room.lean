/-
Room for a sequence of items over places with free space.

Items are placed one at a time, each on one place. `Roomy` is enough
space for all of them wherever the earlier ones go: over some set of
places the free space covers the items' sum and, for all but one of the
places, what may be left over where the largest item no longer fits.
-/
import Mathlib.Algebra.Order.BigOperators.Ring.Finset
import Mathlib.Algebra.Order.Ring.Nat

namespace Rostam.Lib

variable {free free' : Nat → Nat} {z : Nat} {needs : List Nat}

/-- The largest of the items. -/
def largest (needs : List Nat) : Nat := needs.foldr max 0

/-- There is room for the items, in whatever order of places. -/
def Roomy (free : Nat → Nat) (needs : List Nat) : Prop :=
  ∃ S : Finset Nat, S.Nonempty ∧
    needs.sum + (S.card - 1) * (largest needs - 1) ≤ ∑ i ∈ S, free i

/-- The next item fits somewhere. -/
theorem Roomy.exists_room (h : Roomy free (z :: needs)) (hz : 0 < z) :
    ∃ i, z ≤ free i := by
  obtain ⟨S, hne, hsum⟩ := h
  by_contra hno
  have hlt : ∀ i, free i ≤ z - 1 := by
    intro i
    have hi : ¬ z ≤ free i := fun hle => hno ⟨i, hle⟩
    omega
  have htotal : ∑ i ∈ S, free i ≤ S.card * (z - 1) :=
    Finset.sum_le_card_nsmul S free (z - 1) fun i _ => hlt i
  have hcard : 0 < S.card := hne.card_pos
  have hsplit : S.card * (z - 1) = (S.card - 1) * (z - 1) + (z - 1) := by
    obtain ⟨n, hn⟩ : ∃ n, S.card = n + 1 := ⟨S.card - 1, by omega⟩
    rw [hn, Nat.add_sub_cancel, Nat.succ_mul]
  have hslack : (S.card - 1) * (z - 1) ≤
      (S.card - 1) * (largest (z :: needs) - 1) := by
    apply Nat.mul_le_mul_left
    have hle : z ≤ largest (z :: needs) := le_max_left _ _
    omega
  rw [List.sum_cons] at hsum
  omega

/-- Placing the next item leaves room for the rest. -/
theorem Roomy.spend (h : Roomy free (z :: needs)) (j : Nat)
    (hj : ∀ i, (if i = j then free j - z else free i) ≤ free' i) :
    Roomy free' needs := by
  obtain ⟨S, hne, hsum⟩ := h
  refine ⟨S, hne, ?_⟩
  have hspent : ∑ i ∈ S, free i ≤ ∑ i ∈ S, free' i + z := by
    by_cases hmem : j ∈ S
    · rw [← Finset.add_sum_erase S free hmem,
        ← Finset.add_sum_erase S free' hmem]
      have hothers : ∑ i ∈ S.erase j, free i ≤ ∑ i ∈ S.erase j, free' i := by
        apply Finset.sum_le_sum
        intro i hi
        have := hj i
        rw [if_neg (Finset.ne_of_mem_erase hi)] at this
        exact this
      have hown := hj j
      rw [if_pos rfl] at hown
      omega
    · have hothers : ∑ i ∈ S, free i ≤ ∑ i ∈ S, free' i := by
        apply Finset.sum_le_sum
        intro i hi
        have := hj i
        rw [if_neg fun he : i = j => hmem (he ▸ hi)] at this
        exact this
      omega
  have hslack : (S.card - 1) * (largest needs - 1) ≤
      (S.card - 1) * (largest (z :: needs) - 1) := by
    apply Nat.mul_le_mul_left
    have hle : largest needs ≤ largest (z :: needs) := le_max_right _ _
    omega
  rw [List.sum_cons] at hsum
  omega

/-- An item that is not placed after all. -/
theorem Roomy.skip (h : Roomy free (z :: needs)) : Roomy free needs := by
  apply h.spend 0
  intro i
  split
  · next hi =>
    rw [hi]
    exact Nat.sub_le ..
  · exact le_rfl

/-- One place with room for everything is room. -/
theorem roomy_of_one {i : Nat} (h : needs.sum ≤ free i) :
    Roomy free needs := by
  refine ⟨{i}, Finset.singleton_nonempty i, ?_⟩
  rw [Finset.sum_singleton, Finset.card_singleton, Nat.sub_self, Nat.zero_mul]
  exact h

end Rostam.Lib
