/-
The bounded merge is exact.

`UpTo` and `DownFrom` are the heap's order while an element is on its way
up or down: every pair of parent and child is in order but those of one
place, whose children are in order with its parent. A candidate that is
taken in so leaves a heap, whose root no element exceeds; and since the
root is what makes room, what is kept stays a best `k` (`Scan`).
-/
import Rostam.Cluster.Merge

namespace Rostam.Cluster.Merge

open Rostam.Lib

variable {α : Type} {less : α → α → Bool} {n : Nat} {h : Vector α n}
  {i : Fin n}

-- ======== the heap

/-- No child exceeds its parent. -/
def IsHeap (less : α → α → Bool) (h : Vector α n) : Prop :=
  ∀ j (hj : j < n), 0 < j → less h[(j - 1) / 2] h[j] = false

/-- A heap, but that the element at `i` may exceed its parent. -/
structure UpTo (less : α → α → Bool) (h : Vector α n) (i : Fin n) : Prop where
  ordered : ∀ j (hj : j < n), 0 < j → j ≠ i →
    less h[(j - 1) / 2] h[j] = false
  across : ∀ j (hj : j < n), 0 < j → (j - 1) / 2 = i → 0 < i.1 →
    less h[(i.1 - 1) / 2] h[j] = false

/-- A heap, but that the children of `i` may exceed it. -/
structure DownFrom (less : α → α → Bool) (h : Vector α n) (i : Fin n) :
    Prop where
  ordered : ∀ j (hj : j < n), 0 < j → (j - 1) / 2 ≠ i →
    less h[(j - 1) / 2] h[j] = false
  across : ∀ j (hj : j < n), 0 < j → (j - 1) / 2 = i → 0 < i.1 →
    less h[(i.1 - 1) / 2] h[j] = false

section Heap

variable (hw : StrictWeak less)

include hw

/-- The root is not exceeded. -/
theorem IsHeap.root (hh : IsHeap less h) (hn : 0 < n) :
    ∀ j (hj : j < n), less h[0] h[j] = false := by
  intro j
  induction j using Nat.strong_induction_on with
  | _ j ih =>
    intro hj
    rcases Nat.eq_zero_or_pos j with rfl | hpos
    · exact hw.irrefl _
    · exact hw.not_less (ih ((j - 1) / 2) (by omega) (by omega))
        (hh j hj hpos)

/-- A swap with the parent moves the defect up. -/
theorem UpTo.move (hu : UpTo less h i) (hi : 0 < i.1) {p : Fin n}
    (hp : p.1 = (i.1 - 1) / 2) (hless : less h[p] h[i] = true) :
    UpTo less (h.swap p i) p := by
  obtain ⟨hord, hacross⟩ := hu
  have hasymm := @hw.asymm
  have hnot := @hw.not_less
  constructor
  · intro j hj hpos hne
    grind
  · intro j hj hpos hpar hp
    grind

/-- Sifting up ends in a heap. -/
theorem maxHeapUp_heap (hu : UpTo less h i) :
    IsHeap less (maxHeapUp less h i) := by
  fun_induction maxHeapUp less h i with
  | case1 h i hi parent hstop =>
    intro j hj hpos
    by_cases hji : j = i
    · subst hji
      simpa using hstop
    · exact hu.ordered j hj hpos hji
  | case2 h i hi parent hstop ih =>
    exact ih (hu.move hw hi rfl (by simpa using hstop))
  | case3 h i hi => exact fun j hj hpos => hu.ordered j hj hpos (by omega)

/-- The place the element at `i` goes down to: none of the children
exceeds what is there. -/
theorem larger_cases {m : Fin n}
    (hm : m = larger less h (larger less h i (2 * i + 1)) (2 * i + 2)) :
    (∀ j (hj : j < n), 0 < j → (j - 1) / 2 = i → less h[m] h[j] = false)
      ∧ (m ≠ i → (m.1 - 1) / 2 = i.1 ∧ i.1 < m.1 ∧ less h[i] h[m] = true) := by
  have hasymm := @hw.asymm
  have hnot := @hw.not_less
  have hirr := hw.irrefl
  unfold larger at hm
  constructor
  · intro j hj hpos hpar
    have hj : j = 2 * i + 1 ∨ j = 2 * i + 2 := by omega
    grind
  · intro hne
    grind

/-- A swap with the larger child moves the defect down. -/
theorem DownFrom.move (hd : DownFrom less h i) {m : Fin n}
    (hm : (m.1 - 1) / 2 = i.1) (hlt : i.1 < m.1)
    (hless : less h[i] h[m] = true)
    (hmax : ∀ j (hj : j < n), 0 < j → (j - 1) / 2 = i →
      less h[m] h[j] = false) : DownFrom less (h.swap i m) m := by
  obtain ⟨hord, hacross⟩ := hd
  have hasymm := @hw.asymm
  constructor
  · intro j hj hpos hne
    grind
  · intro j hj hpos hpar hp
    grind

/-- Sifting down ends in a heap. -/
theorem maxHeapDown_heap (hd : DownFrom less h i) :
    IsHeap less (maxHeapDown less h i) := by
  fun_induction maxHeapDown less h i with
  | case1 h i largest hstop =>
    have hmax := (larger_cases hw (h := h) (i := i) rfl).1
    intro j hj hpos
    by_cases hp : (j - 1) / 2 = i
    · have := hmax j hj hpos hp
      grind
    · exact hd.ordered j hj hpos hp
  | case2 h i largest hgo ih =>
    obtain ⟨hmax, hmove⟩ := larger_cases hw (h := h) (i := i) rfl
    obtain ⟨hpar, hlt, hless⟩ := hmove hgo
    exact ih (hd.move hw hpar hlt hless hmax)

end Heap

theorem maxHeapUp_perm : (maxHeapUp less h i).Perm h := by
  fun_induction maxHeapUp less h i with
  | case1 => exact .refl _
  | case2 h i hi parent hstop ih => exact ih.trans (Vector.swap_perm ..)
  | case3 => exact .refl _

theorem maxHeapDown_perm : (maxHeapDown less h i).Perm h := by
  fun_induction maxHeapDown less h i with
  | case1 => exact .refl _
  | case2 h i largest hgo ih => exact ih.trans (Vector.swap_perm ..)

-- ======== MergeTopK

/-- The heap of a scan: the best `k` of what was offered. -/
structure Scan (less : α → α → Bool) (k : Nat) (S : Multiset α)
    (h : Array α) : Prop where
  heap : ∀ j (hj : j < h.size), 0 < j → less h[(j - 1) / 2] h[j] = false
  top : IsTopK less k S h.toList

variable {k : Nat} {S : Multiset α} {a : Array α} {l : List α}

theorem Scan.of_vector (hh : IsHeap less h) (hp : h.toList.Perm l)
    (ht : IsTopK less k S l) : Scan less k S h.toArray where
  heap := fun j hj hpos => hh j (by simpa using hj) hpos
  top := by
    rw [Vector.toList_toArray, Multiset.coe_eq_coe.mpr hp]
    exact ht

/-- An offer keeps the best so far. -/
theorem Scan.offer (hw : StrictWeak less) (hk : 0 < k) (hs : Scan less k S a)
    (s : α) :
    Scan less k (s ::ₘ S) (offer less k a s) := by
  obtain ⟨hheap, htop⟩ := hs
  unfold Merge.offer
  split
  · next hlt =>
    have hadd : IsTopK less k (s ::ₘ S) (a.toList ++ [s]) := by
      rw [Multiset.coe_eq_coe.mpr (List.perm_append_singleton s a.toList)]
      exact htop.add (by simpa using hlt)
    refine .of_vector (maxHeapUp_heap hw ⟨?_, ?_⟩) ?_ hadd
    · intro j hj hpos hne
      have hlt : j < a.size := by simp at hj hne; omega
      show less (a.push s)[(j - 1) / 2] (a.push s)[j] = false
      rw [Array.getElem_push_lt (by omega), Array.getElem_push_lt hlt]
      exact hheap j hlt hpos
    · intro j hj hpos hpar
      simp at hj hpar
      omega
    · exact maxHeapUp_perm.toList.trans (by simp)
  · next hge =>
    obtain ⟨_ | ⟨r, l⟩⟩ := a
    · simp at hge
      omega
    · have hroot : ∀ x ∈ r ::ₘ (l : Multiset α), less r x = false := by
        intro x hx
        obtain ⟨j, hj, rfl⟩ := List.getElem_of_mem hx
        exact IsHeap.root hw (h := Array.toVector ⟨r :: l⟩) hheap
          (by simp) j hj
      have hfull : 0 ≤ (k : Int)
          ∧ (k : Int) ≤ (r ::ₘ (l : Multiset α)).card := by
        simp at hge ⊢
        omega
      simp only [List.size_toArray, List.length_cons, Nat.zero_lt_succ,
        dite_true, List.getElem_toArray, List.getElem_cons_zero]
      split
      · next hless =>
        refine .of_vector (maxHeapDown_heap hw ⟨?_, ?_⟩) ?_
          (htop.replace hw hroot hfull hless)
        · intro j hj hpos hne
          have hord := hheap j (by simpa using hj) hpos
          obtain ⟨j, rfl⟩ := Nat.exists_eq_succ_of_ne_zero hpos.ne'
          obtain ⟨p, hp⟩ := Nat.exists_eq_succ_of_ne_zero hne
          simp only [hp] at hord ⊢
          exact hord
        · exact fun _ _ _ _ h0 => absurd h0 (Nat.lt_irrefl 0)
        · exact maxHeapDown_perm.toList
      · next hless =>
        exact ⟨hheap, htop.leave hw hroot hfull (by simpa using hless)⟩

/-- The scan of all parts has the best of all. -/
theorem Scan.parts (hw : StrictWeak less) (hk : 0 < k)
    (parts : List (List α)) : Scan less k (parts.flatten : Multiset α)
      (parts.foldl (fun h p => p.foldl (Merge.offer less k) h) #[]) := by
  have hfold : ∀ l : List α, Scan less k (l.reverse : Multiset α)
      (l.foldl (Merge.offer less k) #[]) := by
    intro l
    induction l using List.reverseRecOn with
    | nil =>
      refine ⟨fun j hj => absurd hj (by simp), 0, rfl, ?_, by simp⟩
      simp [capped]
    | append_singleton l s ih =>
      rw [List.foldl_append, List.reverse_append]
      exact ih.offer hw hk s
  have h := hfold parts.flatten
  rw [List.foldl_flatten, Multiset.coe_reverse] at h
  exact h

theorem cmp_lt (less : α → α → Bool) :
    (fun a b => cmp less a b == .lt) = less := by
  funext a b
  unfold cmp
  cases less a b <;> cases less b a <;> rfl

variable {sort : (α → α → Ordering) → List α → List α}

/-- The merge returns the best in order. -/
theorem mergeTopK_top (hsort : SortFunc sort) (hw : StrictWeak less)
    (parts : List (List α)) (k : Int) :
    (mergeTopK sort less parts k).Pairwise (fun a b => less b a = false)
      ∧ IsTopK less k parts.flatten (mergeTopK sort less parts k) := by
  have hsorted : ∀ l, (sort (cmp less) l).Pairwise
      fun a b => less b a = false := by
    intro l
    have h := hsort.sorted (cmp less) l (by rw [cmp_lt]; exact hw)
    simp only [congrFun₂ (cmp_lt less)] at h
    exact h
  have hperm : ∀ l : List α, ((sort (cmp less) l : List α) : Multiset α) = l :=
    fun l => Multiset.coe_eq_coe.mpr (hsort.perm _ l)
  unfold mergeTopK
  split
  · next hk =>
    refine ⟨hsorted _, 0, ?_, ?_, by simp⟩
    · rw [hperm, add_zero]
    · rw [hperm, capped, if_pos hk]
  · split
    · next hk =>
      subst hk
      exact ⟨.nil, parts.flatten, by simp, by simp [capped], by simp⟩
    · refine ⟨hsorted _, ?_⟩
      rw [hperm]
      have h := (Scan.parts hw (k := k.toNat) (by omega) parts).top
      rw [Int.toNat_of_nonneg (by omega)] at h
      exact h

-- ======== groups

variable {D β γ : Type} [LinearOrder D]

/-- Nearer to the query. -/
def nearer (a b : Document D β) : Bool := decide (a.distance < b.distance)

theorem nearer_strictWeak : StrictWeak (nearer : Document D β → _ → _) :=
  .of_key Document.distance

/-- The pool of a size is sorted, and a best `fetchK`. -/
theorem pool_top {fetchK : Int} (hk : 0 ≤ fetchK)
    (parts : List (List (Document D β))) :
    ∃ cands, pool fetchK parts = some cands
      ∧ (cands.map Document.distance).Pairwise (· ≤ ·)
      ∧ IsTopK (α := Document D β) nearer fetchK parts.flatten cands := by
  have hsorted : (parts.flatten.mergeSort fun a b => !before b a).Pairwise
      fun a b => (!before b a) = true := by
    apply List.pairwise_mergeSort
    · unfold before
      grind
    · unfold before
      grind
  have hnear : (parts.flatten.mergeSort fun a b => !before b a).Pairwise
      fun a b => nearer b a = false := by
    refine hsorted.imp fun {a b} h => ?_
    unfold before at h
    unfold nearer
    grind
  refine ⟨(parts.flatten.mergeSort fun a b => !before b a).take fetchK.toNat,
    ?_, ?_, ?_⟩
  · unfold pool
    dsimp only
    rw [if_neg (not_lt.mpr hk)]
    split
    · rfl
    · rw [List.take_of_length_le (by omega)]
  · rw [List.pairwise_map]
    refine (hnear.sublist (List.take_sublist _ _)).imp fun {a b} h => ?_
    simpa [nearer] using h
  · rw [← Multiset.coe_eq_coe.mpr
      (List.mergeSort_perm _ fun a b => !before b a)]
    exact isTopK_take hnear hk

/-- A negative size panics. -/
theorem pool_neg {fetchK : Int} (hk : fetchK < 0)
    (parts : List (List (Document D β))) : pool fetchK parts = none := by
  unfold pool
  dsimp only
  rw [if_pos (by omega), if_pos hk]

/-- Only a product that wraps leaves a negative size. -/
theorem resolveGroupFetchK_neg {k groupSize fetchK : Int} (hk : 0 < k)
    (hg : 0 < groupSize) (h : resolveGroupFetchK k groupSize fetchK < 0) :
    2 ^ 63 ≤ k * groupSize := by
  have hpos := Int.mul_pos hk hg
  unfold resolveGroupFetchK at h
  dsimp only at h
  split at h
  · omega
  · next hge =>
    by_contra hlt
    have hwant : int64 (k * groupSize) = k * groupSize :=
      int64_eq (by omega) (by omega)
    omega

/-- Lists, as the multisets of their elements. -/
theorem sum_map_coe (parts : List (List α)) :
    (parts.map Multiset.ofList).sum = parts.flatten := by
  induction parts with
  | nil => rfl
  | cons p parts ih => simp [ih]

/-- MergeTopK is exact. Its result is sorted and a best `k` of all that
was merged; if each list holds a best `k` of its partition, it is one of
the union of the partitions. So the pool groupFanOut feeds to
GroupDocuments is a best `fetch` of all points, as the pool of a single
partition with all points is: it has that pool's distances, and the same
points before the last of them. Only where `k * groupSize` wraps may the
size be negative, and then nothing is fed. -/
theorem mergeTopK_exact (hsort : SortFunc sort) (hw : StrictWeak less) :
    (∀ (parts : List (List α)) (k : Int),
      (mergeTopK sort less parts k).Pairwise (fun a b => less b a = false)
        ∧ IsTopK less k parts.flatten (mergeTopK sort less parts k))
    ∧ (∀ (parts : List (List α)) (Ps : List (Multiset α)) (k : Int),
      List.Forall₂ (fun (L : List α) P => Covers less k L P) parts Ps →
        IsTopK less k Ps.sum (mergeTopK sort less parts k))
    ∧ ∀ (group : List (Document D β) → Int → List γ)
        (k groupSize size fetchK fetch : Int)
        (parts : List (List (Document D β)))
        (Ps : List (Multiset (Document D β)))
        (single : List (Document D β)), 0 < k →
      size = (if groupSize ≤ 0 then 1 else groupSize) →
      fetch = resolveGroupFetchK k size fetchK →
      (fetch < 0 → 2 ^ 63 ≤ k * size
        ∧ groupFanOut group k groupSize fetchK parts = none)
      ∧ (0 ≤ fetch →
        List.Forall₂
          (fun (L : List (Document D β)) P => Covers nearer fetch L P)
          parts Ps →
        IsTopK (α := Document D β) nearer fetch Ps.sum single →
        (single.map Document.distance).Pairwise (· ≤ ·) →
        ∃ cands, groupFanOut group k groupSize fetchK parts
            = some (group cands k)
          ∧ IsTopK (α := Document D β) nearer fetch Ps.sum cands
          ∧ cands.map Document.distance = single.map Document.distance
          ∧ ∀ x ∈ cands, (single.filter (nearer · x)).Perm
            (cands.filter (nearer · x))) := by
  refine ⟨mergeTopK_top hsort hw, fun parts Ps k h => ?_, ?_⟩
  · refine IsTopK.of_parts hw (List.forall₂_map_left_iff.mpr h) ?_
    rw [sum_map_coe]
    exact (mergeTopK_top hsort hw parts k).2
  · intro group k groupSize size fetchK fetch parts Ps single hk hsize hfetch
    have hrun : groupFanOut group k groupSize fetchK parts
        = (pool fetch parts).map (group · k) := by
      rw [groupFanOut, if_neg (not_le.mpr hk), hfetch, hsize]
    refine ⟨fun hneg => ?_, fun hpos h htop hs => ?_⟩
    · have hwrap : 2 ^ 63 ≤ k * size := by
        refine resolveGroupFetchK_neg hk ?_ (hfetch ▸ hneg)
        rw [hsize]
        split <;> omega
      exact ⟨hwrap, by rw [hrun, pool_neg hneg]; rfl⟩
    · obtain ⟨cands, hpool, hsorted, hcands⟩ := pool_top hpos parts
      have hall := IsTopK.of_parts nearer_strictWeak
        (List.forall₂_map_left_iff.mpr h) (by rw [sum_map_coe]; exact hcands)
      refine ⟨cands, by rw [hrun, hpool]; rfl, hall,
        hall.map_eq htop hsorted hs, fun x hx => ?_⟩
      have heq := hall.filter_eq htop nearer_strictWeak
        (Multiset.mem_coe.mpr hx)
      simpa [Multiset.filter_coe] using heq

/-- A sort that keeps its promise. -/
def sorted (c : α → α → Ordering) (l : List α) : List α :=
  l.mergeSort fun a b => c b a != .lt

theorem sorted_sortFunc : SortFunc (sorted (α := α)) where
  perm c l := List.mergeSort_perm ..
  sorted c l h := by
    unfold Merge.sorted
    refine (List.pairwise_mergeSort (fun a b d => ?_) (fun a b => ?_) l).imp
      (by grind)
    · have := @h.not_less d b a
      grind
    · have := @h.asymm a b
      grind

/-- Two partitions with a tie between them; the second has returned two of
its three elements. -/
theorem mergeTopK_exact_two :
    IsTopK (fun a b => decide (a < b)) 2 (Multiset.ofList [5, 3, 3, 9, 7])
      (mergeTopK sorted (fun a b => decide (a < b)) [[5, 3], [3, 7]] 2)
    ∧ (groupFanOut (fun p _ => p.map Document.distance) 2 1 2
        [[⟨1, 4, ()⟩], [⟨2, 4, ()⟩, ⟨3, 6, ()⟩]])
      = some [4, 4] := by
  obtain ⟨-, hparts, hgroups⟩ := mergeTopK_exact (D := Nat) (β := Unit)
    (γ := Nat) sorted_sortFunc (.of_key (id : Nat → Nat))
  constructor
  · refine hparts [[5, 3], [3, 7]] [[5, 3], [3, 9, 7]] 2
      (.cons ?_ (.cons ?_ .nil))
    · exact ⟨le_rfl, _, le_rfl, 0, rfl, rfl, by simp⟩
    · refine ⟨by decide, _, le_rfl, {9}, by decide, rfl, by decide⟩
  · obtain ⟨-, hfed⟩ := hgroups (fun p _ => p.map Document.distance) 2 1 1 2 2
      [[⟨1, 4, ()⟩], [⟨2, 4, ()⟩, ⟨3, 6, ()⟩]]
      [.ofList [⟨1, 4, ()⟩], .ofList [⟨2, 4, ()⟩, ⟨3, 6, ()⟩]]
      [⟨1, 4, ()⟩, ⟨2, 4, ()⟩]
      (by decide) (by decide) (by decide)
    obtain ⟨cands, heq, -, hdist, -⟩ := hfed (by decide)
      (.cons ⟨le_rfl, _, le_rfl, 0, rfl, rfl, by simp⟩
        (.cons ⟨le_rfl, _, le_rfl, 0, rfl, rfl, by simp⟩ .nil))
      ⟨.ofList [⟨3, 6, ()⟩], rfl, rfl, by simp [nearer]⟩
      (by decide)
    rw [heq, hdist]
    rfl

end Rostam.Cluster.Merge
