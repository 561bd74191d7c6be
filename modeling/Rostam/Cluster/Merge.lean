/-
Merging what the partitions return: MergeTopK with its bounded max-heap
(cluster/fanout_merge.go), and the candidate pool of groupFanOut
(groups_scroll_fanout.go).

MergeTopK reads its elements through `less` alone, so it is over any
type. `slices.SortFunc` is not stable and is a parameter, `SortFunc` is
what its documentation promises; `sort.SliceStable` has one result, that
of `List.mergeSort`. A heap is a vector, so an index is in bounds.

# What is left out

A partition that does not answer: the lists of groupFanOut are those of
all of them. A document's content and metadata are `β`, and what
GroupDocuments makes of the pool is a parameter. Distances are ordered
linearly (there is no NaN).
-/
import Rostam.Lib.TopK
import Rostam.Lib.Word

namespace Rostam.Cluster.Merge

open Rostam.Lib

variable {α : Type}

-- ======== the heap

/-- `maxHeapUp`. -/
def maxHeapUp (less : α → α → Bool) {n : Nat} (h : Vector α n) (i : Fin n) :
    Vector α n :=
  if 0 < i.1 then
    let parent : Fin n := ⟨(i - 1) / 2, by omega⟩
    if !less h[parent] h[i] then h
    else maxHeapUp less (h.swap parent i) parent
  else h
termination_by i.1

/-- The larger of the element at `m` and the one at `c`, if there is
one. -/
def larger (less : α → α → Bool) {n : Nat} (h : Vector α n) (m : Fin n)
    (c : Nat) : Fin n :=
  if hc : c < n then if less h[m] h[c] then ⟨c, hc⟩ else m else m

theorem le_larger (less : α → α → Bool) {n : Nat} (h : Vector α n)
    (i : Fin n) :
    i ≤ larger less h (larger less h i (2 * i + 1)) (2 * i + 2) := by
  unfold larger
  grind

/-- `maxHeapDown` from `i` on. -/
def maxHeapDown (less : α → α → Bool) {n : Nat} (h : Vector α n) (i : Fin n) :
    Vector α n :=
  let largest := larger less h (larger less h i (2 * i + 1)) (2 * i + 2)
  if largest = i then h else maxHeapDown less (h.swap i largest) largest
termination_by n - i.1
decreasing_by
  have := le_larger less h i
  grind

-- ======== MergeTopK

/-- What `MergeTopK` does with a candidate. -/
def offer (less : α → α → Bool) (k : Nat) (h : Array α) (s : α) : Array α :=
  if h.size < k then
    (maxHeapUp less (h.push s).toVector ⟨h.size, by simp⟩).toArray
  else if h0 : 0 < h.size then
    if less s h[0] then
      (maxHeapDown less (h.set 0 s).toVector ⟨0, by simpa using h0⟩).toArray
    else h
  else h

/-- The comparison `MergeTopK` sorts by. -/
def cmp (less : α → α → Bool) (a b : α) : Ordering :=
  if less a b then .lt else if less b a then .gt else .eq

/-- `MergeTopK`, over a sort. -/
def mergeTopK (sortFunc : (α → α → Ordering) → List α → List α)
    (less : α → α → Bool) (parts : List (List α)) (k : Int) : List α :=
  if k < 0 then sortFunc (cmp less) parts.flatten
  else if k = 0 then []
  else sortFunc (cmp less)
    (parts.foldl (fun h p => p.foldl (offer less k.toNat) h) #[]).toList

/-- `slices.SortFunc`: the elements in ascending order, if there is
one. -/
structure SortFunc (sort : (α → α → Ordering) → List α → List α) : Prop where
  perm : ∀ c l, (sort c l).Perm l
  sorted : ∀ c l, StrictWeak (fun a b => c a b == .lt) →
    (sort c l).Pairwise fun a b => (c b a == .lt) = false

-- ======== groups

structure Document (D β : Type) where
  id : Nat
  distance : D
  rest : β

variable {D β γ : Type} [LinearOrder D]

/-- `resolveGroupFetchK`; an `int` is an int64. -/
def resolveGroupFetchK (k groupSize fetchK : Int) : Int :=
  let want := int64 (k * groupSize)
  if fetchK < want then max (int64 (4 * want)) 50 else fetchK

/-- The order of the pool: by distance, and by id where that ties. -/
def before (a b : Document D β) : Bool :=
  if a.distance ≠ b.distance then a.distance < b.distance else a.id < b.id

/-- The pool `groupFanOut` feeds to GroupDocuments. `none` is the panic of
`all[:fetchK]` at a negative bound. -/
def pool (fetchK : Int) (parts : List (List (Document D β))) :
    Option (List (Document D β)) :=
  let all := parts.flatten.mergeSort fun a b => !before b a
  if fetchK < all.length then
    if fetchK < 0 then none else some (all.take fetchK.toNat)
  else some all

/-- `groupFanOut`, once the partitions have answered. -/
def groupFanOut (groupDocuments : List (Document D β) → Int → List γ)
    (k groupSize fetchK : Int) (parts : List (List (Document D β))) :
    Option (List γ) :=
  if k ≤ 0 then some []
  else
    let groupSize := if groupSize ≤ 0 then 1 else groupSize
    (pool (resolveGroupFetchK k groupSize fetchK) parts).map
      (groupDocuments · k)

end Rostam.Cluster.Merge
