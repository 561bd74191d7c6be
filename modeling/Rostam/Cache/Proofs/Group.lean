/-
The shards of a cache refine the map together: each its share of it.
-/
import Rostam.Cache.Group
import Rostam.Ops.Proofs.Handlers

namespace Rostam.Cache

open Rostam.Lib Rostam.Ops Function

variable {σ : Type} {n : Nat} [NeZero n] {hash : Key → Nat}
  {S : Ops.Store σ} {R : Fin n → Nat → σ → Entries → Prop} {t : Nat}
  {c : Fin n → σ} {m : Entries}

/-- Every shard is related to its share. -/
def Shares (n : Nat) [NeZero n] (hash : Key → Nat)
    (R : Fin n → Nat → σ → Entries → Prop) (t : Nat) (c : Fin n → σ)
    (m : Entries) : Prop :=
  ∀ i, R i t (c i) (shareOf n hash m i)

/-- A key is read from its own shard. -/
theorem read_shareOf (key : Key) (t : Nat) :
    (shareOf n hash m (shardFor n hash key)).read key t = m.read key t := by
  unfold Entries.read shareOf
  rw [if_pos rfl]

/-- Keys of one hash have one shard. -/
theorem shardFor_congr {k key : Key} (h : hash k = hash key) :
    shardFor n hash k = shardFor n hash key := by
  unfold shardFor
  rw [h]

theorem shareOf_put (key : Key) (v : Bytes × Nat) (i : Fin n) :
    shareOf n hash (m.put hash key v) i =
      if i = shardFor n hash key then (shareOf n hash m i).put hash key v
      else shareOf n hash m i := by
  funext k
  by_cases hi : i = shardFor n hash key
  · rw [if_pos hi]
    unfold shareOf Entries.put
    by_cases hh : hash k = hash key
    · rw [if_pos hh, if_pos hh, if_pos ((shardFor_congr hh).trans hi.symm)]
    · rw [if_neg hh, if_neg hh]
  · rw [if_neg hi]
    unfold shareOf Entries.put
    by_cases hk : shardFor n hash k = i
    · rw [if_pos hk, if_pos hk, if_neg]
      intro hh
      exact hi (hk.symm.trans (shardFor_congr hh))
    · rw [if_neg hk, if_neg hk]

theorem shareOf_update (key : Key) (i : Fin n) :
    shareOf n hash (update m key none) i =
      if i = shardFor n hash key then
        update (shareOf n hash m i) key none
      else shareOf n hash m i := by
  funext k
  by_cases hk : k = key
  · subst hk
    split
    · next hi =>
      unfold shareOf
      rw [update_self, update_self, if_pos hi.symm]
    · next hi =>
      unfold shareOf
      rw [if_neg fun h => hi h.symm, if_neg fun h => hi h.symm]
  · split
    · unfold shareOf
      rw [update_of_ne hk, update_of_ne hk]
    · unfold shareOf
      rw [update_of_ne hk]

theorem shareOf_none (i : Fin n) :
    shareOf n hash (fun _ => none) i = fun _ => none := by
  funext k
  exact ite_self none

/-- One shard moves to its new share, the others keep theirs. -/
theorem Shares.update {m' : Entries} {x : σ} {j : Fin n}
    (hc : Shares n hash R t c m) (hx : R j t x (shareOf n hash m' j))
    (ho : ∀ i, i ≠ j → shareOf n hash m' i = shareOf n hash m i) :
    Shares n hash R t (update c j x) m' := by
  intro i
  by_cases hi : i = j
  · subst hi
    rw [update_self]
    exact hx
  · rw [update_of_ne hi, ho i hi]
    exact hc i

/-- A cache of shards that refine the map refines it. -/
theorem refines_group (h : ∀ i, Refines S hash (R i)) :
    Refines (groupStore n hash S) hash (Shares n hash R) where
  getAt := by
    intro t c m key hc
    obtain ⟨hR, hv⟩ := (h _).getAt key (hc (shardFor n hash key))
    refine ⟨hc.update hR fun _ _ => rfl, ?_⟩
    rw [read_shareOf] at hv
    exact hv
  putAt := by
    intro t c m key val ttl hc hok
    refine hc.update ?_ fun i hi => ?_
    · rw [shareOf_put, if_pos rfl]
      exact (h _).putAt key val ttl (hc _) hok
    · rw [shareOf_put, if_neg hi]
  putAbs := by
    intro t c m key val exp hc hok
    refine hc.update ?_ fun i hi => ?_
    · rw [shareOf_put, if_pos rfl]
      exact (h _).putAbs key val exp (hc _) hok
    · rw [shareOf_put, if_neg hi]
  del := by
    intro t c m key b hc hok
    refine hc.update ?_ fun i hi => ?_
    · rw [shareOf_update, if_pos rfl]
      exact (h _).del key b (hc _) hok
    · rw [shareOf_update, if_neg hi]
  flush := by
    intro t c m hc i
    rw [shareOf_none]
    exact (h i).flush (hc i)

end Rostam.Cache
