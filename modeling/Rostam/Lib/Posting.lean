/-
Inverted indexes: a map from fields to maps from keys to sets of owners.

A hash map finds a key again when the key equals itself. Under a key that
does not (a NaN), every insertion makes a new entry that no lookup and no
deletion reaches: those entries are `lost`. `self` says which keys are
found again.

An index is exact for a finite set of postings when its sets hold those
postings and nothing in it is empty or lost (`Posted`). Such an index is
determined by its postings (`Posted.unique`), and posting or dropping
follows the insertion or deletion (`Posted.post`, `Posted.drop`). Counters
that drop out at zero are treated the same way (`Tallies`). Whatever is
exact for a set of marks and follows one mark (`Marks`) follows the loops
that add and drop the marks of an owner.
-/
import Mathlib.Data.Finmap
import Mathlib.Data.Finset.Card

namespace Rostam.Lib

open Function

variable {φ κ σ : Type} [DecidableEq φ] [DecidableEq κ]

-- ======== one field

/-- The keys of one field: those that are found again, and the entries
that are not. -/
structure Keyed (κ σ : Type) where
  known : Finmap fun _ : κ => Finset σ
  lost : List (Finset σ)

/-- No entry at all. -/
def Keyed.empty : Keyed κ σ := ⟨∅, []⟩

/-- The set under a key. -/
def Keyed.get (self : κ → Bool) (m : Keyed κ σ) (k : κ) : Option (Finset σ) :=
  if self k then m.known.lookup k else none

/-- Store a set under a key. -/
def Keyed.put (self : κ → Bool) (m : Keyed κ σ) (k : κ) (s : Finset σ) :
    Keyed κ σ :=
  if self k then { m with known := m.known.insert k s }
  else { m with lost := s :: m.lost }

/-- Remove a key. -/
def Keyed.del (self : κ → Bool) (m : Keyed κ σ) (k : κ) : Keyed κ σ :=
  if self k then { m with known := m.known.erase k } else m

/-- Drop `s` from the set under a key, and the key with its last
owner. -/
def Keyed.drop [DecidableEq σ] (self : κ → Bool) (m : Keyed κ σ) (k : κ)
    (s : σ) : Keyed κ σ :=
  match m.get self k with
  | none => m
  | some set =>
    if set.erase s = ∅ then m.del self k else m.put self k (set.erase s)

/-- The number of entries. -/
def Keyed.size (m : Keyed κ σ) : Nat := m.known.keys.card + m.lost.length

-- ======== the index

/-- An inverted index. -/
abbrev Postings (φ κ σ : Type) := Finmap fun _ : φ => Keyed κ σ

namespace Postings

/-- The set under a field and a key, as a lookup finds it. -/
def find (self : κ → Bool) (p : Postings φ κ σ) (f : φ) (k : κ) :
    Option (Finset σ) :=
  (p.lookup f).bind fun m => m.get self k

/-- Post `s` under a field and a key, with the maps that are missing. -/
def post [DecidableEq σ] (self : κ → Bool) (p : Postings φ κ σ) (f : φ)
    (k : κ) (s : σ) : Postings φ κ σ :=
  let m := (p.lookup f).getD .empty
  p.insert f (m.put self k (insert s ((m.get self k).getD ∅)))

/-- Drop `s` from a field and a key, with the maps that become empty. -/
def drop [DecidableEq σ] (self : κ → Bool) (p : Postings φ κ σ) (f : φ)
    (k : κ) (s : σ) : Postings φ κ σ :=
  match p.lookup f with
  | none => p
  | some m =>
    let m' := m.drop self k s
    if m'.size = 0 then p.erase f else p.insert f m'

end Postings

-- ======== exactness

/-- The set under a field and a key that is found again. -/
def Postings.look (p : Postings φ κ σ) (f : φ) (k : κ) : Option (Finset σ) :=
  (p.lookup f).bind fun m => m.known.lookup k

theorem Postings.find_eq (self : κ → Bool) (p : Postings φ κ σ) (f : φ)
    {k : κ} (hk : self k = true) : p.find self f k = p.look f k := by
  unfold Postings.find Postings.look Keyed.get
  simp only [hk, if_true]

/-- The index holds the postings of `M` and nothing else, not even an
empty set or map. -/
structure Posted (p : Postings φ κ σ) (M : Finset (σ × φ × κ)) : Prop where
  tidy : ∀ f m, p.lookup f = some m → m.known ≠ ∅ ∧ m.lost = []
  full : ∀ f k, p.look f k ≠ some ∅
  mem : ∀ s f k, (s, f, k) ∈ M ↔ ∃ set, p.look f k = some set ∧ s ∈ set

theorem Posted.empty : Posted (∅ : Postings φ κ σ) ∅ where
  tidy f m h := by
    rw [Finmap.lookup_empty] at h
    cases h
  full f k h := by
    rw [Postings.look, Finmap.lookup_empty] at h
    cases h
  mem s f k := by
    refine ⟨fun h => absurd h (Finset.notMem_empty _), ?_⟩
    rintro ⟨set, h, -⟩
    rw [Postings.look, Finmap.lookup_empty] at h
    cases h

/-- A map with an entry has a key. -/
theorem exists_lookup_of_ne_empty {β : Type} {m : Finmap fun _ : κ => β}
    (h : m ≠ ∅) : ∃ k b, m.lookup k = some b := by
  by_contra hno
  apply h
  apply Finmap.ext_lookup
  intro k
  rw [Finmap.lookup_empty]
  cases hk : m.lookup k with
  | none => rfl
  | some b => exact absurd ⟨k, b, hk⟩ hno

section

variable {β : Type} (m : Finmap fun _ : κ => β) (k k' : κ) (b : β)

theorem lookup_insert_ite :
    (m.insert k b).lookup k'
    = if k' = k then some b else m.lookup k' := by
  split
  · next h => rw [h, Finmap.lookup_insert]
  · next h => exact Finmap.lookup_insert_of_ne _ h

theorem lookup_erase_ite :
    (m.erase k).lookup k'
    = if k' = k then none else m.lookup k' := by
  split
  · next h => rw [h, Finmap.lookup_erase]
  · next h => exact Finmap.lookup_erase_ne h

/-- An entry that is erased or replaced. -/
theorem lookup_assign (c : Prop) [Decidable c] :
    (if c then m.erase k else m.insert k b).lookup k'
      = if k' = k then if c then none else some b else m.lookup k' := by
  split
  · exact lookup_erase_ite ..
  · exact lookup_insert_ite ..

end

section

variable {p q : Postings φ κ σ} {M : Finset (σ × φ × κ)}

/-- The sets of one exact index are those of another. -/
theorem Posted.look_some (hp : Posted p M) (hq : Posted q M) {f : φ} {k : κ}
    {set : Finset σ} (h : p.look f k = some set) :
    q.look f k = some set := by
  have hne : set ≠ ∅ := fun he => hp.full f k (he ▸ h)
  obtain ⟨s, hs⟩ := Finset.nonempty_iff_ne_empty.mpr hne
  obtain ⟨set', h', -⟩ := (hq.mem s f k).mp ((hp.mem s f k).mpr ⟨set, h, hs⟩)
  have hset : ∀ x, x ∈ set ↔ x ∈ set' := by
    intro x
    have hx := (hp.mem x f k).symm.trans (hq.mem x f k)
    simpa [h, h'] using hx
  rw [h', Finset.ext hset]

/-- Two indexes of the same marks answer alike. -/
theorem Posted.look_eq (hp : Posted p M) (hq : Posted q M) (f : φ) (k : κ) :
    p.look f k = q.look f k := by
  cases h : p.look f k with
  | some set => exact (hp.look_some hq h).symm
  | none =>
    cases h' : q.look f k with
    | none => rfl
    | some set => exact absurd (hq.look_some hp h') (by simp [h])

/-- Two indexes of the same marks have the same fields. -/
theorem Posted.lookup_some (hp : Posted p M) (hq : Posted q M) {f : φ}
    {m : Keyed κ σ} (hm : p.lookup f = some m) : q.lookup f = some m := by
  have hlook : ∀ k, m.known.lookup k = q.look f k := by
    intro k
    rw [← hp.look_eq hq, Postings.look, hm]
    rfl
  obtain ⟨hne, hlost⟩ := hp.tidy f m hm
  obtain ⟨k, set, hk⟩ := exists_lookup_of_ne_empty hne
  rw [hlook] at hk
  obtain ⟨m', hm', -⟩ := Option.bind_eq_some_iff.mp hk
  have hknown : m'.known = m.known := by
    apply Finmap.ext_lookup
    intro k
    rw [hlook, Postings.look, hm']
    rfl
  have hlost' := (hq.tidy f m' hm').2
  obtain ⟨known, lost⟩ := m
  obtain ⟨known', lost'⟩ := m'
  dsimp only at hknown hlost hlost'
  rw [hm', hknown, hlost, hlost']

/-- An exact index is determined by its postings. -/
theorem Posted.unique (hp : Posted p M) (hq : Posted q M) : p = q := by
  apply Finmap.ext_lookup
  intro f
  cases hm : p.lookup f with
  | some m => exact (hp.lookup_some hq hm).symm
  | none =>
    cases hm' : q.lookup f with
    | none => rfl
    | some m => exact absurd (hq.lookup_some hp hm') (by simp [hm])

end

-- ======== posting, dropping

section

variable [DecidableEq σ] {self : κ → Bool} {p : Postings φ κ σ}
  {M : Finset (σ × φ × κ)}

variable {k : κ}

omit [DecidableEq σ] in
theorem Postings.look_insert (f f' : φ) (k : κ) (m : Keyed κ σ) :
    Postings.look (Finmap.insert f m p) f' k
      = if f' = f then m.known.lookup k else p.look f' k := by
  unfold Postings.look
  rw [lookup_insert_ite]
  split <;> rfl

/-- A post adds to its own entry only. -/
theorem Postings.look_post (f f' : φ) (hk : self k = true) (k' : κ)
    (s : σ) :
    (p.post self f k s).look f' k'
      = if f' = f ∧ k' = k then some (insert s ((p.look f k).getD ∅))
        else p.look f' k' := by
  have hold : ∀ k, ((p.lookup f).getD .empty).known.lookup k = p.look f k := by
    intro k
    unfold Postings.look
    cases p.lookup f with
    | none => exact Finmap.lookup_empty k
    | some m => rfl
  unfold Postings.post
  simp only [Keyed.get, Keyed.put, if_pos hk]
  rw [look_insert, lookup_insert_ite, hold, hold, ite_and]
  split
  · next hf => rw [hf]
  · rfl

/-- A post adds its mark. -/
theorem Posted.post (hp : Posted p M) (f : φ) (hk : self k = true)
    (s : σ) : Posted (p.post self f k s) (insert (s, f, k) M) where
  tidy f' m hm := by
    unfold Postings.post at hm
    rw [lookup_insert_ite] at hm
    split at hm
    · next h =>
      obtain rfl := Option.some.inj hm
      unfold Keyed.put
      rw [if_pos hk]
      constructor
      · intro he
        have := congrArg (Finmap.lookup k) he
        rw [Finmap.lookup_insert, Finmap.lookup_empty] at this
        cases this
      · cases hm : p.lookup f with
        | none => rfl
        | some m => exact (hp.tidy f m hm).2
    · exact hp.tidy f' m hm
  full f' k' := by
    rw [Postings.look_post f f' hk]
    split
    · exact fun he => Finset.insert_ne_empty _ _ (Option.some.inj he)
    · exact hp.full f' k'
  mem s' f' k' := by
    rw [Postings.look_post f f' hk, Finset.mem_insert, hp.mem]
    split
    · next h =>
      obtain ⟨rfl, rfl⟩ := h
      cases hl : p.look f' k' with
      | none => simp
      | some set => simp
    · next h =>
      refine or_iff_right fun he => h ?_
      simp only [Prod.mk.injEq] at he
      exact he.2

/-- What is left of a set without `s`, if anything. -/
def without (s : σ) (set : Finset σ) : Option (Finset σ) :=
  if set.erase s = ∅ then none else some (set.erase s)

theorem mem_without {s s' : σ} {set : Finset σ} :
    (∃ left, without s set = some left ∧ s' ∈ left) ↔ s' ≠ s ∧ s' ∈ set := by
  unfold without
  rw [← Finset.mem_erase]
  split
  · next h => simp [h]
  · simp

/-- A drop takes from its own entry only. -/
theorem Keyed.drop_known {m : Keyed κ σ} (hk : self k = true)
    (k' : κ) (s : σ) :
    (m.drop self k s).known.lookup k'
      = if k' = k then (m.known.lookup k).bind (without s)
        else m.known.lookup k' := by
  unfold Keyed.drop Keyed.get
  rw [if_pos hk]
  cases hset : m.known.lookup k with
  | none =>
    dsimp only
    split
    · next h => rw [h, hset, Option.bind_none]
    · rfl
  | some set =>
    dsimp only
    rw [Option.bind_some, without, Keyed.del, Keyed.put, if_pos hk, if_pos hk,
      apply_ite Keyed.known]
    exact lookup_assign ..

theorem Keyed.drop_lost {m : Keyed κ σ} (hk : self k = true)
    (s : σ) : (m.drop self k s).lost = m.lost := by
  unfold Keyed.drop Keyed.get Keyed.del Keyed.put
  rw [if_pos hk]
  cases m.known.lookup k with
  | none => rfl
  | some set =>
    dsimp only
    rw [if_pos hk, if_pos hk]
    split <;> rfl

omit [DecidableEq σ] in
theorem Keyed.size_eq_zero {m : Keyed κ σ} :
    m.size = 0 ↔ m.known = ∅ ∧ m.lost = [] := by
  unfold Keyed.size
  rw [Nat.add_eq_zero_iff, Finset.card_eq_zero, List.length_eq_zero_iff]
  refine and_congr_left fun _ => ⟨fun h => ?_, fun h => h ▸ Finmap.keys_empty⟩
  by_contra hne
  obtain ⟨k, b, hk⟩ := exists_lookup_of_ne_empty hne
  have := Finmap.mem_keys.mpr (Finmap.mem_of_lookup_eq_some hk)
  rw [h] at this
  exact Finset.notMem_empty _ this

/-- The field of a drop: gone with its last key. -/
theorem Postings.lookup_drop (f f' : φ) (k : κ) (s : σ) :
    (p.drop self f k s).lookup f' = if f' = f then (p.lookup f).bind fun m =>
          if (m.drop self k s).size = 0 then none
          else some (m.drop self k s)
        else p.lookup f' := by
  unfold Postings.drop
  cases hm : p.lookup f with
  | none =>
    dsimp only
    split
    · next h => rw [h, hm, Option.bind_none]
    · rfl
  | some m =>
    rw [Option.bind_some]
    exact lookup_assign ..

theorem Postings.look_drop (f f' : φ) (hk : self k = true) (k' : κ)
    (s : σ) :
    (p.drop self f k s).look f' k'
      = if f' = f ∧ k' = k then (p.look f k).bind (without s)
        else p.look f' k' := by
  unfold Postings.look
  rw [lookup_drop]
  by_cases hf : f' = f
  · subst hf
    rw [if_pos rfl]
    cases hm : p.lookup f' with
    | none => simp
    | some m =>
      have hknown := Keyed.drop_known (m := m) hk k' s
      simp only [Option.bind_some, true_and]
      split
      · next h =>
        rw [(Keyed.size_eq_zero.mp h).1, Finmap.lookup_empty] at hknown
        exact hknown
      · exact hknown
  · rw [if_neg hf, if_neg (fun h => hf h.1)]

/-- A drop takes its mark away. -/
theorem Posted.drop (hp : Posted p M) (f : φ) (hk : self k = true)
    (s : σ) : Posted (p.drop self f k s) (M.erase (s, f, k)) where
  tidy f' m hm := by
    rw [Postings.lookup_drop] at hm
    split at hm
    · next h =>
      obtain ⟨m₀, hm₀, hm⟩ := Option.bind_eq_some_iff.mp hm
      split at hm
      · cases hm
      · next hsize =>
        obtain rfl := Option.some.inj hm
        have hlost : (m₀.drop self k s).lost = [] := by
          rw [Keyed.drop_lost hk]
          exact (hp.tidy f m₀ hm₀).2
        refine ⟨fun he => hsize ?_, hlost⟩
        exact Keyed.size_eq_zero.mpr ⟨he, hlost⟩
    · exact hp.tidy f' m hm
  full f' k' := by
    rw [Postings.look_drop f f' hk]
    split
    · intro he
      obtain ⟨set, -, he⟩ := Option.bind_eq_some_iff.mp he
      unfold without at he
      split at he
      · cases he
      · next hne => exact hne (Option.some.inj he)
    · exact hp.full f' k'
  mem s' f' k' := by
    rw [Postings.look_drop f f' hk, Finset.mem_erase, hp.mem]
    split
    · next h =>
      obtain ⟨rfl, rfl⟩ := h
      have hne : (s', f', k') ≠ (s, f', k') ↔ s' ≠ s := by simp
      rw [hne]
      cases p.look f' k' with
      | none => simp
      | some set =>
        rw [Option.bind_some, mem_without]
        simp
    · next h =>
      refine and_iff_right fun he => h ?_
      simp only [Prod.mk.injEq] at he
      exact he.2

end

-- ======== marks

section

variable {V α σ : Type} {Q : V → Finset (σ × α) → Prop} {v w : V}
  {l : σ → List α}

/-- What a value holds is exact for a set of marks, and the marks of each
owner are listed. -/
def ListedBy (Q : V → Finset (σ × α) → Prop) (v : V) (l : σ → List α) :
    Prop :=
  ∃ M, Q v M ∧ ∀ s x, (s, x) ∈ M ↔ x ∈ l s

/-- What is listed alike is alike. -/
theorem ListedBy.unique (hv : ListedBy Q v l) (hw : ListedBy Q w l)
    (hQ : ∀ {v w M}, Q v M → Q w M → v = w) : v = w := by
  obtain ⟨M, hM, hmem⟩ := hv
  obtain ⟨N, hN, hmem'⟩ := hw
  have hMN : M = N := by
    ext ⟨s, x⟩
    rw [hmem, hmem']
  exact hQ hM (hMN ▸ hN)

/-- How one mark of an owner is added and dropped. -/
structure Marks [DecidableEq σ] [DecidableEq α]
    (Q : V → Finset (σ × α) → Prop) (s : σ) (ok : α → Prop)
    (add drop : V → α → V) : Prop where
  add : ∀ {v M x}, ok x → Q v M → (s, x) ∉ M → Q (add v x) (insert (s, x) M)
  drop : ∀ {v M x}, ok x → Q v M → (s, x) ∈ M → Q (drop v x) (M.erase (s, x))

variable [DecidableEq σ] {s : σ}

/-- The list of one owner is another. -/
theorem mem_update {ks : List α} {s' : σ} {x : α} :
    x ∈ update l s ks s' ↔ s' = s ∧ x ∈ ks ∨ s' ≠ s ∧ x ∈ l s' := by
  by_cases h : s' = s
  · subst h
    rw [update_self]
    tauto
  · rw [update_of_ne h]
    tauto

variable [DecidableEq α] {ok : α → Prop} {add drop : V → α → V}

variable {ks : List α}

/-- Add a list of marks to an owner that has none. -/
theorem Marks.addAll (hm : Marks Q s ok add drop)
    (hok : ∀ x ∈ ks, ok x) (hnd : ks.Nodup)
    (h : ListedBy Q v (update l s [])) :
    ListedBy Q (ks.foldl add v) (update l s ks) := by
  have main : ∀ (ks : List α) v M, (∀ x ∈ ks, ok x) → ks.Nodup →
      Q v M → (∀ x ∈ ks, (s, x) ∉ M) → ∃ M', Q (ks.foldl add v) M'
        ∧ ∀ s' x, (s', x) ∈ M' ↔ (s', x) ∈ M ∨ s' = s ∧ x ∈ ks := by
    intro ks
    induction ks with
    | nil => exact fun v M _ _ hM _ => ⟨M, hM, fun s' x => by simp⟩
    | cons k ks ih =>
      intro v M hok hnd hM hnew
      obtain ⟨hk, hok⟩ := List.forall_mem_cons.mp hok
      obtain ⟨hnk, hnew⟩ := List.forall_mem_cons.mp hnew
      obtain ⟨hout, hnd⟩ := List.nodup_cons.mp hnd
      obtain ⟨M', hM', hmem⟩ := ih _ _ hok hnd (hm.add hk hM hnk) (by
        intro x hx
        rw [Finset.mem_insert, Prod.mk.injEq, not_or]
        refine ⟨fun he => hout ?_, hnew x hx⟩
        exact he.2 ▸ hx)
      refine ⟨M', hM', fun s' x => ?_⟩
      rw [hmem, Finset.mem_insert, Prod.mk.injEq, List.mem_cons]
      tauto
  obtain ⟨M, hM, hmem⟩ := h
  obtain ⟨M', hM', hmem'⟩ := main ks v M hok hnd hM fun x _ hin => by
    have := (hmem s x).mp hin
    rw [update_self] at this
    exact List.not_mem_nil this
  refine ⟨M', hM', fun s' x => ?_⟩
  rw [hmem', hmem, mem_update, mem_update]
  have : x ∉ [] := List.not_mem_nil
  tauto

/-- Drop all the marks of an owner. -/
theorem Marks.dropAll (hm : Marks Q s ok add drop)
    (hok : ∀ x ∈ l s, ok x) (hnd : (l s).Nodup) (hks : ks.Perm (l s))
    (h : ListedBy Q v l) :
    ListedBy Q (ks.foldl drop v) (update l s []) := by
  have main : ∀ (ks : List α) v M, (∀ x ∈ ks, ok x) → ks.Nodup →
      Q v M → (∀ x ∈ ks, (s, x) ∈ M) → ∃ M', Q (ks.foldl drop v) M'
        ∧ ∀ s' x, (s', x) ∈ M' ↔ (s', x) ∈ M ∧ ¬ (s' = s ∧ x ∈ ks) := by
    intro ks
    induction ks with
    | nil => exact fun v M _ _ hM _ => ⟨M, hM, fun s' x => by simp⟩
    | cons k ks ih =>
      intro v M hok hnd hM hin
      obtain ⟨hk, hok⟩ := List.forall_mem_cons.mp hok
      obtain ⟨hkin, hin⟩ := List.forall_mem_cons.mp hin
      obtain ⟨hout, hnd⟩ := List.nodup_cons.mp hnd
      obtain ⟨M', hM', hmem⟩ := ih _ _ hok hnd (hm.drop hk hM hkin) (by
        intro x hx
        rw [Finset.mem_erase, ne_eq, Prod.mk.injEq]
        refine ⟨fun he => hout ?_, hin x hx⟩
        exact he.2 ▸ hx)
      refine ⟨M', hM', fun s' x => ?_⟩
      rw [hmem, Finset.mem_erase, ne_eq, Prod.mk.injEq, List.mem_cons]
      tauto
  obtain ⟨M, hM, hmem⟩ := h
  obtain ⟨M', hM', hmem'⟩ := main ks v M
    (fun x hx => hok x (hks.mem_iff.mp hx)) (hks.nodup_iff.mpr hnd) hM
    (fun x hx => (hmem s x).mpr (hks.mem_iff.mp hx))
  refine ⟨M', hM', fun s' x => ?_⟩
  rw [hmem', hmem, mem_update, hks.mem_iff]
  have : x ∉ [] := List.not_mem_nil
  by_cases hs : s' = s
  · subst hs
    tauto
  · tauto

/-- Add the marks of a list that an owner does not have yet, and collect
them. -/
theorem Marks.collect (hm : Marks Q s ok add drop) {has : V → α → Prop}
    [∀ v x, Decidable (has v x)]
    (hhas : ∀ {v M x}, ok x → Q v M → (has v x ↔ (s, x) ∈ M))
    (hok : ∀ x ∈ ks, ok x)
    (h : ListedBy Q v (update l s [])) :
    ∃ w acc, ks.foldl (fun st x => if has st.1 x then st
        else (add st.1 x, st.2 ++ [x])) (v, []) = (w, acc)
      ∧ acc.Perm ks.dedup ∧ ListedBy Q w (update l s acc) := by
  -- What was collected is what the owner has.
  have main : ∀ (ks : List α) v M acc, (∀ x ∈ ks, ok x) → Q v M →
      (∀ x, (s, x) ∈ M ↔ x ∈ acc) → acc.Nodup → ∃ w acc' M',
        ks.foldl (fun st x => if has st.1 x then st
          else (add st.1 x, st.2 ++ [x])) (v, acc) = (w, acc')
        ∧ acc'.Nodup ∧ (∀ x, x ∈ acc' ↔ x ∈ acc ∨ x ∈ ks) ∧ Q w M'
        ∧ ∀ s' x, (s', x) ∈ M' ↔ (s', x) ∈ M ∨ s' = s ∧ x ∈ ks := by
    intro ks
    induction ks with
    | nil =>
      exact fun v M acc _ hM _ hnd =>
        ⟨v, acc, M, rfl, hnd, fun x => by simp, hM, fun s' x => by simp⟩
    | cons k ks ih =>
      intro v M acc hok hM hacc hnd
      obtain ⟨hk, hok⟩ := List.forall_mem_cons.mp hok
      rw [List.foldl_cons]
      by_cases hin : has v k
      · rw [if_pos hin]
        have hmark := (hhas hk hM).mp hin
        obtain ⟨w, acc', M', heq, hnd', hmem, hM', hmem'⟩ :=
          ih v M acc hok hM hacc hnd
        refine ⟨w, acc', M', heq, hnd', fun x => ?_, hM', fun s' x => ?_⟩
        · rw [hmem, List.mem_cons, ← hacc]
          refine ⟨fun hx => hx.imp_right .inr, ?_⟩
          rintro (hx | rfl | hx)
          · exact .inl hx
          · exact .inl hmark
          · exact .inr hx
        · rw [hmem', List.mem_cons]
          refine ⟨fun hx => hx.imp_right (And.imp_right .inr), ?_⟩
          rintro (hx | ⟨rfl, rfl | hx⟩)
          · exact .inl hx
          · exact .inl hmark
          · exact .inr ⟨rfl, hx⟩
      · rw [if_neg hin]
        have hnew := mt (hhas hk hM).mpr hin
        obtain ⟨w, acc', M', heq, hnd', hmem, hM', hmem'⟩ :=
          ih _ _ (acc ++ [k]) hok (hm.add hk hM hnew) (fun x => by
              rw [Finset.mem_insert, Prod.mk.injEq, hacc, List.mem_append,
                List.mem_singleton]
              tauto)
            (List.nodup_append.mpr ⟨hnd, List.nodup_singleton k, by
              rintro x hx y hy rfl
              exact hnew ((hacc k).mpr (List.mem_singleton.mp hy ▸ hx))⟩)
        refine ⟨w, acc', M', heq, hnd', fun x => ?_, hM', fun s' x => ?_⟩
        · rw [hmem, List.mem_append, List.mem_singleton, List.mem_cons,
            or_assoc]
        · rw [hmem', Finset.mem_insert, Prod.mk.injEq, List.mem_cons]
          tauto
  obtain ⟨M, hM, hmem⟩ := h
  obtain ⟨w, acc, M', heq, hnd, hacc, hM', hmem'⟩ :=
    main ks v M [] hok hM (fun x => by rw [hmem, update_self])
      List.nodup_nil
  have hnil : ∀ x : α, x ∉ [] := fun _ => List.not_mem_nil
  refine ⟨w, acc, heq, ?_, M', hM', fun s' x => ?_⟩
  · rw [List.perm_ext_iff_of_nodup hnd (List.nodup_dedup _)]
    intro x
    rw [hacc, List.mem_dedup]
    exact or_iff_right (hnil x)
  · rw [hmem', hmem, mem_update, mem_update, hacc]
    tauto

end

section

variable {σ : Type} {M : Finset (σ × φ × κ)} {p : Postings φ κ σ}
  {self : κ → Bool}

/-- What a lookup says of one owner. -/
theorem Posted.mem_find (hp : Posted p M) {f : φ} {k : κ}
    (hk : self k = true) (s : σ) :
    s ∈ (p.find self f k).getD ∅ ↔ (s, f, k) ∈ M := by
  rw [hp.mem, Postings.find_eq self p f hk]
  cases p.look f k with
  | none => simp
  | some set => simp

theorem Posted.marks [DecidableEq σ] (self : κ → Bool) (s : σ) :
    Marks (Posted (φ := φ) (κ := κ)) s (fun fk => self fk.2 = true)
      (fun p fk => p.post self fk.1 fk.2 s)
      (fun p fk => p.drop self fk.1 fk.2 s) where
  add hk hp _ := hp.post _ hk s
  drop hk hp _ := hp.drop _ hk s

end

-- ======== counters

section

variable {α : Type} [DecidableEq α] [Zero α] {c d : Finmap fun _ : φ => α}
  {n : φ → α}

/-- The counters hold `n`, without the zeros. -/
def Tallies (c : Finmap fun _ : φ => α) (n : φ → α) : Prop :=
  ∀ f, c.lookup f = if n f = 0 then none else some (n f)

/-- Counts of the same numbers are the same. -/
theorem Tallies.unique (hc : Tallies c n) (hd : Tallies d n) : c = d := by
  apply Finmap.ext_lookup
  intro f
  rw [hc f, hd f]

theorem Tallies.empty : Tallies (∅ : Finmap fun _ : φ => α) 0 := by
  intro f
  rw [Finmap.lookup_empty]
  exact (if_pos rfl).symm

/-- A field without a count counts zero. -/
theorem Tallies.getD (hc : Tallies c n) (f : φ) :
    (c.lookup f).getD 0 = n f := by
  rw [hc f]
  split
  · next h => exact h.symm
  · rfl

/-- Store a counter, or drop it at zero. -/
theorem Tallies.set (hc : Tallies c n) (f : φ) (x : α) :
    Tallies (if x = 0 then c.erase f else c.insert f x) (update n f x) := by
  intro f'
  rw [lookup_assign, update_apply, hc f']
  split <;> rfl

end

end Rostam.Lib
