/-
Incremental payload indexing is rebuilding.

A call of `reindex` works on five parts that do not read each other: the
scalar keys with their counters, the geo cells, the tokens, the array
elements and the bad records. Each part is followed through the loop by a
list of what one payload posts (`scalarPosts` and its siblings). What a
part holds after any sequence of calls is what the last payload of each
slot posts, provided every posted key is found again; a part is
determined by that.

Array elements are posted under keys that may be a NaN. Such an entry is
never dropped, so the postings of a payload outlive it.

A collection keeps the index as one table of what each slot posts. The
index stands for that table (`Index.table`): its calls do to it what the
table's own do, and a lookup finds a slot under what the slot posts.
-/
import Rostam.Vector.Index
import Rostam.Vector.Payload

namespace Rostam.Vector.Payload

open Rostam.Lib Rostam.Record Function

-- ======== loops, parts

section

variable {S V E A : Type} {v : S → V}

/-- A loop over entries is, on a part, a loop over what they post. -/
theorem foldl_posts {f : S → E → S} {g : V → A → V} {l : E → List A}
    (h : ∀ st e, v (f st e) = (l e).foldl g (v st)) (es : List E)
    (st : S) : v (es.foldl f st) = (es.flatMap l).foldl g (v st) := by
  induction es generalizing st with
  | nil => rfl
  | cons e es ih => rw [List.foldl_cons, ih, h, List.flatMap_cons,
      List.foldl_append]

/-- The same for the loop inside one entry. -/
theorem foldl_view {f : S → A → S} {g : V → A → V}
    (h : ∀ st a, v (f st a) = g (v st) a) (as : List A) (st : S) :
    v (as.foldl f st) = as.foldl g (v st) := by
  induction as generalizing st with
  | nil => rfl
  | cons a as ih => rw [List.foldl_cons, ih, h, List.foldl_cons]

end

-- ======== what a payload posts

/-- An entry of a payload. -/
abbrev Item := Sigma fun _ : Bytes => Value

/-- The scalar keys of one entry of a payload. -/
def scalarPosts (m : Metadata) (e : Item) : List (Bytes × ScalarKey) :=
  if e.1 = contentField then []
  else
    match e.2 with
    | .record rec => (appendRecordIndexKeys m e.1 rec).getD []
    | v => ((scalarKeyOf v).map fun key => (e.1, key)).toList

/-- The geo cells. -/
def geoPosts (fns : Funcs) (e : Item) : List (Bytes × GeoCell) :=
  if e.1 = contentField then []
  else
    match e.2 with
    | .geo lat lon => [(e.1, fns.cellOf lat lon)]
    | _ => []

/-- The tokens. -/
def tokenPosts (fns : Funcs) (e : Item) : List (Bytes × Bytes) :=
  if e.1 = contentField then []
  else (valueTokens fns e.2).map fun tok => (e.1, tok)

/-- The array elements. -/
def elementPosts (e : Item) : List (Bytes × ScalarKey) :=
  if e.1 = contentField then []
  else (elementKeysOf e.2).map fun key => (e.1, key)

/-- The keys of the records that could not be enumerated. -/
def badPosts (m : Metadata) (e : Item) : List Bytes :=
  if e.1 = contentField then []
  else
    match e.2 with
    | .record rec =>
      if (appendRecordIndexKeys m e.1 rec).isNone then [e.1] else []
    | _ => []

-- ======== the parts

/-- Post an entry that is new, and collect it. -/
def onceStep {V α : Type} (has : V → α → Prop) [∀ v x, Decidable (has v x)]
    (add : V → α → V) (st : V × List α) (x : α) : V × List α :=
  if has st.1 x then st else (add st.1 x, st.2 ++ [x])

/-- Post an entry, and collect it. -/
def anyStep {V α : Type} (add : V → α → V) (st : V × List α) (x : α) :
    V × List α :=
  (add st.1 x, st.2 ++ [x])

theorem anyStep_foldl {V α : Type} (add : V → α → V) (ks acc : List α)
    (v : V) :
    ks.foldl (anyStep add) (v, acc) = (ks.foldl add v, acc ++ ks) := by
  induction ks generalizing v acc with
  | nil => rw [List.append_nil]; rfl
  | cons k ks ih =>
    rw [List.foldl_cons, anyStep, ih, List.foldl_cons, List.append_assoc,
      List.singleton_append]

/-- The scalar postings with their counters. -/
abbrev Scalars :=
  Postings Bytes ScalarKey Nat × (Finmap fun _ : Bytes => FieldPosts)

abbrev Scalars.has (slot : Nat) (v : Scalars) (fk : Bytes × ScalarKey) :
    Prop :=
  slot ∈ (v.1.find ScalarKey.self fk.1 fk.2).getD ∅

def Scalars.add (slot : Nat) (v : Scalars) (fk : Bytes × ScalarKey) :
    Scalars :=
  (v.1.post ScalarKey.self fk.1 fk.2 slot, addPost v.2 fk.1 fk.2 1)

def Scalars.drop (slot : Nat) (v : Scalars) (fk : Bytes × ScalarKey) :
    Scalars :=
  (v.1.drop ScalarKey.self fk.1 fk.2 slot,
    if v.has slot fk then addPost v.2 fk.1 fk.2 (-1) else v.2)

def scalarPart (st : Index × Collected) : Scalars × List (Bytes × ScalarKey) :=
  ((st.1.fields, st.1.posts), st.2.keys)

def geoPart (st : Index × Collected) :
    Postings Bytes GeoCell Nat × List (Bytes × GeoCell) :=
  (st.1.geo, st.2.geoCells)

def tokenPart (st : Index × Collected) :
    Postings Bytes Bytes Nat × List (Bytes × Bytes) :=
  (st.1.tokens, st.2.tokens)

def elementPart (st : Index × Collected) :
    Postings Bytes ScalarKey Nat × List (Bytes × ScalarKey) :=
  (st.1.contains, st.2.contains)

def badPart (st : Index × Collected) :
    (Finmap fun _ : Bytes => Int) × List Bytes :=
  (st.1.badRecords, st.2.badKeys)

/-- The loop does not touch the reverse maps. -/
def reverseMaps (st : Index × Collected) :=
  (st.1.slotKeys, st.1.geoSlotCells, st.1.tokenSlotKeys,
    st.1.containsSlotKeys, st.1.badSlotKeys)

/-- The geo branch of the loop body. -/
def postCell (slot : Nat) (st : Index × Collected) (fc : Bytes × GeoCell) :
    Index × Collected :=
  ({ st.1 with geo := st.1.geo.post always fc.1 fc.2 slot },
    { st.2 with geoCells := st.2.geoCells ++ [fc] })

/-- The branch of a record that could not be enumerated. -/
def postBad (st : Index × Collected) (key : Bytes) : Index × Collected :=
  ({ st.1 with badRecords := addBadRecord st.1.badRecords key },
    { st.2 with badKeys := st.2.badKeys ++ [key] })

/-- A part sees each kind of entry as a step of its own. -/
structure Sees {V : Type} (slot : Nat) (v : Index × Collected → V)
    (key : V → Bytes × ScalarKey → V) (token : V → Bytes × Bytes → V)
    (element : V → Bytes × ScalarKey → V) (cell : V → Bytes × GeoCell → V)
    (bad : V → Bytes → V) : Prop where
  key : ∀ st fk, v (postKey slot st fk) = key (v st) fk
  token : ∀ field st tok,
    v (postToken slot field st tok) = token (v st) (field, tok)
  element : ∀ field st k,
    v (postElement slot field st k) = element (v st) (field, k)
  cell : ∀ st fc, v (postCell slot st fc) = cell (v st) fc
  bad : ∀ st f, v (postBad st f) = bad (v st) f

section Steps

variable {V : Type} {slot : Nat} {v : Index × Collected → V}
  {key element : V → Bytes × ScalarKey → V}
  {token : V → Bytes × Bytes → V} {cell : V → Bytes × GeoCell → V}
  {bad : V → Bytes → V}

/-- The loop body, as a part sees it. -/
theorem Sees.indexField (h : Sees slot v key token element cell bad)
    (fns : Funcs) (m : Metadata) (st : Index × Collected) (e : Item) :
    v (indexField fns m slot st e)
      = (badPosts m e).foldl bad ((geoPosts fns e).foldl cell
        ((scalarPosts m e).foldl key ((elementPosts e).foldl element
          ((tokenPosts fns e).foldl token (v st))))) := by
  have hplain : ∀ field x, v (indexPlain fns slot st field x)
      = ((scalarKeyOf x).map fun k => (field, k)).toList.foldl key
        (((elementKeysOf x).map fun k => (field, k)).foldl element
          (((valueTokens fns x).map fun tok => (field, tok)).foldl token
            (v st))) := by
    intro field x
    rw [List.foldl_map, List.foldl_map, ← foldl_view (v := v) (h.token field),
      ← foldl_view (v := v) (h.element field)]
    unfold indexPlain
    cases scalarKeyOf x with
    | none => rfl
    | some k => exact h.key _ _
  unfold Payload.indexField scalarPosts geoPosts tokenPosts elementPosts
    badPosts
  by_cases hc : e.1 = contentField
  · simp only [if_pos hc]
    rfl
  · simp only [if_neg hc]
    obtain ⟨field, x⟩ := e
    cases x with
    | geo lat lon => exact h.cell st (field, fns.cellOf lat lon)
    | record rec =>
      dsimp only
      cases appendRecordIndexKeys m field rec with
      | none => exact h.bad st _
      | some ks => exact foldl_view h.key ks st
    | _ => exact hplain field _

/-- A part that no entry touches. -/
abbrev skip {V α : Type} (v : V) (_ : α) : V := v

/-- The scalars see the scalar keys only. -/
theorem scalarPart_sees (slot : Nat) :
    Sees slot scalarPart (onceStep (Scalars.has slot) (Scalars.add slot))
      skip skip skip skip where
  key st fk := by
    unfold postKey Index.postScalar onceStep Scalars.has scalarPart
    dsimp only
    split <;> rfl
  token field st tok := by
    unfold postToken
    split <;> rfl
  element _ _ _ := rfl
  cell _ _ := rfl
  bad _ _ := rfl

/-- The tokens see the tokens only. -/
theorem tokenPart_sees (slot : Nat) : Sees slot tokenPart skip
      (onceStep (fun p ft => slot ∈ (p.find always ft.1 ft.2).getD ∅)
        fun p ft => p.post always ft.1 ft.2 slot) skip skip skip where
  key st fk := by
    unfold postKey Index.postScalar
    dsimp only
    split <;> rfl
  token field st tok := by
    unfold postToken onceStep tokenPart
    split <;> rfl
  element _ _ _ := rfl
  cell _ _ := rfl
  bad _ _ := rfl

/-- A part that scalar keys and tokens do not touch. -/
theorem sees_rest (hkey : ∀ (p : Index) (c : Collected) F P K,
      v ({ p with fields := F, posts := P }, { c with keys := K }) = v (p, c))
    (htok : ∀ (p : Index) (c : Collected) T L,
      v ({ p with tokens := T }, { c with tokens := L }) = v (p, c))
    (hel : ∀ field st k,
      v (postElement slot field st k) = element (v st) (field, k))
    (hcell : ∀ st fc, v (postCell slot st fc) = cell (v st) fc)
    (hbad : ∀ st f, v (postBad st f) = bad (v st) f) :
    Sees slot v skip skip element cell bad where
  key st fk := by
    unfold postKey Index.postScalar
    dsimp only
    split
    · rfl
    · exact hkey st.1 st.2 _ _ _
  token field st tok := by
    unfold postToken
    split
    · rfl
    · exact htok st.1 st.2 _ _
  element := hel
  cell := hcell
  bad := hbad

theorem geoPart_sees (slot : Nat) : Sees slot geoPart skip skip skip
      (anyStep fun p fc => p.post always fc.1 fc.2 slot) skip :=
  sees_rest (fun _ _ _ _ _ => rfl) (fun _ _ _ _ => rfl)
    (fun _ _ _ => rfl) (fun _ _ => rfl) fun _ _ => rfl

theorem elementPart_sees (slot : Nat) : Sees slot elementPart skip skip
      (anyStep fun p fk => p.post ScalarKey.self fk.1 fk.2 slot) skip
      skip :=
  sees_rest (fun _ _ _ _ _ => rfl) (fun _ _ _ _ => rfl)
    (fun _ _ _ => rfl) (fun _ _ => rfl) fun _ _ => rfl

theorem badPart_sees (slot : Nat) :
    Sees slot badPart skip skip skip skip (anyStep addBadRecord) :=
  sees_rest (fun _ _ _ _ _ => rfl) (fun _ _ _ _ => rfl)
    (fun _ _ _ => rfl) (fun _ _ => rfl) fun _ _ => rfl

/-- The reverse maps see no step: they are written at the end. -/
theorem reverseMaps_sees (slot : Nat) :
    Sees slot reverseMaps skip skip skip skip skip :=
  sees_rest (fun _ _ _ _ _ => rfl) (fun _ _ _ _ => rfl)
    (fun _ _ _ => rfl) (fun _ _ => rfl) fun _ _ => rfl

end Steps

-- ======== counters

/-- The keys that count as numbers. -/
def ScalarKey.isNum : ScalarKey → Bool
  | .int _ | .float _ => true
  | _ => false

/-- The keys that count as strings. -/
def ScalarKey.isStr : ScalarKey → Bool
  | .str _ => true
  | _ => false

section Counters

variable {M : Finset (Nat × Bytes × ScalarKey)} {s : Nat} {f : Bytes}
  {k : ScalarKey} {posts : Finmap fun _ : Bytes => FieldPosts}

/-- The postings of a field under keys of a class. -/
def tally (c : ScalarKey → Bool) (M : Finset (Nat × Bytes × ScalarKey))
    (f : Bytes) : Nat :=
  (M.filter fun t => t.2.1 = f ∧ c t.2.2 = true).card

/-- What the counters of a field are to be. -/
def weigh (M : Finset (Nat × Bytes × ScalarKey)) (f : Bytes) :
    FieldPosts :=
  ⟨tally ScalarKey.isNum M f, tally ScalarKey.isStr M f⟩

theorem tally_insert (c : ScalarKey → Bool) (h : (s, f, k) ∉ M) (f' : Bytes) :
    tally c (insert (s, f, k) M) f'
      = tally c M f' + if f' = f ∧ c k = true then 1 else 0 := by
  unfold tally
  rw [Finset.filter_insert]
  by_cases hc : f = f' ∧ c k = true
  · rw [if_pos hc, if_pos ⟨hc.1.symm, hc.2⟩,
      Finset.card_insert_of_notMem fun hm => h (Finset.mem_filter.mp hm).1]
  · rw [if_neg hc, if_neg fun h' => hc ⟨h'.1.symm, h'.2⟩, Nat.add_zero]

/-- A posting more adds to the counter of its class. -/
theorem weigh_insert (h : (s, f, k) ∉ M) :
    weigh (insert (s, f, k) M)
      = update (weigh M) f
        ⟨(weigh M f).num + if k.isNum then 1 else 0,
          (weigh M f).str + if k.isStr then 1 else 0⟩ := by
  funext f'
  unfold weigh
  rw [tally_insert _ h, tally_insert _ h]
  by_cases hf : f' = f
  · subst hf
    rw [update_self]
    cases k.isNum <;> cases k.isStr <;> simp
  · rw [update_of_ne hf, if_neg fun h => hf h.1,
      if_neg fun h => hf h.1]
    rfl

/-- A new mark is counted. -/
theorem addPost_insert (hp : Tallies posts (weigh M)) (h : (s, f, k) ∉ M) :
    Tallies (addPost posts f k 1) (weigh (insert (s, f, k) M)) := by
  rw [weigh_insert h]
  unfold addPost putPost
  rw [hp.getD]
  cases k with
  | int _ | float _ =>
    have := hp.set f ⟨(weigh M f).num + 1, (weigh M f).str⟩
    simpa [ScalarKey.isNum, ScalarKey.isStr] using this
  | str _ =>
    have := hp.set f ⟨(weigh M f).num, (weigh M f).str + 1⟩
    simpa [ScalarKey.isNum, ScalarKey.isStr] using this
  | bool _ => simpa [ScalarKey.isNum, ScalarKey.isStr] using hp

/-- A mark that is gone is not. -/
theorem addPost_erase (hp : Tallies posts (weigh M)) (h : (s, f, k) ∈ M) :
    Tallies (addPost posts f k (-1)) (weigh (M.erase (s, f, k))) := by
  have hw := weigh_insert (Finset.notMem_erase (s, f, k) M)
  rw [Finset.insert_erase h] at hw
  have hold : weigh (M.erase (s, f, k))
      = update (weigh M) f (weigh (M.erase (s, f, k)) f) := by
    rw [hw, update_idem, update_eq_self]
  have hf := congrFun hw f
  rw [update_self] at hf
  have hset := hp.set f (weigh (M.erase (s, f, k)) f)
  unfold addPost putPost
  rw [hp.getD, hold]
  generalize weigh (M.erase (s, f, k)) f = e at hf hset ⊢
  cases k with
  | int _ | float _ | str _ =>
    simp only [ScalarKey.isNum, ScalarKey.isStr, if_true,
      Bool.false_eq_true, if_false, Int.add_zero] at hf
    simp only [hf, Int.add_neg_cancel_right]
    exact hset
  | bool _ =>
    have he : weigh M f = e := by
      simpa [ScalarKey.isNum, ScalarKey.isStr] using hf
    rw [← he, update_eq_self]
    exact hp

end Counters

-- ======== what is held

/-- The scalar part holds marks: their postings and their counters. -/
def ScalarsOf (v : Scalars) (M : Finset (Nat × Bytes × ScalarKey)) : Prop :=
  Posted v.1 M ∧ Tallies v.2 (weigh M)

/-- The number of slots with a bad record under a key. -/
def countBad (B : Finset (Nat × Bytes)) (key : Bytes) : Int :=
  (B.filter fun t => t.2 = key).card

/-- The poison counters hold marks. -/
def BadOf (bad : Finmap fun _ : Bytes => Int) (B : Finset (Nat × Bytes)) :
    Prop :=
  Tallies bad (countBad B)

theorem ScalarsOf.has_iff {v : Scalars}
    {M : Finset (Nat × Bytes × ScalarKey)} (h : ScalarsOf v M) {slot : Nat}
    {fk : Bytes × ScalarKey} (hk : fk.2.self = true) :
    v.has slot fk ↔ (slot, fk) ∈ M := h.1.mem_find hk slot

/-- Scalars are posted and dropped one by one. -/
theorem scalarMarks (slot : Nat) :
    Marks ScalarsOf slot (fun fk => fk.2.self = true) (Scalars.add slot)
      (Scalars.drop slot) where
  add hk h hnew := ⟨h.1.post _ hk slot, addPost_insert h.2 hnew⟩
  drop hk h hin := by
    refine ⟨h.1.drop _ hk slot, ?_⟩
    unfold Scalars.drop
    rw [if_pos ((h.has_iff hk).mpr hin)]
    exact addPost_erase h.2 hin

theorem countBad_insert {B : Finset (Nat × Bytes)} {s : Nat} {key : Bytes}
    (h : (s, key) ∉ B) :
    countBad (insert (s, key) B)
      = update (countBad B) key (countBad B key + 1) := by
  funext key'
  unfold countBad
  rw [Finset.filter_insert]
  by_cases hk : key' = key
  · subst hk
    rw [update_self, if_pos rfl,
      Finset.card_insert_of_notMem fun hm => h (Finset.mem_filter.mp hm).1]
    rfl
  · rw [update_of_ne hk, if_neg fun h => hk h.symm]

theorem countBad_nonneg (B : Finset (Nat × Bytes)) (key : Bytes) :
    0 ≤ countBad B key := Int.natCast_nonneg _

/-- Bad records are counted one by one. -/
theorem badMarks (slot : Nat) :
    Marks BadOf slot (fun _ => True) addBadRecord dropBadRecord where
  add {bad B key} _ h hnew := by
    have hset := Tallies.set h key (countBad B key + 1)
    have hpos := countBad_nonneg B key
    rw [if_neg (by omega)] at hset
    unfold BadOf addBadRecord
    rw [countBad_insert hnew, Tallies.getD h]
    exact hset
  drop {bad B key} _ h hin := by
    have hc := countBad_insert (Finset.notMem_erase (slot, key) B)
    rw [Finset.insert_erase hin] at hc
    have hpos := countBad_nonneg (B.erase (slot, key)) key
    have hk := congrFun hc key
    rw [update_self] at hk
    have hold : countBad (B.erase (slot, key))
        = update (countBad B) key (countBad B key - 1) := by
      rw [hk, hc, update_idem, Int.add_sub_cancel,
        update_eq_self]
    have hset := Tallies.set h key (countBad B key - 1)
    unfold BadOf dropBadRecord
    rw [hold, Tallies.getD h]
    by_cases h1 : 1 < countBad B key
    · rw [if_pos h1]
      rwa [if_neg (by omega)] at hset
    · rw [if_neg h1]
      rwa [if_pos (by omega)] at hset

-- ======== reverse maps

section Reverse

variable {α : Type} {r r' : Finmap fun _ : Nat => List α}
  {l : Nat → List α} {slot : Nat}

/-- The reverse map lists, for each slot, what it posted; it has no empty
list. -/
structure Listed (r : Finmap fun _ : Nat => List α) (l : Nat → List α) :
    Prop where
  perm : ∀ s, ((r.lookup s).getD []).Perm (l s)
  full : ∀ s, r.lookup s ≠ some []

/-- The same list, in any order. -/
def SameList : Option (List α) → Option (List α) → Prop
  | none, none => True
  | some a, some b => a.Perm b
  | _, _ => False

theorem Listed.same (h : Listed r l) (h' : Listed r' l) (s : Nat) :
    SameList (r.lookup s) (r'.lookup s) := by
  have hp := (h.perm s).trans (h'.perm s).symm
  cases hr : r.lookup s with
  | none =>
    cases hr' : r'.lookup s with
    | none => trivial
    | some b =>
      rw [hr, hr'] at hp
      exact absurd (hr' ▸ congrArg some hp.nil_eq.symm) (h'.full s)
  | some a =>
    cases hr' : r'.lookup s with
    | none =>
      rw [hr, hr'] at hp
      exact absurd (hr ▸ congrArg some hp.eq_nil) (h.full s)
    | some b =>
      rw [hr, hr'] at hp
      exact hp

theorem Listed.empty :
    Listed (∅ : Finmap fun _ : Nat => List α) fun _ => [] where
  perm s := by
    rw [Finmap.lookup_empty]
    exact List.Perm.refl _
  full s := by
    rw [Finmap.lookup_empty]
    exact (Option.some_ne_none _).symm

theorem Listed.erase (h : Listed r l) :
    Listed (r.erase slot) (update l slot []) where
  perm s := by
    rw [lookup_erase_ite, update_apply]
    split
    · exact List.Perm.refl _
    · exact h.perm s
  full s := by
    rw [lookup_erase_ite]
    split
    · exact (Option.some_ne_none _).symm
    · exact h.full s

/-- A slot is listed with its new keys. -/
theorem Listed.store (h : Listed r (update l slot []))
    {acc new : List α} (hp : acc.Perm new) :
    Listed (store slot acc r) (update l slot new) := by
  unfold Payload.store
  split
  · next hnil =>
    rw [List.isEmpty_iff] at hnil
    subst hnil
    rw [← hp.nil_eq]
    exact h
  · next hne =>
    refine ⟨fun s => ?_, fun s => ?_⟩
    · have hs := h.perm s
      rw [update_apply] at hs ⊢
      rw [lookup_insert_ite]
      split
      · exact hp
      · next hne => rwa [if_neg hne] at hs
    · rw [lookup_insert_ite]
      split
      · exact fun he => hne (List.isEmpty_iff.mpr (Option.some.inj he))
      · exact h.full s

/-- A part and its reverse map hold the lists of the slots. -/
structure Family {V : Type} (Q : V → Finset (Nat × α) → Prop) (v : V)
    (r : Finmap fun _ : Nat => List α) (l : Nat → List α) : Prop where
  held : ListedBy Q v l
  listed : Listed r l

variable [DecidableEq α] {V : Type} {Q : V → Finset (Nat × α) → Prop}
  {v : V} {ok : α → Prop} {add drop : V → α → V}

/-- A slot's keys are taken back. -/
theorem Family.unpost (h : Family Q v r l) (hm : Marks Q slot ok add drop)
    (hok : ∀ x ∈ l slot, ok x) (hnd : (l slot).Nodup) :
    Family Q (((r.lookup slot).getD []).foldl drop v) (r.erase slot)
      (update l slot []) :=
  ⟨hm.dropAll hok hnd (h.listed.perm slot) h.held, h.listed.erase⟩

/-- A slot posts each entry of a list, and stores what it collected. -/
theorem Family.every (h : Family Q v r (update l slot []))
    (hm : Marks Q slot ok add drop) {ks new : List α} (hp : ks.Perm new)
    (hok : ∀ x ∈ new, ok x) (hnd : new.Nodup) {st : V × List α}
    (hst : st = ks.foldl (anyStep add) (v, [])) :
    Family Q st.1 (store slot st.2 r) (update l slot new) := by
  rw [anyStep_foldl, List.nil_append] at hst
  subst hst
  obtain ⟨M, hM, hmem⟩ := hm.addAll
    (fun x hx => hok x (hp.mem_iff.mp hx)) (hp.nodup_iff.mpr hnd) h.held
  refine ⟨⟨M, hM, fun s x => ?_⟩, h.listed.store hp⟩
  rw [hmem, mem_update, mem_update, hp.mem_iff]

/-- The same, with the entries that are there skipped. -/
theorem Family.once (h : Family Q v r (update l slot []))
    (hm : Marks Q slot ok add drop) {has : V → α → Prop}
    [∀ v x, Decidable (has v x)]
    (hhas : ∀ {v M x}, ok x → Q v M → (has v x ↔ (slot, x) ∈ M))
    {ks new : List α} (hp : ks.Perm new) (hok : ∀ x ∈ new.dedup, ok x)
    {st : V × List α} (hst : st = ks.foldl (onceStep has add) (v, [])) :
    Family Q st.1 (store slot st.2 r) (update l slot new.dedup) := by
  obtain ⟨w, acc, heq, hacc, M, hM, hmem⟩ := hm.collect hhas
    (fun x hx => hok x (List.mem_dedup.mpr (hp.mem_iff.mp hx))) h.held
  obtain rfl := hst.trans heq
  have hacc := hacc.trans hp.dedup
  refine ⟨⟨M, hM, fun s x => ?_⟩, h.listed.store hacc⟩
  rw [hmem, mem_update, mem_update, hacc.mem_iff]

end Reverse

variable {m : Metadata}

-- ======== one call

/-- What a payload posts. -/
def scalarList (m : Metadata) : List (Bytes × ScalarKey) :=
  (m.entries.flatMap (scalarPosts m)).dedup

def geoList (fns : Funcs) (m : Metadata) : List (Bytes × GeoCell) :=
  m.entries.flatMap (geoPosts fns)

def tokenList (fns : Funcs) (m : Metadata) : List (Bytes × Bytes) :=
  (m.entries.flatMap (tokenPosts fns)).dedup

def elementList (m : Metadata) : List (Bytes × ScalarKey) :=
  m.entries.flatMap elementPosts

def badList (m : Metadata) : List Bytes := m.entries.flatMap (badPosts m)

/-- The parts of an index hold the lists of the slots. -/
structure Parts (p : Index) (S : Nat → List (Bytes × ScalarKey))
    (G : Nat → List (Bytes × GeoCell)) (T : Nat → List (Bytes × Bytes))
    (E : Nat → List (Bytes × ScalarKey)) (B : Nat → List Bytes) :
    Prop where
  scalar : Family ScalarsOf (p.fields, p.posts) p.slotKeys S
  geo : Family Posted p.geo p.geoSlotCells G
  tokens : Family Posted p.tokens p.tokenSlotKeys T
  contains : Family Posted p.contains p.containsSlotKeys E
  bad : Family BadOf p.badRecords p.badSlotKeys B

/-- The index holds what the payloads `latest` of the slots post. -/
def Holds (fns : Funcs) (p : Index) (latest : Nat → Metadata) : Prop :=
  Parts p (scalarList ∘ latest) (geoList fns ∘ latest)
    (tokenList fns ∘ latest) (elementList ∘ latest) (badList ∘ latest)

/-- No NaN among the elements of a float array that is indexed. -/
def NoNaN (m : Metadata) : Prop :=
  ∀ field fs, m.lookup field = some (.floats fs) → field ≠ contentField →
    ∀ x ∈ fs, isNaN64 x.toNat = false

theorem ofFloat_self {x : BitVec 64} (h : isNaN64 x.toNat = false) :
    (ScalarKey.ofFloat x).self = true := by
  unfold ScalarKey.ofFloat ScalarKey.self
  dsimp only
  split
  · decide
  · rw [h]
    rfl

/-- A scalar key equals itself: no scalar is a NaN. -/
theorem scalarKeyOf_self {v : Value} {k : ScalarKey}
    (h : scalarKeyOf v = some k) : k.self = true := by
  cases v with
  | string _ | int _ | bool _ =>
    cases h
    rfl
  | float x =>
    dsimp only [scalarKeyOf] at h
    split at h
    · cases h
    · next hn =>
      injection h with h
      exact h ▸ ofFloat_self (Bool.eq_false_iff.mpr hn)
  | _ => cases h

theorem scalarList_self {fk : Bytes × ScalarKey}
    (h : fk ∈ scalarList m) : fk.2.self = true := by
  obtain ⟨e, -, h⟩ := List.mem_flatMap.mp (List.mem_dedup.mp h)
  unfold scalarPosts at h
  split at h
  · cases h
  · have hplain : ∀ v, fk ∈ ((scalarKeyOf v).map fun key =>
        (e.1, key)).toList → fk.2.self = true := by
      intro v h
      obtain ⟨k, hk, rfl⟩ := Option.map_eq_some_iff.mp (Option.mem_toList.mp h)
      exact scalarKeyOf_self hk
    split at h
    · next rec hv =>
      unfold appendRecordIndexKeys at h
      split at h
      · cases h
      · next entries _ =>
        obtain ⟨x, -, hx⟩ := List.mem_filterMap.mp h
        unfold recordIndexKey at hx
        dsimp only at hx
        split at hx
        · cases hx
        · split at hx
          · cases hx
          · split at hx
            · cases hx
            · obtain ⟨k, hk, rfl⟩ := Option.map_eq_some_iff.mp hx
              exact scalarKeyOf_self hk
    · exact hplain _ h

theorem mem_distinctKeys {seen ks : List ScalarKey} {k : ScalarKey}
    (h : k ∈ distinctKeys seen ks) : k ∈ ks := by
  induction ks generalizing seen with
  | nil => cases h
  | cons k' ks ih =>
    unfold distinctKeys at h
    split at h
    · exact List.mem_cons_of_mem _ (ih h)
    · rcases List.mem_cons.mp h with rfl | h
      · exact List.mem_cons_self
      · exact List.mem_cons_of_mem _ (ih h)

theorem elementKeysOf_self (hm : NoNaN m) {e : Item}
    (he : e ∈ m.entries) (hc : e.1 ≠ contentField) :
    ∀ k ∈ elementKeysOf e.2, k.self = true := by
  intro k hk
  obtain ⟨field, v⟩ := e
  have hl : m.lookup field = some v := AList.mem_lookup_iff.mpr he
  cases v with
  | strings ss =>
    obtain ⟨x, -, rfl⟩ := List.mem_map.mp (mem_distinctKeys hk)
    rfl
  | ints is =>
    obtain ⟨x, -, rfl⟩ := List.mem_map.mp (mem_distinctKeys hk)
    rfl
  | floats fs =>
    obtain ⟨x, hx, rfl⟩ := List.mem_map.mp (mem_distinctKeys hk)
    exact ofFloat_self (hm field fs hl hc x hx)
  | _ => cases hk

theorem elementList_self (hm : NoNaN m)
    {fk : Bytes × ScalarKey} (h : fk ∈ elementList m) :
    fk.2.self = true := by
  obtain ⟨e, he, h⟩ := List.mem_flatMap.mp h
  unfold elementPosts at h
  split at h
  · cases h
  · next hc =>
    obtain ⟨k, hk, rfl⟩ := List.mem_map.mp h
    exact elementKeysOf_self hm he hc k hk

/-- A payload has a field once, so entries that name their field and are
distinct in it are distinct. -/
theorem nodup_flatMap {α : Type} {f : Item → List α} {g : α → Bytes}
    (hg : ∀ e, ∀ x ∈ f e, g x = e.1)
    (hf : ∀ e ∈ m.entries, (f e).Nodup) : (m.entries.flatMap f).Nodup := by
  refine List.nodup_flatMap.mpr ⟨hf, ?_⟩
  refine (List.pairwise_map.mp m.nodupKeys).imp ?_
  intro d e hde x hd he
  exact hde ((hg d x hd).symm.trans (hg e x he))

theorem geoList_nodup (fns : Funcs) (m : Metadata) :
    (geoList fns m).Nodup := by
  refine nodup_flatMap (g := Prod.fst) ?_ ?_
  · intro e x hx
    unfold geoPosts at hx
    split at hx
    · cases hx
    · split at hx
      · rw [List.mem_singleton.mp hx]
      · cases hx
  · intro e _
    unfold geoPosts
    split
    · exact List.nodup_nil
    · split
      · exact List.nodup_singleton _
      · exact List.nodup_nil

theorem badList_nodup (m : Metadata) : (badList m).Nodup := by
  have hsub : ∀ e, (badPosts m e).Sublist [e.1] := by
    intro e
    unfold badPosts
    split
    · exact List.nil_sublist _
    · split
      · split
        · exact List.Sublist.refl _
        · exact List.nil_sublist _
      · exact List.nil_sublist _
  exact nodup_flatMap (g := id)
    (fun e x hx => List.mem_singleton.mp ((hsub e).subset hx))
    (fun e _ => (hsub e).nodup (List.nodup_singleton _))

theorem distinctKeys_nodup {seen ks : List ScalarKey}
    (hks : ∀ k ∈ distinctKeys seen ks, k.self = true) :
    (distinctKeys seen ks).Nodup ∧ ∀ k ∈ distinctKeys seen ks, k ∉ seen := by
  induction ks generalizing seen with
  | nil => exact ⟨List.nodup_nil, fun k hk => absurd hk List.not_mem_nil⟩
  | cons k ks ih =>
    unfold distinctKeys at hks ⊢
    split at hks
    · next hold =>
      rw [if_pos hold]
      exact ih hks
    · next hnew =>
      obtain ⟨hk, hks⟩ := List.forall_mem_cons.mp hks
      rw [if_neg hnew]
      rw [hk, Bool.true_and, decide_eq_true_eq] at hnew
      obtain ⟨hnd, hout⟩ := ih hks
      refine ⟨List.nodup_cons.mpr ⟨fun hin => ?_, hnd⟩, ?_⟩
      · exact hout k hin List.mem_cons_self
      · refine List.forall_mem_cons.mpr ⟨hnew, fun x hx hs => ?_⟩
        exact hout x hx (List.mem_cons_of_mem _ hs)

/-- Without a NaN no element is listed twice. -/
theorem elementList_nodup (hm : NoNaN m) : (elementList m).Nodup := by
  refine nodup_flatMap (g := Prod.fst) ?_ ?_
  · intro e x hx
    unfold elementPosts at hx
    split at hx
    · cases hx
    · obtain ⟨k, -, rfl⟩ := List.mem_map.mp hx
      rfl
  · intro e he
    unfold elementPosts
    split
    · exact List.nodup_nil
    · next hc =>
      refine List.Nodup.map (fun a b h => (Prod.mk.inj h).2) ?_
      have hself := elementKeysOf_self hm he hc
      generalize e.2 = v at hself
      cases v with
      | strings | ints | floats => exact (distinctKeys_nodup hself).1
      | _ => exact List.nodup_nil

section Reindex

variable {fns : Funcs} {p : Index} {latest : Nat → Metadata} {slot : Nat}

theorem foldl_drop (ks : List (Bytes × ScalarKey)) (p : Index) :
    ks.foldl (fun p fk => p.drop fk slot) p = { p with
          fields := (ks.foldl (Scalars.drop slot) (p.fields, p.posts)).1
          posts := (ks.foldl (Scalars.drop slot) (p.fields, p.posts)).2 } := by
  induction ks generalizing p with
  | nil => rfl
  | cons fk ks ih =>
    rw [List.foldl_cons, ih]
    rfl

/-- An unposted slot leaves the others' postings. -/
theorem Holds.unpost (h : Holds fns p latest) (slot : Nat)
    (hnan : NoNaN (latest slot)) :
    Parts (p.unpost slot) (update (scalarList ∘ latest) slot [])
      (update (geoList fns ∘ latest) slot [])
      (update (tokenList fns ∘ latest) slot [])
      (update (elementList ∘ latest) slot [])
      (update (badList ∘ latest) slot []) := by
  unfold Index.unpost
  rw [foldl_drop]
  exact
    { scalar := h.scalar.unpost (scalarMarks slot)
        (fun _ hk => scalarList_self hk) (List.nodup_dedup _)
      geo := h.geo.unpost (Posted.marks always slot) (fun _ _ => rfl)
        (geoList_nodup _ _)
      tokens := h.tokens.unpost (Posted.marks always slot) (fun _ _ => rfl)
        (List.nodup_dedup _)
      contains := h.contains.unpost (Posted.marks ScalarKey.self slot)
        (fun _ hk => elementList_self hnan hk) (elementList_nodup hnan)
      bad := h.bad.unpost (badMarks slot) (fun _ _ => trivial)
        (badList_nodup _) }

/-- The end of `reindex`: store what the call collected. -/
def finish (slot : Nat) (st : Index × Collected) : Index :=
  { st.1 with
    slotKeys := store slot st.2.keys st.1.slotKeys
    geoSlotCells := store slot st.2.geoCells st.1.geoSlotCells
    tokenSlotKeys := store slot st.2.tokens st.1.tokenSlotKeys
    containsSlotKeys := store slot st.2.contains st.1.containsSlotKeys
    badSlotKeys := store slot st.2.badKeys st.1.badSlotKeys }

/-- The loop of `reindex`, from an unposted slot. -/
def loop (fns : Funcs) (order : RangeOrder) (m : Metadata) (slot : Nat)
    (p : Index) : Index × Collected :=
  (order.visit m).foldl (indexField fns m slot) (p, ⟨[], [], [], [], []⟩)

/-- An empty payload takes the loop too: it has no step. -/
theorem reindex_eq (order : RangeOrder) (p : Index) (m : Metadata) :
    p.reindex fns order slot m
      = finish slot (loop fns order m slot (p.unpost slot)) := by
  unfold Index.reindex loop
  split
  · next hnil =>
    have hvisit : order.visit m = [] := by
      have := order.perm m
      rw [List.isEmpty_iff.mp hnil] at this
      exact this.eq_nil
    rw [hvisit]
    rfl
  · rfl

/-- The loop as a part sees it whose entries are `f`. -/
theorem loop_part {V A : Type} {v : Index × Collected → V}
    {key element : V → Bytes × ScalarKey → V}
    {token : V → Bytes × Bytes → V} {cell : V → Bytes × GeoCell → V}
    {bad : V → Bytes → V} {g : V → A → V} {f : Item → List A}
    (h : Sees slot v key token element cell bad) (fns : Funcs)
    (order : RangeOrder) (m : Metadata) (p : Index)
    (hp : ∀ e w, (badPosts m e).foldl bad ((geoPosts fns e).foldl cell
        ((scalarPosts m e).foldl key ((elementPosts e).foldl element
          ((tokenPosts fns e).foldl token w))))
      = (f e).foldl g w) :
    v (loop fns order m slot p) = ((order.visit m).flatMap f).foldl g
        (v (p, ⟨[], [], [], [], []⟩)) :=
  foldl_posts (fun st e => (h.indexField fns m st e).trans (hp e _)) _ _

/-- A call of `reindex` replaces what its slot posts. -/
theorem Holds.reindex (h : Holds fns p latest) (slot : Nat)
    (hold : NoNaN (latest slot)) {m : Metadata} (hnew : NoNaN m)
    (order : RangeOrder) :
    Holds fns (p.reindex fns order slot m)
      (update latest slot m) := by
  have hbare := h.unpost slot hold
  have hrev := loop_part (f := fun _ => ([] : List Bytes)) (g := skip)
    (reverseMaps_sees slot) fns order m (p.unpost slot)
    fun e w => by simp only [List.foldl_fixed]
  rw [List.foldl_fixed] at hrev
  simp only [reverseMaps, Prod.mk.injEq] at hrev
  obtain ⟨hr₁, hr₂, hr₃, hr₄, hr₅⟩ := hrev
  have hp := fun {A : Type} (f : Item → List A) =>
    (order.perm m).flatMap_right f
  unfold Holds
  rw [reindex_eq, comp_update, comp_update,
    comp_update, comp_update, comp_update]
  exact
    { scalar := (hr₁ ▸ hbare.scalar).once (scalarMarks slot)
        (fun hk hM => hM.has_iff hk) (hp (scalarPosts m))
        (fun _ hk => scalarList_self hk)
        (loop_part (scalarPart_sees slot) fns order m _
          fun e w => by simp only [List.foldl_fixed])
      geo := (hr₂ ▸ hbare.geo).every (Posted.marks always slot)
        (hp (geoPosts fns)) (fun _ _ => rfl) (geoList_nodup _ _)
        (loop_part (geoPart_sees slot) fns order m _
          fun e w => by simp only [List.foldl_fixed])
      tokens := (hr₃ ▸ hbare.tokens).once (Posted.marks always slot)
        (fun hk hM => hM.mem_find hk slot) (hp (tokenPosts fns))
        (fun _ _ => rfl)
        (loop_part (tokenPart_sees slot) fns order m _
          fun e w => by simp only [List.foldl_fixed])
      contains := (hr₄ ▸ hbare.contains).every
        (Posted.marks ScalarKey.self slot) (hp elementPosts)
        (fun _ hk => elementList_self hnew hk) (elementList_nodup hnew)
        (loop_part (elementPart_sees slot) fns order m _
          fun e w => by simp only [List.foldl_fixed])
      bad := (hr₅ ▸ hbare.bad).every (badMarks slot) (hp (badPosts m))
        (fun _ _ => trivial) (badList_nodup m)
        (loop_part (badPart_sees slot) fns order m _
          fun e w => by simp only [List.foldl_fixed]) }

end Reindex

-- ======== all calls

/-- The last payload of each slot; the empty one where there was none. -/
def latestOf (calls : List Call) : Nat → Metadata :=
  calls.foldl (fun l c => update l c.slot c.payload) fun _ => ∅

/-- One call for each slot, with its last payload, in any order. -/
structure Rebuilds (calls final : List Call) : Prop where
  once : (final.map Call.slot).Nodup
  last : ∀ c ∈ final, c.payload = latestOf calls c.slot
  all : ∀ c ∈ calls, c.slot ∈ final.map Call.slot

/-- Two indexes are the same, up to the order within reverse lists. -/
structure Same (p q : Index) : Prop where
  fields : p.fields = q.fields
  posts : p.posts = q.posts
  geo : p.geo = q.geo
  tokens : p.tokens = q.tokens
  contains : p.contains = q.contains
  badRecords : p.badRecords = q.badRecords
  slotKeys : ∀ s, SameList (p.slotKeys.lookup s) (q.slotKeys.lookup s)
  geoSlotCells : ∀ s,
    SameList (p.geoSlotCells.lookup s) (q.geoSlotCells.lookup s)
  tokenSlotKeys : ∀ s,
    SameList (p.tokenSlotKeys.lookup s) (q.tokenSlotKeys.lookup s)
  containsSlotKeys : ∀ s,
    SameList (p.containsSlotKeys.lookup s) (q.containsSlotKeys.lookup s)
  badSlotKeys : ∀ s, SameList (p.badSlotKeys.lookup s) (q.badSlotKeys.lookup s)

/-- A posting map without empty keys and without `s`. -/
structure CleanOf {κ : Type} [DecidableEq κ] (P : Postings Bytes κ Nat)
    (gone : Nat → Prop) : Prop where
  tidy : ∀ f m, P.lookup f = some m → m.known ≠ ∅ ∧ m.lost = []
  full : ∀ f k, P.look f k ≠ some ∅
  free : ∀ s, gone s → ∀ f k set, P.look f k = some set → s ∉ set

section Runs

variable {fns : Funcs} {p q : Index} {latest : Nat → Metadata}

theorem ScalarsOf.unique {v w : Scalars}
    {M : Finset (Nat × Bytes × ScalarKey)} (h : ScalarsOf v M)
    (h' : ScalarsOf w M) : v = w :=
  Prod.ext (h.1.unique h'.1) (h.2.unique h'.2)

/-- Two indexes of the same payloads are the same. -/
theorem Holds.same (hp : Holds fns p latest) (hq : Holds fns q latest) :
    Same p q := by
  have hs := hp.scalar.held.unique hq.scalar.held ScalarsOf.unique
  exact
    { fields := congrArg Prod.fst hs
      posts := congrArg Prod.snd hs
      geo := hp.geo.held.unique hq.geo.held Posted.unique
      tokens := hp.tokens.held.unique hq.tokens.held Posted.unique
      contains := hp.contains.held.unique hq.contains.held Posted.unique
      badRecords := hp.bad.held.unique hq.bad.held Tallies.unique
      slotKeys := hp.scalar.listed.same hq.scalar.listed
      geoSlotCells := hp.geo.listed.same hq.geo.listed
      tokenSlotKeys := hp.tokens.listed.same hq.tokens.listed
      containsSlotKeys := hp.contains.listed.same hq.contains.listed
      badSlotKeys := hp.bad.listed.same hq.bad.listed }

theorem postings_of_scalars {v : Scalars}
    {l : Nat → List (Bytes × ScalarKey)} (h : ListedBy ScalarsOf v l) :
    ListedBy Posted v.1 l := by
  obtain ⟨M, hM, hmem⟩ := h
  exact ⟨M, hM.1, hmem⟩

theorem cleanOf_listedBy {κ : Type} [DecidableEq κ] {P : Postings Bytes κ Nat}
    {l : Nat → List (Bytes × κ)} (h : ListedBy Posted P l) {gone : Nat → Prop}
    (hgone : ∀ s, gone s → l s = []) : CleanOf P gone := by
  obtain ⟨M, hM, hmem⟩ := h
  refine ⟨hM.tidy, hM.full, fun s hs f k set hset hin => ?_⟩
  have := (hmem s (f, k)).mp ((hM.mem s f k).mpr ⟨set, hset, hin⟩)
  rw [hgone s hs] at this
  exact List.not_mem_nil this

/-- A new index holds nothing. -/
theorem holds_new (fns : Funcs) : Holds fns .new fun _ => ∅ := by
  have hnone : ∀ {α : Type} (s : Nat) (x : α), (s, x) ∈ (∅ : Finset _)
      ↔ x ∈ [] := fun s x => by simp
  exact
    { scalar := ⟨⟨∅, ⟨.empty, .empty⟩, hnone⟩, .empty⟩
      geo := ⟨⟨∅, .empty, hnone⟩, .empty⟩
      tokens := ⟨⟨∅, .empty, hnone⟩, .empty⟩
      contains := ⟨⟨∅, .empty, hnone⟩, .empty⟩
      bad := ⟨⟨∅, .empty, hnone⟩, .empty⟩ }

/-- The index holds the latest payload of every slot. -/
theorem run_holds (fns : Funcs) (calls : List Call)
    (hnan : ∀ c ∈ calls, NoNaN c.payload) :
    Holds fns (run fns calls) (latestOf calls)
      ∧ ∀ s, NoNaN (latestOf calls s) := by
  -- From any index that holds free payloads, call by call.
  have main : ∀ (calls : List Call) p latest,
      (∀ c ∈ calls, NoNaN c.payload) → Holds fns p latest →
      (∀ s, NoNaN (latest s)) →
      Holds fns (calls.foldl
        (fun p c => p.reindex fns c.order c.slot c.payload) p)
        (calls.foldl (fun l c => update l c.slot c.payload) latest)
      ∧ ∀ s, NoNaN (calls.foldl
        (fun l c => update l c.slot c.payload) latest s) := by
    intro calls
    induction calls with
    | nil => exact fun p latest _ h hl => ⟨h, hl⟩
    | cons c calls ih =>
      intro p latest hnan h hl
      obtain ⟨hc, hnan⟩ := List.forall_mem_cons.mp hnan
      refine ih _ _ hnan (h.reindex c.slot (hl c.slot) hc c.order) ?_
      intro s
      show NoNaN (update latest c.slot c.payload s)
      by_cases hs : s = c.slot
      · subst hs
        rw [update_self]
        exact hc
      · rw [update_of_ne hs]
        exact hl s
  refine main calls .new _ hnan (holds_new fns) fun s field fs hl => ?_
  rw [AList.lookup_empty] at hl
  cases hl

/-- What a slot posts. -/
inductive Post where
  | scalar (fk : Bytes × ScalarKey)
  | geo (fc : Bytes × GeoCell)
  | token (ft : Bytes × Bytes)
  | element (fk : Bytes × ScalarKey)
  | bad (key : Bytes)

/-- A line of the table, from the five lists. -/
def lineOf (S : List (Bytes × ScalarKey)) (G : List (Bytes × GeoCell))
    (T : List (Bytes × Bytes)) (E : List (Bytes × ScalarKey))
    (B : List Bytes) : List Post :=
  S.map .scalar ++ G.map .geo ++ T.map .token ++ E.map .element ++ B.map .bad

/-- The table of a collection that an index stands for: its reverse
maps. -/
def Index.table (p : Index) : PayloadIndex Post :=
  ⟨fun s => lineOf ((p.slotKeys.lookup s).getD [])
    ((p.geoSlotCells.lookup s).getD []) ((p.tokenSlotKeys.lookup s).getD [])
    ((p.containsSlotKeys.lookup s).getD [])
    ((p.badSlotKeys.lookup s).getD [])⟩

/-- What a payload posts, as the collections have it. -/
def indexKeys (fns : Funcs) (m : Metadata) : List Post :=
  lineOf (scalarList m) (geoList fns m) (tokenList fns m) (elementList m)
    (badList m)

/-- A slot's row in the table has the keys of its payload. -/
theorem Holds.table (h : Holds fns p latest) (s : Nat) :
    (p.table.slotKeys s).Perm (indexKeys fns (latest s)) :=
  (((((h.scalar.listed.perm s).map _).append
    ((h.geo.listed.perm s).map _)).append
    ((h.tokens.listed.perm s).map _)).append
    ((h.contains.listed.perm s).map _)).append
    ((h.bad.listed.perm s).map _)

/-- After any calls, none with a NaN element, the index stands for the
table that the same calls leave, up to the order within a slot. -/
theorem run_table (fns : Funcs) (calls : List Call)
    (hnan : ∀ c ∈ calls, NoNaN c.payload) (s : Nat) :
    ((run fns calls).table.slotKeys s).Perm
      ((calls.foldl (fun t c => t.reindex c.slot (indexKeys fns c.payload))
        PayloadIndex.empty).slotKeys s) := by
  -- the table holds what the last payloads post
  have main : ∀ (calls : List Call) (latest : Nat → Metadata),
      calls.foldl (fun (t : PayloadIndex Post) c =>
          t.reindex c.slot (indexKeys fns c.payload)) ⟨indexKeys fns ∘ latest⟩
        = ⟨indexKeys fns ∘
          calls.foldl (fun l c => update l c.slot c.payload) latest⟩ := by
    intro calls
    induction calls with
    | nil => exact fun _ => rfl
    | cons c calls ih =>
      intro latest
      rw [List.foldl_cons, List.foldl_cons, ← ih, PayloadIndex.reindex,
        comp_update]
  have hempty : PayloadIndex.empty = ⟨indexKeys fns ∘ fun _ => ∅⟩ := rfl
  rw [hempty, main]
  exact (run_holds fns calls hnan).1.table s

/-- A slot is found under the keys it is listed with. -/
theorem Family.mem_find {κ : Type} [DecidableEq κ] {self : κ → Bool}
    {P : Postings Bytes κ Nat} {r : Finmap fun _ : Nat => List (Bytes × κ)}
    {l : Nat → List (Bytes × κ)} (h : Family Posted P r l) (s : Nat)
    {fk : Bytes × κ} (hk : self fk.2 = true) :
    s ∈ (P.find self fk.1 fk.2).getD ∅ ↔ fk ∈ (r.lookup s).getD [] := by
  obtain ⟨⟨M, hM, hmem⟩, hr⟩ := h
  rw [hM.mem_find hk, hmem, (hr.perm s).mem_iff]

/-- A lookup finds a slot under a key that equals itself just when the
table has the key among what the slot posts. -/
theorem Holds.found (h : Holds fns p latest) (s : Nat) :
    (∀ fk : Bytes × ScalarKey, fk.2.self = true →
      (s ∈ (p.fields.find ScalarKey.self fk.1 fk.2).getD ∅
        ↔ .scalar fk ∈ p.table.slotKeys s))
    ∧ (∀ fc : Bytes × GeoCell, s ∈ (p.geo.find always fc.1 fc.2).getD ∅
        ↔ .geo fc ∈ p.table.slotKeys s)
    ∧ (∀ ft : Bytes × Bytes, s ∈ (p.tokens.find always ft.1 ft.2).getD ∅
        ↔ .token ft ∈ p.table.slotKeys s)
    ∧ ∀ fk : Bytes × ScalarKey, fk.2.self = true →
      (s ∈ (p.contains.find ScalarKey.self fk.1 fk.2).getD ∅
        ↔ .element fk ∈ p.table.slotKeys s) := by
  have hscalar : Family Posted p.fields p.slotKeys _ :=
    ⟨postings_of_scalars h.scalar.held, h.scalar.listed⟩
  simp only [Index.table, lineOf, List.mem_append, List.mem_map,
    Post.scalar.injEq, Post.geo.injEq, Post.token.injEq, Post.element.injEq,
    reduceCtorEq, and_false, exists_false, exists_eq_right, or_false,
    false_or]
  exact ⟨fun _ hk => hscalar.mem_find s hk,
    fun _ => h.geo.mem_find s rfl, fun _ => h.tokens.mem_find s rfl,
    fun _ hk => h.contains.mem_find s hk⟩

/-- A slot without a call keeps what it had. -/
theorem latest_foldl_of_notMem {s : Nat} (calls : List Call)
    (latest : Nat → Metadata) (h : s ∉ calls.map Call.slot) :
    calls.foldl (fun l c => update l c.slot c.payload) latest s
      = latest s := by
  induction calls generalizing latest with
  | nil => rfl
  | cons c calls ih =>
    rw [List.map_cons, List.mem_cons, not_or] at h
    rw [List.foldl_cons, ih _ h.2, update_of_ne h.1]

/-- A slot with one call has the payload of that call. -/
theorem latest_foldl_of_mem {c : Call} (calls : List Call)
    (latest : Nat → Metadata) (hnd : (calls.map Call.slot).Nodup)
    (hc : c ∈ calls) :
    calls.foldl (fun l c => update l c.slot c.payload) latest
      c.slot = c.payload := by
  induction calls generalizing latest with
  | nil => exact absurd hc List.not_mem_nil
  | cons d calls ih =>
    rw [List.map_cons, List.nodup_cons] at hnd
    rw [List.foldl_cons]
    rcases List.mem_cons.mp hc with rfl | hc
    · rw [latest_foldl_of_notMem calls _ hnd.1, update_self]
    · exact ih _ hnd.2 hc

theorem Rebuilds.latest_eq {calls final : List Call}
    (h : Rebuilds calls final) : latestOf final = latestOf calls := by
  funext s
  by_cases hs : s ∈ final.map Call.slot
  · obtain ⟨c, hc, rfl⟩ := List.mem_map.mp hs
    rw [← h.last c hc]
    exact latest_foldl_of_mem final _ h.once hc
  · have hcalls : s ∉ calls.map Call.slot := by
      intro hin
      obtain ⟨c, hc, rfl⟩ := List.mem_map.mp hin
      exact hs (h.all c hc)
    exact (latest_foldl_of_notMem final _ hs).trans
      (latest_foldl_of_notMem calls (fun _ => ∅) hcalls).symm

/-- The index after any calls, none with a NaN element, is the one built
from each slot's last payload; no posting is empty, and a slot whose last
payload is empty is in none of them. -/
theorem reindex_is_rebuild (fns : Funcs) (calls final : List Call)
    (hnan : ∀ c ∈ calls, NoNaN c.payload) (hfinal : Rebuilds calls final) :
    Same (run fns calls) (run fns final)
      ∧ CleanOf (run fns calls).fields (latestOf calls · = ∅)
      ∧ CleanOf (run fns calls).geo (latestOf calls · = ∅)
      ∧ CleanOf (run fns calls).tokens (latestOf calls · = ∅)
      ∧ CleanOf (run fns calls).contains (latestOf calls · = ∅) := by
  obtain ⟨hcalls, hfree⟩ := run_holds fns calls hnan
  have hrun := (run_holds fns final fun c hc => by
    rw [hfinal.last c hc]
    exact hfree c.slot).1
  rw [hfinal.latest_eq] at hrun
  refine ⟨hcalls.same hrun,
    cleanOf_listedBy (postings_of_scalars hcalls.scalar.held) ?_,
    cleanOf_listedBy hcalls.geo.held ?_,
    cleanOf_listedBy hcalls.tokens.held ?_,
    cleanOf_listedBy hcalls.contains.held ?_⟩
  all_goals
    intro s hs
    rw [comp_apply, hs]
    rfl

/-- A collection without text or places. -/
def noFuncs : Funcs := ⟨fun _ => [], fun _ _ => ⟨0, 0⟩⟩

/-- A call with one field, visited as it is stored. -/
def callWith (slot : Nat) (payload : Metadata) : Call :=
  ⟨slot, payload, inOrder⟩

/-- An array of floats is posted and dropped again. -/
theorem reindex_is_rebuild_dropped :
    Same (run noFuncs [callWith 0 (AList.singleton [102] (.floats [0])),
        callWith 0 ∅]) (run noFuncs [callWith 0 ∅])
      ∧ CleanOf (run noFuncs [callWith 0 (AList.singleton [102] (.floats [0])),
          callWith 0 ∅]).contains (· = 0) := by
  have hzero : NoNaN (AList.singleton [102] (.floats [0])) := by
    intro field fs hl _ x hx
    obtain ⟨_, heq⟩ := AList.mem_lookup_iff.mp hl |> List.mem_singleton.mp
      |> Sigma.mk.inj
    cases eq_of_heq heq
    rw [List.mem_singleton.mp hx]
    decide
  have hnone : NoNaN ∅ := by
    intro field fs hl
    cases hl
  have h := reindex_is_rebuild noFuncs
    [callWith 0 (AList.singleton [102] (.floats [0])), callWith 0 ∅]
    [callWith 0 ∅]
    (List.forall_mem_cons.mpr ⟨hzero, List.forall_mem_singleton.mpr hnone⟩)
    ⟨by decide, List.forall_mem_singleton.mpr rfl, by decide⟩
  refine ⟨h.1, h.2.2.2.2.tidy, h.2.2.2.2.full, fun s hs => ?_⟩
  exact h.2.2.2.2.free s (by rw [hs]; rfl)

/-- A NaN element stays posted for a slot that was cleared. -/
theorem nan_element_stays :
    ((run noFuncs [callWith 0 (AList.singleton [102]
        (.floats [0x7FF8000000000001])), callWith 0 ∅]).contains.lookup
          [102]).map (·.lost) = some [{0}]
      ∧ (run noFuncs [callWith 0 ∅]).contains.lookup [102] = none := by
  decide

end Runs

end Rostam.Vector.Payload
