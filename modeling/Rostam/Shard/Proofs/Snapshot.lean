/-
Installing a snapshot.

What is written is read back field by field (`openSnapshot_serialize`,
`replayEntries_encode`), so an install is three things on the target:
clear the keys its own walk finds, install the entries the source's walk
found, fold the source's clock in. Both walks skip what has expired at
the wall clock of their node. An entry skipped by the source is missing
from the target, one skipped by the target is still there; neither shows
from the source's logical clock on exactly if it has expired by then.
-/
import Rostam.Shard.Proofs.Stored
import Rostam.Shard.Snapshot

namespace Rostam.Shard

open Rostam.Lib Rostam.Ops Rostam.Cache Function

-- ======== bytes

theorem slice_flatten {parts : List Bytes} {k i j : Nat} {b : Bytes}
    (hb : parts[k]? = some b)
    (hi : ((parts.take k).map List.length).sum = i) (hj : i + b.length = j) :
    slice parts.flatten i j = b := by
  obtain ⟨hk, hb⟩ := List.getElem?_eq_some_iff.mp hb
  subst hj
  rw [← List.take_append_drop k parts, List.drop_eq_getElem_cons hk, hb,
    List.flatten_append, List.flatten_cons]
  unfold slice
  rw [List.drop_left' (by rw [List.length_flatten, hi]),
    Nat.add_sub_cancel_left, List.take_left]

theorem readEntry_encode {e : Entry} (he : EntryFits e) (rest : Bytes) :
    readEntry (encodeEntry e ++ rest) = some (e, rest) := by
  obtain ⟨key, val, exp⟩ := e
  obtain ⟨hk, hv, hx⟩ := he
  have hklen : beDecode (beEncode 2 key.length) = key.length :=
    beDecode_beEncode (Nat.lt_of_le_of_lt hk (by decide))
  have hvlen : beDecode (beEncode 4 val.length) = val.length :=
    beDecode_beEncode (Nat.lt_of_le_of_lt hv (by decide))
  have hexp : beDecode (beEncode 8 exp) = exp := beDecode_beEncode hx
  have hpre : ∀ (w n : Nat) (b : Bytes),
      (beEncode w n ++ b).take w = beEncode w n
        ∧ (beEncode w n ++ b).drop w = b := by
    intro w n b
    exact ⟨List.take_left' (beEncode_length w n),
      List.drop_left' (beEncode_length w n)⟩
  unfold readEntry encodeEntry
  simp only [List.append_assoc, List.length_append, beEncode_length,
    (hpre _ _ _).1, (hpre _ _ _).2, hklen, hvlen, hexp, List.take_left,
    List.drop_left, guard, Nat.le_add_right, if_true, Option.pure_def,
    Option.bind_eq_bind, Option.bind_some]

section Programs

variable {σ : Type} (S : Ops.Store σ)

/-- The entries installed one by one. -/
def installAll : List Entry → Effect RestoreErr σ Unit
  | [] => pure ()
  | e :: rest => do
    install S e
    installAll rest

/-- The replay loop installs what was encoded. -/
theorem replayEntries_encode {es : List Entry}
    (hes : ∀ e ∈ es, EntryFits e) (rest : Bytes) :
    replayEntries S es.length (es.flatMap encodeEntry ++ rest) =
      installAll S es >>= fun _ => pure rest := by
  induction es with
  | nil => rfl
  | cons e es ih =>
    have ih' := ih fun x hx => hes x (List.mem_cons_of_mem _ hx)
    rw [List.length_cons, List.flatMap_cons, List.append_assoc]
    unfold replayEntries installAll
    rw [readEntry_encode (hes e List.mem_cons_self)]
    dsimp only
    rw [ih', bind_assoc]

end Programs

/-- A section's bytes fit the width of their length, and the receiver
takes them. -/
structure Receives (rcv : Receiver) (sec : Sections) : Prop where
  vectorsFit : sec.vectors.length < 2 ^ 32
  wasmFit : sec.wasm.length < 2 ^ 32
  vectors : sec.vectors ≠ [] → ∃ f, rcv.vectors = some f ∧ f sec.vectors = true
  wasm : sec.wasm ≠ [] → ∃ f, rcv.wasm = some f ∧ f sec.wasm = true

theorem readSection_encode {accept : Option (Bytes → Bool)}
    {err : RestoreErr} {b rest : Bytes} (hfit : b.length < 2 ^ 32)
    (hacc : b ≠ [] → ∃ f, accept = some f ∧ f b = true) :
    readSection accept err (beEncode 4 b.length ++ (b ++ rest)) =
      .ok rest := by
  have hlen : beDecode (beEncode 4 b.length) = b.length :=
    beDecode_beEncode hfit
  unfold readSection
  rw [if_neg (by rw [List.length_append, beEncode_length]; omega)]
  rw [List.take_left' (beEncode_length 4 b.length),
    List.drop_left' (beEncode_length 4 b.length), hlen,
    if_neg (by rw [List.length_append]; omega)]
  split
  · next hzero =>
    rw [List.length_eq_zero_iff.mp hzero]
    rfl
  · next hne =>
    obtain ⟨f, hf, htrue⟩ := hacc fun h => hne (by rw [h]; rfl)
    rw [hf]
    dsimp only
    rw [List.take_left, if_pos htrue, List.drop_left]

/-- The two sections, each after its length. -/
def sectionBytes (sec : Sections) : Bytes :=
  beEncode 4 sec.vectors.length ++ (sec.vectors
    ++ (beEncode 4 sec.wasm.length ++ (sec.wasm ++ [])))

theorem readSections_encode {rcv : Receiver} {sec : Sections}
    (h : Receives rcv sec) :
    readSections rcv snapshotVersion (sectionBytes sec) = .ok () := by
  unfold readSections sectionBytes
  rw [if_neg (by decide), if_neg (by decide),
    readSection_encode h.vectorsFit h.vectors]
  show (readSection rcv.wasm .wasm _ >>= _) = _
  rw [readSection_encode h.wasmFit h.wasm]
  rfl

/-- The fields of a snapshot of this version, each read at its place. -/
theorem openSnapshot_fields (crc : Bytes → BitVec 32)
    {rest count index stamp sum : Bytes} (hcount : count.length = 8)
    (hindex : index.length = 8) (hstamp : stamp.length = 8)
    (hsum : sum.length = 4)
    (hcrc : (crc (snapshotMagic ++ ([5] ++ rest) ++ index
      ++ stamp)).toNat = beDecode sum) :
    openSnapshot crc (snapshotMagic ++ ([5] ++ (rest ++ (trailerMagic
      ++ (count ++ (index ++ (stamp ++ sum))))))) =
      .ok (snapshotVersion, beDecode count, beDecode index,
        beDecode stamp, rest) := by
  obtain ⟨parts, hparts⟩ : ∃ l, l = [snapshotMagic, [5], rest, trailerMagic,
    count, index, stamp, sum] := ⟨_, rfl⟩
  have hall : snapshotMagic ++ ([5] ++ (rest ++ (trailerMagic ++ (count
      ++ (index ++ (stamp ++ sum)))))) = parts.flatten := by
    simp only [hparts, List.flatten_cons, List.flatten_nil, List.append_nil]
  have hm : snapshotMagic.length = 4 := rfl
  have ht : trailerMagic.length = 4 := rfl
  obtain ⟨n, hn⟩ : ∃ n, n = 5 + rest.length := ⟨_, rfl⟩
  have hlen : parts.flatten.length = n + 32 := by
    simp [hparts, hm, ht, hcount, hindex, hstamp, hsum]
    omega
  -- every field lies behind the lengths of those before it
  have hmagic : slice parts.flatten 0 4 = snapshotMagic :=
    slice_flatten (k := 0) (by rw [hparts]; rfl) rfl rfl
  have hversion : slice parts.flatten 4 5 = [5] :=
    slice_flatten (k := 1) (by rw [hparts]; rfl) (by rw [hparts]; rfl) rfl
  have hrest : slice parts.flatten 5 n = rest :=
    slice_flatten (k := 2) (by rw [hparts]; rfl) (by rw [hparts]; rfl) hn.symm
  have htrailer : slice parts.flatten n (n + 4) = trailerMagic :=
    slice_flatten (k := 3) (by rw [hparts]; rfl)
      (by simp [hparts, hm]; omega) rfl
  have hcountAt : slice parts.flatten (n + 4) (n + 12) = count :=
    slice_flatten (k := 4) (by rw [hparts]; rfl)
      (by simp [hparts, hm, ht]; omega) (by rw [hcount])
  have hindexAt : slice parts.flatten (n + 12) (n + 20) = index :=
    slice_flatten (k := 5) (by rw [hparts]; rfl)
      (by simp [hparts, hm, ht, hcount]; omega) (by rw [hindex])
  have hstampAt : slice parts.flatten (n + 20) (n + 28) = stamp :=
    slice_flatten (k := 6) (by rw [hparts]; rfl)
      (by simp [hparts, hm, ht, hcount, hindex]; omega) (by rw [hstamp])
  have hsumAt : slice parts.flatten (n + 28) (n + 32) = sum :=
    slice_flatten (k := 7) (by rw [hparts]; rfl)
      (by simp [hparts, hm, ht, hcount, hindex, hstamp]; omega)
      (by rw [hsum])
  have htake : parts.flatten.take n = snapshotMagic ++ ([5] ++ rest) := by
    rw [← hall, ← List.append_assoc [5], ← List.append_assoc snapshotMagic]
    exact List.take_left' (by simp [hm]; omega)
  have hstart : parts.flatten.length - trailerLen 5 = n := by
    rw [hlen]
    exact Nat.add_sub_cancel ..
  rw [hall]
  unfold openSnapshot
  rw [if_neg (by omega), hmagic, if_neg (fun h => h rfl), hversion]
  dsimp only
  rw [show beDecode [5] = 5 from rfl, if_neg (by decide), hstart,
    if_neg (by rw [show trailerLen 5 = 32 from rfl]; omega), htrailer,
    if_neg (fun h => h rfl), if_pos (show 3 ≤ 5 by decide),
    if_pos (show 4 ≤ 5 by decide), hindexAt, hstampAt, htake, hcountAt,
    show n + trailerLen 5 - 4 = n + 28 from rfl, hsumAt, hrest,
    if_neg (fun h => h hcrc)]
  rfl

/-- What a snapshot's header and trailer say is what was put there. -/
theorem openSnapshot_serialize (crc : Bytes → BitVec 32) {n : Nat}
    (c : Fin n → Cache.Shard) (env : Fin n → IterEnv) (sec : Sections)
    {appliedIndex : Nat} (hindex : appliedIndex < 2 ^ 64)
    (hstamp : lastAppliedStampMs c < 2 ^ 64)
    (hcount : (iterate c env).length < 2 ^ 64) :
    openSnapshot crc (serializeSnapshot crc c env sec appliedIndex) =
      .ok (snapshotVersion, (iterate c env).length, appliedIndex,
        lastAppliedStampMs c,
        (iterate c env).flatMap encodeEntry ++ sectionBytes sec) := by
  have hbytes : ∀ w : BitVec 32, w.toNat < 256 ^ 4 := fun w => w.isLt
  have hbody : snapshotBody (iterate c env) sec = snapshotMagic ++ ([5]
      ++ ((iterate c env).flatMap encodeEntry ++ sectionBytes sec)) := by
    unfold snapshotBody sectionBytes
    simp only [List.append_assoc, List.append_nil]
    rfl
  have h := openSnapshot_fields crc (beEncode_length 8 (iterate c env).length)
    (beEncode_length 8 appliedIndex)
    (beEncode_length 8 (lastAppliedStampMs c))
    (beEncode_length 4 (crc (snapshotBody (iterate c env) sec
      ++ (beEncode 8 appliedIndex
        ++ beEncode 8 (lastAppliedStampMs c)))).toNat)
    (by rw [beDecode_beEncode (hbytes _), hbody, List.append_assoc])
  rw [beDecode_beEncode hcount, beDecode_beEncode hindex,
    beDecode_beEncode hstamp] at h
  refine Eq.trans ?_ h
  congr 1
  unfold serializeSnapshot
  simp only [hbody, List.append_assoc]

/-- An install of a snapshot: clear, install, fold the clock in. -/
theorem restore_serialize (crc : Bytes → BitVec 32) {n n' : Nat}
    {S : Ops.Store (Fin n' → Cache.Shard)} {c : Fin n → Cache.Shard}
    {env : Fin n → IterEnv} {env' : Fin n' → IterEnv} {sec : Sections}
    {rcv : Receiver} {appliedIndex : Nat}
    (hindex : appliedIndex < 2 ^ 64)
    (hstamp : lastAppliedStampMs c < 2 ^ 64)
    (hcount : (iterate c env).length < 2 ^ 64)
    (hfits : ∀ e ∈ iterate c env, EntryFits e)
    (hrcv : Receives rcv sec) {b b₁ b₂ : Fin n' → Cache.Shard}
    (hclear : (clearKeys S (iterate b env')).exec b = (.ok (), b₁))
    (hinstall : (installAll S (iterate c env)).exec b₁ = (.ok (), b₂)) :
    (restoreSnapshot crc S env' rcv
        (serializeSnapshot crc c env sec appliedIndex)).exec b =
      (.ok appliedIndex, advanceAppliedStamp b₂ (lastAppliedStampMs c)) := by
  have hreplay : (replayEntries S (iterate c env).length
      ((iterate c env).flatMap encodeEntry ++ sectionBytes sec)).exec b₁ =
      (.ok (sectionBytes sec), b₂) := by
    rw [replayEntries_encode S hfits, Effect.exec_bind, hinstall]
    rfl
  unfold restoreSnapshot
  simp only [Effect.exec_bind, Effect.exec_ofStep,
    openSnapshot_serialize crc c env sec hindex hstamp hcount, hclear,
    hreplay, readSections_encode hrcv, Effect.exec_pure]

-- ======== iteration

/-- The walk gets to every slot once. -/
def Visits {n : Nat} (c : Fin n → Cache.Shard) (env : Fin n → IterEnv) :
    Prop :=
  ∀ i, (env i).order.Nodup ∧ ∀ h, (c i).tab h ≠ none → h ∈ (env i).order

/-- The map the cache's slots spell. -/
def Replica.entries (R : Replica) (c : Fin R.shards → Cache.Shard) :
    Entries := fun key =>
  (c (shardFor R.shards R.cfg.hashKey key)).entries R.cfg key

section Walk

variable {R : Replica} {c : Fin R.shards → Cache.Shard}
  {env : Fin R.shards → IterEnv}

variable {e : Entry}

theorem Replica.getAt_entries (key : Key) (t : Nat) :
    R.getAt c key t = (R.entries c).read key t := by
  unfold Replica.getAt
  rw [resolve_entries]
  rfl

/-- What one shard's walk hands out. -/
theorem mem_iterate_shard {s : Cache.Shard} {env : IterEnv} :
    e ∈ s.iterate env ↔ ∃ h ∈ env.order, ∃ f, s.slot h = some f
      ∧ isExpired f.exp env.now = false ∧ f.tomb = false ∧ f.content = e := by
  unfold Cache.Shard.iterate
  rw [List.mem_filterMap]
  constructor
  · rintro ⟨h, hh, he⟩
    obtain ⟨f, hf, he⟩ := Option.bind_eq_some_iff.mp he
    split at he <;> cases he
    next hcond =>
    rw [Bool.or_eq_true, not_or, Bool.not_eq_true, Bool.not_eq_true] at hcond
    exact ⟨h, hh, f, hf, hcond.1, hcond.2, rfl⟩
  · rintro ⟨h, hh, f, hf, hlive, htomb, he⟩
    refine ⟨h, hh, ?_⟩
    have hf' : (s.tab h).bind s.frameAt = some f := hf
    rw [hf', Option.bind_some, hlive, htomb]
    exact congrArg some he

/-- An entry of the map is the one of its slot. -/
theorem Replica.entries_iff : R.entries c e.1 = some e.2 ↔ ∃ f,
      (c (shardFor R.shards R.cfg.hashKey e.1)).slot
        (R.cfg.hashKey e.1) = some f ∧ f.content = e := by
  unfold Replica.entries
  rw [entries_slot, Option.bind_eq_some_iff]
  constructor
  · rintro ⟨f, hf, he⟩
    obtain ⟨hk, he⟩ := guarded he
    refine ⟨f, hf, ?_⟩
    show (f.key, f.val, f.exp) = e
    rw [hk, he]
  · rintro ⟨f, hf, rfl⟩
    exact ⟨f, hf, if_pos rfl⟩

/-- The walk hands out the entries that have not expired at the wall
clock of their shard. -/
theorem Replica.Stored.mem_iterate (hc : R.Stored c) (hv : Visits c env) :
    e ∈ iterate c env ↔ R.entries c e.1 = some e.2
      ∧ isExpired e.2.2
        (env (shardFor R.shards R.cfg.hashKey e.1)).now = false := by
  rw [R.entries_iff]
  unfold iterate
  rw [List.mem_flatMap]
  constructor
  · rintro ⟨i, _, he⟩
    obtain ⟨h, _, f, hf, hlive, _, rfl⟩ := mem_iterate_shard.mp he
    have hh := hc.hash_eq hf
    have hi := hc.home i h f hf
    show (∃ f', (c (shardFor R.shards R.cfg.hashKey f.key)).slot
      (R.cfg.hashKey f.key) = some f' ∧ _) ∧ isExpired f.exp
      (env (shardFor R.shards R.cfg.hashKey f.key)).now = false
    rw [hi, hh]
    exact ⟨⟨f, hf, rfl⟩, hlive⟩
  · rintro ⟨⟨f, hf, he⟩, hlive⟩
    refine ⟨_, List.mem_finRange _, mem_iterate_shard.mpr ⟨_, ?_, f, hf,
      ?_, hc.value _ _ f hf, he⟩⟩
    · refine (hv _).2 _ fun hnone => ?_
      unfold Cache.Shard.slot at hf
      rw [hnone] at hf
      cases hf
    · rw [← he] at hlive ⊢
      exact hlive

/-- No two entries of a walk share a hash. -/
theorem Replica.Stored.nodup_iterate (hc : R.Stored c) (hv : Visits c env) :
    ((iterate c env).map fun e => R.cfg.hashKey e.1).Nodup := by
  unfold iterate
  rw [List.map_flatMap, List.nodup_flatMap]
  constructor
  · intro i _
    -- one shard: the hashes come in the order of the walk
    have horder : ∀ l, (((c i).iterate ⟨(env i).now, l⟩).map
        fun e => R.cfg.hashKey e.1).Sublist l := by
      intro l
      unfold Cache.Shard.iterate
      induction l with
      | nil => exact List.Sublist.slnil
      | cons h l ih =>
        rw [List.filterMap_cons]
        split
        · exact ih.cons _
        · next e he =>
          obtain ⟨f, hf, he⟩ := Option.bind_eq_some_iff.mp he
          split at he <;> cases he
          rw [List.map_cons, show R.cfg.hashKey _ = h from hc.hash_eq hf]
          exact ih.cons_cons _
    exact (hv i).1.sublist (horder _)
  · -- two shards: a hash has one shard
    have hshard : ∀ i x, x ∈ ((c i).iterate (env i)).map
        (fun e => R.cfg.hashKey e.1) → Fin.ofNat R.shards x = i := by
      intro i x hx
      obtain ⟨e, he, hex⟩ := List.mem_map.mp hx
      obtain ⟨h, _, f, hf, _, _, hfe⟩ := mem_iterate_shard.mp he
      rw [← hex, ← hfe]
      exact hc.home i h f hf
    refine (List.nodup_finRange _).imp fun {i j} hij => ?_
    intro x hx hx'
    exact hij ((hshard i x hx).symm.trans (hshard j x hx'))

end Walk

-- ======== the two maps

/-- The map after the entries are installed one by one. -/
def fill (hash : Key → Nat) (m : Entries) (es : List Entry) : Entries :=
  es.foldl (fun m e => m.put hash e.1 e.2) m

/-- The map without the entries' keys. -/
def clear (m : Entries) (es : List Entry) : Entries := fun k =>
  if k ∈ es.map Prod.fst then none else m k

section Maps

variable {hash : Key → Nat} {es : List Entry} {m : Entries} {k : Key}

theorem fill_of_ne (hk : ∀ e ∈ es, hash e.1 ≠ hash k) :
    fill hash m es k = m k := by
  induction es generalizing m with
  | nil => rfl
  | cons e es ih =>
    have hrest := ih (m := m.put hash e.1 e.2)
      fun x hx => hk x (List.mem_cons_of_mem _ hx)
    refine hrest.trans ?_
    unfold Entries.put
    rw [if_neg fun h => hk e List.mem_cons_self h.symm]

theorem fill_of_mem {e : Entry} (he : e ∈ es)
    (hd : (es.map fun e => hash e.1).Nodup) (hk : hash k = hash e.1) :
    fill hash m es k = if k = e.1 then some e.2 else none := by
  induction es generalizing m with
  | nil => cases he
  | cons x es ih =>
    rw [List.map_cons, List.nodup_cons] at hd
    rcases List.mem_cons.mp he with hex | he
    · -- nothing after it has its hash
      have hrest : fill hash (m.put hash x.1 x.2) es k =
          m.put hash x.1 x.2 k := by
        apply fill_of_ne
        intro y hy hyk
        apply hd.1
        rw [← hex, ← hk, ← hyk]
        exact List.mem_map_of_mem hy
      refine hrest.trans ?_
      unfold Entries.put
      rw [← hex, if_pos hk]
    · exact ih he hd.2

theorem clear_cons (e : Entry) :
    clear (update m e.1 none) es = clear m (e :: es) := by
  funext k
  unfold clear
  rw [List.map_cons]
  by_cases hk : k = e.1
  · rw [hk, update_self, ite_self, if_pos List.mem_cons_self]
  · rw [update_of_ne hk]
    simp only [List.mem_cons, hk, false_or]

end Maps

-- ======== installs

/-- The bytes a delete takes on its shard: heap pages keep no delete
records. -/
def Replica.delSpan (R : Replica) (key : Key) : Nat :=
  match R.backing with
  | .mmap => entrySpan key.length 0
  | .heap _ => 0

def Replica.putSpan (e : Entry) : Nat := entrySpan e.1.length e.2.1.length

/-- The room on a page of a shard. -/
def Replica.freeOn (R : Replica) (s : Cache.Shard) : Nat → Nat :=
  match R.backing with
  | .mmap => s.freeOn R.cfg
  | .heap _ => s.heapFreeOn R.cfg

/-- The entries whose keys live on shard `i`. -/
def Replica.shardOf (R : Replica) (i : Fin R.shards) (es : List Entry) :
    List Entry :=
  es.filter fun e => shardFor R.shards R.cfg.hashKey e.1 = i

/-- Every shard has room for the delete records of the entries of `ds`
and then the entries of `es`. -/
def Replica.LargeEnough (R : Replica) (c : Fin R.shards → Cache.Shard)
    (ds es : List Entry) : Prop :=
  ∀ i, Roomy (R.freeOn (c i)) ((R.shardOf i ds).map (fun e => R.delSpan e.1)
      ++ (R.shardOf i es).map Replica.putSpan)

section Install

variable {R : Replica} {c : Fin R.shards → Cache.Shard}
  {ds es : List Entry} {e : Entry}

variable {s : Cache.Shard}

theorem Replica.del_room (env : Cache.Shard.EvictEnv)
    {key : Key} {needs : List Nat}
    (hs : s.Slots R.cfg) (hkey : key.length ≤ maxKeyLen)
    (hroom : Roomy (R.freeOn s) (R.delSpan key :: needs)) :
    ∃ s' b, (R.shardStore env).del key s = (s', .ok b) ∧ s'.Slots R.cfg
      ∧ s'.entries R.cfg = update (s.entries R.cfg) key none
      ∧ Roomy (R.freeOn s') needs := by
  unfold Replica.freeOn Replica.delSpan at hroom
  unfold Replica.freeOn Replica.shardStore
  cases hb : R.backing with
  | mmap =>
    rw [hb] at hroom
    exact Cache.del_room hs hkey hroom
  | heap initial =>
    rw [hb] at hroom
    obtain ⟨s', b, hdel, hs', hent, hfree⟩ := delHeap_slots hs key
    refine ⟨s', b, hdel, hs', hent, ?_⟩
    dsimp only at hroom ⊢
    rw [hfree]
    exact hroom.skip

theorem Replica.put_room (env : Cache.Shard.EvictEnv)
    {needs : List Nat}
    (hs : s.Slots R.cfg) (he : EntryFits e)
    (hroom : Roomy (R.freeOn s) (Replica.putSpan e :: needs)) :
    ∃ s', (R.shardStore env).putAbs e.1 e.2.1 e.2.2 s = (s', none)
      ∧ s'.Slots R.cfg
      ∧ s'.entries R.cfg = (s.entries R.cfg).put R.cfg.hashKey e.1 e.2
      ∧ Roomy (R.freeOn s') needs := by
  unfold Replica.freeOn Replica.putSpan at hroom
  unfold Replica.freeOn Replica.shardStore
  cases hb : R.backing with
  | mmap =>
    rw [hb] at hroom
    exact putAtExp_room hs he.key he.val hroom
  | heap initial =>
    rw [hb] at hroom
    exact putAtExpHeap_room hs he.key he.val hroom

/-- A shard replaced by one that spells its map with one key cleared. -/
theorem Replica.entries_update_del {key : Key}
    (hs : s.entries R.cfg = update
      ((c (shardFor R.shards R.cfg.hashKey key)).entries R.cfg) key none) :
    R.entries (update c (shardFor R.shards R.cfg.hashKey key) s) =
      update (R.entries c) key none := by
  funext k
  unfold Replica.entries
  by_cases hk : k = key
  · rw [hk, update_self, update_self, hs,
      update_self]
  · rw [update_of_ne hk]
    by_cases hi : shardFor R.shards R.cfg.hashKey k =
        shardFor R.shards R.cfg.hashKey key
    · rw [hi, update_self, hs, update_of_ne hk]
    · rw [update_of_ne hi]

/-- A shard replaced by one that spells its map with an entry put. -/
theorem Replica.entries_update_put
    (hs : s.entries R.cfg = Entries.put R.cfg.hashKey
      ((c (shardFor R.shards R.cfg.hashKey e.1)).entries R.cfg) e.1 e.2) :
    R.entries (update c (shardFor R.shards R.cfg.hashKey e.1) s) =
      (R.entries c).put R.cfg.hashKey e.1 e.2 := by
  funext k
  unfold Replica.entries
  by_cases hi : shardFor R.shards R.cfg.hashKey k =
      shardFor R.shards R.cfg.hashKey e.1
  · rw [hi, update_self, hs]
    unfold Entries.put
    dsimp only
    rw [hi]
  · rw [update_of_ne hi]
    unfold Entries.put
    rw [if_neg fun hh => hi (shardFor_congr hh)]

theorem Replica.shardOf_cons (i : Fin R.shards) (need : Entry → Nat) :
    (R.shardOf i (e :: es)).map need =
      (if shardFor R.shards R.cfg.hashKey e.1 = i then [need e] else [])
        ++ (R.shardOf i es).map need := by
  unfold Replica.shardOf
  rw [List.filter_cons]
  by_cases hi : shardFor R.shards R.cfg.hashKey e.1 = i
  · rw [if_pos (decide_eq_true hi), if_pos hi]
    rfl
  · rw [if_neg (by simpa using hi), if_neg hi]
    rfl

/-- Clearing the keys of `ds` succeeds and clears them. -/
theorem Replica.clearKeys_exec (env : Cache.Shard.EvictEnv)
    (hs : ∀ i, (c i).Slots R.cfg)
    (hd : ∀ e ∈ ds, EntryFits e) (hroom : R.LargeEnough c ds es) :
    ∃ c', (clearKeys (R.store env) ds).exec c = (.ok (), c')
      ∧ (∀ i, (c' i).Slots R.cfg)
      ∧ R.entries c' = clear (R.entries c) ds
      ∧ R.LargeEnough c' [] es := by
  induction ds generalizing c with
  | nil =>
    refine ⟨c, rfl, hs, ?_, hroom⟩
    funext k
    exact (if_neg (List.not_mem_nil)).symm
  | cons e ds ih =>
    obtain ⟨i, hi⟩ : ∃ i, i = shardFor R.shards R.cfg.hashKey e.1 := ⟨_, rfl⟩
    have hown := hroom i
    rw [R.shardOf_cons, if_pos hi.symm] at hown
    obtain ⟨s', b, hdel, hs', hent, hroom'⟩ := Replica.del_room
      env (hs i) (hd e List.mem_cons_self).key hown
    have hslots : ∀ j, (update c i s' j).Slots R.cfg :=
      (forall_update_iff c fun _ s => s.Slots R.cfg).mpr ⟨hs', fun j _ => hs j⟩
    have hrest : R.LargeEnough (update c i s') ds es := by
      refine (forall_update_iff c fun j s => Roomy (R.freeOn s) _).mpr
        ⟨hroom', fun j hj => ?_⟩
      have hother := hroom j
      rwa [R.shardOf_cons, if_neg fun h => hj (h.symm.trans hi.symm)] at hother
    obtain ⟨c', hexec, hc', hmap, hlarge⟩ := ih hslots
      (fun x hx => hd x (List.mem_cons_of_mem _ hx)) hrest
    refine ⟨c', ?_, hc', ?_, hlarge⟩
    · unfold clearKeys
      have hstep : (R.store env).del e.1 c =
          (update c i s', .ok b) := by
        unfold Replica.store groupStore onShard
        dsimp only
        rw [← hi, hdel]
      rw [Effect.exec_bind, Effect.exec_ofStep, hstep]
      exact hexec
    · rw [hmap, ← clear_cons]
      congr 1
      rw [hi] at hent ⊢
      exact Replica.entries_update_del hent

/-- Installing the entries succeeds and fills them in. -/
theorem Replica.installAll_exec (env : Cache.Shard.EvictEnv)
    (hs : ∀ i, (c i).Slots R.cfg)
    (he : ∀ e ∈ es, EntryFits e) (hroom : R.LargeEnough c [] es) :
    ∃ c', (installAll (R.store env) es).exec c = (.ok (), c')
      ∧ R.entries c' = fill R.cfg.hashKey (R.entries c) es := by
  induction es generalizing c with
  | nil => exact ⟨c, rfl, rfl⟩
  | cons e es ih =>
    obtain ⟨i, hi⟩ : ∃ i, i = shardFor R.shards R.cfg.hashKey e.1 := ⟨_, rfl⟩
    have hown := hroom i
    rw [R.shardOf_cons, if_pos hi.symm] at hown
    obtain ⟨s', hput, hs', hent, hroom'⟩ := Replica.put_room
      env (hs i) (he e List.mem_cons_self) hown
    have hslots : ∀ j, (update c i s' j).Slots R.cfg :=
      (forall_update_iff c fun _ s => s.Slots R.cfg).mpr ⟨hs', fun j _ => hs j⟩
    have hrest : R.LargeEnough (update c i s') [] es := by
      refine (forall_update_iff c fun j s => Roomy (R.freeOn s) _).mpr
        ⟨hroom', fun j hj => ?_⟩
      have hother := hroom j
      rwa [R.shardOf_cons, if_neg fun h => hj (h.symm.trans hi.symm)] at hother
    obtain ⟨c', hexec, hmap⟩ := ih hslots
      (fun x hx => he x (List.mem_cons_of_mem _ hx)) hrest
    refine ⟨c', ?_, ?_⟩
    · unfold installAll install
      have hstep : (R.store env).putAbs e.1 e.2.1 e.2.2 c =
          (update c i s', none) := by
        unfold Replica.store groupStore onShard
        dsimp only
        rw [← hi, hput]
      rw [Effect.exec_bind, Effect.exec_ofStep, hstep]
      exact hexec
    · rw [hmap]
      unfold fill
      rw [List.foldl_cons]
      congr 1
      rw [hi] at hent ⊢
      exact Replica.entries_update_put hent

end Install

variable {n : Nat} {R : Replica} {c : Fin n → Cache.Shard} {i : Fin n}
  {h : Nat} {r : Ref} {f : Frame}

-- ======== clocks

theorem stamp_le_last (c : Fin n → Cache.Shard) (i : Fin n) :
    (c i).lastAppliedStampMs ≤ lastAppliedStampMs c := by
  have hfold : ∀ (l : List (Fin n)) (m : Nat),
      m ≤ l.foldl (fun m i => max m (c i).lastAppliedStampMs) m
        ∧ ∀ i ∈ l, (c i).lastAppliedStampMs ≤
          l.foldl (fun m i => max m (c i).lastAppliedStampMs) m := by
    intro l
    induction l with
    | nil => exact fun m => ⟨Nat.le_refl m, fun i hi => by cases hi⟩
    | cons j l ih =>
      intro m
      obtain ⟨h₁, h₂⟩ := ih (max m (c j).lastAppliedStampMs)
      refine ⟨(le_max_left _ _).trans h₁, fun i hi => ?_⟩
      rcases List.mem_cons.mp hi with hij | hi
      · rw [hij]
        exact (le_max_right _ _).trans h₁
      · exact h₂ i hi
  exact (hfold _ 0).2 i (List.mem_finRange i)

theorem le_last_advance [NeZero n] (c : Fin n → Cache.Shard)
    (stamp : Nat) :
    stamp ≤ lastAppliedStampMs (advanceAppliedStamp c stamp) := by
  unfold advanceAppliedStamp
  split
  · next h =>
    rw [h]
    exact Nat.zero_le _
  · exact (le_max_right _ stamp).trans
      (stamp_le_last (fun i => (c i).advanceStamp stamp) 0)

theorem Replica.entries_advance
    (c : Fin R.shards → Cache.Shard) (stamp : Nat) :
    R.entries (advanceAppliedStamp c stamp) = R.entries c := by
  unfold advanceAppliedStamp
  split <;> rfl

-- ======== snapshots

/-- A walk over `c` skips the entry, which has expired at the wall clock
of its shard, although it is alive at `t`. -/
structure Replica.Overlooks (R : Replica) (c : Fin R.shards → Cache.Shard)
    (env : Fin R.shards → IterEnv) (t : Nat) (key : Key) (v : Bytes × Nat) :
    Prop where
  entry : R.entries c key = some v
  skipped : isExpired v.2
    (env (shardFor R.shards R.cfg.hashKey key)).now = true
  alive : isExpired v.2 t = false

theorem Entries.read_eq_some {m : Entries} {key : Key} {t : Nat}
    {v : Bytes × Nat} :
    m.read key t = some v ↔ m key = some v ∧ isExpired v.2 t = false := by
  unfold Entries.read
  rw [Option.filter_eq_some_iff, Bool.not_eq_true']

/-- Two maps answer alike from a clock on if they do at it. -/
theorem Entries.read_from (m m' : Entries) (key : Key) (t₀ : Nat) :
    (∀ t, t₀ ≤ t → m.read key t = m'.read key t)
      ↔ ∀ v, m.read key t₀ = some v ↔ m'.read key t₀ = some v := by
  constructor
  · intro h v
    rw [h t₀ le_rfl]
  · intro h t ht
    have hback : ∀ {x : Nat}, isExpired x t = false →
        isExpired x t₀ = false := by
      intro x hx
      by_contra hex
      rw [isExpired_mono ht (Bool.eq_true_of_not_eq_false hex)] at hx
      cases hx
    simp only [read_eq_some] at h
    ext v
    simp only [read_eq_some]
    constructor
    · rintro ⟨hm, hx⟩
      exact ⟨((h v).1 ⟨hm, hback hx⟩).1, hx⟩
    · rintro ⟨hm, hx⟩
      exact ⟨((h v).2 ⟨hm, hback hx⟩).1, hx⟩

section Skipped

variable {c : Fin R.shards → Cache.Shard} {env : Fin R.shards → IterEnv}
  {t : Nat} {key : Key} {v : Bytes × Nat}

/-- What a key the walk does not hand out still shows is overlooked. -/
theorem Replica.Stored.read_skipped (hc : R.Stored c) (hv : Visits c env)
    (hout : key ∉ (iterate c env).map Prod.fst) :
    (R.entries c).read key t = some v ↔ R.Overlooks c env t key v := by
  rw [Entries.read_eq_some]
  constructor
  · rintro ⟨hm, hx⟩
    refine ⟨hm, ?_, hx⟩
    by_contra hlive
    have hmem : (key, v) ∈ iterate c env :=
      (hc.mem_iterate hv).2 ⟨hm, Bool.eq_false_of_not_eq_true hlive⟩
    exact hout (List.mem_map_of_mem hmem)
  · exact fun h => ⟨h.entry, h.alive⟩

/-- So is what shows once the keys the walk finds are cleared. -/
theorem Replica.Stored.read_clear (hc : R.Stored c) (hv : Visits c env) :
    (clear (R.entries c) (iterate c env)).read key t = some v
      ↔ R.Overlooks c env t key v := by
  by_cases hin : key ∈ (iterate c env).map Prod.fst
  · rw [Entries.read_eq_some, clear, if_pos hin]
    refine ⟨nofun, fun h => ?_⟩
    obtain ⟨⟨key', w⟩, hmem, rfl⟩ := List.mem_map.1 hin
    obtain ⟨hm, hlive⟩ := (hc.mem_iterate hv).1 hmem
    have hw : w = v := Option.some.inj (hm.symm.trans h.entry)
    rw [hw] at hlive
    exact absurd (h.skipped.symm.trans hlive) (by decide)
  · rw [← hc.read_skipped hv hin]
    unfold Entries.read clear
    rw [if_neg hin]

end Skipped

/-- The installed map where the snapshot has an entry of the key's
hash: the source's. -/
theorem Replica.Stored.fill_carried {A : Replica}
    {a : Fin A.shards → Cache.Shard} {ea : Fin A.shards → IterEnv}
    (ha : A.Stored a) (hva : Visits a ea) (m : Entries) {e : Entry}
    (he : e ∈ iterate a ea) {key : Key}
    (hk : A.cfg.hashKey key = A.cfg.hashKey e.1) :
    fill A.cfg.hashKey m (iterate a ea) key = A.entries a key := by
  have hA := ((ha.mem_iterate hva).1 he).1
  rw [fill_of_mem he (ha.nodup_iterate hva) hk]
  by_cases hke : key = e.1
  · rw [if_pos hke, hke, hA]
  · -- another key of the entry's hash: not in the source's slot
    rw [if_neg hke]
    cases hv : A.entries a key with
    | none => rfl
    | some v =>
      exfalso
      obtain ⟨f, hf, hfe⟩ := (A.entries_iff (e := (key, v))).1 hv
      obtain ⟨g, hg, hge⟩ := A.entries_iff.1 hA
      have hshard := shardFor_congr (n := A.shards) hk
      rw [hshard, hk, hg] at hf
      injection hf with hf
      apply hke
      rw [← hge, hf, hfe]

/-- A snapshot of `A` installed in `B`: the install succeeds, `B`'s clock
is at least `A`'s, and from `A`'s clock on `B` answers as `A` does exactly
if, of the keys the snapshot does not cover, the two walks overlook the
same entries. -/
theorem snapshot_install (A B : Replica)
    (hhash : A.cfg.hashKey = B.cfg.hashKey) (crc : Bytes → BitVec 32)
    {a : Fin A.shards → Cache.Shard} {b : Fin B.shards → Cache.Shard}
    (ha : A.Stored a) (hb : B.Stored b)
    {ea : Fin A.shards → IterEnv} {eb : Fin B.shards → IterEnv}
    (hva : Visits a ea) (hvb : Visits b eb)
    (hroom : B.LargeEnough b (iterate b eb) (iterate a ea))
    {sec : Sections} {rcv : Receiver} (hrcv : Receives rcv sec)
    {appliedIndex : Nat} (hindex : appliedIndex < 2 ^ 64)
    (hstamp : lastAppliedStampMs a < 2 ^ 64)
    (hcount : (iterate a ea).length < 2 ^ 64)
    (env : Cache.Shard.EvictEnv) :
    ∃ b', (restoreSnapshot crc (B.store env) eb rcv
        (serializeSnapshot crc a ea sec appliedIndex)).exec b =
          (.ok appliedIndex, b')
      ∧ lastAppliedStampMs a ≤ lastAppliedStampMs b'
      ∧ ((∀ key t, lastAppliedStampMs a ≤ t →
          B.getAt b' key t = A.getAt a key t)
        ↔ ∀ key, (∀ e ∈ iterate a ea,
            A.cfg.hashKey e.1 ≠ A.cfg.hashKey key) →
          ∀ v, B.Overlooks b eb (lastAppliedStampMs a) key v
            ↔ A.Overlooks a ea (lastAppliedStampMs a) key v) := by
  have hfitsA : ∀ e ∈ iterate a ea, EntryFits e := by
    intro e he
    obtain ⟨f, hf, hfe⟩ := A.entries_iff.mp ((ha.mem_iterate hva).mp he).1
    rw [← hfe]
    exact ha.fits _ _ f hf
  have hfitsB : ∀ e ∈ iterate b eb, EntryFits e := by
    intro e he
    obtain ⟨f, hf, hfe⟩ := B.entries_iff.mp ((hb.mem_iterate hvb).mp he).1
    rw [← hfe]
    exact hb.fits _ _ f hf
  obtain ⟨b₁, hclear, hs₁, hmap₁, hroom₁⟩ :=
    Replica.clearKeys_exec env hb.slots hfitsB hroom
  obtain ⟨b₂, hinstall, hmap₂⟩ :=
    Replica.installAll_exec env hs₁ hfitsA hroom₁
  refine ⟨_, restore_serialize crc hindex hstamp hcount hfitsA hrcv hclear
    hinstall, le_last_advance _ _, forall_congr' fun key => ?_⟩
  simp only [Replica.getAt_entries, B.entries_advance, hmap₂, hmap₁, ← hhash]
  rw [Entries.read_from]
  by_cases hin : ∃ e ∈ iterate a ea, A.cfg.hashKey key = A.cfg.hashKey e.1
  · obtain ⟨e, he, hk⟩ := hin
    have heq : ∀ t, (fill A.cfg.hashKey (clear (B.entries b)
        (iterate b eb)) (iterate a ea)).read key t
          = (A.entries a).read key t := fun t => by
      unfold Entries.read
      rw [ha.fill_carried hva _ he hk]
    refine iff_of_true (fun v => by rw [heq]) fun hne => ?_
    exact absurd hk.symm (hne e he)
  · have hne : ∀ e ∈ iterate a ea, A.cfg.hashKey e.1 ≠ A.cfg.hashKey key :=
      fun e he h => hin ⟨e, he, h.symm⟩
    have hout : key ∉ (iterate a ea).map Prod.fst := by
      intro hmem
      obtain ⟨e, he, rfl⟩ := List.mem_map.1 hmem
      exact hne e he rfl
    have heq : (fill A.cfg.hashKey (clear (B.entries b) (iterate b eb))
        (iterate a ea)).read key (lastAppliedStampMs a)
        = (clear (B.entries b) (iterate b eb)).read key
          (lastAppliedStampMs a) := by
      unfold Entries.read
      rw [fill_of_ne hne]
    rw [heq]
    simp only [ha.read_skipped hva hout, hb.read_clear hvb]
    exact ⟨fun h _ => h, fun h => h hne⟩

-- ======== fixed inputs

/-- A cache whose only entry is `f`, on shard `i` at `r`. -/
structure Alone {n : Nat} (c : Fin n → Cache.Shard) (i : Fin n) (h : Nat)
    (r : Ref) (f : Frame) : Prop where
  tab : ∀ j x y, (c j).tab x = some y → j = i ∧ x = h ∧ y = r
  frame : (c i).frameAt r = some f

theorem Alone.slot (ha : Alone c i h r f) {j : Fin n} {x : Nat}
    {g : Frame} (hg : (c j).slot x = some g) : g = f := by
  obtain ⟨y, hy, hgy⟩ := Option.bind_eq_some_iff.mp hg
  obtain ⟨hj, _, hyr⟩ := ha.tab j x y hy
  rw [hj, hyr, ha.frame] at hgy
  exact (Option.some.inj hgy).symm

/-- Walks over a cache with one slot. -/
def oneSlot {n : Nat} (now h : Nat) : Fin n → IterEnv := fun _ => ⟨now, [h]⟩

theorem Alone.visits (ha : Alone c i h r f) (now : Nat) :
    Visits c (oneSlot now h) := by
  intro j
  refine ⟨List.nodup_singleton h, fun x hx => ?_⟩
  obtain ⟨y, hy⟩ := Option.ne_none_iff_exists'.mp hx
  rw [(ha.tab j x y hy).2.1]
  exact List.mem_singleton_self h

/-- One slot of a shard of a fresh cache filled. -/
theorem alone_update {s : Cache.Shard}
    (hc : ∀ j x, (c j).tab x = none)
    (htab : s.tab = update (fun _ => none) h (some r))
    (hf : s.frameAt r = some f) :
    Alone (update c i s) i h r f where
  tab := by
    intro j x y hy
    by_cases hj : j = i
    · rw [hj, update_self, htab] at hy
      by_cases hx : x = h
      · rw [hx, update_self] at hy
        exact ⟨hj, hx, (Option.some.inj hy).symm⟩
      · rw [update_of_ne hx] at hy
        cases hy
    · rw [update_of_ne hj, hc] at hy
      cases hy
  frame := by
    rw [update_self]
    exact hf

/-- Key 1 is put on `onMmap` at stamp 10 and expires at 100. -/
theorem keepsOne_reach :
    ∃ a, Reach onMmap.step onMmap.RecyclesSafely
      onMmap.fresh [.apply (10, .put [1] [7] 90) noRescue] a
    ∧ Alone a 0 (keyCode [1]) ⟨1, 0⟩ ⟨[1], [7], 100, 1, false⟩
    ∧ lastAppliedStampMs a = 10
    ∧ onMmap.getAt a [1] 50 = some ([7], 100)
    ∧ iterate a (oneSlot 10 (keyCode [1])) = [([1], [7], 100)]
    ∧ iterate a (oneSlot 200 (keyCode [1])) = [] :=
  ⟨_, Reach.step (Event.apply (10, .put [1] [7] 90) noRescue) .init
      trivial rfl,
    alone_update (fun _ _ => rfl) rfl rfl, rfl, rfl, rfl, rfl⟩

/-- Key 5 is put on `onHeap` at stamp 5. -/
theorem keepsFive_reach :
    ∃ b, Reach onHeap.step onHeap.RecyclesSafely
      onHeap.fresh [.apply (5, .put [5] [9] 0) noRescue] b
    ∧ Alone b 0 (keyCode [5]) ⟨0, 0⟩ ⟨[5], [9], 0, 1, false⟩
    ∧ onHeap.LargeEnough b (iterate b (oneSlot 3 (keyCode [5])))
      [([1], [7], 100)] := by
  refine ⟨_, Reach.step (Event.apply (5, .put [5] [9] 0) noRescue) .init
    trivial rfl, alone_update (fun _ _ => rfl) rfl rfl, ?_⟩
  intro i
  apply roomy_of_one (i := 1)
  revert i
  show ∀ i : Fin 2, _
  decide

theorem Alone.stored {c : Fin R.shards → Cache.Shard}
    {evs : List (Event R.shards)} {i : Fin R.shards}
    (ha : Alone c i h r f) (hx : f.exp < 2 ^ 64)
    (hr : Reach R.step R.RecyclesSafely R.fresh evs c)
    (hs : Stamped (applied evs)) : R.Stored c := by
  apply (R.reach_atHome hr hs).stored
  intro j x g hg
  rw [ha.slot hg]
  exact hx

/-- The source's wall clock is at 200 when it takes the snapshot: key 1,
which expires at 100 on a log at stamp 10, is not in it, and a target
that installs it misses the key at stamp 50. -/
theorem snapshot_drops_unexpired :
    ∃ (a : Fin onMmap.shards → Cache.Shard)
      (b' : Fin onHeap.shards → Cache.Shard),
      onMmap.Stored a ∧ lastAppliedStampMs a = 10
      ∧ Visits a (oneSlot 200 (keyCode [1]))
      ∧ (restoreSnapshot (fun _ => 0) (onHeap.store noRescue)
          (oneSlot 200 0) ⟨none, none⟩
          (serializeSnapshot (fun _ => 0) a (oneSlot 200 (keyCode [1]))
            ⟨[], []⟩ 1)).exec onHeap.fresh = (.ok 1, b')
      ∧ onMmap.getAt a [1] 50 = some ([7], 100)
      ∧ onHeap.getAt b' [1] 50 = none := by
  obtain ⟨a, hr, halone, hstamp, hget, _, hiter⟩ := keepsOne_reach
  have hrcv : Receives ⟨none, none⟩ ⟨[], []⟩ :=
    ⟨by decide, by decide, fun h => absurd rfl h, fun h => absurd rfl h⟩
  have hrestore : (restoreSnapshot (fun _ => 0) (onHeap.store noRescue)
      (oneSlot 200 0) ⟨none, none⟩
      (serializeSnapshot (fun _ => 0) a (oneSlot 200 (keyCode [1]))
        ⟨[], []⟩ 1)).exec onHeap.fresh =
      (.ok 1, advanceAppliedStamp onHeap.fresh (lastAppliedStampMs a)) :=
    restore_serialize (fun _ => 0) (by decide) (by rw [hstamp]; decide)
      (by rw [hiter]; decide) (by rw [hiter]; intro e he; cases he) hrcv
      rfl (by rw [hiter]; rfl)
  refine ⟨a, _, halone.stored (by decide) hr (List.pairwise_singleton _ _),
    hstamp, halone.visits 200, hrestore, hget, ?_⟩
  rw [hstamp]
  rfl

theorem snapshot_install_one :
    ∃ (a : Fin onMmap.shards → Cache.Shard)
      (b b' : Fin onHeap.shards → Cache.Shard),
      (restoreSnapshot (fun _ => 0) (onHeap.store noRescue)
          (oneSlot 3 (keyCode [5])) ⟨none, none⟩
          (serializeSnapshot (fun _ => 0) a (oneSlot 10 (keyCode [1]))
            ⟨[], []⟩ 1)).exec b = (.ok 1, b')
      ∧ onHeap.getAt b' [1] 50 = some ([7], 100)
      ∧ 10 ≤ lastAppliedStampMs b' := by
  obtain ⟨a, hra, ha, hstamp, hget, hiter, _⟩ := keepsOne_reach
  obtain ⟨b, hrb, hb, hlarge⟩ := keepsFive_reach
  have hrcv : Receives ⟨none, none⟩ ⟨[], []⟩ :=
    ⟨by decide, by decide, fun h => absurd rfl h, fun h => absurd rfl h⟩
  have hsource : ∀ key v, ¬ onMmap.Overlooks a (oneSlot 10 (keyCode [1]))
      (lastAppliedStampMs a) key v := by
    rintro key v ⟨hent, hexp, -⟩
    obtain ⟨g, hg, hge⟩ := (onMmap.entries_iff (e := (key, v))).1 hent
    rw [ha.slot hg] at hge
    cases hge
    cases hexp
  have htarget : ∀ key v, ¬ onHeap.Overlooks b (oneSlot 3 (keyCode [5]))
      (lastAppliedStampMs a) key v := by
    rintro key v ⟨hent, hexp, -⟩
    obtain ⟨g, hg, hge⟩ := (onHeap.entries_iff (e := (key, v))).1 hent
    rw [hb.slot hg] at hge
    cases hge
    cases hexp
  rw [← hiter] at hlarge
  obtain ⟨b', hexec, hclock, hsame⟩ := snapshot_install onMmap onHeap rfl
    (fun _ => 0) (ha.stored (by decide) hra (List.pairwise_singleton _ _))
    (hb.stored (by decide) hrb (List.pairwise_singleton _ _))
    (ha.visits 10) (hb.visits 3) hlarge hrcv
    (show 1 < 2 ^ 64 by decide) (by rw [hstamp]; decide)
    (by rw [hiter]; decide) noRescue
  have hsame := hsame.2 fun key _ v =>
    iff_of_false (htarget key v) (hsource key v)
  rw [hstamp] at hclock hsame
  exact ⟨a, b, b', hexec, (hsame [1] 50 (by decide)).trans hget, hclock⟩

end Rostam.Shard
