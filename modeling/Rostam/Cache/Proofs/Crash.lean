/-
What an open after a crash finds, against the watermark it reads.

The rebuild's frames lie between the base and the shard: every frame of
the base is among them, and each of them is a frame of the shard. So the
newest record of a key there is the base's, or a later one, and either is
at least as recent as the writes the watermark stands for. Recycling what
the base still needs takes a record from the disk after its watermark is
there (`recycled_copy_lost`).
-/
import Rostam.Cache.Proofs.Restart
import Rostam.Cache.Proofs.Watermark

namespace Rostam.Cache

open Rostam.Lib Shard

variable {cfg : Config} {a s : Shard} {n : Nat} {disk : Nat → Image}
  {lives bounds : Nat → Nat}

variable {x : Ref} {f : Frame}

-- ======== the rebuild

/-- Of prefixes of one list, the longest has all the others. -/
theorem longest_spec (life : Nat) (full : List Placed)
    (es : List Extent) (acc : List Placed) (hacc : acc <+: full)
    (hes : ∀ e ∈ es, e.life = life → e.placed <+: full) :
    es.foldl (fun acc e =>
        if e.life = life ∧ acc.length < e.placed.length then e.placed
        else acc) acc <+: full
      ∧ acc <+: es.foldl (fun acc e =>
        if e.life = life ∧ acc.length < e.placed.length then e.placed
        else acc) acc
      ∧ ∀ e ∈ es, e.life = life → e.placed <+: es.foldl (fun acc e =>
        if e.life = life ∧ acc.length < e.placed.length then e.placed
        else acc) acc := by
  induction es generalizing acc with
  | nil => exact ⟨hacc, List.prefix_refl _, fun e he => by cases he⟩
  | cons e es ih =>
    have hes' : ∀ e ∈ es, e.life = life → e.placed <+: full :=
      fun e' he' => hes e' (List.mem_cons_of_mem _ he')
    have hfull := hes e List.mem_cons_self
    rw [List.foldl_cons]
    split
    · next hif =>
      obtain ⟨hl, hlt⟩ := hif
      obtain ⟨h₁, h₂, h₃⟩ := ih e.placed (hfull hl) hes'
      have hae : acc <+: e.placed :=
        List.prefix_of_prefix_length_le hacc (hfull hl) hlt.le
      refine ⟨h₁, hae.trans h₂, fun e' he' hl' => ?_⟩
      rcases List.mem_cons.mp he' with rfl | he'
      · exact h₂
      · exact h₃ e' he' hl'
    · next hif =>
      obtain ⟨h₁, h₂, h₃⟩ := ih acc hacc hes'
      refine ⟨h₁, h₂, fun e' he' hl' => ?_⟩
      rcases List.mem_cons.mp he' with rfl | he'
      · have hle : e'.placed.length ≤ acc.length := by
          by_contra hlt
          exact hif ⟨hl', Nat.lt_of_not_le hlt⟩
        exact (List.prefix_of_prefix_length_le (hfull hl') hacc hle).trans h₂
      · exact h₃ e' he' hl'

/-- The candidates of the life the header names. -/
theorem onDisk_longest (ht : Tracks cfg disk lives s) (i bound : Nat) :
    onDisk cfg disk i (lives i) bound <+: place 0 (s.framesOf i)
      ∧ ∀ j, cfg.entryOs i 0 ≤ j → j ≤ cfg.entryOs i bound →
        ((disk j).extents i).life = lives i →
        ((disk j).extents i).placed <+: onDisk cfg disk i (lives i) bound := by
  unfold onDisk
  obtain ⟨h₁, _, h₃⟩ := longest_spec (lives i) (place 0 (s.framesOf i))
    ((List.range (cfg.entryOs i bound + 1 - cfg.entryOs i 0)).map fun k =>
      (disk (cfg.entryOs i 0 + k)).extents i) [] List.nil_prefix
    (fun e he hl => by
      obtain ⟨k, _, rfl⟩ := List.mem_map.mp he
      exact ht.placed i _ hl)
  refine ⟨h₁, fun j hj hj' hl => h₃ _ (List.mem_map.mpr
    ⟨j - cfg.entryOs i 0, List.mem_range.mpr (by omega), ?_⟩) hl⟩
  rw [Nat.add_sub_cancel' hj]

theorem recovered_sublist (ht : Tracks cfg disk lives s) (i : Nat) :
    (recovered cfg disk i).Sublist (place 0 (s.framesOf i)) := by
  unfold recovered
  dsimp only
  rw [ht.life i]
  exact List.filter_sublist.trans (onDisk_longest ht i _).1.sublist

theorem entryOs_mono (i : Nat) {x y : Nat} (h : x ≤ y) :
    cfg.entryOs i x ≤ cfg.entryOs i y :=
  Nat.div_le_div_right (by omega)

/-- A frame that is stored is recovered. -/
theorem mem_recovered (ht : Tracks cfg disk lives s)
    (hs : Stored cfg disk lives bounds a) {i : Nat} {p : Placed}
    (hp : p ∈ place 0 (a.framesOf i)) : p ∈ recovered cfg disk i := by
  have hstop : p.stop ≤ a.tailOf i := by
    have h := (place_bounds hp).2
    rw [Nat.zero_add] at h
    exact h
  have hbound := hstop.trans (hs.header i)
  have hhas : ∀ j, (disk j).has i (lives i) p = true :=
    fun j => hs.frames j i p hp
  unfold recovered
  dsimp only
  rw [ht.life i, List.mem_filter]
  constructor
  · -- the OS page the frame starts on has it
    have hj := hhas (cfg.entryOs i p.1)
    unfold Image.has at hj
    rw [Bool.and_eq_true, decide_eq_true_iff, decide_eq_true_iff] at hj
    refine ((onDisk_longest ht i _).2 _ ?_ ?_ hj.1).subset hj.2
    · exact entryOs_mono i (Nat.zero_le _)
    · apply entryOs_mono i
      unfold Placed.stop at hbound
      omega
  · rw [Bool.and_eq_true]
    refine ⟨decide_eq_true hbound, ?_⟩
    unfold verifies
    rw [List.all_eq_true]
    exact fun k _ => hhas _

-- ======== the crashed shard

theorem frameAt_crashed :
    (crashed cfg disk).frameAt x = some f ↔ x.page < cfg.numPages
        ∧ ((recovered cfg disk x.page).map Prod.snd)[x.pos]? = some f := by
  unfold frameAt crashed
  rw [List.getElem?_map]
  by_cases hx : x.page < cfg.numPages
  · rw [List.getElem?_range hx]
    simp [hx]
  · rw [List.getElem?_eq_none (by rw [List.length_range]; omega)]
    simp [hx]

theorem getElem?_framesOf : (s.framesOf x.page)[x.pos]? = s.frameAt x := by
  unfold Shard.framesOf frameAt
  cases s.pages[x.page]? with
  | none => rfl
  | some p => rfl

/-- Every recovered frame is one of the shard's, on the same page. -/
theorem crashed_upper (ht : Tracks cfg disk lives s) 
    (hf : (crashed cfg disk).frameAt x = some f) :
    ∃ y, y.page = x.page ∧ s.frameAt y = some f := by
  obtain ⟨_, hf⟩ := frameAt_crashed.mp hf
  have hsub := (recovered_sublist ht x.page).map Prod.snd
  rw [place_map_snd] at hsub
  obtain ⟨k, hk⟩ := List.mem_iff_getElem?.mp
    (hsub.subset (List.mem_of_getElem? hf))
  refine ⟨⟨x.page, k⟩, rfl, ?_⟩
  rw [← getElem?_framesOf]
  exact hk

/-- Every stored frame is recovered, on the same page. -/
theorem crashed_lower (ht : Tracks cfg disk lives s)
    (hs : Stored cfg disk lives bounds a)
    (hlen : a.pages.length = cfg.numPages) 
    (hf : a.frameAt x = some f) :
    ∃ y, (crashed cfg disk).frameAt y = some f := by
  have hx : x.page < cfg.numPages := by
    rw [← hlen]
    exact page_lt_of_frameAt hf
  rw [← getElem?_framesOf] at hf
  have hmem : f ∈ (place 0 (a.framesOf x.page)).map Prod.snd := by
    rw [place_map_snd]
    exact List.mem_of_getElem? hf
  obtain ⟨p, hp, rfl⟩ := List.mem_map.mp hmem
  obtain ⟨k, hk⟩ := List.mem_iff_getElem?.mp
    (List.mem_map_of_mem (f := Prod.snd) (mem_recovered ht hs hp))
  exact ⟨⟨x.page, k⟩, frameAt_crashed.mpr ⟨hx, hk⟩⟩

/-- Sequences tell the recovered frames apart. -/
theorem crashed_distinct (ht : Tracks cfg disk lives s)
    (hd : s.Distinct) : (crashed cfg disk).Distinct := by
  intro x f x' f' hf hf' hseq
  obtain ⟨y, hy, hfy⟩ := crashed_upper ht hf
  obtain ⟨y', hy', hfy'⟩ := crashed_upper ht hf'
  -- one frame of the shard, so one page; on it the order is the shard's
  have hyy : y = y' := hd y f y' f' hfy hfy' hseq
  have hpage : x.page = x'.page := by
    rw [← hy, ← hy', hyy]
  have hff : f = f' := by
    rw [hyy, hfy'] at hfy
    injection hfy with h
    exact h.symm
  obtain ⟨_, hf⟩ := frameAt_crashed.mp hf
  obtain ⟨_, hf'⟩ := frameAt_crashed.mp hf'
  rw [← hpage, ← hff] at hf'
  have hnd : ((recovered cfg disk x.page).map Prod.snd).Nodup := by
    have hsub := (recovered_sublist ht x.page).map Prod.snd
    rw [place_map_snd] at hsub
    apply List.Nodup.sublist hsub
    rw [List.nodup_iff_injective_getElem]
    intro k k' hkk
    have hk : s.frameAt ⟨x.page, k⟩ = some (s.framesOf x.page)[k] := by
      rw [← getElem?_framesOf]
      exact List.getElem?_eq_getElem k.2
    have hk' : s.frameAt ⟨x.page, k'⟩ = some (s.framesOf x.page)[k'] := by
      rw [← getElem?_framesOf]
      exact List.getElem?_eq_getElem k'.2
    have h := hd _ _ _ _ hk hk' (congrArg Frame.seq hkk)
    injection h with _ h
    exact Fin.ext h
  have hpos : x.pos = x'.pos := by
    obtain ⟨hlt, _⟩ := List.getElem?_eq_some_iff.mp hf
    exact (List.getElem?_inj hlt hnd).mp (hf.trans hf'.symm)
  cases x
  cases x'
  dsimp only at hpage hpos
  rw [hpage, hpos]

-- ======== what is newest

section Newest

variable {hist : List Done} {w : World} {u : Shard}

/-- A shard whose frames lie between `a` and the present one tells the
first `n` writes as well. -/
theorem Kept.between (hk : Kept cfg hist w a n) (hw : w.shard.Ordered)
    (hfa : a.flushedThroughSeq = u.flushedThroughSeq)
    (hlower : ∀ x f, a.frameAt x = some f → ∃ y, u.frameAt y = some f)
    (hupper : ∀ x f, u.frameAt x = some f → ∃ y, w.shard.frameAt y = some f) :
    (∀ key v, u.Live cfg key v → Told cfg hist n (.put key v.1 v.2))
      ∧ ∀ h, (∀ key v, cfg.hashKey key = h → ¬ u.Live cfg key v) →
        Bare cfg hist n h w.clock := by
  -- what is newest in `u` is told late, or newest in `a`
  have hnewest : ∀ h x f, u.Newest cfg h (x, f) →
      Told cfg hist n f.done ∨ ∃ y, a.Newest cfg h (y, f) := by
    intro h x f hn
    obtain ⟨y, hy⟩ := hupper x f hn.mem.1
    rcases hk.grown.late y f hy with hya | hlt
    · right
      refine ⟨y, ⟨hya, ?_⟩, hn.key_eq, ?_⟩
      · rw [hfa]
        exact hn.mem.2
      · rintro ⟨z, g⟩ hz hh
        obtain ⟨z', hz'⟩ := hlower z g hz.1
        refine hn.le (z', g) ⟨hz', ?_⟩ hh
        rw [← hfa]
        exact hz.2
    · exact Or.inl (hk.late y f hy hlt)
  constructor
  · rintro key v ⟨x, f, hn, htomb, hkey, hv⟩
    rcases hnewest _ x f hn with ht | ⟨y, hy⟩
    · unfold Frame.done at ht
      rw [htomb, hkey] at ht
      rw [hv]
      exact ht
    · exact hk.known.live key v ⟨y, f, hy, htomb, hkey, hv⟩
  · intro h hno
    by_cases hlive : ∀ key v, cfg.hashKey key = h → ¬ a.Live cfg key v
    · exact hk.known.bare h hlive
    · push Not at hlive
      obtain ⟨key, v, hh, y, f, hy, htomb, hkey, hv⟩ := hlive
      obtain ⟨x, hx⟩ := hlower y f hy.mem.1
      have hmem : (x, f) ∈ u.log := by
        refine ⟨hx, ?_⟩
        rw [← hfa]
        exact hy.mem.2
      have hbound : ∀ z ∈ u.log, seqOf z ≤ w.shard.writeSeq := by
        rintro ⟨z, g⟩ hz
        obtain ⟨z', hz'⟩ := hupper z g hz.1
        exact hw.seq_le z' g hz'
      rw [hh] at hy
      have hhash : hashOf cfg (x, f) = h := hy.key_eq
      obtain ⟨⟨z, g⟩, hz⟩ := exists_isNewest hbound hmem hhash
      have hzh : cfg.hashKey g.key = h := hz.key_eq
      cases hg : g.tomb with
      | false =>
        -- then `g` is live in `u`
        exfalso
        apply hno g.key (g.val, g.exp) hzh
        exact ⟨z, g, by rw [hzh]; exact hz, hg, rfl, rfl⟩
      | true =>
        rcases hnewest h z g hz with ht | ⟨z', hz'⟩
        · right
          have hdone : g.done = .del g.key := by
            unfold Frame.done
            rw [hg]
            rfl
          rw [hdone] at ht
          exact ⟨.del g.key, hz.key_eq, ht, trivial⟩
        · -- the base's newest is not a delete record
          have heq : (z', g) = (y, f) := hz'.unique hk.known.sound.inj.injOn hy
          injection heq with _ hgf
          rw [hgf, htomb] at hg
          cases hg

end Newest

-- ======== the watermark

/-- The entry an open finds for a key is at least as recent as every one
of the first `n` writes on it: the value was written for the key, by a
write none of them comes after; and where there is none, none of them
was on the key, or one they do not come after left nothing at clock
`c`. -/
def AtLeastAsRecent (hist : List Done) (n : Nat) (key : Key) (c : Nat) :
    Option (Bytes × Nat) → Prop
  | some v => ∃ m : Nat, hist[m]? = some (.put key v.1 v.2)
      ∧ ∀ (k : Nat) (d : Done), k < n → hist[k]? = some d → d.key = key → k ≤ m
  | none => (∀ (k : Nat) (d : Done), k < n → hist[k]? = some d →
        d.key ≠ key)
      ∨ ∃ (m : Nat) (e : Done), hist[m]? = some e ∧ e.key = key ∧ e.Away c
        ∧ ∀ (k : Nat) (d : Done), k < n → hist[k]? = some d →
          d.key = key → k ≤ m

theorem AtLeastAsRecent.mono {hist : List Done} {n' : Nat} {key : Key}
    {c : Nat} {o : Option (Bytes × Nat)} (hn : n' ≤ n)
    (h : AtLeastAsRecent hist n key c o) :
    AtLeastAsRecent hist n' key c o := by
  cases o with
  | some v =>
    obtain ⟨m, hm, hcov⟩ := h
    exact ⟨m, hm, fun k d hk => hcov k d (by omega)⟩
  | none =>
    rcases h with hno | ⟨m, e, hm, he, ha, hcov⟩
    · exact Or.inl fun k d hk => hno k d (by omega)
    · exact Or.inr ⟨m, e, hm, he, ha, fun k d hk => hcov k d (by omega)⟩

/-- What an open finds of a shard that tells the first `n` writes. -/
theorem reopen_recent {hist : List Done} {u : Shard} {clock c : Nat}
    (hinj : Function.Injective cfg.hashKey) (hd : u.Distinct)
    (hlive : ∀ key v, u.Live cfg key v → Told cfg hist n (.put key v.1 v.2))
    (hbare : ∀ h, (∀ key v, cfg.hashKey key = h → ¬ u.Live cfg key v) →
      Bare cfg hist n h clock)
    (env : OpenEnv) (hc : clock ≤ c) (ho : u.openClock cfg env ≤ c)
    (key : Key) :
    AtLeastAsRecent hist n key c ((u.reopen cfg env).resolve cfg key c) := by
  have hr := reopened cfg env hd
  have htold : ∀ e : Done, Told cfg hist n e → ∃ m : Nat,
      hist[m]? = some e ∧ ∀ (k : Nat) (d : Done), k < n →
        hist[k]? = some d → d.key = e.key → k ≤ m := by
    rintro e ⟨m, hm, hcov⟩
    exact ⟨m, hm, fun k d hk hd hkey =>
      hcov k d hk hd (congrArg cfg.hashKey hkey)⟩
  cases hres : (u.reopen cfg env).resolve cfg key c with
  | some v =>
    obtain ⟨hl, _⟩ := live_of_resolve hr.sound.toIndexed hres
    exact htold _ (hlive key v (hr.live key v hl))
  | none =>
    by_cases hno : ∀ key' v, cfg.hashKey key' = cfg.hashKey key →
        ¬ u.Live cfg key' v
    · rcases hbare _ hno with hb | ⟨e, he, ht, ha⟩
      · left
        intro k d hk hd hkey
        exact hb k d hk hd (congrArg cfg.hashKey hkey)
      · right
        obtain ⟨m, hm, hcov⟩ := htold e ht
        have hkey : e.key = key := hinj he
        rw [hkey] at hcov
        exact ⟨m, e, hm, hkey, ha.mono hc, hcov⟩
    · -- live but not found: it has expired
      push Not at hno
      obtain ⟨key', v, hh, hl⟩ := hno
      have hkey : key' = key := hinj hh
      subst hkey
      obtain ⟨m, hm, hcov⟩ := htold _ (hlive key' v hl)
      refine Or.inr ⟨m, _, hm, rfl, ?_, hcov⟩
      show isExpired v.2 c = true
      cases hexp : isExpired v.2 c with
      | true => rfl
      | false =>
        exfalso
        have hkept : isExpired v.2 (u.openClock cfg env) = false := by
          rw [Bool.eq_false_iff]
          intro h
          rw [isExpired_mono ho h] at hexp
          cases hexp
        have hfound := resolve_of_live hr.sound.toIndexed hr.gone ho
          (hr.kept key' v hl hkept) hexp
        rw [hres] at hfound
        cases hfound

/-- What the disk has tells the writes the base tells. -/
theorem Region.Inv.crashed_told {r : Region} (hi : r.Inv cfg) :
    (∀ key v, (crashed cfg r.disk).Live cfg key v →
      Told cfg r.hist r.baseSince (.put key v.1 v.2))
      ∧ ∀ h, (∀ key v, cfg.hashKey key = h →
          ¬ (crashed cfg r.disk).Live cfg key v) →
        Bare cfg r.hist r.baseSince h r.world.clock := by
  have hfloor : r.base.flushedThroughSeq = 0 := by
    rw [← hi.base.grown.floor]
    exact hi.floor
  have hlen : r.base.pages.length = cfg.numPages := by
    rw [← hi.base.grown.length]
    exact hi.length
  refine hi.base.between (u := crashed cfg r.disk)
    hi.known.sound.toOrdered hfloor
    (fun x f hf => crashed_lower hi.tracks hi.stored hlen hf) ?_
  intro x f hf
  obtain ⟨y, _, hy⟩ := crashed_upper hi.tracks hf
  exact ⟨y, hy⟩

/-- In every run that recycles a page only where the base had it for
recycling, and at every crash point, an open finds for every key an entry
at least as recent as every write on it before the call of either
watermark on disk began. -/
theorem watermark_never_leads (cfg : Config)
    (hpol : cfg.policy = .rejectWrites)
    (hinj : Function.Injective cfg.hashKey) {acts : List Act} {r : Region}
    (hr : Reach (Region.step cfg) (Region.RecyclesStored cfg)
      (Region.fresh cfg) acts r) (env : OpenEnv) (key : Key) (c : Nat)
    (hc : r.world.clock ≤ c)
    (ho : (crashed cfg r.disk).openClock cfg env ≤ c) :
    AtLeastAsRecent r.hist (r.disk 0).appliedIndex.since key c
        (((crashed cfg r.disk).reopen cfg env).resolve cfg key c)
      ∧ AtLeastAsRecent r.hist (r.disk 0).pbFrontier.since key c
        (((crashed cfg r.disk).reopen cfg env).resolve cfg key c) := by
  have hi := reach_inv hpol hr
  obtain ⟨hlive, hbare⟩ := hi.crashed_told
  have hrec := reopen_recent hinj
    (crashed_distinct hi.tracks hi.known.sound.inj) hlive hbare env hc ho
    key
  exact ⟨hrec.mono (hi.onDisk 0).1, hrec.mono (hi.onDisk 0).2⟩

section Runs

open Function

variable {r : Region} {a b : Bytes}

-- ======== a call

/-- Every step but recycling is free of the condition. -/
def notRecycle (_ : Region) : Act → Bool
  | .recycle _ => false
  | _ => true

-- Concrete runs are evaluated.
attribute [local simp] exec notRecycle Region.step Region.locked
  Region.fresh Op.isPlain Op.done Shard.putDone World.step World.put
  World.fresh Shard.fresh putAtExp findOrMakePage firstPageWithRoom append
  upsert tailRef expiryAtFrom twoPages keyCode Config.freeTail
  Config.maxEntryBytes Page.tail Page.empty Frame.size entrySpan
  pageHdrSize entryHeaderSize maxKeyLen maxValueLen List.replicate
  List.findIdx? List.findIdx?.go

theorem recyclesStored_of_notRecycle {act : Act}
    (h : notRecycle r act = true) : r.RecyclesStored cfg act := by
  cases act with
  | recycle i => cases h
  | _ => trivial

/-- SetAppliedIndex from its first msync to its last. -/
def setIndex (idx : Nat) : List Act :=
  [.setAppliedIndex idx, .synced, .project, .synced, .stamp, .writeback 0]

/-- Behind the call every OS page has the shard's pages under their
tails, and the first one the index. -/
theorem setIndex_exec (cfg : Config) (idx : Nat) (hcall : r.call = none) :
    ∃ r', exec (Region.step cfg) notRecycle r (setIndex idx) = some r'
      ∧ r'.world = { r.world with shard := { r.world.shard with
          hdrStamp := r.world.shard.lastAppliedStampMs } }
      ∧ r'.base = r'.world.shard ∧ r'.lives = r.lives ∧ r'.hist = r.hist
      ∧ r'.call = none
      ∧ (∀ j i, (r'.disk j).extents i = ⟨r.lives i, r.tails i,
          place 0 (r.world.shard.framesOf i)⟩)
      ∧ (r'.disk 0).appliedIndex = ⟨idx, 0, r.hist.length⟩
      ∧ (r'.disk 0).appliedStamp = r.world.shard.lastAppliedStampMs := by
  simp [setIndex, Region.start, Region.synced, Region.stamp,
    Region.writeback, Region.image, hcall]
  intro j i
  by_cases hj : j = 0
  · rw [hj, update_self]
    rfl
  · rw [update_of_ne hj]
    rfl

-- ======== a lost record

abbrev onePair : Config := twoPages .rejectWrites true

/-- Key 3 and a version of key 1 on the last page, the next version of
key 1 on the first. -/
def threeWrites (a b : Bytes) : List Act :=
  [.op (.put [3] [9] 0 0 noRescue), .op (.put [1] a 0 0 noRescue),
    .op (.put [1] b 0 0 noRescue)]

def newPage (b : Bytes) : Page := ⟨[⟨[1], b, 0, 3, false⟩], false⟩

def mixedPage (a : Bytes) : Page :=
  ⟨[⟨[3], [9], 0, 1, false⟩, ⟨[1], a, 0, 2, false⟩], false⟩

theorem threeWrites_exec (ha : a.length = 600000)
    (hb : b.length = 600000) :
    ∃ r, exec (Region.step onePair) notRecycle (Region.fresh onePair)
        (threeWrites a b) = some r
      ∧ r.world.shard.pages = [newPage b, mixedPage a]
      ∧ r.world.shard.tab 2 = some ⟨0, 0⟩
      ∧ r.world.shard.tab 4 = some ⟨1, 0⟩
      ∧ r.world.shard.writeIdx = 0 ∧ r.world.shard.writeSeq = 3
      ∧ r.world.shard.lastAppliedStampMs = 0 ∧ r.world.clock = 0
      ∧ r.hist = [.put [3] [9] 0, .put [1] a 0, .put [1] b 0]
      ∧ r.call = none ∧ r.lives = fun _ => 0 := by
  simp [threeWrites, ha, hb, newPage, mixedPage]

/-- Relocation moves key 3 behind the new version of key 1, and retires
the page. -/
theorem relocate_mixed {s : Shard} (ha : a.length = 600000)
    (hb : b.length = 600000) (hp : s.pages = [newPage b, mixedPage a])
    (h2 : s.tab 2 = some ⟨0, 0⟩) (h4 : s.tab 4 = some ⟨1, 0⟩)
    (hw : s.writeIdx = 0) :
    ∃ q : Page, (s.tryRelocatePage onePair 1 0).pages[1]? = some q
      ∧ q.retired = true := by
  simp [tryRelocatePage, hp, hw, h2, h4, ha, hb, newPage, mixedPage,
    Page.isEmpty, worthRelocating, pageLive, entryIsLive, pageWalk,
    relocateFrames, findRelocDest, moveFrame, retire, isExpired,
    List.range_succ]

/-- The candidates are one OS page's frames, or none. -/
theorem onDisk_cases (cfg : Config) (disk : Nat → Image) (i life bound : Nat) :
    onDisk cfg disk i life bound = []
      ∨ ∃ j, cfg.entryOs i 0 ≤ j ∧ j ≤ cfg.entryOs i bound
        ∧ onDisk cfg disk i life bound = ((disk j).extents i).placed := by
  have hfold : ∀ (es : List Extent) (acc : List Placed), es.foldl (fun acc e =>
          if e.life = life ∧ acc.length < e.placed.length then e.placed
          else acc) acc = acc
        ∨ ∃ e ∈ es, es.foldl (fun acc e =>
          if e.life = life ∧ acc.length < e.placed.length then e.placed
          else acc) acc = e.placed := by
    intro es
    induction es with
    | nil => exact fun acc => Or.inl rfl
    | cons e es ih =>
      intro acc
      rw [List.foldl_cons]
      split
      · rcases ih e.placed with h | ⟨e', he', h⟩
        · exact Or.inr ⟨e, List.mem_cons_self, h⟩
        · exact Or.inr ⟨e', List.mem_cons_of_mem _ he', h⟩
      · rcases ih acc with h | ⟨e', he', h⟩
        · exact Or.inl h
        · exact Or.inr ⟨e', List.mem_cons_of_mem _ he', h⟩
  unfold onDisk
  rcases hfold ((List.range (cfg.entryOs i bound + 1
      - cfg.entryOs i 0)).map fun k =>
        (disk (cfg.entryOs i 0 + k)).extents i) [] with h | ⟨e, he, h⟩
  · exact Or.inl h
  · right
    obtain ⟨k, hk, rfl⟩ := List.mem_map.mp he
    have hk' := List.mem_range.mp hk
    exact ⟨cfg.entryOs i 0 + k, Nat.le_add_right _ _, by omega, h⟩

/-- What the crash leaves: at most the new version of key 1. -/
theorem crashed_mixed {disk : Nat → Image} {b : Bytes} {bound : Nat}
    (hbound : bound < 2 ^ 19 + 2 ^ 18)
    (h0 : ∀ j, j < 256 → (disk j).extents 0 =
      ⟨0, bound, place 0 (newPage b).frames⟩)
    (h1 : (disk 256).extents 1 = ⟨1, 0, []⟩) {x : Ref} {f : Frame}
    (hf : (crashed onePair disk).frameAt x = some f) :
    x = ⟨0, 0⟩ ∧ f.key = [1] := by
  obtain ⟨hx, hf⟩ := frameAt_crashed.mp hf
  have hpages : x.page = 0 ∨ x.page = 1 := by
    have hn : onePair.numPages = 2 := rfl
    omega
  rcases hpages with hp | hp
  · -- the first page, under the bound of the call
    rw [hp] at hf
    have hsub : (recovered onePair disk 0).Sublist
        (place 0 (newPage b).frames) := by
      have hos : onePair.headerOs 0 = 0 := rfl
      unfold recovered
      rw [hos, h0 0 (by omega)]
      refine List.filter_sublist.trans ?_
      rcases onDisk_cases onePair disk 0 0 bound with h | ⟨j, _, hj, h⟩
      · rw [h]
        exact List.nil_sublist _
      · have hlt : j < 256 := by
          have hle : onePair.entryOs 0 bound < 256 := by
            show (128 + 0 * 2 ^ 20 + 16 + bound) / 4096 < 256
            omega
          omega
        rw [h, h0 j hlt]
    have hframes := hsub.map Prod.snd
    rw [place_map_snd] at hframes
    have hmem := hframes.subset (List.mem_of_getElem? hf)
    have hlen := hframes.length_le
    have hpos := (List.getElem?_eq_some_iff.mp hf).1
    have hone : (newPage b).frames.length = 1 := rfl
    refine ⟨?_, by rw [List.mem_singleton.mp hmem]⟩
    cases x
    dsimp only at hp hpos
    have h : _ = 0 := Nat.lt_one_iff.mp (hpos.trans_le (hone ▸ hlen))
    rw [hp, h]
  · -- the last page, recycled: its bound is 0
    rw [hp] at hf
    have hmem := List.mem_of_getElem? hf
    obtain ⟨p, hp', rfl⟩ := List.mem_map.mp hmem
    have hos : onePair.headerOs 1 = 256 := rfl
    unfold recovered at hp'
    dsimp only at hp'
    rw [hos, h1, List.mem_filter, Bool.and_eq_true,
      decide_eq_true_iff] at hp'
    have hstop : Placed.stop p ≤ 0 := hp'.2.1
    unfold Placed.stop Frame.size entrySpan entryHeaderSize at hstop
    omega

/-- Page `i` relocated at logical clock 0. -/
def Region.relocated (cfg : Config) (r : Region) (i : Nat) : Region :=
  { r with world := { r.world with
      shard := r.world.shard.tryRelocatePage cfg i 0 } }

/-- A relocation between calls. -/
theorem step_relocate (hcall : r.call = none)
    (hpol : cfg.policy = .rejectWrites) (hrep : cfg.replicated = true)
    (i : Nat) :
    r.step cfg (.op (.relocate i 0)) = some (r.relocated cfg i) := by
  simp only [Region.step, Region.locked, hcall, Option.map_none,
    Option.getD_none, Op.isPlain, Bool.not_true, Bool.or_self,
    Bool.false_eq_true, if_false, World.step, Op.done, List.append_nil]
  rw [if_pos ⟨hpol, hrep, Nat.zero_le _⟩, Option.map_some]
  unfold Region.relocated
  rw [hcall]

/-- A retired page between calls. -/
theorem step_recycle (hcall : r.call = none) {i : Nat} {p : Page}
    (hp : r.world.shard.pages[i]? = some p) (hret : p.retired = true) :
    r.step cfg (.recycle i) = some (r.recycle cfg i) := by
  simp only [Region.step, Region.locked, hcall, Option.map_none,
    Option.getD_none, Bool.false_eq_true, if_false, hp, hret, if_true]

/-- Recycling writes back one OS page. -/
theorem recycle_disk_ne {i j : Nat} (hj : j ≠ cfg.headerOs i) :
    (r.recycle cfg i).disk j = r.disk j := by
  show update r.disk (cfg.headerOs i) (r.reset i).image j = _
  rw [update_of_ne hj]

/-- The only write of key 3 does not expire, and comes first. -/
theorem not_atLeastAsRecent_none {hist : List Done}
    (hhist : hist = [.put [3] [9] 0, .put [1] a 0, .put [1] b 0]) :
    ¬ AtLeastAsRecent hist 3 [3] 0 none := by
  subst hhist
  rintro (hno | ⟨m, e, hm, hek, haway, _⟩)
  · exact hno 0 (.put [3] [9] 0) (by decide) rfl rfl
  · rcases m with _ | _ | _ | m
    · cases hm
      cases haway
    · cases hm
      cases hek
    · cases hm
      cases hek
    · cases hm

/-- The index of a call that began after key 3 was written is on disk,
and key 3 is not: its page was recycled, and the copy on the other page
lies past the bound the call projected. -/
theorem recycled_copy_lost :
    ∃ (acts : List Act) (r : Region) (env : OpenEnv),
      Reach (Region.step onePair) Free (Region.fresh onePair) acts r
      ∧ r.world.clock = 0
      ∧ (crashed onePair r.disk).openClock onePair env = 0
      ∧ (r.disk 0).appliedIndex = ⟨1, 0, 3⟩
      ∧ r.hist[0]? = some (.put [3] [9] 0)
      ∧ ¬ AtLeastAsRecent r.hist (r.disk 0).appliedIndex.since [3] 0
          (((crashed onePair r.disk).reopen onePair env).resolve onePair
            [3] 0) := by
  obtain ⟨a, ha⟩ : ∃ a : Bytes, a.length = 600000 := ⟨large 1, length_large 1⟩
  obtain ⟨r₀, he₀, hp, h2, h4, hw, _, hstamp, hclock, hhist, hcall,
    hlives⟩ := threeWrites_exec ha ha
  obtain ⟨r₁, he₁, hworld, _, hlives₁, hhist₁, hcall₁, hext, hmark,
    happ⟩ := setIndex_exec onePair 1 hcall
  have hr₀ : Reach (Region.step onePair) Free (Region.fresh onePair) _
      r₀ := exec_reach (fun _ _ _ => trivial) he₀
  have hr₁ := Reach.exec (fun _ _ _ => trivial) _ hr₀ he₁
  have hr₂ := hr₁.step (Act.op (.relocate 1 0)) trivial
    (step_relocate hcall₁ rfl rfl 1)
  obtain ⟨q, hq, hret⟩ := relocate_mixed (s := r₁.world.shard)
    ha ha (by rw [hworld]; exact hp)
    (by rw [hworld]; exact h2) (by rw [hworld]; exact h4)
    (by rw [hworld]; exact hw)
  have hq' : (r₁.relocated onePair 1).world.shard.pages[1]? = some q := hq
  have hr₃ := hr₂.step (Act.recycle 1) trivial
    (step_recycle (r := r₁.relocated onePair 1) hcall₁ hq' hret)
  generalize hr : (r₁.relocated onePair 1).recycle onePair 1 = r₃ at hr₃
  -- what the disk has of the two pages
  have hdisk : ∀ j, j ≠ 256 → r₃.disk j = r₁.disk j := by
    intro j hj
    rw [← hr]
    exact recycle_disk_ne hj
  have hhist₃ : r₃.hist = r₀.hist := by
    rw [← hhist₁, ← hr]
    rfl
  have h0 : ∀ j, j < 256 → (r₃.disk j).extents 0 =
      ⟨0, (newPage a).tail, place 0 (newPage a).frames⟩ := by
    intro j hj
    rw [hdisk j (by omega), hext, hlives]
    unfold Region.tails Shard.framesOf
    rw [hp]
    rfl
  have h1 : (r₃.disk 256).extents 1 = ⟨1, 0, []⟩ := by
    have hrec := framesOf_recycle hq hret 1
    rw [if_pos rfl] at hrec
    rw [← hr]
    show (⟨update r₁.lives 1 (r₁.lives 1 + 1) 1,
      update r₁.bounds 1 0 1, place 0 (Shard.framesOf
        ((r₁.world.shard.tryRelocatePage onePair 1 0).recycle 1) 1)⟩
          : Extent) = _
    rw [hrec, update_self, update_self, hlives₁, hlives]
    rfl
  have hbound : (newPage a).tail < 2 ^ 19 + 2 ^ 18 := by
    simp only [Page.tail, newPage, List.map_cons, List.map_nil,
      List.sum_cons, List.sum_nil, Frame.size, entrySpan, ha,
      entryHeaderSize, List.length_cons, List.length_nil]
    omega
  have hkey : ∀ x f, (crashed onePair r₃.disk).frameAt x = some f →
      x = ⟨0, 0⟩ ∧ f.key = [1] := fun x f hf =>
    crashed_mixed hbound h0 h1 hf
  have hdistinct : (crashed onePair r₃.disk).Distinct := by
    intro x f x' f' hf hf' _
    rw [(hkey x f hf).1, (hkey x' f' hf').1]
  have hopen := reopened onePair ⟨0, false, 0, 0⟩ hdistinct
  have hnone : ((crashed onePair r₃.disk).reopen onePair
      ⟨0, false, 0, 0⟩).resolve onePair [3] 0 = none := by
    rw [Option.eq_none_iff_forall_ne_some]
    intro v hv
    obtain ⟨x, f, hn, _, hk, _⟩ :=
      hopen.live _ _ (live_of_resolve hopen.sound.toIndexed hv).1
    have hk' := (hkey x f hn.mem.1).2
    rw [hk] at hk'
    cases hk'
  have hmark₃ : (r₃.disk 0).appliedIndex = ⟨1, 0, 3⟩ := by
    rw [hdisk 0 (by omega), hmark, hhist]
    rfl
  refine ⟨_, r₃, ⟨0, false, 0, 0⟩, hr₃, ?_, ?_, hmark₃, ?_, ?_⟩
  · rw [← hr]
    show r₁.world.clock = 0
    rw [hworld]
    exact hclock
  · show (r₃.disk 0).appliedStamp = 0
    rw [hdisk 0 (by omega), happ]
    exact hstamp
  · rw [hhist₃, hhist]
    rfl
  · rw [hnone, hmark₃]
    exact not_atLeastAsRecent_none (hhist₃.trans hhist)

-- ======== a stored record

/-- Two versions of key 1, each on a page of its own. -/
theorem twoWrites_exec (ha : a.length = 600000)
    (hb : b.length = 600000) :
    ∃ r, exec (Region.step onePair) notRecycle (Region.fresh onePair)
        [.op (.put [1] a 0 0 noRescue), .op (.put [1] b 0 0 noRescue)] = some r
      ∧ r.world.shard.pages = [⟨[⟨[1], b, 0, 2, false⟩], false⟩,
        ⟨[⟨[1], a, 0, 1, false⟩], false⟩]
      ∧ r.world.shard.tab 2 = some ⟨0, 0⟩ ∧ r.world.shard.writeIdx = 0
      ∧ r.world.shard.flushedThroughSeq = 0
      ∧ r.world.shard.lastAppliedStampMs = 0 ∧ r.world.clock = 0
      ∧ r.hist = [.put [1] a 0, .put [1] b 0] ∧ r.call = none := by
  simp [ha, hb]

/-- The superseded version's page is retired before the call begins, and
recycled behind it: key 1 is found as the call had it. -/
theorem watermark_recycled_later :
    ∃ (acts : List Act) (r : Region) (env : OpenEnv),
      Reach (Region.step onePair) (Region.RecyclesStored onePair)
        (Region.fresh onePair) acts r
      ∧ (r.disk 0).appliedIndex = ⟨1, 0, 2⟩
      ∧ AtLeastAsRecent r.hist (r.disk 0).appliedIndex.since [1] 0
          (((crashed onePair r.disk).reopen onePair env).resolve onePair
            [1] 0) := by
  obtain ⟨a, ha⟩ : ∃ a : Bytes, a.length = 600000 := ⟨large 1, length_large 1⟩
  obtain ⟨r₀, he₀, hp, h2, hw, hfloor, hstamp, hclock, hhist, hcall⟩ :=
    twoWrites_exec ha ha
  have hr₀ : Reach (Region.step onePair) (Region.RecyclesStored onePair)
      (Region.fresh onePair) _ r₀ :=
    exec_reach (fun _ _ h => recyclesStored_of_notRecycle h) he₀
  have hdead : r₀.world.shard.tryRelocatePage onePair 1 0 =
      r₀.world.shard.retire 1 := by
    apply tryRelocatePage_dead (p := ⟨[⟨[1], a, 0, 1, false⟩], false⟩)
    · rw [hw]
      decide
    · rw [hp]
      rfl
    · rfl
    · exact List.cons_ne_nil _ _
    · intro x hx
      rw [List.mem_singleton.mp hx]
      show r₀.world.shard.tab 2 ≠ some ⟨1, 0⟩
      rw [h2]
      decide
  have hr₁ := hr₀.step (Act.op (.relocate 1 0)) trivial
    (step_relocate hcall rfl rfl 1)
  have hcall₁ : (r₀.relocated onePair 1).call = none := hcall
  have hshard : (r₀.relocated onePair 1).world.shard =
      r₀.world.shard.retire 1 := hdead
  obtain ⟨r₂, he₂, hworld, hbase, _, hhist₂, hcall₂, _, hmark, happ⟩ :=
    setIndex_exec onePair 1 hcall₁
  have hr₂ := Reach.exec (fun _ _ h => recyclesStored_of_notRecycle h) _
    hr₁ he₂
  have hpages : r₂.world.shard.pages = [⟨[⟨[1], a, 0, 2, false⟩], false⟩,
        ⟨[⟨[1], a, 0, 1, false⟩], true⟩] := by
    rw [hworld]
    show (r₀.relocated onePair 1).world.shard.pages = _
    rw [hshard]
    unfold retire
    rw [hp]
    rfl
  have hfloor₂ : r₂.world.shard.flushedThroughSeq = 0 := by
    rw [hworld]
    show (r₀.relocated onePair 1).world.shard.flushedThroughSeq = 0
    rw [hshard]
    exact hfloor
  have hq : r₂.world.shard.pages[1]? =
      some ⟨[⟨[1], a, 0, 1, false⟩], true⟩ := by
    rw [hpages]
    rfl
  have hsafe : r₂.base.Recyclable onePair 1 := by
    rw [hbase]
    refine ⟨⟨_, hq, rfl⟩, safeToEmpty_of_check ?_⟩
    simp [safeToEmptyCheck, logList, walk, pageWalk, hpages, hfloor₂,
      hashOf, seqOf, twoPages]
  have hr₃ := hr₂.step (Act.recycle 1) hsafe (step_recycle hcall₂ hq rfl)
  have hdisk : ((r₂.recycle onePair 1).disk 0) = r₂.disk 0 :=
    recycle_disk_ne (by decide)
  have hindex : ((r₂.recycle onePair 1).disk 0).appliedIndex = ⟨1, 0, 2⟩ := by
    rw [hdisk, hmark]
    show (⟨1, 0, r₀.hist.length⟩ : Mark) = _
    rw [hhist]
    rfl
  refine ⟨_, _, ⟨0, false, 0, 0⟩, hr₃, hindex, ?_⟩
  refine (watermark_never_leads onePair rfl keyCode_injective hr₃
    ⟨0, false, 0, 0⟩ [1] 0 ?_ ?_).1
  · show r₂.world.clock ≤ 0
    rw [hworld]
    exact hclock.le
  · show ((r₂.recycle onePair 1).disk 0).appliedStamp ≤ 0
    rw [hdisk, happ, hshard]
    exact hstamp.le

end Runs

end Rostam.Cache
