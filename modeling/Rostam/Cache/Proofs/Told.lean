/-
A shard and the history of its writes: what is live is told by the last
write of its hash, and what is not was deleted or had expired.
-/
import Rostam.Cache.Proofs.Run
import Rostam.Cache.Durable

namespace Rostam.Cache

open Rostam.Lib Shard

variable {cfg : Config} {s s' a b : Shard} {clock : Nat}
  {hist : List Done} {n m : Nat}

variable {d : Done} {h : Nat} {i : Nat} {p : Page}

-- ======== history

def Done.key : Done → Key
  | .put key _ _ => key
  | .del key => key

/-- Nothing is left of it at clock `c`. -/
def Done.Away (c : Nat) : Done → Prop
  | .put _ _ exp => isExpired exp c = true
  | .del _ => True

/-- What a frame records. -/
def Frame.done (f : Frame) : Done :=
  if f.tomb then .del f.key else .put f.key f.val f.exp

/-- Entry `m` is at or after every entry on hash `h` among the first
`n`. -/
def Covers (cfg : Config) (hist : List Done) (n h m : Nat) : Prop :=
  ∀ (k : Nat) (d : Done), k < n → hist[k]? = some d →
    cfg.hashKey d.key = h → k ≤ m

/-- The history has `d`, at or after every entry on its hash among the
first `n`. -/
def Told (cfg : Config) (hist : List Done) (n : Nat) (d : Done) : Prop :=
  ∃ m : Nat, hist[m]? = some d ∧ Covers cfg hist n (cfg.hashKey d.key) m

/-- The first `n` entries leave nothing on hash `h` at the clock. -/
def Bare (cfg : Config) (hist : List Done) (n h clock : Nat) : Prop :=
  (∀ (k : Nat) (d : Done), k < n → hist[k]? = some d → cfg.hashKey d.key ≠ h)
  ∨ ∃ d, cfg.hashKey d.key = h ∧ Told cfg hist n d ∧ d.Away clock

theorem getElem?_append_of_some (ds : List Done)
    (hm : hist[m]? = some d) : (hist ++ ds)[m]? = some d := by
  rw [List.getElem?_append_left (List.getElem?_eq_some_iff.mp hm).1]
  exact hm

/-- Later entries do not change what the first `n` tell. -/
theorem Covers.append (ds : List Done) (hn : n ≤ hist.length)
    (hc : Covers cfg hist n h m) : Covers cfg (hist ++ ds) n h m := by
  intro k d hk hd
  rw [List.getElem?_append_left (by omega)] at hd
  exact hc k d hk hd

theorem Told.append (ds : List Done) (hn : n ≤ hist.length)
    (ht : Told cfg hist n d) : Told cfg (hist ++ ds) n d := by
  obtain ⟨m, hm, hc⟩ := ht
  exact ⟨m, getElem?_append_of_some ds hm, hc.append ds hn⟩

theorem Told.mono {n' : Nat} (hn : n' ≤ n)
    (ht : Told cfg hist n d) : Told cfg hist n' d := by
  obtain ⟨m, hm, hc⟩ := ht
  exact ⟨m, hm, fun k d hk => hc k d (by omega)⟩

theorem Done.Away.mono {c c' : Nat} (hc : c ≤ c')
    (ha : d.Away c) : d.Away c' := by
  cases d with
  | put key val exp => exact isExpired_mono hc ha
  | del key => trivial

theorem Bare.append (ds : List Done) (hn : n ≤ hist.length)
    (hb : Bare cfg hist n h clock) :
    Bare cfg (hist ++ ds) n h clock := by
  rcases hb with hno | ⟨d, hd, ht, ha⟩
  · left
    intro k d hk hd
    rw [List.getElem?_append_left (by omega)] at hd
    exact hno k d hk hd
  · exact Or.inr ⟨d, hd, ht.append ds hn, ha⟩

theorem Bare.mono {h c : Nat} (hc : clock ≤ c)
    (hb : Bare cfg hist n h clock) : Bare cfg hist n h c := by
  rcases hb with hno | ⟨d, hd, ht, ha⟩
  · exact Or.inl hno
  · exact Or.inr ⟨d, hd, ht, ha.mono hc⟩

/-- An entry on another hash adds nothing to cover. -/
theorem Told.snoc {d e : Done} (hne : cfg.hashKey e.key ≠ cfg.hashKey d.key)
    (ht : Told cfg hist hist.length d) :
    Told cfg (hist ++ [e]) (hist ++ [e]).length d := by
  obtain ⟨m, hm, hc⟩ := ht
  refine ⟨m, getElem?_append_of_some [e] hm, fun k d' hk hd' hh => ?_⟩
  by_cases hlt : k < hist.length
  · rw [List.getElem?_append_left hlt] at hd'
    exact hc k d' hlt hd' hh
  · rw [List.length_append, List.length_singleton] at hk
    have hkl : k = hist.length := by omega
    rw [hkl, List.getElem?_concat_length] at hd'
    injection hd' with hd'
    rw [← hd'] at hh
    exact absurd hh hne

theorem Bare.snoc {e : Done} (hne : cfg.hashKey e.key ≠ h)
    (hb : Bare cfg hist hist.length h clock) :
    Bare cfg (hist ++ [e]) (hist ++ [e]).length h clock := by
  rcases hb with hno | ⟨d, hd, ht, ha⟩
  · left
    intro k d hk hd
    by_cases hlt : k < hist.length
    · rw [List.getElem?_append_left hlt] at hd
      exact hno k d hlt hd
    · rw [List.length_append, List.length_singleton] at hk
      have hkl : k = hist.length := by omega
      rw [hkl, List.getElem?_concat_length] at hd
      injection hd with hd
      rw [← hd]
      exact hne
  · exact Or.inr ⟨d, hd, ht.snoc (by rw [hd]; exact hne), ha⟩

/-- The last entry is at or after everything. -/
theorem told_last (e : Done) (hn : n ≤ hist.length + 1) :
    Told cfg (hist ++ [e]) n e := by
  refine ⟨hist.length, List.getElem?_concat_length, fun k d hk _ _ => ?_⟩
  omega

-- ======== shards

/-- The shard is sound, and tells the first `n` entries of the history:
what is live is the last write of its hash, and a hash with nothing live
is bare. -/
structure Known (cfg : Config) (hist : List Done) (n clock : Nat)
    (s : Shard) : Prop where
  sound : s.Sound cfg
  gone : s.Gone cfg clock
  live : ∀ key v, s.Live cfg key v → Told cfg hist n (.put key v.1 v.2)
  bare : ∀ h, (∀ key v, cfg.hashKey key = h → ¬ s.Live cfg key v) →
    Bare cfg hist n h clock

/-- Every frame past the shard's sequence is told. -/
def LateTold (cfg : Config) (hist : List Done) (n : Nat)
    (a s : Shard) : Prop :=
  ∀ r f, s.frameAt r = some f → a.writeSeq < f.seq → Told cfg hist n f.done

theorem Known.append (ds : List Done) (hn : n ≤ hist.length)
    (hk : Known cfg hist n clock s) :
    Known cfg (hist ++ ds) n clock s := { hk with
  live := fun key v hl => (hk.live key v hl).append ds hn
  bare := fun h hno => (hk.bare h hno).append ds hn }

theorem Known.mono {c : Nat} (hc : clock ≤ c)
    (hk : Known cfg hist n clock s) : Known cfg hist n c s := { hk with
  gone := hk.gone.mono hc
  bare := fun h hno => (hk.bare h hno).mono hc }

/-- A shard with the same log and the same soundness is as known. -/
theorem Known.congr (hk : Known cfg hist n clock s)
    (hs : s'.Sound cfg) (hg : s'.Gone cfg clock)
    (hl : ∀ key v, s'.Live cfg key v ↔ s.Live cfg key v) :
    Known cfg hist n clock s' where
  sound := hs
  gone := hg
  live := fun key v h => hk.live key v ((hl key v).mp h)
  bare := fun h hno => hk.bare h fun key v hh hlive =>
    hno key v hh ((hl key v).mpr hlive)

/-- A frame written is the history's next entry. -/
theorem Known.write {g : Frame} {t : Nat → Option Ref}
    (hk : Known cfg hist hist.length clock s)
    (hi : i < s.pages.length)
    (hret : ∀ p : Page, s.pages[i]? = some p → p.retired = false)
    (hseq : g.seq = s.writeSeq + 1) (ht : Points cfg s i g t) :
    Known cfg (hist ++ [g.done]) (hist ++ [g.done]).length clock
      (s.write i g t) := by
  have hgkey : g.done.key = g.key := by
    unfold Frame.done
    split <;> rfl
  refine ⟨hk.sound.write hi hret hseq ht,
    hk.gone.write hk.sound.toOrdered hi hseq ht, ?_, ?_⟩
  · intro key v hl
    rcases (live_write hk.sound.toOrdered hi hseq).mp hl with
      ⟨htomb, hkey, hv⟩ | ⟨hne, hl⟩
    · have hdone : g.done = .put key v.1 v.2 := by
        unfold Frame.done
        rw [htomb, hkey, hv]
        rfl
      rw [hdone]
      exact told_last _ (by simp)
    · apply (hk.live key v hl).snoc
      rw [hgkey]
      exact hne
  · intro h hno
    by_cases hh : cfg.hashKey g.key = h
    · -- only a delete record leaves its hash with nothing live
      right
      refine ⟨g.done, by rw [hgkey]; exact hh, told_last _ (by simp), ?_⟩
      unfold Frame.done
      split
      · trivial
      · next htomb =>
        exact absurd ((live_write hk.sound.toOrdered hi hseq).mpr
          (Or.inl ⟨Bool.eq_false_iff.mpr htomb, rfl, rfl⟩))
          (hno g.key (g.val, g.exp) hh)
    · apply Bare.snoc (by rw [hgkey]; exact hh)
      apply hk.bare h
      intro key v hkh hl
      apply hno key v hkh
      apply (live_write hk.sound.toOrdered hi hseq).mpr
      exact Or.inr ⟨by rw [hkh]; exact hh, hl⟩

/-- A page that is safe to empty takes nothing known along, once no slot
points into it. -/
theorem Known.recycle (hk : Known cfg hist n clock s)
    (hsafe : (∃ p : Page, s.pages[i]? = some p ∧ p.retired = true) →
      s.SafeToEmpty cfg i) :
    Known cfg hist n clock (s.recycle i) := by
  refine ⟨recycle_sound hk.sound i, recycle_gone hk.sound hk.gone hsafe,
    ?_, ?_⟩ <;>
    rcases recycle_cases hk.sound i with he | ⟨he, _, hvac, hret⟩
  · rw [he]
    exact hk.live
  · intro key v hl
    exact hk.live key v (live_emptied hk.sound (hsafe hret) he hl)
  · rw [he]
    exact hk.bare
  · intro h hno
    by_cases hlive : ∀ key v, cfg.hashKey key = h → ¬ s.Live cfg key v
    · exact hk.bare h hlive
    · push Not at hlive
      obtain ⟨key, v, hh, hl⟩ := hlive
      have htold := hk.live key v hl
      obtain ⟨r, f, hn, htomb, hkey, hv⟩ := hl
      -- the page took the hash's newest frame, which had expired
      have hpage : r.page = i := by
        by_contra hne
        exact hno key v hh ⟨r, f, newest_emptied he hn hne, htomb, hkey, hv⟩
      have hslot : s.tab (cfg.hashKey key) = none := by
        cases htab : s.tab (cfg.hashKey key) with
        | none => rfl
        | some r' =>
          obtain ⟨f', hn', _⟩ := hk.sound.current _ r' htab
          have heq : (r', f') = (r, f) := hn'.unique hk.sound.inj.injOn hn
          injection heq with hr _
          exact absurd (hr ▸ hpage) (hvac _ r' htab)
      right
      refine ⟨.put key v.1 v.2, hh, htold, ?_⟩
      rcases hk.gone _ r f hslot hn with hd | hd
      · rw [htomb] at hd
        cases hd
      · rw [hv]
        exact hd

-- ======== before, after

/-- Retired already then, and safe to empty then: so it is now. -/
theorem Grown.safeToEmpty (hg : Grown a b) (ha : a.Ordered)
    (hp : a.pages[i]? = some p) (hret : p.retired = true)
    (hsafe : a.SafeToEmpty cfg i) : b.SafeToEmpty cfg i := by
  -- the frames `a` has are frames of `b`
  have hsub : ∀ x, x ∈ a.log → x ∈ b.log := by
    rintro ⟨r, f⟩ ⟨hf, hfl⟩
    refine ⟨?_, by rw [hg.floor]; exact hfl⟩
    unfold frameAt at hf ⊢
    obtain ⟨q, hq, hfq⟩ := Option.bind_eq_some_iff.mp hf
    obtain ⟨q', hq', hpre, _⟩ := hg.page _ q hq
    rw [hq', Option.bind_some]
    obtain ⟨l, hl⟩ := hpre
    rw [← hl, List.getElem?_append_left (List.getElem?_eq_some_iff.mp hfq).1]
    exact hfq
  -- those of its retired page are all there are on it
  have hpage : ∀ r f, r.page = i → b.frameAt r = some f →
      a.frameAt r = some f := by
    intro r f hr hf
    obtain ⟨q, hq, _, hfix⟩ := hg.page i p hp
    have hqp := hfix hret
    subst hqp
    unfold frameAt at hf ⊢
    rw [hr] at hf ⊢
    rw [hq] at hf
    rw [hp]
    exact hf
  rintro h ⟨r, f⟩ ⟨r', f'⟩ hx hr hy
  have hxa : (r, f) ∈ a.log := by
    refine ⟨hpage r f hr hx.mem.1, ?_⟩
    rw [← hg.floor]
    exact hx.mem.2
  have hxn : a.Newest cfg h (r, f) :=
    ⟨hxa, hx.key_eq, fun z hz hh => hx.le z (hsub z hz) hh⟩
  have hseq : f'.seq ≤ a.writeSeq := by
    have hle : f'.seq ≤ f.seq := hx.le (r', f') hy.mem.1 hy.key_eq
    have hle' : f.seq ≤ a.writeSeq := ha.seq_le r f hxa.1
    omega
  have hya : (r', f') ∈ a.logOff i := by
    refine ⟨⟨?_, ?_⟩, hy.mem.2⟩
    · rcases hg.late r' f' hy.mem.1.1 with hf | hlt
      · exact hf
      · omega
    · rw [← hg.floor]
      exact hy.mem.1.2
  exact hsafe h (r, f) (r', f') hxn hr
    ⟨hya, hy.key_eq, fun z hz hh => hy.le z ⟨hsub z hz.1, hz.2⟩ hh⟩

theorem Grown.retired (hg : Grown a b)
    (hp : a.pages[i]? = some p) (hret : p.retired = true) :
    b.pages[i]? = some p := by
  obtain ⟨q, hq, _, hfix⟩ := hg.page i p hp
  rw [← hfix hret]
  exact hq

theorem recycle_eq (hp : s.pages[i]? = some p) (hret : p.retired = true) :
    s.recycle i = { s with pages := s.pages.set i Page.empty } := by
  unfold recycle
  rw [hp]
  dsimp only
  rw [if_pos hret]

/-- Recycling the same page on both sides. -/
theorem Grown.recycle (hg : Grown a b)
    (hp : a.pages[i]? = some p) (hret : p.retired = true) :
    Grown (a.recycle i) (b.recycle i) := by
  rw [recycle_eq hp hret, recycle_eq (hg.retired hp hret) hret]
  refine ⟨by simpa using hg.length, ?_, ?_, hg.writeSeq_le, hg.floor⟩
  · intro j q hq
    by_cases hj : i = j
    · subst hj
      have hib : i < b.pages.length :=
        (List.getElem?_eq_some_iff.mp (hg.retired hp hret)).1
      have hia : i < a.pages.length := (List.getElem?_eq_some_iff.mp hp).1
      rw [List.getElem?_set_self hia] at hq
      cases hq
      exact ⟨Page.empty, List.getElem?_set_self hib,
        List.prefix_refl _, fun _ => rfl⟩
    · rw [List.getElem?_set_ne hj] at hq
      obtain ⟨q', hq', hpre⟩ := hg.page j q hq
      exact ⟨q', by rw [List.getElem?_set_ne hj]; exact hq', hpre⟩
  · intro r f hf
    have hri : r.page ≠ i := by
      intro hri
      unfold frameAt at hf
      rw [hri, List.getElem?_set_self
        (List.getElem?_eq_some_iff.mp (hg.retired hp hret)).1] at hf
      cases hf
    have hset : ∀ u : Shard,
        { u with pages := u.pages.set i Page.empty }.frameAt r
          = u.frameAt r := by
      intro u
      unfold frameAt
      rw [List.getElem?_set_ne (Ne.symm hri)]
    rw [hset] at hf ⊢
    exact hg.late r f hf

-- ======== one step

/-- A step that adds `ds` to the history: the shard tells it, grows, and
every new frame is the write or a copy of something live. -/
structure Stepped (cfg : Config) (hist : List Done) (clock clock' : Nat)
    (s s' : Shard) (ds : List Done) : Prop where
  known : Known cfg (hist ++ ds) (hist ++ ds).length clock' s'
  grown : Grown s s'
  frames : ∀ r f, s'.frameAt r = some f → s.frameAt r = some f
    ∨ ds = [f.done] ∨ f.tomb = false ∧ s.Live cfg f.key (f.val, f.exp)
  clock_le : clock ≤ clock'

/-- What is told late stays told late. -/
theorem LateTold.step {clock' : Nat} {ds : List Done}
    (hl : LateTold cfg hist n a s) (hn : n ≤ hist.length)
    (hk : Known cfg hist hist.length clock s)
    (hst : Stepped cfg hist clock clock' s s' ds) :
    LateTold cfg (hist ++ ds) n a s' := by
  intro r f hf hlt
  rcases hst.frames r f hf with hf | hds | ⟨htomb, hlive⟩
  · exact (hl r f hf hlt).append ds hn
  · rw [hds]
    exact told_last _ (by omega)
  · have hdone : f.done = .put f.key f.val f.exp := by
      unfold Frame.done
      rw [htomb]
      rfl
    rw [hdone]
    exact ((hk.live _ _ hlive).mono hn).append ds hn

theorem Known.of_pages (hk : Known cfg hist n clock s)
    (hs : s'.Sound cfg) (hg : s'.Gone cfg clock)
    (hp : s'.pages = s.pages)
    (hfl : s'.flushedThroughSeq = s.flushedThroughSeq) :
    Known cfg hist n clock s' := by
  apply hk.congr hs hg
  intro key v
  have hlog : s'.log = s.log := by
    unfold Shard.log frameAt
    rw [hp, hfl]
  unfold Shard.Live Shard.Newest
  rw [hlog]

/-- Steps that leave the pages alone. -/
theorem stepped_of_pages {clock' : Nat}
    (hk : Known cfg hist hist.length clock s)
    (hs : s'.Sound cfg) (hg : s'.Gone cfg clock')
    (hc : clock ≤ clock') (hp : s'.pages = s.pages)
    (hseq : s.writeSeq ≤ s'.writeSeq)
    (hfl : s'.flushedThroughSeq = s.flushedThroughSeq) :
    Stepped cfg hist clock clock' s s' [] where
  known := by
    rw [List.append_nil]
    exact (hk.mono hc).of_pages hs hg hp hfl
  grown := grown_of_pages hp hseq hfl
  frames := by
    intro r f hf
    left
    unfold frameAt at hf ⊢
    rw [← hp]
    exact hf
  clock_le := hc

/-- A frame written on the write page. -/
theorem stepped_write {g : Frame} {t : Nat → Option Ref}
    (hk : Known cfg hist hist.length clock s)
    (hr : Ready cfg { s with writeIdx := i } i)
    (hseq : g.seq = s.writeSeq + 1)
    (ht : Points cfg { s with writeIdx := i } i g t) :
    Stepped cfg hist clock clock s
      (({ s with writeIdx := i } : Shard).write i g t) [g.done] where
  known := by
    have hk' : Known cfg hist hist.length clock { s with writeIdx := i } :=
      hk.of_pages hr.sound hk.gone rfl rfl
    exact hk'.write hr.lt hr.unretired hseq ht
  grown := by
    have hg : Grown s { s with writeIdx := i } :=
      grown_of_pages rfl le_rfl rfl
    exact hg.trans (grown_write hr.lt hr.unretired hseq)
  frames := by
    intro r f hf
    rcases (frameAt_write hr.lt).mp hf with hf | ⟨_, hf⟩
    · exact Or.inl hf
    · right
      left
      rw [hf]
  clock_le := le_rfl

/-- A relocation copies what its slots held, which is live. -/
theorem stepped_unseen (hk : Known cfg hist hist.length clock s)
    (hu : Unseen cfg s s') :
    Stepped cfg hist clock clock s s' [] where
  known := by
    rw [List.append_nil]
    exact hk.congr hu.sound (hu.gone _ hk.gone) hu.live
  grown := hu.grown
  frames := by
    intro r f hf
    rcases hu.copies r f hf with hf | ⟨htomb, hslot⟩
    · exact Or.inl hf
    · right
      right
      refine ⟨htomb, ?_⟩
      obtain ⟨f₀, hf₀, hcont⟩ := Option.map_eq_some_iff.mp hslot
      obtain ⟨r₀, ht, hf₀⟩ := Option.bind_eq_some_iff.mp hf₀
      obtain ⟨f₁, hn, htomb'⟩ := hk.sound.current _ r₀ ht
      have hf₁ : s.frameAt r₀ = some f₁ := hn.mem.1
      rw [hf₀] at hf₁
      cases hf₁
      injection hcont with hkey hrest
      injection hrest with hval hexp
      exact ⟨r₀, f₀, hn, htomb', hkey, by rw [hval, hexp]⟩
  clock_le := le_rfl

theorem stepped_wrote (hpol : cfg.policy = .rejectWrites)
    (hk : Known cfg hist hist.length clock s) {env : EvictEnv} {need : Nat}
    {g : Frame} {b : Bool} (hw : Wrote cfg env s need g s' b) :
    Stepped cfg hist clock clock s s' (if b then [g.done] else []) := by
  have hs := hw.sound hk.sound
  rcases hw.reject hk.sound hpol with ⟨rfl, i, n, hn, rfl⟩
    | ⟨rfl, i, t, hr, _, ht, rfl⟩
  · exact stepped_of_pages hk hs hk.gone le_rfl rfl hn rfl
  · exact stepped_write hk hr rfl ht

theorem stepped_put (hpol : cfg.policy = .rejectWrites)
    (hk : Known cfg hist hist.length clock s) (env : EvictEnv)
    (key val : Bytes) (exp : Nat) :
    Stepped cfg hist clock clock s (s.putAtExp cfg env key val exp).1
      (s.putDone cfg env key val exp) := by
  have hst := stepped_wrote hpol hk (putAtExp_wrote cfg env s key val exp)
  simp only [Option.isNone_iff_eq_none] at hst
  exact hst

/-- A read or a sweep drops slots only. -/
theorem get_pages (cfg : Config) (s : Shard) (key : Key) (now : Nat)
    (allow : Bool) :
    (s.get cfg key now allow).pages = s.pages
      ∧ (s.get cfg key now allow).writeSeq = s.writeSeq
      ∧ (s.get cfg key now allow).flushedThroughSeq =
        s.flushedThroughSeq := by
  rcases get_drop key now allow with he | ⟨f, _, _, _, he⟩ <;> rw [he]
  · exact ⟨rfl, rfl, rfl⟩
  · exact ⟨rfl, rfl, rfl⟩

/-- The stamp is not part of what is known. -/
theorem Known.stamp {x y : Nat} (hk : Known cfg hist n clock s) :
    Known cfg hist n clock
      { s with lastAppliedStampMs := x, hdrStamp := y } :=
  hk.of_pages hk.sound.stamp hk.gone rfl rfl

theorem Stepped.of_stamp {clock' x : Nat} {ds : List Done}
    (hst : Stepped cfg hist clock clock' (s.advanceStamp x) s' ds) :
    Stepped cfg hist clock clock' s s' ds := { hst with
  grown := by
    have hg : Grown s (s.advanceStamp x) := grown_of_pages rfl le_rfl rfl
    exact hg.trans hst.grown }

/-- Every operation of a reject-writes run is told. -/
theorem step_told {w w' : World} {o : Op} (hpol : cfg.policy = .rejectWrites)
    (hk : Known cfg hist hist.length w.clock w.shard)
    (hplain : o.isPlain = true) (hstep : w.step cfg o = some w') :
    Stepped cfg hist w.clock w'.clock w.shard w'.shard
      (o.done cfg w.shard) := by
  have hsound := step_sound hk.sound hstep
  cases o with
  | put key val ttl now env =>
    cases hstep
    exact stepped_put hpol hk env key val _
  | putAt key val ttl stamp env =>
    cases hstep
    have hk' : Known cfg hist hist.length w.clock
        (w.shard.advanceStamp stamp) := hk.stamp
    exact (stepped_put hpol hk' env key val _).of_stamp
  | putAbs key val exp env =>
    cases hstep
    exact stepped_put hpol hk env key val exp
  | del key env =>
    cases hstep
    have hst := stepped_wrote hpol hk (del_wrote env hk.sound key)
    have hdone : (Op.del key env).done cfg w.shard = _ := match_found ..
    rw [hdone]
    exact hst
  | get key now =>
    have hgone : w'.shard.Gone cfg w'.clock := by
      apply step_gone hk.sound hk.gone _ hstep
      trivial
    cases hstep
    obtain ⟨hp, hseq, hfl⟩ := get_pages cfg w.shard key now (!cfg.replicated)
    refine stepped_of_pages hk hsound hgone ?_ hp (le_of_eq hseq.symm) hfl
    show w.clock ≤ if _ then _ else _
    split
    · exact le_max_left _ _
    · exact le_rfl
  | getAt key stamp =>
    have hgone : w'.shard.Gone cfg w'.clock := by
      apply step_gone hk.sound hk.gone _ hstep
      trivial
    cases hstep
    obtain ⟨hp, hseq, hfl⟩ :=
      get_pages cfg (w.shard.advanceStamp stamp) key stamp true
    exact stepped_of_pages hk hsound hgone (le_max_left _ _) hp
      (le_of_eq hseq.symm) hfl
  | sweep now reached =>
    have hgone : w'.shard.Gone cfg w'.clock := by
      apply step_gone hk.sound hk.gone _ hstep
      trivial
    simp only [World.step] at hstep
    split at hstep
    · cases hstep
    · cases hstep
      exact stepped_of_pages hk hsound hgone (le_max_left _ _) rfl
        le_rfl rfl
  | relocate i dropClock =>
    simp only [World.step] at hstep
    split at hstep
    · cases hstep
      exact stepped_unseen hk
        (tryRelocatePage_unseen hk.sound hpol i dropClock)
    · cases hstep
  | flush => cases hplain
  | setAppliedIndex => cases hplain
  | recycle i => cases hplain
  | reopen env => cases hplain

end Rostam.Cache
