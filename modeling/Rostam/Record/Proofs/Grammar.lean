/-
`ParsePath` against the documented grammar.

One lemma for each nonterminal says that its parser accepts what the
grammar derives and returns what the text denotes. The path parser splits
at every slash before it looks at a quote, so of the derivable texts it
accepts those whose row key has no slash; the byte count it checks first
refuses none of them.
-/
import Rostam.Record.Grammar
import Rostam.Lib.Reader

namespace Rostam.Record

open Rostam.Lib Rostam.Wire

variable {d : Bytes} {s : Bytes} {seg : Segment} {t k : Bytes}

-- ======== splitting

/-- The pieces of a split are without the separator. -/
theorem not_mem_of_mem_splitOn {x : UInt8} {s l : Bytes}
    (h : l ∈ s.splitOn x) : x ∉ l := by
  induction s generalizing l with
  | nil =>
    obtain rfl := List.mem_singleton.mp h
    exact List.not_mem_nil
  | cons c s ih =>
    unfold List.splitOn at h ih
    rw [List.splitOnP_cons_eq_if_modifyHead] at h
    split at h
    · rcases List.mem_cons.mp h with rfl | h
      · exact List.not_mem_nil
      · exact ih h
    · next hc =>
      have hne : x ≠ c := fun hx => hc (by rw [hx]; exact beq_self_eq_true c)
      cases hs : s.splitOnP (· == x) with
      | nil => exact absurd hs (List.splitOnP_ne_nil _ s)
      | cons p ps =>
        rw [hs, List.modifyHead_cons] at h
        rcases List.mem_cons.mp h with rfl | h
        · have hp : x ∉ p := ih (hs ▸ List.mem_cons_self)
          exact fun hx => (List.mem_cons.mp hx).elim hne hp
        · exact ih (hs ▸ List.mem_cons_of_mem _ h)

/-- A split is the one way to read a text as pieces. -/
theorem splitOn_eq_iff {x : UInt8} {s p : Bytes} {ps : List Bytes} :
    s.splitOn x = p :: ps
      ↔ (∀ l ∈ p :: ps, x ∉ l) ∧ [x].intercalate (p :: ps) = s := by
  constructor
  · intro h
    refine ⟨fun l hl => not_mem_of_mem_splitOn (h ▸ hl), ?_⟩
    rw [← h]
    exact List.intercalate_splitOn x
  · rintro ⟨hfree, rfl⟩
    exact List.splitOn_intercalate x hfree (List.cons_ne_nil _ _)

-- ======== names, positions

theorem isAllDigits_iff : isAllDigits d = true ↔ IsDigits d := by
  unfold isAllDigits IsDigits
  rw [Bool.and_eq_true, List.all_eq_true]
  simp only [ne_eq, decide_not, Bool.not_eq_true', decide_eq_false_iff_not,
    Bool.and_eq_true, decide_eq_true_eq]

/-- A number begins with a digit. -/
theorem IsDigits.head_range (h : IsDigits d) {c : UInt8}
    (hc : d.head? = some c) : 48 ≤ c ∧ c ≤ 57 :=
  h.2 c (List.mem_of_mem_head? hc)

theorem IsDigits.head_ne_quote (h : IsDigits d) :
    d.head? ≠ some quote := fun hc => absurd (h.head_range hc) (by decide)

theorem IsDigits.head_ne_hash (h : IsDigits d) :
    d.head? ≠ some hash := fun hc => absurd (h.head_range hc) (by decide)

/-- The names the parser takes. -/
theorem validateName_iff : validateName s = .ok () ↔ IsName s := by
  unfold validateName
  rw [check_ok, check_ok]
  constructor
  · rintro ⟨hlen, hany, -⟩
    rw [not_or, Nat.not_lt, Nat.not_lt] at hlen
    refine ⟨hlen.1, hlen.2, fun c hc => ?_⟩
    have := fun h => hany (List.any_eq_true.mpr ⟨c, hc, h⟩)
    simpa [not_or, and_assoc] using this
  · intro h
    refine ⟨?_, ?_, rfl⟩
    · rw [not_or, Nat.not_lt, Nat.not_lt]
      exact ⟨h.pos, h.le⟩
    · rw [List.any_eq_true]
      rintro ⟨c, hc, hbad⟩
      have := h.free c hc
      simp [this] at hbad

/-- A number is taken if it fits. -/
theorem parseUint_eq (hd : IsDigits d) (bits : Nat) :
    parseUint d bits
      = if decimal d < 2 ^ bits then some (decimal d) else none := by
  rw [parseUint, isAllDigits_iff.mpr hd, Bool.true_and]
  simp only [decide_eq_true_eq]

/-- The guards of a position are the canonical form. -/
theorem parseNameOrPos_hash {kind : SegKind} :
    parseNameOrPos kind (hash :: d) = .ok seg
      ↔ IsPosition d ∧ seg = .at kind (decimal d) := by
  unfold parseNameOrPos
  dsimp only
  rw [if_pos rfl, check_ok, check_ok, Bool.not_eq_true', Bool.not_eq_false,
    isAllDigits_iff, not_or, Nat.not_lt]
  constructor
  · rintro ⟨hd, ⟨hshort, hzero⟩, h⟩
    rw [parseUint_eq hd] at h
    split at h
    · cases h
    · next v hv =>
      obtain ⟨-, hv⟩ := Option.ite_none_right_eq_some.mp hv
      cases hv
      obtain ⟨hle, h⟩ := check_ok.mp h
      injection h with h
      refine ⟨⟨hd, hshort, fun h0 => ?_, Nat.le_of_not_lt hle⟩, h.symm⟩
      have := List.length_pos_of_ne_nil hd.1
      have : ¬ 1 < d.length := fun h1 => hzero ⟨h1, h0⟩
      omega
  · rintro ⟨hp, rfl⟩
    refine ⟨hp.digits, ⟨hp.short, fun h => ?_⟩, ?_⟩
    · exact absurd h.1 (by rw [hp.canonical h.2]; decide)
    · have hle : decimal d ≤ 65535 := hp.le
      rw [parseUint_eq hp.digits, if_pos (by omega)]
      exact if_neg (Nat.not_lt.mpr hle)

/-- The segments the parser takes for a name or a position. -/
theorem parseNameOrPos_iff {kind : SegKind} :
    parseNameOrPos kind s = .ok seg ↔ NameOrPos kind s seg := by
  cases s with
  | nil =>
    refine ⟨fun h => (by cases h), fun h => ?_⟩
    cases h with
    | name h => exact absurd h.pos (by decide)
  | cons c rest =>
    by_cases hc : c = hash
    · subst hc
      rw [parseNameOrPos_hash]
      constructor
      · rintro ⟨hp, rfl⟩
        exact .pos hp
      · intro h
        cases h with
        | name h => exact absurd rfl (h.free hash List.mem_cons_self).2.1
        | pos h => exact ⟨h, rfl⟩
    · unfold parseNameOrPos
      dsimp only
      rw [if_neg hc, bind_ok]
      constructor
      · rintro ⟨⟨⟩, hv, h⟩
        injection h with h
        exact h ▸ .name (validateName_iff.mp hv)
      · intro h
        cases h with
        | name h => exact ⟨(), validateName_iff.mpr h, rfl⟩
        | pos h => exact absurd rfl hc

-- ======== row keys

theorem unescape_plain {c : UInt8} (hq : c ≠ quote) (hb : c ≠ backslash)
    (t : Bytes) : unescape (c :: t) = (unescape t).map (c :: ·) := by
  rw [unescape.eq_def]
  dsimp only
  rw [if_neg hq, if_neg hb]

/-- Only a quote and a backslash can be escaped. -/
theorem unescape_escape (c : UInt8) (t : Bytes) :
    unescape (backslash :: c :: t)
      = if c = quote ∨ c = backslash then (unescape t).map (c :: ·)
        else none := by
  rw [unescape.eq_def]
  dsimp only
  rw [if_neg (by decide), if_pos rfl]
  by_cases hc : c = quote ∨ c = backslash
  · rw [if_pos hc, if_neg (fun h => hc.elim h.1 h.2)]
  · rw [if_neg hc, if_pos (not_or.mp hc)]

theorem unescape_sound (h : unescape t = some k) : Quoted t k := by
  induction t using unescape.induct generalizing k with
  | case1 =>
    injection h with h
    exact h ▸ .nil
  | case2 rest =>
    rw [unescape.eq_def] at h
    dsimp only at h
    rw [if_pos rfl] at h
    cases h
  | case3 hne =>
    rw [unescape.eq_def] at h
    dsimp only at h
    rw [if_neg hne, if_pos rfl] at h
    cases h
  | case4 next rest hbad _ =>
    rw [unescape_escape, if_neg (not_or.mpr hbad)] at h
    cases h
  | case5 next rest hgood _ ih =>
    have hc : next = quote ∨ next = backslash := by
      by_contra hc
      exact hgood (not_or.mp hc)
    rw [unescape_escape, if_pos hc] at h
    obtain ⟨k', hk, rfl⟩ := Option.map_eq_some_iff.mp h
    exact .escape hc (ih hk)
  | case6 c rest hq hb ih =>
    rw [unescape_plain hq hb] at h
    obtain ⟨k', hk, rfl⟩ := Option.map_eq_some_iff.mp h
    exact .plain hq hb (ih hk)

/-- Unescaping takes the quoted texts. -/
theorem unescape_iff : unescape t = some k ↔ Quoted t k := by
  refine ⟨unescape_sound, fun h => ?_⟩
  induction h with
  | nil => rfl
  | plain hq hb _ ih =>
    rw [unescape_plain hq hb, ih]
    rfl
  | escape hc _ ih =>
    rw [unescape_escape, if_pos hc, ih]
    rfl

/-- An escape is two bytes for one. -/
theorem Quoted.length_le (h : Quoted t k) : t.length ≤ 2 * k.length := by
  induction h with
  | nil => exact Nat.le_refl 0
  | plain _ _ _ ih =>
    rw [List.length_cons, List.length_cons]
    omega
  | escape _ _ ih =>
    rw [List.length_cons, List.length_cons, List.length_cons]
    omega

/-- Quoting neither adds nor hides a slash. -/
theorem Quoted.mem_iff (h : Quoted t k) : slash ∈ t ↔ slash ∈ k := by
  induction h with
  | nil => exact Iff.rfl
  | plain _ _ _ ih => rw [List.mem_cons, List.mem_cons, ih]
  | escape _ _ ih =>
    have hb : slash ≠ backslash := by decide
    rw [List.mem_cons, List.mem_cons, List.mem_cons, ih]
    exact or_iff_right hb

theorem unescapeQuoted_iff {s k : Bytes} :
    unescapeQuoted s = some k
      ↔ ∃ t, s = quote :: (t ++ [quote]) ∧ Quoted t k := by
  unfold unescapeQuoted
  rw [Option.ite_none_left_eq_some, not_or, not_or, Nat.not_lt,
    Decidable.not_not, Decidable.not_not, unescape_iff]
  constructor
  · rintro ⟨⟨hlen, hhead, hlast⟩, hq⟩
    refine ⟨s.tail.dropLast, ?_, hq⟩
    cases s with
    | nil => cases hhead
    | cons c rest =>
      cases hhead
      have hne : rest ≠ [] := by
        rintro rfl
        exact absurd hlen (by decide)
      rw [List.getLast?_cons_of_ne_nil hne] at hlast
      rw [List.tail_cons, List.dropLast_append_getLast? quote hlast]
  · rintro ⟨t, rfl, hq⟩
    refine ⟨⟨?_, rfl, ?_⟩, ?_⟩
    · rw [List.length_cons, List.length_append, List.length_singleton]
      omega
    · rw [← List.cons_append]
      exact List.getLast?_concat
    · rw [List.tail_cons, List.dropLast_concat]
      exact hq

/-- The row keys the parser takes. -/
theorem parseRowSeg_iff :
    parseRowSeg s = .ok seg ↔ RowKey s seg := by
  unfold parseRowSeg
  by_cases hq : s.head? = some quote
  · rw [if_pos hq, check_ok]
    constructor
    · rintro ⟨-, h⟩
      split at h
      · cases h
      · next key hkey =>
        obtain ⟨hlen, h⟩ := check_ok.mp h
        injection h with h
        obtain ⟨t, rfl, ht⟩ := unescapeQuoted_iff.mp hkey
        exact h ▸ .quoted ht (Nat.le_of_not_lt hlen)
    · intro h
      cases h with
      | decimal hd _ _ => exact absurd hq hd.head_ne_quote
      | quoted ht hlen =>
        have := ht.length_le
        refine ⟨?_, ?_⟩
        · rw [List.length_cons, List.length_append,
            List.length_singleton, operateMaxKeyLen]
          omega
        · rw [unescapeQuoted_iff.mpr ⟨_, rfl, ht⟩]
          exact if_neg (Nat.not_lt.mpr hlen)
  · rw [if_neg hq, check_ok, check_ok, check_ok, check_ok, Bool.not_eq_true',
      Bool.not_eq_false, isAllDigits_iff, Nat.not_lt]
    constructor
    · rintro ⟨-, hd, hlen, hfit, h⟩
      injection h with h
      refine h ▸ .decimal hd hlen ?_
      by_contra hbig
      exact hfit (by rw [parseUint_eq hd, if_neg hbig])
    · intro h
      cases h with
      | decimal hd hlen hfit =>
        refine ⟨hd.head_ne_hash, hd, hlen, ?_, rfl⟩
        rw [parseUint_eq hd, if_pos hfit]
        exact Option.some_ne_none _
      | quoted _ _ => exact absurd rfl hq

-- ======== what is in a text

section Texts

variable {kind : SegKind} {s r : Bytes} {seg : Segment}

theorem NameOrPos.ne_nil (h : NameOrPos kind s seg) : s ≠ [] := by
  cases h with
  | name h => exact List.ne_nil_of_length_pos h.pos
  | pos _ => exact List.cons_ne_nil _ _

theorem NameOrPos.length_le (h : NameOrPos kind s seg) : s.length ≤ 255 := by
  cases h with
  | name h => exact h.le
  | pos h =>
    have := h.short
    rw [List.length_cons]
    omega

/-- A segment has no slash in it. -/
theorem NameOrPos.slash_free (h : NameOrPos kind s seg) : slash ∉ s := by
  cases h with
  | name h => exact fun hs => (h.free slash hs).1 rfl
  | pos h =>
    intro hs
    rcases List.mem_cons.mp hs with hs | hs
    · exact absurd hs (by decide)
    · exact absurd (h.digits.2 slash hs) (by decide)

/-- The last letter of `#count` is neither of a name with a hash nor of a
position. -/
theorem NameOrPos.not_count (h : NameOrPos kind s seg) :
    ¬ countSuffix <:+ s := by
  intro hsuf
  cases h with
  | name h =>
    exact (h.free hash (hsuf.subset List.mem_cons_self)).2.1 rfl
  | pos h =>
    have ht : (116 : UInt8) ∈ countSuffix := by decide
    rcases List.mem_cons.mp (hsuf.subset ht) with ht | ht
    · exact absurd ht (by decide)
    · exact absurd (h.digits.2 _ ht) (by decide)

theorem NameOrPos.key_eq (h : NameOrPos kind s seg) : seg.key = [] := by
  cases h with
  | name _ | pos _ => rfl

theorem RowKey.ne_nil (h : RowKey r seg) : r ≠ [] := by
  cases h with
  | decimal h _ _ => exact h.1
  | quoted _ _ => exact List.cons_ne_nil _ _

theorem RowKey.length_le (h : RowKey r seg) : r.length ≤ 512 := by
  cases h with
  | decimal _ h _ => omega
  | quoted ht hk =>
    have := ht.length_le
    rw [List.length_cons, List.length_append, List.length_singleton]
    omega

/-- A slash of a row key is one of the bytes it denotes. -/
theorem RowKey.slash_mem_iff (h : RowKey r seg) :
    slash ∈ r ↔ slash ∈ seg.key := by
  cases h with
  | decimal h _ _ =>
    refine ⟨fun hs => absurd (h.2 slash hs) (by decide), fun hs => ?_⟩
    exact absurd hs List.not_mem_nil
  | quoted ht _ =>
    rw [List.mem_cons, List.mem_append, List.mem_singleton, ht.mem_iff]
    have hq : slash ≠ quote := by decide
    simp only [hq, or_false, false_or]

end Texts

variable {s : Bytes} {p : Path}

/-- The count of bytes that is checked first is above every path. -/
theorem Derives.length_le (h : Derives s p) :
    s.length ≤ maxPathBytes := by
  have hmax : maxPathBytes = 1024 := rfl
  have hsuf : countSuffix.length = 6 := rfl
  rw [hmax]
  cases h with
  | field hf =>
    have := hf.length_le
    omega
  | count hf =>
    have := hf.length_le
    rw [List.length_append]
    omega
  | row hf hk =>
    have := hf.length_le
    have := hk.length_le
    rw [List.length_append, List.length_cons]
    omega
  | col hf hk hc =>
    have := hf.length_le
    have := hk.length_le
    have := hc.length_le
    rw [List.length_append, List.length_cons, List.length_append,
      List.length_cons]
    omega

-- ======== paths

/-- A field, or its count where it stands alone. -/
theorem parseFieldSeg_iff {only : Bool} {seg : Segment} :
    parseFieldSeg s only = .ok seg ↔ NameOrPos .field s seg
        ∨ (only = true ∧ ∃ base, s = base ++ countSuffix
          ∧ NameOrPos .count base seg) := by
  unfold parseFieldSeg
  by_cases hsuf : countSuffix.isSuffixOf s = true
  · rw [if_pos hsuf]
    obtain ⟨base, rfl⟩ := List.isSuffixOf_iff_suffix.mp hsuf
    rw [List.length_append, Nat.add_sub_cancel, List.take_left, check_ok,
      check_ok, parseNameOrPos_iff]
    constructor
    · rintro ⟨-, honly, h⟩
      refine .inr ⟨?_, base, rfl, h⟩
      rwa [Bool.not_eq_true', Bool.not_eq_false] at honly
    · rintro (h | ⟨rfl, base', heq, h⟩)
      · exact absurd (List.suffix_append base countSuffix) h.not_count
      · rw [List.append_cancel_right heq]
        exact ⟨h.ne_nil, Bool.false_ne_true, h⟩
  · rw [if_neg hsuf, parseNameOrPos_iff]
    refine ⟨.inl, ?_⟩
    rintro (h | ⟨-, base, rfl, -⟩)
    · exact h
    · exact absurd (List.isSuffixOf_iff_suffix.mpr
        (List.suffix_append base countSuffix)) hsuf

theorem parseMore_one {r : Bytes} {more : List Segment} :
    parseMore [r] = .ok more ↔ ∃ k, RowKey r k ∧ more = [k] := by
  unfold parseMore
  rw [bind_ok]
  constructor
  · rintro ⟨k, hk, h⟩
    injection h with h
    exact ⟨k, parseRowSeg_iff.mp hk, h.symm⟩
  · rintro ⟨k, hk, rfl⟩
    exact ⟨k, parseRowSeg_iff.mpr hk, rfl⟩

theorem parseMore_two {r c : Bytes} {more : List Segment} :
    parseMore [r, c] = .ok more
      ↔ ∃ k g, RowKey r k ∧ NameOrPos .col c g ∧ more = [k, g] := by
  unfold parseMore
  rw [bind_ok]
  constructor
  · rintro ⟨k, hk, h⟩
    obtain ⟨cs, hcs, h⟩ := bind_ok.mp h
    injection h with h
    obtain ⟨g, hg, hcs⟩ := bind_ok.mp hcs
    injection hcs with hcs
    subst hcs h
    exact ⟨k, g, parseRowSeg_iff.mp hk, parseNameOrPos_iff.mp hg, rfl⟩
  · rintro ⟨k, g, hk, hg, rfl⟩
    have hg' : parseColSeg c = .ok g := parseNameOrPos_iff.mpr hg
    refine ⟨k, parseRowSeg_iff.mpr hk, ?_⟩
    rw [List.mapM_cons, hg']
    rfl

/-- A path is its segments between slashes. -/
theorem parsePath_split_iff {s part : Bytes} {parts : List Bytes}
    (hs : s.splitOn slash = part :: parts) :
    parsePath s = .ok p ↔ s ≠ [] ∧ s.length ≤ maxPathBytes ∧ parts.length ≤ 2
        ∧ (∀ l ∈ part :: parts, l ≠ [])
        ∧ ∃ f more, parseFieldSeg part parts.isEmpty = .ok f
          ∧ parseMore parts = .ok more ∧ p = ⟨f :: more⟩ := by
  unfold parsePath
  rw [check_ok, check_ok, hs]
  rw [check_ok, check_ok, bind_ok, Nat.not_lt, Nat.not_lt]
  simp only [List.any_eq_true, List.isEmpty_iff, not_exists, not_and]
  constructor
  · rintro ⟨hne, hlen, hparts, hfull, f, hf, h⟩
    obtain ⟨more, hm, h⟩ := bind_ok.mp h
    injection h with h
    exact ⟨hne, hlen, hparts, hfull, f, more, hf, hm, h.symm⟩
  · rintro ⟨hne, hlen, hparts, hfull, f, more, hf, hm, rfl⟩
    refine ⟨hne, hlen, hparts, hfull, f, hf, ?_⟩
    rw [hm]
    rfl

theorem intercalate_one (part : Bytes) :
    [slash].intercalate [part] = part := by
  simp [List.intercalate]

theorem intercalate_two (part r : Bytes) :
    [slash].intercalate [part, r] = part ++ slash :: r := by
  simp [List.intercalate]

theorem intercalate_three (part r c : Bytes) :
    [slash].intercalate [part, r, c]
      = part ++ slash :: (r ++ slash :: c) := by
  simp [List.intercalate]

/-- A field in front of other segments is no count. -/
theorem parseFieldSeg_front {seg : Segment}
    (h : parseFieldSeg s false = .ok seg) : NameOrPos .field s seg := by
  rcases parseFieldSeg_iff.mp h with h | ⟨h, -⟩
  · exact h
  · cases h

/-- A path that parses is derived, and its row key is without a
slash. -/
theorem parsePath_sound (h : parsePath s = .ok p) :
    Derives s p ∧ ∀ seg ∈ p.segs, slash ∉ seg.key := by
  have hkey : ∀ {kind : SegKind} {s : Bytes} {seg : Segment},
      NameOrPos kind s seg → slash ∉ seg.key := by
    intro kind s seg h
    rw [h.key_eq]
    exact List.not_mem_nil
  cases hs : s.splitOn slash with
  | nil => exact absurd hs (List.splitOnP_ne_nil _ s)
  | cons part parts =>
    obtain ⟨-, -, hparts, -, f, more, hf, hm, rfl⟩ :=
      (parsePath_split_iff hs).mp h
    obtain ⟨hfree, rfl⟩ := splitOn_eq_iff.mp hs
    cases parts with
    | nil =>
      cases hm
      rw [intercalate_one]
      rcases parseFieldSeg_iff.mp hf with hn | ⟨-, base, rfl, hn⟩
      · exact ⟨.field hn, List.forall_mem_singleton.mpr (hkey hn)⟩
      · exact ⟨.count hn, List.forall_mem_singleton.mpr (hkey hn)⟩
    | cons r rs =>
      have hn := parseFieldSeg_front hf
      have hr : slash ∉ r :=
        hfree r (List.mem_cons_of_mem _ List.mem_cons_self)
      cases rs with
      | nil =>
        obtain ⟨k, hk, rfl⟩ := parseMore_one.mp hm
        rw [intercalate_two]
        refine ⟨.row hn hk, List.forall_mem_cons.mpr ⟨hkey hn, ?_⟩⟩
        exact List.forall_mem_singleton.mpr (mt hk.slash_mem_iff.mpr hr)
      | cons c cs =>
        obtain rfl : cs = [] := by
          rw [List.length_cons, List.length_cons] at hparts
          exact List.eq_nil_of_length_eq_zero (by omega)
        obtain ⟨k, g, hk, hg, rfl⟩ := parseMore_two.mp hm
        rw [intercalate_three]
        refine ⟨.col hn hk hg, List.forall_mem_cons.mpr ⟨hkey hn,
          List.forall_mem_cons.mpr ⟨mt hk.slash_mem_iff.mpr hr, ?_⟩⟩⟩
        exact List.forall_mem_singleton.mpr (hkey hg)

/-- What is derived without a slash in its row key parses. -/
theorem parsePath_complete (h : Derives s p)
    (hfree : ∀ seg ∈ p.segs, slash ∉ seg.key) : parsePath s = .ok p := by
  have hlen := h.length_le
  cases h with
  | field hf =>
    have hs : s.splitOn slash = [s] := splitOn_eq_iff.mpr
      ⟨List.forall_mem_singleton.mpr hf.slash_free, intercalate_one s⟩
    exact (parsePath_split_iff hs).mpr ⟨hf.ne_nil, hlen, Nat.zero_le _,
      List.forall_mem_singleton.mpr hf.ne_nil, _, _,
      parseFieldSeg_iff.mpr (.inl hf), rfl, rfl⟩
  | @count base f hf =>
    have hne : base ++ countSuffix ≠ [] :=
      List.append_ne_nil_of_left_ne_nil hf.ne_nil _
    have hslash : slash ∉ base ++ countSuffix := by
      rw [List.mem_append, not_or]
      exact ⟨hf.slash_free, by decide⟩
    have hs := splitOn_eq_iff.mpr
      ⟨List.forall_mem_singleton.mpr hslash, intercalate_one _⟩
    exact (parsePath_split_iff hs).mpr ⟨hne, hlen, Nat.zero_le _,
      List.forall_mem_singleton.mpr hne, _, _,
      parseFieldSeg_iff.mpr (.inr ⟨rfl, base, rfl, hf⟩), rfl, rfl⟩
  | @row part r f k hf hk =>
    have hr : slash ∉ r := mt hk.slash_mem_iff.mp
      (hfree k (List.mem_cons_of_mem _ List.mem_cons_self))
    have hs := splitOn_eq_iff.mpr ⟨List.forall_mem_cons.mpr
      ⟨hf.slash_free, List.forall_mem_singleton.mpr hr⟩,
      intercalate_two part r⟩
    exact (parsePath_split_iff hs).mpr
      ⟨List.append_ne_nil_of_left_ne_nil hf.ne_nil _, hlen, Nat.le_succ 1,
        List.forall_mem_cons.mpr
          ⟨hf.ne_nil, List.forall_mem_singleton.mpr hk.ne_nil⟩, _, _,
        parseFieldSeg_iff.mpr (.inl hf), parseMore_one.mpr ⟨k, hk, rfl⟩,
        rfl⟩
  | @col part r c f k g hf hk hg =>
    have hr : slash ∉ r := mt hk.slash_mem_iff.mp
      (hfree k (List.mem_cons_of_mem _ List.mem_cons_self))
    have hs := splitOn_eq_iff.mpr ⟨List.forall_mem_cons.mpr
      ⟨hf.slash_free, List.forall_mem_cons.mpr
        ⟨hr, List.forall_mem_singleton.mpr hg.slash_free⟩⟩,
      intercalate_three part r c⟩
    exact (parsePath_split_iff hs).mpr
      ⟨List.append_ne_nil_of_left_ne_nil hf.ne_nil _, hlen, Nat.le_refl 2,
        List.forall_mem_cons.mpr ⟨hf.ne_nil, List.forall_mem_cons.mpr
          ⟨hk.ne_nil, List.forall_mem_singleton.mpr hg.ne_nil⟩⟩, _, _,
        parseFieldSeg_iff.mpr (.inl hf),
        parseMore_two.mpr ⟨k, g, hk, hg, rfl⟩, rfl⟩

/-- `ParsePath` decides the grammar, up to slashes in row keys: it
accepts the derivable texts whose row key denotes no slash, it returns
what they denote, and no derivable text is too long for it. -/
theorem parsePath_decides (s : Bytes) :
    (∀ p, parsePath s = .ok p
      ↔ Derives s p ∧ ∀ seg ∈ p.segs, slash ∉ seg.key)
      ∧ ∀ p, Derives s p → s.length ≤ maxPathBytes :=
  ⟨fun _ => ⟨parsePath_sound, fun h => parsePath_complete h.1 h.2⟩,
    fun _ h => h.length_le⟩

/-- `a/"/"` is derived, and is split at the slash between its quotes. -/
theorem quoted_slash_refused :
    let s : Bytes := [97, slash, quote, slash, quote]
    (∃ p, Derives s p) ∧ ∀ p, parsePath s ≠ .ok p := by
  refine ⟨⟨_, .row (s := [97]) (r := [quote, slash, quote])
    (.name ⟨by decide, by decide, List.forall_mem_singleton.mpr (by decide)⟩)
    (.quoted (t := [slash]) (.plain (by decide) (by decide) .nil)
      (by decide))⟩, ?_⟩
  intro p h
  have hs : List.splitOn slash [97, slash, quote, slash, quote]
      = [[97], [quote], [quote]] := by decide
  obtain ⟨-, -, -, -, f, more, -, hm, -⟩ := (parsePath_split_iff hs).mp h
  have hbad : parseMore [[quote], [quote]]
      = .error (.malformedQuotedKey [quote]) := by decide
  rw [hbad] at hm
  cases hm

end Rostam.Record
