/-
The codec of the operate call and its result.

A call comes back from its frame without what its paths do not address:
a path is written as far as its kind reads, a segment by its position or
its name (`addressed`). Each part of the call has its round trip
(`Reads`), from the segments up.

What was in the buffer a frame is decoded into does not matter: both
lists read as fresh ones do (`readInto_view`), so the decode of a buffer
is that of a new call (`decodeOperateArgsN_view`), and behind the lists
there is nothing of an earlier call.
-/
import Rostam.Wire.Operate

namespace Rostam.Wire

open Rostam.Lib

variable {s : Bytes} {α : Type}

-- ======== what is written

/-- A segment has a position or a name. -/
def OperateSeg.addressed (s : OperateSeg) : OperateSeg :=
  if s.byName then ⟨true, 0, s.name⟩ else ⟨false, s.pos, []⟩

/-- A path has what its kind reads. -/
def OperatePath.addressed (p : OperatePath) : OperatePath where
  kind := p.kind
  field := if p.kind = operatePathRecord then default else p.field.addressed
  key := if p.kind = operatePathRow ∨ p.kind = operatePathCol then p.key
    else []
  col := if p.kind = operatePathCol then p.col.addressed else default

def OperateOp.addressed (op : OperateOp) : OperateOp :=
  { op with path := op.path.addressed }

def OperateRet.addressed (ret : OperateRet) : OperateRet :=
  { ret with path := ret.path.addressed }

def OperateArgs.addressed (a : OperateArgs) : OperateArgs :=
  { a with
    ops := a.ops.map OperateOp.addressed
    rets := a.rets.map OperateRet.addressed }

/-- A name within its cap, if the segment has one. -/
def OperateSeg.Fits (s : OperateSeg) : Prop :=
  s.byName = true → s.name.length ≤ operateMaxNameLen

structure OperatePath.Fits (p : OperatePath) : Prop where
  kind : p.kind ≤ operatePathCol
  field : p.kind ≠ operatePathRecord → p.field.Fits
  key : p.kind = operatePathRow ∨ p.kind = operatePathCol →
    p.key.length ≠ 0 ∧ p.key.length ≤ operateMaxKeyLen
  col : p.kind = operatePathCol → p.col.Fits

structure OperateOp.Fits (op : OperateOp) : Prop where
  path : op.path.Fits
  bytes : op.bytes.length ≤ operateMaxBytesLen

structure OperateRet.Fits (ret : OperateRet) : Prop where
  mode : ret.mode ≤ operateRetCount
  path : ret.path.Fits

/-- A call within the caps, with modes and a ttl that have an
encoding. -/
structure OperateArgs.Fits (a : OperateArgs) : Prop where
  key : a.key.length ≤ 0xFFFF
  schema : a.schema.length ≤ operateMaxSchemaBytes
  nOps : a.ops.length ≤ operateMaxOps
  nRets : a.rets.length ≤ operateMaxRet
  ttlMode : a.ttlMode ≤ operateTTLCreateOnly
  create : a.create ≤ operateCreateDynamic
  ttl : 0 ≤ a.ttl.toInt
  ops : ∀ op ∈ a.ops, op.Fits
  rets : ∀ ret ∈ a.rets, ret.Fits

-- ======== segments

theorem toNat_length (h : s.length ≤ 255) :
    (UInt8.ofNat s.length).toNat = s.length :=
  UInt8.toNat_ofNat_of_lt' (Nat.lt_succ_of_le h)

/-- A length byte and what it counts. -/
theorem readBytes_length (h : s.length ≤ 255) (rest : Bytes) :
    readBytes ArgsErr.shortArgs (UInt8.ofNat s.length).toNat (s ++ rest)
      = .ok (s, rest) :=
  readBytes_ok.mpr ⟨(toNat_length h).symm, rfl⟩

/-- A segment reads back as it is addressed. -/
theorem OperateSeg.Fits.reads {s : OperateSeg} (h : s.Fits) :
    Reads decodeSeg appendSeg OperateSeg.addressed 0 s := by
  obtain ⟨byName, pos, name⟩ := s
  cases byName with
  | true =>
    have hlen : name.length ≤ 255 := h rfl
    refine ⟨1 :: UInt8.ofNat name.length :: name, ?_, Nat.zero_le _,
      fun rest => ?_⟩
    · exact check_ok.mpr ⟨Nat.not_lt.mpr hlen, rfl⟩
    · exact bind_ok.mpr ⟨_, readByte_ok.mpr rfl,
        bind_ok.mpr ⟨_, readBytes_length hlen rest, rfl⟩⟩
  | false =>
    refine ⟨0 :: appendUvarint pos.toNat, rfl, Nat.zero_le _,
      fun rest => ?_⟩
    have hpos : pos.toNat < 2 ^ 32 := pos.toNat_lt
    unfold decodeSeg
    rw [List.cons_append]
    dsimp only
    rw [if_pos rfl, uvarint_append (Nat.lt_trans hpos (by decide))]
    dsimp only
    rw [if_neg (Nat.not_le.mpr hpos), UInt32.ofNat_toNat]
    rfl

-- ======== paths

theorem kind_cases {k : UInt8} (h : k ≤ operatePathCol) :
    k = operatePathRecord ∨ k = operatePathField ∨ k = operatePathRow
      ∨ k = operatePathCol := by
  have hk : k.toNat ≤ 3 := UInt8.le_iff_toNat_le.mp h
  have hall : ∀ n, n ≤ 3 → UInt8.ofNat n = operatePathRecord
      ∨ UInt8.ofNat n = operatePathField ∨ UInt8.ofNat n = operatePathRow
      ∨ UInt8.ofNat n = operatePathCol := by decide
  have hk := hall k.toNat hk
  rw [UInt8.ofNat_toNat] at hk
  exact hk

theorem field_ne_record : operatePathField ≠ operatePathRecord := by decide
theorem row_ne_record : operatePathRow ≠ operatePathRecord := by decide
theorem col_ne_record : operatePathCol ≠ operatePathRecord := by decide

/-- A length byte of zero counts nothing. -/
theorem ofNat_length_ne_zero (hne : s.length ≠ 0)
    (hle : s.length ≤ 255) : UInt8.ofNat s.length ≠ 0 := by
  intro h
  have := congrArg UInt8.toNat h
  rw [toNat_length hle] at this
  exact hne this

/-- A path reads back as it is addressed. -/
theorem OperatePath.Fits.reads {p : OperatePath} (h : p.Fits) :
    Reads decodePath appendPath OperatePath.addressed 1 p := by
  obtain ⟨kind, field, key, col⟩ := p
  rcases kind_cases h.kind with rfl | rfl | rfl | rfl
  · exact ⟨[operatePathRecord], rfl, Nat.le_refl 1, fun rest => rfl⟩
  · obtain ⟨f, hf, -, hread⟩ := (h.field field_ne_record).reads
    refine ⟨operatePathField :: f, ?_, Nat.succ_le_succ (Nat.zero_le _),
      fun rest => ?_⟩
    · exact bind_ok.mpr ⟨f, hf, rfl⟩
    · exact bind_ok.mpr ⟨_, hread rest, rfl⟩
  · obtain ⟨f, hf, -, hread⟩ := (h.field row_ne_record).reads
    obtain ⟨hne, hle⟩ := h.key (.inl rfl)
    refine ⟨operatePathRow :: (f ++ UInt8.ofNat key.length :: key), ?_,
      Nat.succ_le_succ (Nat.zero_le _), fun rest => ?_⟩
    · exact bind_ok.mpr ⟨f, hf, check_ok.mpr ⟨hne,
        check_ok.mpr ⟨Nat.not_lt.mpr hle, rfl⟩⟩⟩
    · rw [List.cons_append, List.append_assoc, List.cons_append]
      exact bind_ok.mpr ⟨_, hread _, bind_ok.mpr ⟨_, readByte_ok.mpr rfl,
        bind_ok.mpr ⟨_, readBytes_length hle rest,
          check_ok.mpr ⟨ofNat_length_ne_zero hne hle, rfl⟩⟩⟩⟩
  · obtain ⟨f, hf, -, hread⟩ := (h.field col_ne_record).reads
    obtain ⟨c, hc, -, hreadc⟩ := (h.col rfl).reads
    obtain ⟨hne, hle⟩ := h.key (.inr rfl)
    refine ⟨operatePathCol :: (f ++ (UInt8.ofNat key.length :: key ++ c)),
      ?_, Nat.succ_le_succ (Nat.zero_le _), fun rest => ?_⟩
    · exact bind_ok.mpr ⟨f, hf, check_ok.mpr ⟨hne,
        check_ok.mpr ⟨Nat.not_lt.mpr hle, bind_ok.mpr ⟨c, hc, rfl⟩⟩⟩⟩
    · rw [List.cons_append, List.append_assoc, List.cons_append,
        List.cons_append, List.append_assoc]
      exact bind_ok.mpr ⟨_, hread _, bind_ok.mpr ⟨_, readByte_ok.mpr rfl,
        bind_ok.mpr ⟨_, readBytes_length hle _,
          check_ok.mpr ⟨ofNat_length_ne_zero hne hle,
            bind_ok.mpr ⟨_, hreadc rest, rfl⟩⟩⟩⟩⟩

-- ======== ops and returns

theorem readUint_append {w n : Nat} (h : n < 256 ^ w) (rest : Bytes) :
    readUint ArgsErr.shortArgs w (beEncode w n ++ rest) = .ok (n, rest) :=
  (readUint_exact _ w _ _ _).mpr ⟨h, rfl⟩

/-- An operation reads back as it is addressed. -/
theorem OperateOp.Fits.reads {op : OperateOp} (h : op.Fits) :
    Reads decodeOp appendOp OperateOp.addressed minOpBytes op := by
  obtain ⟨opcode, type, aux, path, x, y, bytes⟩ := op
  obtain ⟨p, hp, hlen, hread⟩ := h.path.reads
  have hb : bytes.length < 256 ^ 2 := Nat.lt_succ_of_le h.bytes
  refine ⟨opcode :: type :: aux :: (p ++ (beEncode 8 x.toNat
    ++ (beEncode 8 y.toNat ++ (beEncode 2 bytes.length ++ bytes)))),
    ?_, ?_, fun rest => ?_⟩
  · exact check_ok.mpr ⟨Nat.not_lt.mpr h.bytes, bind_ok.mpr ⟨p, hp, rfl⟩⟩
  · simp only [List.length_cons, List.length_append, beEncode_length,
      minOpBytes]
    omega
  · simp only [List.cons_append, List.append_assoc]
    simp only [decodeOp, bind_ok, Prod.exists, (readUint_exact _ _).ok,
      readBytes_ok]
    refine ⟨_, _, hread _, _, _, ⟨x.isLt, rfl⟩, _, _, ⟨y.isLt, rfl⟩, _, _,
      ⟨hb, rfl⟩, _, _, ⟨rfl, rfl⟩, ?_⟩
    rw [BitVec.ofNat_toNat, BitVec.ofNat_toNat, BitVec.setWidth_eq,
      BitVec.setWidth_eq]
    rfl

theorem OperateRet.Fits.reads {ret : OperateRet} (h : ret.Fits) :
    Reads decodeRet appendRet OperateRet.addressed minRetBytes ret := by
  obtain ⟨p, hp, hlen, hread⟩ := h.path.reads
  refine ⟨ret.mode :: p, ?_, Nat.succ_le_succ hlen, fun rest => ?_⟩
  · exact check_ok.mpr ⟨UInt8.not_lt.mpr h.mode, bind_ok.mpr ⟨p, hp, rfl⟩⟩
  · exact check_ok.mpr ⟨UInt8.not_lt.mpr h.mode,
      bind_ok.mpr ⟨_, hread rest, rfl⟩⟩

-- ======== head

/-- Whole milliseconds come back as they were. -/
theorem ttlFromMs_whole {ttl : BitVec 64} (hpos : 0 ≤ ttl.toInt)
    (hms : (millisecond : Int) ∣ ttl.toInt) :
    (ttl.toInt / millisecond).toNat < 256 ^ 8
      ∧ ttlFromMs (ttl.toInt / millisecond).toNat = .ok ttl := by
  have hlt := BitVec.toInt_lt (x := ttl)
  obtain ⟨k, hk⟩ := hms
  unfold millisecond at hk ⊢
  have hdiv : ttl.toInt / (1000000 : Nat) = k := by omega
  rw [hdiv]
  refine ⟨by omega, check_ok.mpr ⟨?_, ?_⟩⟩
  · unfold maxTTLMs millisecond
    omega
  · have hnat := BitVec.toInt_eq_toNat_cond ttl
    have : ttl.toNat = k.toNat * 1000000 := by
      split at hnat <;> omega
    unfold millisecond
    rw [← this, BitVec.ofNat_toNat, BitVec.setWidth_eq]

/-- The head reads back where its TTL is whole milliseconds. -/
theorem decodeHead_encode {a : OperateArgs} (h : a.Fits)
    (hms : (millisecond : Int) ∣ a.ttl.toInt) (rest : Bytes) :
    decodeHead (a.toOperateHead.encode ++ rest)
      = .ok (a.toOperateHead, rest) := by
  obtain ⟨hlt, httl⟩ := ttlFromMs_whole h.ttl hms
  have hschema : a.schema.length < 256 ^ 2 :=
    Nat.lt_of_le_of_lt h.schema (by decide)
  simp only [OperateHead.encode, decodeHead, List.cons_append,
    List.append_assoc, bind_ok, Prod.exists, check_ok, readByte_ok,
    readBytes_ok, (readUint_exact _ _).ok]
  refine ⟨_, _, ⟨Nat.lt_succ_of_le h.key, rfl⟩, _, _, ⟨rfl, rfl⟩, ?_, _, _,
    ⟨hlt, rfl⟩, _, httl, _, _, rfl, _, _, rfl, UInt8.not_lt.mpr h.ttlMode,
    UInt8.not_lt.mpr h.create, _, _, ⟨hschema, rfl⟩, _, _, ⟨rfl, rfl⟩, rfl⟩
  simp only [List.length_cons, List.length_append, beEncode_length]
  omega

-- ======== lists

/-- A counted list as a fresh one is read. -/
def decodeFresh {α : Type} (most least : Nat) (p : Reader ArgsErr α) :
    Reader ArgsErr (List α) := fun b => do
  let (n, b) ← readUint .shortArgs 2 b
  if most < n then .error .operateCap
  else if !countFitsIn n b.length least then .error .shortArgs
  else readMany p n b

/-- What the buffer held before does not show. -/
theorem decodeList_view [Inhabited α] (most least : Nat)
    (p : Reader ArgsErr α) (dst : Slice α) (b : Bytes) :
    (decodeList most least p dst b).map (fun r => (r.1.view, r.2))
      = decodeFresh most least p b := by
  unfold decodeList decodeFresh
  cases readUint ArgsErr.shortArgs 2 b with
  | error e => rfl
  | ok r =>
    show Except.map _ (if most < r.1 then _ else _)
      = if most < r.1 then _ else _
    split
    · rfl
    · split
      · rfl
      · exact readInto_view p r.1 dst r.2

theorem decodeList_tidy [Inhabited α] {most least : Nat}
    {p : Reader ArgsErr α} {dst t : Slice α} {b rest : Bytes}
    (hdst : dst.Tidy) (h : decodeList most least p dst b = .ok (t, rest)) :
    t.Tidy := by
  obtain ⟨⟨n, b'⟩, -, h⟩ := bind_ok.mp h
  obtain ⟨-, h⟩ := check_ok.mp h
  obtain ⟨-, h⟩ := check_ok.mp h
  exact readInto_tidy hdst h

theorem countFitsIn_of_mul_le {n remaining least : Nat} (hleast : 1 ≤ least)
    (h : n * least ≤ remaining) : countFitsIn n remaining least = true := by
  have hdiv : n ≤ remaining / least := (Nat.le_div_iff_mul_le hleast).mpr h
  unfold countFitsIn
  rw [decide_eq_true hleast, decide_eq_true hdiv]
  rfl

/-- A list within its cap is written and read back, the count and all. -/
theorem decodeFresh_append {p : Reader ArgsErr α}
    {f : α → Except ArgsErr Bytes} {c : α → α} {most least : Nat}
    {xs : List α} (h : ∀ x ∈ xs, Reads p f c least x)
    (hleast : 1 ≤ least) (hlen : xs.length ≤ most) (hmost : most < 65536) :
    ∃ w, writeMany f xs = .ok w ∧ ∀ rest,
      decodeFresh most least p (beEncode 2 xs.length ++ (w ++ rest))
        = .ok (xs.map c, rest) := by
  obtain ⟨w, hw, hbytes, hread⟩ := Reads.many h
  refine ⟨w, hw, fun rest => ?_⟩
  refine bind_ok.mpr ⟨_, readUint_append (Nat.lt_of_le_of_lt hlen hmost) _,
    check_ok.mpr ⟨Nat.not_lt.mpr hlen, check_ok.mpr ⟨?_, hread rest⟩⟩⟩
  have hfit : xs.length * least ≤ (w ++ rest).length := by
    rw [List.length_append]
    omega
  rw [countFitsIn_of_mul_le hleast hfit]
  decide

-- ======== calls

/-- A call as it is decoded from a frame, with nothing before it. -/
def decodeNew : Reader ArgsErr OperateArgs := fun b => do
  let (head, b) ← decodeHead b
  let (ops, b) ← decodeFresh operateMaxOps minOpBytes decodeOp b
  let (rets, b) ← decodeFresh operateMaxRet minRetBytes decodeRet b
  .ok (⟨head, ops, rets⟩, b)

/-- What is decoded into a buffer does not depend on the buffer. -/
theorem decodeOperateArgsN_view (dst : OperateArgsBuf) (b : Bytes) :
    (decodeOperateArgsN dst b).map (fun r => (r.1.view, r.2))
      = decodeNew b := by
  unfold decodeOperateArgsN decodeNew
  cases decodeHead b with
  | error e => rfl
  | ok h =>
    dsimp only [bind, Except.bind]
    rw [← decodeList_view operateMaxOps minOpBytes decodeOp dst.ops h.2]
    cases decodeList operateMaxOps minOpBytes decodeOp dst.ops h.2 with
    | error e => rfl
    | ok o =>
      dsimp only [Except.map]
      rw [← decodeList_view operateMaxRet minRetBytes decodeRet dst.rets o.2]
      cases decodeList operateMaxRet minRetBytes decodeRet dst.rets o.2 with
      | error e => rfl
      | ok r => rfl

/-- Nothing of an earlier call behind either list. -/
structure OperateArgsBuf.Tidy (d : OperateArgsBuf) : Prop where
  ops : d.ops.Tidy
  rets : d.rets.Tidy

theorem cleared_tidy [Inhabited α] (s : Slice α) :
    (s.truncate.clear 0 s.cap).Tidy := by
  intro i _ x hx
  obtain ⟨y, hy, rfl⟩ := (List.getElem?_mapIdx ..).symm.trans hx
    |> Option.map_eq_some_iff.mp
  have hi : i < s.cap := List.getElem?_eq_some_iff.mp hy |>.1
  exact if_pos ⟨Nat.zero_le i, hi⟩

/-- A decode leaves a tidy buffer. -/
theorem decodeOperateArgsN_tidy {dst d : OperateArgsBuf} {b rest : Bytes}
    (hdst : dst.Tidy) (h : decodeOperateArgsN dst b = .ok (d, rest)) :
    d.Tidy := by
  obtain ⟨⟨head, b₁⟩, -, h⟩ := bind_ok.mp h
  obtain ⟨⟨ops, b₂⟩, hops, h⟩ := bind_ok.mp h
  obtain ⟨⟨rets, b₃⟩, hrets, h⟩ := bind_ok.mp h
  obtain ⟨rfl, -⟩ := ok_pair.mp h
  exact ⟨decodeList_tidy hdst.ops hops, decodeList_tidy hdst.rets hrets⟩

/-- The error of a decode, whatever was in the buffer. -/
theorem decodeOperateArgsInto_eq (dst : OperateArgsBuf) (b : Bytes) :
    ((decodeOperateArgsInto dst b).1.view, (decodeOperateArgsInto dst b).2)
      = match decodeNew b with
        | .error e => (default, some e)
        | .ok (a, []) => (a, none)
        | .ok (_, _ :: _) => (default, some .operateArgs) := by
  rw [← decodeOperateArgsN_view dst b]
  unfold decodeOperateArgsInto
  cases decodeOperateArgsN dst b with
  | error e => rfl
  | ok r =>
    obtain ⟨d, rest⟩ := r
    cases rest with
    | nil => rfl
    | cons x rest => rfl

/-- A fresh decode, read off any buffer. -/
theorem decodeOperateArgs_eq (dst : OperateArgsBuf) (b : Bytes) :
    decodeOperateArgs b = match decodeOperateArgsInto dst b with
      | (d, none) => .ok d.view
      | (_, some e) => .error e := by
  have h := (decodeOperateArgsInto_eq .new b).trans
    (decodeOperateArgsInto_eq dst b).symm
  unfold decodeOperateArgs
  generalize decodeOperateArgsInto dst b = x at h ⊢
  generalize decodeOperateArgsInto .new b = y at h ⊢
  obtain ⟨d, e⟩ := x
  obtain ⟨d', e'⟩ := y
  obtain ⟨hview, rfl⟩ := Prod.mk.inj h
  cases e' with
  | none => exact congrArg Except.ok hview
  | some e => rfl

/-- A decode leaves nothing of an earlier call, whether it fails or not. -/
theorem decodeOperateArgsInto_tidy {dst : OperateArgsBuf} (h : dst.Tidy)
    (b : Bytes) : (decodeOperateArgsInto dst b).1.Tidy := by
  unfold decodeOperateArgsInto
  cases hd : decodeOperateArgsN dst b with
  | error e => exact ⟨cleared_tidy _, cleared_tidy _⟩
  | ok r =>
    obtain ⟨d, rest⟩ := r
    cases rest with
    | nil => exact decodeOperateArgsN_tidy h hd
    | cons x rest => exact ⟨cleared_tidy _, cleared_tidy _⟩

/-- Encoded arguments decode to what they address. -/
theorem decodeNew_append {a : OperateArgs} (h : a.Fits)
    (hms : (millisecond : Int) ∣ a.ttl.toInt) :
    ∃ w, appendOperateArgs a = .ok w
      ∧ decodeNew w = .ok (a.addressed, []) := by
  obtain ⟨ops, hops, hreads⟩ := decodeFresh_append
    (fun op hop => (h.ops op hop).reads) (by decide) h.nOps (by decide)
  obtain ⟨rets, hrets, hreadr⟩ := decodeFresh_append
    (fun ret hret => (h.rets ret hret).reads) (by decide) h.nRets
    (by decide)
  refine ⟨a.toOperateHead.encode ++ (beEncode 2 a.ops.length
    ++ (ops ++ (beEncode 2 a.rets.length ++ rets))), ?_, ?_⟩
  · simp only [appendOperateArgs, check_ok, bind_ok, not_lt, UInt8.not_lt]
    exact ⟨h.key, h.schema, h.nOps, h.nRets, h.ttlMode, h.create, h.ttl, ops,
      hops, rets, hrets, rfl⟩
  · refine bind_ok.mpr ⟨_, decodeHead_encode h hms _, ?_⟩
    refine bind_ok.mpr ⟨_, hreads _, ?_⟩
    have hlast := hreadr []
    rw [List.append_nil] at hlast
    exact bind_ok.mpr ⟨_, hlast, rfl⟩

-- ======== results

/-- A result within the caps; a value has a 32-bit length. -/
structure OperateResult.Fits (r : OperateResult) : Prop where
  status : r.status = operateStatusOK ∨ r.status = operateStatusCheckFailed
  nRet : r.values.length ≤ operateMaxRet
  values : ∀ v ∈ r.values, v.length < 256 ^ 4

/-- A result has a failed op only after a failed check. -/
def OperateResult.written (r : OperateResult) : OperateResult :=
  { r with
    failedOp := if r.status = operateStatusCheckFailed then r.failedOp
      else 0 }

theorem decodeValue_exact : Exact decodeValue
    (fun v => beEncode 4 v.length ++ v) (·.length < 256 ^ 4) := by
  intro b v rest
  simp only [decodeValue, bind_ok, Prod.exists, (readUint_exact _ _).ok,
    readBytes_ok, List.append_assoc]
  constructor
  · rintro ⟨_, _, ⟨hlt, rfl⟩, rfl, rfl⟩
    exact ⟨hlt, rfl⟩
  · rintro ⟨hlt, rfl⟩
    exact ⟨_, _, ⟨hlt, rfl⟩, rfl, rfl⟩

theorem decodeFailedOp_exact (status : UInt8) : Exact (decodeFailedOp status)
      (fun n => if status = operateStatusCheckFailed
        then beEncode 2 n.toNat else [])
      (fun n => status ≠ operateStatusCheckFailed → n = 0) := by
  intro b n rest
  unfold decodeFailedOp
  dsimp only
  by_cases hs : status = operateStatusCheckFailed
  · simp only [if_pos hs, bind_ok, Prod.exists, (readUint_exact _ _).ok,
      ok_pair]
    constructor
    · rintro ⟨m, _, ⟨hlt, rfl⟩, rfl, rfl⟩
      refine ⟨fun h => absurd hs h, ?_⟩
      rw [UInt16.toNat_ofNat_of_lt' hlt]
    · rintro ⟨-, rfl⟩
      exact ⟨_, _, ⟨n.toNat_lt, rfl⟩, UInt16.ofNat_toNat, rfl⟩
  · rw [if_neg hs, if_neg hs, ok_pair]
    constructor
    · rintro ⟨rfl, rfl⟩
      exact ⟨fun _ => rfl, rfl⟩
    · rintro ⟨hn, rfl⟩
      exact ⟨(hn hs).symm, rfl⟩

/-- What a result keeps when it is written. -/
theorem written_eq_iff (r : OperateResult) :
    r.written = r
    ↔ (r.status ≠ operateStatusCheckFailed → r.failedOp = 0) := by
  obtain ⟨status, failedOp, values⟩ := r
  unfold OperateResult.written
  rw [OperateResult.mk.injEq]
  by_cases hs : status = operateStatusCheckFailed
  · rw [if_pos hs]
    exact ⟨fun _ h => absurd hs h, fun _ => ⟨rfl, rfl, rfl⟩⟩
  · rw [if_neg hs]
    exact ⟨fun h _ => h.2.1.symm, fun h => ⟨rfl, (h hs).symm, rfl⟩⟩

theorem written_frame (r : OperateResult) : r.written.frame = r.frame := by
  unfold OperateResult.frame OperateResult.written
  split <;> rfl

theorem written_written (r : OperateResult) :
    r.written.written = r.written := by
  refine (written_eq_iff r.written).mpr fun hs => ?_
  exact if_neg hs

theorem OperateResult.Fits.append {r : OperateResult} (h : r.Fits)
    (dst : Bytes) : appendOperateResult dst r = .ok (dst ++ r.frame) :=
  check_ok.mpr ⟨Nat.not_lt.mpr h.nRet,
    check_ok.mpr ⟨fun hs => h.status.elim hs.1 hs.2, rfl⟩⟩

/-- Four bytes at least for each value. -/
theorem values_fit (vs : List Bytes) (rest : Bytes) :
    countFitsIn vs.length
      ((vs.flatMap fun v => beEncode 4 v.length ++ v) ++ rest).length 4
      = true := by
  have hlen : vs.length * 4
      ≤ (vs.flatMap fun v => beEncode 4 v.length ++ v).length := by
    induction vs with
    | nil => exact Nat.le_refl 0
    | cons v vs ih =>
      rw [List.flatMap_cons, List.length_cons, List.length_append,
        List.length_append, beEncode_length]
      omega
  apply countFitsIn_of_mul_le (by decide)
  rw [List.length_append]
  omega

/-- The results that are decoded are those that are written, and nothing
is lost. -/
theorem decodeOperateResultN_exact : Exact decodeOperateResultN
    OperateResult.frame fun r => r.Fits ∧ r.written = r := by
  rintro b r rest
  have hstatus : ∀ s : UInt8, ¬ (s ≠ operateStatusOK
      ∧ s ≠ operateStatusCheckFailed)
        ↔ s = operateStatusOK ∨ s = operateStatusCheckFailed := by
    intro s
    rw [not_and_or, not_not, not_not]
  cases b with
  | nil => exact ⟨fun h => (by cases h), fun h => (by cases h.2)⟩
  | cons status b =>
    simp only [decodeOperateResultN, check_ok, hstatus, bind_ok, Prod.exists,
      (decodeFailedOp_exact _).ok, (readUint_exact _ _).ok, ok_pair,
      readMany_ok decodeValue_exact, Nat.not_lt, OperateResult.frame,
      List.cons_append, List.append_assoc]
    constructor
    · rintro ⟨hs, failedOp, _, ⟨hzero, rfl⟩, _, _, ⟨-, rfl⟩, hmax, -, vs, _,
        ⟨rfl, hlen, rfl⟩, rfl, rfl⟩
      exact ⟨⟨⟨hs, hmax, hlen⟩, (written_eq_iff _).mpr hzero⟩, rfl⟩
    · rintro ⟨⟨hfits, hw⟩, hb⟩
      cases hb
      refine ⟨hfits.status, _, _, ⟨(written_eq_iff r).mp hw, rfl⟩, _, _,
        ⟨Nat.lt_of_le_of_lt hfits.nRet (by decide), rfl⟩, hfits.nRet, ?_, _, _,
        ⟨rfl, hfits.values, rfl⟩, rfl, rfl⟩
      rw [values_fit]
      decide

/-- The results that decode are those that were written. -/
theorem decodeOperateResult_iff (b : Bytes) (r : OperateResult) :
    decodeOperateResult b = .ok r
      ↔ (r.Fits ∧ r.written = r) ∧ b = r.frame := by
  have hN := decodeOperateResultN_exact b r []
  rw [List.append_nil] at hN
  rw [← hN]
  simp only [decodeOperateResult, bind_ok, Prod.exists, check_ok, not_not,
    Except.ok.injEq]
  constructor
  · rintro ⟨_, _, hr, rfl, rfl⟩
    exact hr
  · intro h
    exact ⟨_, _, h, rfl, rfl⟩

/-- A call within the caps comes back from its frame as what its paths
address, into any buffer; a buffer decodes as a new call does, error and
all, and keeps nothing of an earlier call; results come back, without a
failed op unless a check failed, and one that was decoded is encoded as
it was. -/
theorem operate_codec :
    (∀ a : OperateArgs, a.Fits → (millisecond : Int) ∣ a.ttl.toInt →
      ∃ w, appendOperateArgs a = .ok w ∧ ∀ dst,
        (decodeOperateArgsInto dst w).2 = none
          ∧ (decodeOperateArgsInto dst w).1.view = a.addressed)
    ∧ (∀ (dst : OperateArgsBuf) (b : Bytes), (∀ a, decodeOperateArgs b = .ok a
        ↔ (decodeOperateArgsInto dst b).2 = none
          ∧ (decodeOperateArgsInto dst b).1.view = a)
      ∧ (∀ e, decodeOperateArgs b = .error e
        ↔ (decodeOperateArgsInto dst b).2 = some e)
      ∧ (dst.Tidy → (decodeOperateArgsInto dst b).1.Tidy))
    ∧ (∀ (dst : Bytes) (r : OperateResult), r.Fits →
      ∃ w, appendOperateResult dst r = .ok (dst ++ w)
        ∧ decodeOperateResult w = .ok r.written)
    ∧ ∀ (b : Bytes) (r : OperateResult), decodeOperateResult b = .ok r →
      appendOperateResult [] r = .ok b := by
  refine ⟨fun a h hms => ?_, fun dst b => ⟨fun a => ?_, fun e => ?_, ?_⟩,
    fun dst r h => ?_, fun b r h => ?_⟩
  · obtain ⟨w, hw, hdec⟩ := decodeNew_append h hms
    refine ⟨w, hw, fun dst => ?_⟩
    have heq := decodeOperateArgsInto_eq dst w
    rw [hdec] at heq
    exact ⟨congrArg Prod.snd heq, congrArg Prod.fst heq⟩
  · rw [decodeOperateArgs_eq dst b]
    obtain ⟨d, e⟩ := decodeOperateArgsInto dst b
    cases e with
    | none =>
      exact ⟨fun h => ⟨rfl, Except.ok.inj h⟩,
        fun h => congrArg Except.ok h.2⟩
    | some e => exact ⟨fun h => (by cases h), fun h => (by cases h.1)⟩
  · rw [decodeOperateArgs_eq dst b]
    obtain ⟨d, e'⟩ := decodeOperateArgsInto dst b
    cases e' with
    | none => exact ⟨fun h => (by cases h), fun h => (by cases h)⟩
    | some e' =>
      exact ⟨fun h => congrArg some (Except.error.inj h),
        fun h => congrArg Except.error (Option.some.inj h)⟩
  · exact fun h => decodeOperateArgsInto_tidy h b
  · refine ⟨r.frame, h.append dst, ?_⟩
    exact (decodeOperateResult_iff _ _).mpr
      ⟨⟨⟨h.status, h.nRet, h.values⟩, written_written r⟩,
        (written_frame r).symm⟩
  · obtain ⟨⟨hfits, -⟩, rfl⟩ := (decodeOperateResult_iff b r).mp h
    exact hfits.append []

/-- The field of a record path, and the failed op of a result without a
failed check, are not written. -/
theorem unaddressed_dropped :
    let field : OperateSeg := ⟨false, 7, []⟩
    let a : OperateArgs := ⟨⟨[], 0, 0, 0, []⟩, [],
      [⟨0, 0, field, [], default⟩]⟩
    let r : OperateResult := ⟨operateStatusOK, 3, []⟩
    (a.Fits ∧ ∃ w, appendOperateArgs a = .ok w ∧ decodeOperateArgs w ≠ .ok a)
      ∧ r.Fits ∧ ∃ w, appendOperateResult [] r = .ok w
        ∧ decodeOperateResult w ≠ .ok r := by
  refine ⟨⟨⟨by decide, by decide, by decide, by decide, by decide,
    by decide, by decide, fun op h => absurd h List.not_mem_nil, ?_⟩,
    _, rfl, by decide⟩, ⟨.inl rfl, by decide,
    fun v h => absurd h List.not_mem_nil⟩, _, rfl, by decide⟩
  refine List.forall_mem_singleton.mpr ⟨by decide, by decide, ?_, ?_, ?_⟩
  · exact fun h => absurd rfl h
  · decide
  · exact fun h => absurd h (by decide)

end Rostam.Wire
