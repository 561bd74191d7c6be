/-
The operate call and its result on the wire (sdk/wire/operate.go).

The encoders append to a buffer; here each returns what it appends. A
decoder takes what is left of the frame and returns what is behind what
it consumed. `DecodeOperateArgsInto` decodes into a call that was used
before: `OperateArgsBuf` is such a call, its op and return lists slices
with the arrays of the earlier uses. A failed decode may have overwritten
part of these arrays; the whole of them is cleared then, so what was
written does not matter.

Nil and empty byte strings are the same here. Buffer capacities beyond
those of the two lists are left out, and with them the reuse of the
encoders' buffers.
-/
import Rostam.Lib.Slice
import Rostam.Wire.Schema

namespace Rostam.Wire

open Rostam.Lib

-- ======== constants

def operateMaxOps : Nat := 4096
def operateMaxRet : Nat := 4096

/-- `OperateTTLCreateOnly`, the last of the ttl modes. -/
def operateTTLCreateOnly : UInt8 := 2

/-- `OperateCreateDynamic`, the last of the create modes. -/
def operateCreateDynamic : UInt8 := 2

/-- `OperateRetCount`, the last of the return modes. -/
def operateRetCount : UInt8 := 1

def operateStatusOK : UInt8 := 0
def operateStatusCheckFailed : UInt8 := 1

def operatePathRecord : UInt8 := 0
def operatePathField : UInt8 := 1
def operatePathRow : UInt8 := 2
def operatePathCol : UInt8 := 3

/-- Nanoseconds in a millisecond. -/
def millisecond : Nat := 1000000

/-- `maxTTLMs`: a duration is an int64 of nanoseconds. -/
def maxTTLMs : Nat := (2 ^ 63 - 1) / millisecond

def minOpBytes : Nat := 22
def minRetBytes : Nat := 2

/-- The errors of the call codec. -/
inductive ArgsErr where
  | shortArgs
  | operateArgs
  | operateCap
  | ttlOutOfRange
  deriving DecidableEq, Repr

-- ======== calls

/-- `OperateSeg`. -/
structure OperateSeg where
  byName : Bool
  pos : UInt32
  name : Bytes
  deriving DecidableEq, Repr, Inhabited

/-- `OperatePath`. -/
structure OperatePath where
  kind : UInt8
  field : OperateSeg
  key : Bytes
  col : OperateSeg
  deriving DecidableEq, Repr, Inhabited

/-- `OperateOp`; the operands are int64. -/
structure OperateOp where
  opcode : UInt8
  type : UInt8
  aux : UInt8
  path : OperatePath
  a : BitVec 64
  b : BitVec 64
  bytes : Bytes
  deriving DecidableEq, Repr, Inhabited

/-- `OperateRet`. -/
structure OperateRet where
  mode : UInt8
  path : OperatePath
  deriving DecidableEq, Repr, Inhabited

/-- What a call has before its lists. -/
structure OperateHead where
  key : Bytes
  ttl : BitVec 64
  ttlMode : UInt8
  create : UInt8
  schema : Bytes
  deriving DecidableEq, Repr, Inhabited

/-- `OperateArgs`; the ttl is an int64 of nanoseconds. -/
structure OperateArgs extends OperateHead where
  ops : List OperateOp
  rets : List OperateRet
  deriving DecidableEq, Repr, Inhabited

/-- `OperateResult`. -/
structure OperateResult where
  status : UInt8
  failedOp : UInt16
  values : List Bytes
  deriving DecidableEq, Repr

-- ======== encoding

/-- `appendSeg`. -/
def appendSeg (seg : OperateSeg) : Except ArgsErr Bytes :=
  if seg.byName then
    if operateMaxNameLen < seg.name.length then .error .operateCap
    else .ok (1 :: UInt8.ofNat seg.name.length :: seg.name)
  else .ok (0 :: appendUvarint seg.pos.toNat)

/-- `appendPath`. -/
def appendPath (p : OperatePath) : Except ArgsErr Bytes :=
  if operatePathCol < p.kind then .error .operateArgs
  else if p.kind = operatePathRecord then .ok [p.kind]
  else do
    let field ← appendSeg p.field
    if p.kind = operatePathField then .ok (p.kind :: field)
    else if p.key.length = 0 then .error .operateArgs
    else if operateMaxKeyLen < p.key.length then .error .operateCap
    else
      let key := UInt8.ofNat p.key.length :: p.key
      if p.kind = operatePathRow then .ok (p.kind :: (field ++ key))
      else do
        let col ← appendSeg p.col
        .ok (p.kind :: (field ++ (key ++ col)))

/-- `appendOp`. -/
def appendOp (op : OperateOp) : Except ArgsErr Bytes :=
  if operateMaxBytesLen < op.bytes.length then .error .operateCap
  else do
    let path ← appendPath op.path
    .ok (op.opcode :: op.type :: op.aux :: (path
      ++ (beEncode 8 op.a.toNat ++ (beEncode 8 op.b.toNat
        ++ (beEncode 2 op.bytes.length ++ op.bytes)))))

/-- `appendRet`. -/
def appendRet (ret : OperateRet) : Except ArgsErr Bytes :=
  if operateRetCount < ret.mode then .error .operateArgs
  else do
    let path ← appendPath ret.path
    .ok (ret.mode :: path)

/-- What `AppendOperateArgs` writes in front of the lists. -/
def OperateHead.encode (h : OperateHead) : Bytes :=
  beEncode 2 h.key.length ++ (h.key
    ++ (beEncode 8 (h.ttl.toInt / millisecond).toNat ++ (h.ttlMode :: h.create
        :: (beEncode 2 h.schema.length ++ h.schema))))

/-- `AppendOperateArgs`, into a buffer that is cut to nothing first. -/
def appendOperateArgs (a : OperateArgs) : Except ArgsErr Bytes :=
  if 0xFFFF < a.key.length then .error .operateCap
  else if operateMaxSchemaBytes < a.schema.length then .error .operateCap
  else if operateMaxOps < a.ops.length then .error .operateCap
  else if operateMaxRet < a.rets.length then .error .operateCap
  else if operateTTLCreateOnly < a.ttlMode then .error .operateArgs
  else if operateCreateDynamic < a.create then .error .operateArgs
  else if a.ttl.toInt < 0 then .error .operateArgs
  else do
    let ops ← writeMany appendOp a.ops
    let rets ← writeMany appendRet a.rets
    .ok (a.toOperateHead.encode ++ (beEncode 2 a.ops.length
      ++ (ops ++ (beEncode 2 a.rets.length ++ rets))))

-- ======== decoding

/-- `decodeSeg`. -/
def decodeSeg : Reader ArgsErr OperateSeg
  | [] => .error .shortArgs
  | kind :: b =>
    if kind = 0 then
      match uvarint b with
      | none => .error .shortArgs
      | some (v, b) =>
        if 2 ^ 32 ≤ v then .error .operateArgs
        else .ok (⟨false, UInt32.ofNat v, []⟩, b)
    else if kind = 1 then do
      let (nlen, b) ← readByte .shortArgs b
      let (name, b) ← readBytes .shortArgs nlen.toNat b
      .ok (⟨true, 0, name⟩, b)
    else .error .operateArgs

/-- `decodePath`. -/
def decodePath : Reader ArgsErr OperatePath
  | [] => .error .shortArgs
  | kind :: b =>
    if operatePathCol < kind then .error .operateArgs
    else if kind = operatePathRecord then
      .ok ({ (default : OperatePath) with kind }, b)
    else do
      let (field, b) ← decodeSeg b
      if kind = operatePathField then
        .ok ({ (default : OperatePath) with kind, field }, b)
      else do
        let (klen, b) ← readByte .shortArgs b
        let (key, b) ← readBytes .shortArgs klen.toNat b
        if klen = 0 then .error .operateArgs
        else if kind = operatePathRow then
          .ok ({ (default : OperatePath) with kind, field, key }, b)
        else do
          let (col, b) ← decodeSeg b
          .ok (⟨kind, field, key, col⟩, b)

/-- `decodeOp`. -/
def decodeOp : Reader ArgsErr OperateOp
  | opcode :: type :: aux :: b => do
    let (path, b) ← decodePath b
    let (x, b) ← readUint .shortArgs 8 b
    let (y, b) ← readUint .shortArgs 8 b
    let (blen, b) ← readUint .shortArgs 2 b
    let (bytes, b) ← readBytes .shortArgs blen b
    .ok (⟨opcode, type, aux, path, BitVec.ofNat 64 x, BitVec.ofNat 64 y,
      bytes⟩, b)
  | _ => .error .shortArgs

/-- `decodeRet`. -/
def decodeRet : Reader ArgsErr OperateRet
  | [] => .error .shortArgs
  | mode :: b =>
    if operateRetCount < mode then .error .operateArgs
    else do
      let (path, b) ← decodePath b
      .ok (⟨mode, path⟩, b)

/-- `ttlFromMs`. -/
def ttlFromMs (ms : Nat) : Except ArgsErr (BitVec 64) :=
  if maxTTLMs < ms then .error .ttlOutOfRange
  else .ok (BitVec.ofNat 64 (ms * millisecond))

/-- The front of `decodeOperateArgsN`. That the ttl, the modes and the
length of the schema are all there is checked before any of them is. -/
def decodeHead : Reader ArgsErr OperateHead := fun b => do
  let (klen, b) ← readUint .shortArgs 2 b
  let (key, b) ← readBytes .shortArgs klen b
  if b.length < 12 then .error .shortArgs
  else do
    let (ms, b) ← readUint .shortArgs 8 b
    let ttl ← ttlFromMs ms
    let (ttlMode, b) ← readByte .shortArgs b
    let (create, b) ← readByte .shortArgs b
    if operateTTLCreateOnly < ttlMode then .error .operateArgs
    else if operateCreateDynamic < create then .error .operateArgs
    else do
      let (schemaLen, b) ← readUint .shortArgs 2 b
      let (schema, b) ← readBytes .shortArgs schemaLen b
      .ok (⟨key, ttl, ttlMode, create, schema⟩, b)

/-- One counted list of `decodeOperateArgsN`: the count against its cap
and against the bytes left, then the elements, into `dst`. -/
def decodeList {α : Type} [Inhabited α] (most least : Nat)
    (p : Reader ArgsErr α) (dst : Slice α) : Reader ArgsErr (Slice α) :=
  fun b => do
    let (n, b) ← readUint .shortArgs 2 b
    if most < n then .error .operateCap
    else if !countFitsIn n b.length least then .error .shortArgs
    else readInto p n dst b

/-- A call whose lists are reused. -/
structure OperateArgsBuf extends OperateHead where
  ops : Slice OperateOp
  rets : Slice OperateRet

/-- `new(OperateArgs)`. -/
def OperateArgsBuf.new : OperateArgsBuf := ⟨default, .none, .none⟩

/-- The call in a buffer. -/
def OperateArgsBuf.view (d : OperateArgsBuf) : OperateArgs :=
  ⟨d.toOperateHead, d.ops.view, d.rets.view⟩

/-- An empty call, with the arrays of `d` cleared up to their
capacity. -/
def OperateArgsBuf.cleared (d : OperateArgsBuf) : OperateArgsBuf :=
  ⟨default, d.ops.truncate.clear 0 d.ops.cap,
    d.rets.truncate.clear 0 d.rets.cap⟩

/-- `decodeOperateArgsN`. -/
def decodeOperateArgsN (dst : OperateArgsBuf) :
    Reader ArgsErr OperateArgsBuf := fun b => do
  let (head, b) ← decodeHead b
  let (ops, b) ← decodeList operateMaxOps minOpBytes decodeOp dst.ops b
  let (rets, b) ← decodeList operateMaxRet minRetBytes decodeRet dst.rets b
  .ok (⟨head, ops, rets⟩, b)

/-- `DecodeOperateArgsInto`: what is in `dst` afterwards, and the error. -/
def decodeOperateArgsInto (dst : OperateArgsBuf) (b : Bytes) :
    OperateArgsBuf × Option ArgsErr :=
  match decodeOperateArgsN dst b with
  | .error e => (dst.cleared, some e)
  | .ok (d, []) => (d, none)
  | .ok (d, _ :: _) => (d.cleared, some .operateArgs)

/-- `DecodeOperateArgs`. -/
def decodeOperateArgs (b : Bytes) : Except ArgsErr OperateArgs :=
  match decodeOperateArgsInto .new b with
  | (d, none) => .ok d.view
  | (_, some e) => .error e

-- ======== results

/-- The frame of a result. -/
def OperateResult.frame (r : OperateResult) : Bytes :=
  r.status :: ((if r.status = operateStatusCheckFailed
      then beEncode 2 r.failedOp.toNat else [])
    ++ (beEncode 2 r.values.length
      ++ r.values.flatMap fun v => beEncode 4 v.length ++ v))

/-- `AppendOperateResult`, behind what is in `dst`. -/
def appendOperateResult (dst : Bytes) (r : OperateResult) :
    Except ArgsErr Bytes :=
  if operateMaxRet < r.values.length then .error .operateCap
  else if r.status ≠ operateStatusOK ∧ r.status ≠ operateStatusCheckFailed
  then .error .operateArgs
  else .ok (dst ++ r.frame)

/-- One value of a result. -/
def decodeValue : Reader ArgsErr Bytes := fun b => do
  let (vlen, b) ← readUint .shortArgs 4 b
  readBytes .shortArgs vlen b

/-- The failed op, which is there only after a failed check. -/
def decodeFailedOp (status : UInt8) : Reader ArgsErr UInt16 := fun b =>
  if status = operateStatusCheckFailed then do
    let (n, b) ← readUint .shortArgs 2 b
    .ok (UInt16.ofNat n, b)
  else .ok (0, b)

/-- `decodeOperateResultN`. -/
def decodeOperateResultN : Reader ArgsErr OperateResult
  | [] => .error .shortArgs
  | status :: b =>
    if status ≠ operateStatusOK ∧ status ≠ operateStatusCheckFailed then
      .error .operateArgs
    else do
      let (failedOp, b) ← decodeFailedOp status b
      let (nRet, b) ← readUint .shortArgs 2 b
      if operateMaxRet < nRet then .error .operateCap
      else if !countFitsIn nRet b.length 4 then .error .shortArgs
      else do
        let (values, b) ← readMany decodeValue nRet b
        .ok (⟨status, failedOp, values⟩, b)

/-- `DecodeOperateResult`. -/
def decodeOperateResult (b : Bytes) : Except ArgsErr OperateResult := do
  let (r, b) ← decodeOperateResultN b
  if b ≠ [] then .error .operateArgs else .ok r

end Rostam.Wire
