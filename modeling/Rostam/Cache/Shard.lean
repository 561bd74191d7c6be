/-
One persistent cache shard: append-only pages and an index over them.

A write appends a frame (a put, or the delete record of a key) with the
next write sequence and points the key's index slot at it; the copies it
supersedes stay framed where they are. The index lives in memory. At
open it is rebuilt from the frames: for every key hash the frame with
the highest sequence wins, wherever it lies, and a slot won by a delete
record is dropped.

# What is modelled how

A page is the list of frames between its head and tail. Every path that
moves a head (the drain of an evicted page) runs until the page is empty
and resets it to offset 0 before the shard lock is released, so at rest
a page is framed from its start and a frame's offset is given by its
position in the list. The generation in a slab reference serves readers
that run without the lock; here every operation is a step under it, and
a reference is a page and a position. Sequences are unbounded (the
source has 56 bits for them). Frames are intact: no corruption, and the
frame check accepts exactly what was written.

What the configuration and the environment decide — clocks, whether a
sweep gets to a slot, whether cold compaction runs, which live records a
relocating eviction takes along — comes in with the step.
-/
import Rostam.Lib.Bytes

namespace Rostam.Cache

open Rostam.Lib

abbrev Key := Bytes

-- ======== frames

/-- A framed entry. A delete record is a frame with the tombstone flag
and an empty value. `exp` is in ms since the epoch, 0 for none. -/
structure Frame where
  key : Key
  val : Bytes
  exp : Nat
  seq : Nat
  tomb : Bool
  deriving DecidableEq, Repr

def entryHeaderSize : Nat := 30
def maxKeyLen : Nat := 2 ^ 16 - 1
def maxValueLen : Nat := 2 ^ 32 - 1
def pageHdrSize : Nat := 16

/-- The bytes an entry takes on its page. -/
def entrySpan (keyLen valLen : Nat) : Nat := entryHeaderSize + keyLen + valLen

def Frame.size (f : Frame) : Nat := entrySpan f.key.length f.val.length

/-- isExpired: non-zero and not after the clock. -/
def isExpired (exp now : Nat) : Bool := exp != 0 && decide (exp ≤ now)

/-- expiryAtFrom. -/
def expiryAtFrom (ttl now : Nat) : Nat :=
  if ttl = 0 then 0 else now + ttl

structure Page where
  frames : List Frame
  retired : Bool
  deriving DecidableEq, Repr

namespace Page

def empty : Page := ⟨[], false⟩

def tail (p : Page) : Nat := (p.frames.map Frame.size).sum

def isEmpty (p : Page) : Bool := p.frames.isEmpty

end Page

/-- A slab reference: the page, and the position of the frame on it. -/
structure Ref where
  page : Nat
  pos : Nat
  deriving DecidableEq, Repr

-- ======== shard

inductive Policy where
  | rejectWrites
  | ringbufEvict
  deriving DecidableEq, Repr

/-- What the write and the rebuild paths read of the configuration. -/
structure Config where
  hashKey : Key → Nat
  pageSize : Nat
  numPages : Nat
  policy : Policy
  replicated : Bool
  relocatingEviction : Bool

/-- The room an empty page has for entries. -/
def Config.maxEntryBytes (cfg : Config) : Nat := cfg.pageSize - pageHdrSize

/-- FreeTail. -/
def Config.freeTail (cfg : Config) (p : Page) : Nat :=
  cfg.maxEntryBytes - p.tail

/-- A shard. `tab` is the index, by key hash; `flushedThroughSeq` is the
durable floor of the last flush; `hdrStamp` is the logical clock as it
was last persisted in the file header. -/
structure Shard where
  pages : List Page
  tab : Nat → Option Ref
  writeIdx : Nat
  writeSeq : Nat
  nextVictim : Nat
  flushedThroughSeq : Nat
  lastAppliedStampMs : Nat
  hdrStamp : Nat

inductive Err where
  | entryTooLarge
  | keyTooLong
  | full
  | cannotEvict
  deriving DecidableEq, Repr

namespace Shard

/-- The frame a reference points at. -/
def frameAt (s : Shard) (r : Ref) : Option Frame :=
  (s.pages[r.page]?).bind fun p => p.frames[r.pos]?

/-- A page's frames with their references, front to back. -/
def pageWalk (i : Nat) (p : Page) : List (Ref × Frame) :=
  p.frames.zipIdx.map fun x => (⟨i, x.2⟩, x.1)

/-- Every frame with its reference, in page order. -/
def walk (pages : List Page) : List (Ref × Frame) :=
  pages.zipIdx.flatMap fun x => pageWalk x.2 x.1

/-- Point hash `h` at `r`. -/
def upsert (s : Shard) (h : Nat) (r : Ref) : Shard :=
  { s with tab := Function.update s.tab h (some r) }

/-- Drop hash `h`'s slot. -/
def tombstone (s : Shard) (h : Nat) : Shard :=
  { s with tab := Function.update s.tab h none }

/-- Append a frame to page `i`. -/
def append (s : Shard) (i : Nat) (f : Frame) : Shard :=
  { s with
    pages := s.pages.modify i fun p => { p with frames := p.frames ++ [f] } }

/-- Where the next frame of page `i` goes. -/
def tailRef (s : Shard) (i : Nat) : Ref :=
  ⟨i, ((s.pages[i]?).map fun p => p.frames.length).getD 0⟩

/-- advanceAppliedStamp: the logical clock only moves forward. -/
def advanceStamp (s : Shard) (stamp : Nat) : Shard :=
  { s with lastAppliedStampMs := max s.lastAppliedStampMs stamp }

-- ======== page choice

/-- firstPageWithRoomLocked. -/
def firstPageWithRoom (cfg : Config) (s : Shard) (need : Nat) : Option Nat :=
  s.pages.findIdx? fun p => !p.retired && decide (need ≤ cfg.freeTail p)

/-- nextNonEmptyPageLocked: the first page with frames from the rotation
cursor on, wrapping, other than `skip`. -/
def nextNonEmptyPage (s : Shard) (skip : Option Nat) : Option Nat :=
  ((List.range s.pages.length).map
    fun off => (s.nextVictim + off) % s.pages.length).find? fun i =>
      decide (some i ≠ skip) &&
        ((s.pages[i]?).map fun p => !p.isEmpty).getD false

/-- The drain's walk over a page: every slot that still points at the
copy under the cursor goes. -/
def drainSlots (cfg : Config) (tab : Nat → Option Ref) :
    List (Ref × Frame) → (Nat → Option Ref)
  | [] => tab
  | (r, f) :: rest =>
    let h := cfg.hashKey f.key
    drainSlots cfg
      (if tab h = some r then Function.update tab h none else tab) rest

/-- drainPageLocked: empty a page in place. -/
def drainPage (cfg : Config) (s : Shard) (victim : Nat) : Shard :=
  match s.pages[victim]? with
  | none => s
  | some p =>
    { s with
      tab := drainSlots cfg s.tab (pageWalk victim p)
      pages := s.pages.set victim { p with frames := [] } }

/-- What a relocating eviction reads: the clock, and which live records
the reference hint rescues (all of them where it is off). -/
structure EvictEnv where
  now : Nat
  rescue : Frame → Bool

/-- Copy a live frame to page `dst` under a fresh sequence and repoint
its slot: the append a put makes, with the tombstone flag clear. -/
def moveFrame (cfg : Config) (s : Shard) (dst : Nat) (f : Frame) :
    Shard :=
  let r := s.tailRef dst
  let s := s.append dst { f with seq := s.writeSeq + 1, tomb := false }
  ({ s with writeSeq := s.writeSeq + 1 } : Shard).upsert (cfg.hashKey f.key) r

/-- The walk of relocateIntoFreedPageLocked: a record that is current,
not expired and rescued moves while the budget lasts. -/
def rescueFrames (cfg : Config) (env : EvictEnv) (dst budget : Nat) :
    Shard → Nat → List (Ref × Frame) → Shard
  | s, _, [] => s
  | s, spent, (r, f) :: rest =>
    if budget - spent < entryHeaderSize then s
    else if s.tab (cfg.hashKey f.key) ≠ some r then
      rescueFrames cfg env dst budget s spent rest
    else if isExpired f.exp env.now || !env.rescue f then
      rescueFrames cfg env dst budget s spent rest
    else if budget < spent + f.size then
      rescueFrames cfg env dst budget s spent rest
    else
      rescueFrames cfg env dst budget (s.moveFrame cfg dst f)
        (spent + f.size) rest

/-- relocateIntoFreedPageLocked: fill what the triggering write leaves
of the freed page with the live records of the next victim. -/
def relocateIntoFreedPage (cfg : Config) (env : EvictEnv) (s : Shard)
    (freed need : Nat) : Shard :=
  match s.pages[freed]?, s.nextNonEmptyPage (some freed) with
  | some dst, some src =>
    let budget := min (cfg.freeTail dst - need) (cfg.pageSize / 2)
    match s.pages[src]? with
    | some p => rescueFrames cfg env freed budget s 0 (pageWalk src p)
    | none => s
  | _, _ => s

/-- evictVictimLocked on a persistent shard. -/
def evictVictim (cfg : Config) (env : EvictEnv) (s : Shard)
    (victim need : Nat) : Shard :=
  let s := s.drainPage cfg victim
  if cfg.relocatingEviction then
    s.relocateIntoFreedPage cfg env victim need
  else s

/-- evictUntilFitsLocked. A drained page has room for any entry that
fits a page at all, so the loop goes round at most twice. -/
def evictUntilFits (cfg : Config) (env : EvictEnv) (need : Nat) :
    Nat → Shard → Except Err (Shard × Nat)
  | 0, _ => .error .cannotEvict
  | fuel + 1, s =>
    match s.firstPageWithRoom cfg need with
    | some i => .ok (s, i)
    | none =>
      match s.nextNonEmptyPage none with
      | none => .error .cannotEvict
      | some victim =>
        let s := { s with
          nextVictim := (victim + 1) % s.pages.length }
        evictUntilFits cfg env need fuel (s.evictVictim cfg env victim need)

/-- findOrMakePageLocked on a persistent shard: the open page, any page
with room, or what the policy says. -/
def findOrMakePage (cfg : Config) (env : EvictEnv) (s : Shard)
    (need : Nat) : Except Err (Shard × Nat) :=
  if cfg.maxEntryBytes < need then .error .entryTooLarge
  else if ((s.pages[s.writeIdx]?).map
      fun p => decide (need ≤ cfg.freeTail p)).getD false then
    .ok (s, s.writeIdx)
  else
    match s.firstPageWithRoom cfg need with
    | some i => .ok ({ s with writeIdx := i }, i)
    | none =>
      match cfg.policy with
      | .ringbufEvict =>
        match s.evictUntilFits cfg env need 2 with
        | .ok (s, i) => .ok ({ s with writeIdx := i }, i)
        | .error e => .error e
      | .rejectWrites => .error .full

-- ======== writes

/-- putAtExpLocked on a persistent shard. -/
def putAtExp (cfg : Config) (env : EvictEnv) (s : Shard) (key : Key)
    (val : Bytes) (exp : Nat) : Shard × Option Err :=
  match s.findOrMakePage cfg env (entrySpan key.length val.length) with
  | .error e => (s, some e)
  | .ok (s, i) =>
    let s := { s with writeSeq := s.writeSeq + 1 }
    if maxKeyLen < key.length ∨ maxValueLen < val.length then
      (s, some .keyTooLong)
    else
      let r := s.tailRef i
      ((s.append i ⟨key, val, exp, s.writeSeq, false⟩).upsert
        (cfg.hashKey key) r, none)

/-- The key's slot, if it holds this very key. -/
def findKey (cfg : Config) (s : Shard) (key : Key) : Option Frame :=
  (s.tab (cfg.hashKey key)).bind fun r =>
    (s.frameAt r).filter fun f => decide (f.key = key)

/-- delH: a present key's delete is a record of its own, and its slot
goes (if eviction for the record did not take it already). -/
def del (cfg : Config) (env : EvictEnv) (s : Shard) (key : Key) :
    Shard × Except Err Bool :=
  match s.findKey cfg key with
  | none => (s, .ok false)
  | some _ =>
    match s.findOrMakePage cfg env (entrySpan key.length 0) with
    | .error e => (s, .error e)
    | .ok (s, i) =>
      let s := { s with writeSeq := s.writeSeq + 1 }
      if maxKeyLen < key.length then (s, .error .keyTooLong)
      else
        let s := s.append i ⟨key, [], 0, s.writeSeq, true⟩
        match s.findKey cfg key with
        | none => (s, .ok true)
        | some _ => (s.tombstone (cfg.hashKey key), .ok true)

-- ======== reads

/-- What a read at clock `now` returns. -/
def resolve (cfg : Config) (s : Shard) (key : Key) (now : Nat) :
    Option (Bytes × Nat) :=
  (s.findKey cfg key).bind fun f =>
    if isExpired f.exp now then none else some (f.val, f.exp)

/-- getCore: with `allowPhysicalRemove`, an entry expired at the clock
loses its slot. -/
def get (cfg : Config) (s : Shard) (key : Key) (now : Nat)
    (allowPhysicalRemove : Bool) : Shard :=
  match s.findKey cfg key with
  | some f =>
    if isExpired f.exp now && allowPhysicalRemove then
      s.tombstone (cfg.hashKey key)
    else s
  | none => s

/-- sweepIndex at `now`, over the slots it gets to. -/
def sweepIndex (s : Shard) (now : Nat) (reached : Nat → Bool) : Shard :=
  { s with
    tab := fun h => (s.tab h).filter fun r =>
      !(reached h && ((s.frameAt r).map
        fun f => isExpired f.exp now).getD true) }

/-- shard.flush: the floor is recorded, the index emptied. -/
def flush (s : Shard) : Shard :=
  { s with flushedThroughSeq := s.writeSeq, tab := fun _ => none }

end Shard

end Rostam.Cache
