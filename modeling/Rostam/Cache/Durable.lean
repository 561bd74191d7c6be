/-
A persistent shard over a file that can crash: what the mapping holds,
what of it is on disk, and what an open makes of the disk.

# The file

The file is a header of 128 bytes and the pages behind it; a page starts
with 16 bytes of its own header (bounds and nonce) and holds its frames
behind them. It is mapped, so every store is in the mapping at once, and
on disk only when the OS page it lies on is written back: at any moment
(`writeback`), and at the latest when an msync over it returns. The disk
is kept as the image of the mapping at each OS page's last write-back;
of that image only the bytes of the OS page itself count.

A page's nonce changes when its extent is recycled, and the frame check
takes the nonce and the offset, so a frame is accepted only if it was
written at that offset in the life the page's header names: a life is a
number here, and stands for the page generation as well, which changes
with it. A frame that lies on several OS pages is accepted if all of them
have it. Page headers and the file header are taken to lie on one OS page
each (the page size is a multiple of 16).

# The steps

Recycling a page stores its new header and msyncs it under the shard
lock; nothing else is stored before the msync returns, and a write-back
of any other OS page in that window writes what it would have written
before it, so the two are one step. The two watermark calls are several
steps each. SetAppliedIndex holds the shard lock from its first line to
its last; SetPBFrontier takes it to snapshot the bounds, to project them
and to stamp, and not while it waits for its msyncs. A failed msync ends
either (`abort`). One call is in progress at a time.

# Ghosts

`hist` lists the writes and deletes in the order they were made; a mark
carries how many there were when its call began. `base` is the shard as
it was when the last call that got past its bounds msync began, less the
pages recycled since: what has to be on disk.
-/
import Rostam.Cache.Step

namespace Rostam.Cache

open Rostam.Lib Function

-- ======== layout

def osPageSize : Nat := 4096
def headerSize : Nat := 128

/-- Where page `i` starts in the file. -/
def Config.pageStart (cfg : Config) (i : Nat) : Nat :=
  headerSize + i * cfg.pageSize

/-- The OS page of page `i`'s header. -/
def Config.headerOs (cfg : Config) (i : Nat) : Nat :=
  cfg.pageStart i / osPageSize

/-- The OS page of the byte at offset `off` of page `i`'s entries. -/
def Config.entryOs (cfg : Config) (i off : Nat) : Nat :=
  (cfg.pageStart i + pageHdrSize + off) / osPageSize

/-- A frame with its offset in its page's entries. -/
abbrev Placed := Nat × Frame

/-- The frames of a page one after the other. -/
def place : Nat → List Frame → List Placed
  | _, [] => []
  | off, f :: rest => (off, f) :: place (off + f.size) rest

/-- The offset behind a placed frame. -/
def Placed.stop (p : Placed) : Nat := p.1 + p.2.size

-- ======== images

/-- A page of the mapping: the nonce and the tail its header names, and
the frames of this life. -/
structure Extent where
  life : Nat
  bound : Nat
  placed : List Placed

/-- A watermark in the file header; `since` is the ghost. -/
structure Mark where
  value : Nat
  epoch : Nat
  since : Nat

structure Image where
  extents : Nat → Extent
  appliedIndex : Mark
  pbFrontier : Mark
  appliedStamp : Nat

inductive CallKind where
  | setAppliedIndex
  | setPBFrontier
  deriving DecidableEq, Repr

/-- What a call waits for or does next. -/
inductive Phase where
  | data
  | project
  | bounds
  | stamp
  deriving DecidableEq, Repr

/-- A watermark call in progress. `snaps` are the tails and generations
of SetPBFrontier's snapshot; `pending` are the OS pages its msync has not
seen written back yet. -/
structure SyncCall where
  kind : CallKind
  value : Nat
  epoch : Nat
  snaps : Nat → Nat × Nat
  phase : Phase
  pending : Nat → Bool
  snap : Shard
  since : Nat

/-- A write or a delete that was made. -/
inductive Done where
  | put (key val : Bytes) (exp : Nat)
  | del (key : Bytes)
  deriving DecidableEq, Repr

/-- The shard, its mapping, and the disk under it. -/
structure Region where
  world : World
  lives : Nat → Nat
  bounds : Nat → Nat
  appliedIndex : Mark
  pbFrontier : Mark
  disk : Nat → Image
  call : Option SyncCall
  hist : List Done
  base : Shard
  baseSince : Nat

/-- The frames of page `i`. -/
def Shard.framesOf (s : Shard) (i : Nat) : List Frame :=
  ((s.pages[i]?).map Page.frames).getD []

namespace Region

/-- What the mapping holds. -/
def image (r : Region) : Image where
  extents := fun i =>
    ⟨r.lives i, r.bounds i, place 0 (r.world.shard.framesOf i)⟩
  appliedIndex := r.appliedIndex
  pbFrontier := r.pbFrontier
  appliedStamp := r.world.shard.hdrStamp

def noMark : Mark := ⟨0, 0, 0⟩

/-- A fresh file, and a shard over it. -/
def fresh (cfg : Config) : Region where
  world := World.fresh cfg
  lives := fun _ => 0
  bounds := fun _ => 0
  appliedIndex := noMark
  pbFrontier := noMark
  disk := fun _ => ⟨fun _ => ⟨0, 0, []⟩, noMark, noMark, 0⟩
  call := none
  hist := []
  base := Shard.fresh cfg
  baseSince := 0

-- ======== steps

/-- OS page `j` is written back. -/
def writeback (r : Region) (j : Nat) : Region :=
  { r with
    disk := update r.disk j r.image
    call := r.call.map fun c =>
      { c with pending := update c.pending j false } }

/-- The write lock is held across the call. -/
def locked (r : Region) : Bool :=
  (r.call.map fun c => decide (c.kind = .setAppliedIndex)).getD false

end Region

/-- The operations a run is made of, besides recycling. -/
def Op.isPlain : Op → Bool
  | .put .. | .putAt .. | .putAbs .. | .del .. | .get .. | .getAt ..
  | .sweep .. | .relocate .. => true
  | _ => false

/-- What a put adds to the history. -/
def Shard.putDone (cfg : Config) (s : Shard) (env : Shard.EvictEnv)
    (key val : Bytes) (exp : Nat) : List Done :=
  if (s.putAtExp cfg env key val exp).2 = none then [.put key val exp]
  else []

/-- What an operation adds to the history: an acknowledged write, or a
delete that found its key. -/
def Op.done (cfg : Config) (s : Shard) : Op → List Done
  | .put key val ttl now env =>
    s.putDone cfg env key val (expiryAtFrom ttl now)
  | .putAt key val ttl stamp env =>
    (s.advanceStamp stamp).putDone cfg env key val (expiryAtFrom ttl stamp)
  | .putAbs key val exp env => s.putDone cfg env key val exp
  | .del key env =>
    match (s.del cfg env key).2 with
    | .ok true => [.del key]
    | _ => []
  | _ => []

inductive Act where
  | op (o : Op)
  | recycle (page : Nat)
  | writeback (j : Nat)
  | setAppliedIndex (idx : Nat)
  | setPBFrontier (seq epoch : Nat)
  | synced
  | project
  | stamp
  | abort

namespace Region

/-- The tails the mapping's pages have now. -/
def tails (r : Region) (i : Nat) : Nat :=
  ((r.world.shard.pages[i]?).map Page.tail).getD 0

/-- snapshotPageBounds. -/
def snapshotPageBounds (r : Region) (i : Nat) : Nat × Nat :=
  (r.tails i, r.lives i)

/-- projectBounds over all pages: the current tails under SetAppliedIndex;
under SetPBFrontier the snapshot's, or 0 for a page recycled since. -/
def projectedBounds (r : Region) (c : SyncCall) (i : Nat) : Nat :=
  match c.kind with
  | .setAppliedIndex => r.tails i
  | .setPBFrontier =>
    if r.lives i = (c.snaps i).2 then (c.snaps i).1 else 0

/-- A call starts on its data msync. -/
def start (r : Region) (kind : CallKind) (value epoch : Nat) : Region :=
  { r with
    call := some
      { kind := kind
        value := value
        epoch := epoch
        snaps := r.snapshotPageBounds
        phase := .data
        pending := fun _ => true
        snap := r.world.shard
        since := r.hist.length } }

/-- compactRecycleRetiredLocked for one page: its extent is reset, its
nonce rotated, its bounds zeroed, and its header msynced. -/
def recycle (cfg : Config) (r : Region) (i : Nat) : Region := ({ r with
    world := { r.world with shard := r.world.shard.recycle i }
    lives := update r.lives i (r.lives i + 1)
    bounds := update r.bounds i 0
    call := r.call.map fun c => { c with snap := c.snap.recycle i }
    base := r.base.recycle i } : Region).writeback (cfg.headerOs i)

/-- The msync a call waits for returns: what it has not seen written back
is written back now. Behind the bounds msync the call's snapshot is on
disk. -/
def synced (r : Region) (c : SyncCall) : Option Region :=
  let disk := fun j => if c.pending j then r.image else r.disk j
  match c.phase with
  | .data => some { r with
      disk := disk
      call := some { c with phase := .project } }
  | .bounds => some { r with
      disk := disk
      call := some { c with phase := .stamp }
      base := c.snap
      baseSince := c.since }
  | _ => none

/-- The watermark is stamped, and the call returns. -/
def stamp (r : Region) (c : SyncCall) : Region :=
  match c.kind with
  | .setAppliedIndex =>
    { r with call := none, appliedIndex := ⟨c.value, 0, c.since⟩ }
  | .setPBFrontier =>
    { r with call := none, pbFrontier := ⟨c.value, c.epoch, c.since⟩ }

/-- One step; `none` where the lock is held or there is no such step. -/
def step (cfg : Config) (r : Region) : Act → Option Region
  | .op o =>
    if r.locked || !o.isPlain then none
    else (r.world.step cfg o).map fun w =>
      { r with world := w, hist := r.hist ++ o.done cfg r.world.shard }
  | .recycle i =>
    if r.locked then none
    else
      match r.world.shard.pages[i]? with
      | some p => if p.retired then some (r.recycle cfg i) else none
      | none => none
  | .writeback j => some (r.writeback j)
  | .setAppliedIndex idx =>
    if r.call.isSome then none
    else some (({ r with world := { r.world with
      shard := { r.world.shard with
        hdrStamp := r.world.shard.lastAppliedStampMs } } }
          : Region).start .setAppliedIndex idx 0)
  | .setPBFrontier seq epoch =>
    if r.call.isSome then none
    else some (r.start .setPBFrontier seq epoch)
  | .synced => r.call.bind r.synced
  | .project => r.call.bind fun c =>
    if c.phase = .project then some { r with
      bounds := r.projectedBounds c
      call := some { c with phase := .bounds, pending := fun _ => true } }
    else none
  | .stamp => r.call.bind fun c =>
    if c.phase = .stamp then some (r.stamp c) else none
  | .abort => some { r with call := none }

end Region

-- ======== recovery

/-- OS page `j`'s last write-back has frame `p` on page `i`, in life
`life`. -/
def Image.has (img : Image) (i life : Nat) (p : Placed) : Bool :=
  decide ((img.extents i).life = life) && decide (p ∈ (img.extents i).placed)

/-- The frame check on the disk: every OS page the frame lies on has
it. -/
def verifies (cfg : Config) (disk : Nat → Image) (i life : Nat)
    (p : Placed) : Bool :=
  let first := cfg.entryOs i p.1
  let last := cfg.entryOs i (p.stop - 1)
  (List.range (last + 1 - first)).all fun k =>
    (disk (first + k)).has i life p

/-- The frames of life `life` anywhere on disk on page `i` below `bound`,
in page order: those of the OS page that has most of them. -/
def onDisk (cfg : Config) (disk : Nat → Image) (i life bound : Nat) :
    List Placed :=
  let first := cfg.entryOs i 0
  let last := cfg.entryOs i bound
  ((List.range (last + 1 - first)).map fun k =>
    (disk (first + k)).extents i).foldl (fun acc e =>
        if e.life = life ∧ acc.length < e.placed.length then e.placed
        else acc) []

/-- What the rebuild's walk finds on page `i`: between the bounds the
header names, the frames that verify. -/
def recovered (cfg : Config) (disk : Nat → Image) (i : Nat) : List Placed :=
  let hdr := (disk (cfg.headerOs i)).extents i
  (onDisk cfg disk i hdr.life hdr.bound).filter fun p =>
    decide (p.stop ≤ hdr.bound) && verifies cfg disk i hdr.life p

/-- The shard as the disk has it after a crash, before the open. -/
def crashed (cfg : Config) (disk : Nat → Image) : Shard where
  pages := (List.range cfg.numPages).map fun i =>
    ⟨(recovered cfg disk i).map Prod.snd, false⟩
  tab := fun _ => none
  writeIdx := 0
  writeSeq := 0
  nextVictim := 0
  flushedThroughSeq := 0
  lastAppliedStampMs := (disk 0).appliedStamp
  hdrStamp := (disk 0).appliedStamp

end Rostam.Cache
