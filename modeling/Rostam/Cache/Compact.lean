/-
Opening a persistent shard, and compacting it: cold, by rewriting the
file at open, and online, by evacuating pages and recycling them.
-/
import Rostam.Cache.Shard

namespace Rostam.Cache

open Rostam.Lib

namespace Shard

-- ======== rebuild

/-- indexedSeqAtLeast: the slot already resolves to a copy written at
the same sequence or later. -/
def indexedSeqAtLeast (s : Shard) (h seq : Nat) : Bool :=
  ((s.tab h).bind fun r =>
    (s.frameAt r).map fun f => decide (seq ≤ f.seq)).getD false

/-- One frame of the rebuild's walk: past the flush floor it contributes
its sequence and claims its slot if it is newer than what is there. -/
def contest (cfg : Config) (s : Shard) (x : Ref × Frame) : Shard :=
  if x.2.seq ≤ s.flushedThroughSeq then s
  else
    let s := { s with writeSeq := max s.writeSeq x.2.seq }
    if s.indexedSeqAtLeast (cfg.hashKey x.2.key) x.2.seq then s
    else s.upsert (cfg.hashKey x.2.key) x.1

/-- stripDeadSlots: slots won by a delete record go, and on a shard that
is not replicated those won by an expired entry. -/
def stripDeadSlots (cfg : Config) (s : Shard) (now : Nat) : Shard :=
  { s with
    tab := fun h => (s.tab h).filter fun r =>
      ((s.frameAt r).map fun f =>
        !f.tomb && (cfg.replicated || !isExpired f.exp now)).getD true }

/-- rebuildIndexFromPages. -/
def rebuildIndexFromPages (cfg : Config) (s : Shard) (now : Nat) :
    Shard :=
  ((walk s.pages).foldl (contest cfg) s).stripDeadSlots cfg now

-- ======== cold compaction

/-- entryIsLiveAtOpen: index-current, no delete record, not expired at
the drop clock. -/
def entryIsLive (cfg : Config) (s : Shard) (dropClock : Nat)
    (x : Ref × Frame) : Bool :=
  !x.2.tomb && decide (s.tab (cfg.hashKey x.2.key) = some x.1)
    && !isExpired x.2.exp dropClock

/-- The pages packLiveInto fills, next fit: `cur` is the page being
filled. -/
def packInto (cap : Nat) : List Frame → List Frame → List (List Frame)
  | cur, [] => [cur]
  | cur, f :: rest =>
    if (cur.map Frame.size).sum + f.size ≤ cap then
      packInto cap (cur ++ [f]) rest
    else cur :: packInto cap [f] rest

/-- The pages of the compacted file. -/
def packedPages (cfg : Config) (live : List Frame) : List Page :=
  let packed := packInto cfg.maxEntryBytes [] live
  packed.map (⟨·, false⟩)
    ++ List.replicate (cfg.numPages - packed.length) Page.empty

/-- The live frames in walk order. -/
def liveFrames (cfg : Config) (s : Shard) (dropClock : Nat) : List Frame :=
  ((walk s.pages).filter (s.entryIsLive cfg dropClock)).map Prod.snd

/-- The clocks an open reads, and whether cold compaction's thresholds
were met and its rewrite published. -/
structure OpenEnv where
  now : Nat
  compact : Bool
  dropNow : Nat
  remapNow : Nat

/-- compactDropClock. -/
def compactDropClock (cfg : Config) (s : Shard) (now : Nat) : Nat :=
  if cfg.replicated then s.lastAppliedStampMs else now

/-- compactAtOpen: the live frames packed into a fresh file and the
index rebuilt over it; `none` when the live set does not fit. With the
result comes the pack frontier. -/
def compactAtOpen (cfg : Config) (s : Shard) (env : OpenEnv) :
    Option (Shard × Nat) :=
  let live := s.liveFrames cfg (s.compactDropClock cfg env.dropNow)
  let need := (packInto cfg.maxEntryBytes [] live).length
  if need ≤ cfg.numPages then
    some (rebuildIndexFromPages cfg
      { s with
        pages := packedPages cfg live
        tab := fun _ => none
        hdrStamp := s.lastAppliedStampMs } env.remapNow,
      need - 1)
  else none

/-- The shard newShard builds over the file before it reads any frame. -/
def attach (s : Shard) : Shard where
  pages := s.pages.map fun p => { p with retired := false }
  tab := fun _ => none
  writeIdx := 0
  writeSeq := 0
  nextVictim := 0
  flushedThroughSeq := s.flushedThroughSeq
  lastAppliedStampMs := s.hdrStamp
  hdrStamp := s.hdrStamp

/-- Close and newShard over the same directory. -/
def reopen (cfg : Config) (s : Shard) (env : OpenEnv) : Shard :=
  let s := rebuildIndexFromPages cfg s.attach env.now
  let r := if env.compact then s.compactAtOpen cfg env else none
  let s := (r.map Prod.fst).getD s
  { s with
    writeIdx := (r.map Prod.snd).getD (cfg.numPages - 1)
    writeSeq := max s.writeSeq s.flushedThroughSeq }

-- ======== online compaction

/-- The bytes of a page that are index-current and not expired. -/
def pageLive (cfg : Config) (s : Shard) (i dropClock : Nat) (p : Page) :
    Nat :=
  (((pageWalk i p).filter (s.entryIsLive cfg dropClock)).map
    fun x => x.2.size).sum

/-- The page's dead share is at least mmapCompactMinReclaimRatio, one
twentieth. -/
def worthRelocating (cfg : Config) (s : Shard) (i dropClock : Nat)
    (p : Page) : Bool :=
  decide (0 < p.tail)
    && decide (p.tail ≤ 20 * (p.tail - s.pageLive cfg i dropClock p))

/-- findRelocDestLocked: the first other page with room, never a retired
one. -/
def findRelocDest (cfg : Config) (s : Shard) (need src : Nat) : Option Nat :=
  (List.range s.pages.length).find? fun i =>
    decide (i ≠ src) && ((s.pages[i]?).map fun p =>
      !p.retired && decide (need ≤ cfg.freeTail p)).getD false

/-- The walk of tryRelocatePageLocked: an index-current frame that is
not expired moves if some page has room; one left behind pins the
page. -/
def relocateFrames (cfg : Config) (dropClock src : Nat) :
    Shard → Bool → List (Ref × Frame) → Shard × Bool
  | s, pinned, [] => (s, pinned)
  | s, pinned, (r, f) :: rest =>
    if s.tab (cfg.hashKey f.key) ≠ some r then
      relocateFrames cfg dropClock src s pinned rest
    else if isExpired f.exp dropClock then
      relocateFrames cfg dropClock src s true rest
    else
      match s.findRelocDest cfg f.size src with
      | none => relocateFrames cfg dropClock src s true rest
      | some dst =>
        relocateFrames cfg dropClock src (s.moveFrame cfg dst f) pinned rest

/-- Mark page `i` retired. -/
def retire (s : Shard) (i : Nat) : Shard :=
  { s with pages := s.pages.modify i fun p => { p with retired := true } }

/-- tryRelocatePageLocked. -/
def tryRelocatePage (cfg : Config) (s : Shard) (i dropClock : Nat) :
    Shard :=
  if i = s.writeIdx then s
  else
    match s.pages[i]? with
    | none => s
    | some p =>
      if p.retired || p.isEmpty || !s.worthRelocating cfg i dropClock p
      then s
      else
        let (s, pinned) :=
          relocateFrames cfg dropClock i s false (pageWalk i p)
        if pinned then s else s.retire i

/-- compactRecycleRetiredLocked, for one retired page whose quarantine
has elapsed: its extent is empty again. -/
def recycle (s : Shard) (i : Nat) : Shard :=
  match s.pages[i]? with
  | some p =>
    if p.retired then { s with pages := s.pages.set i Page.empty }
    else s
  | none => s

end Shard

end Rostam.Cache
