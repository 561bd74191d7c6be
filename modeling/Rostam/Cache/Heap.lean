/-
One heap shard under reject-writes.

It frames entries on pages like a persistent shard, with three
differences: pages have no header and are allocated as they are needed,
a delete leaves no record, and nothing is ever rebuilt from the pages,
so that a page whose current entries have all expired at the logical
clock can be swapped for a fresh one while the shard runs.
-/
import Rostam.Cache.Step
import Rostam.Ops.Handlers

namespace Rostam.Cache

open Rostam.Lib

namespace Shard

-- ======== pages

/-- FreeTail of a heap page. -/
def heapFreeTail (cfg : Config) (p : Page) : Nat := cfg.pageSize - p.tail

/-- firstPageWithRoomLocked; no heap page is retired. -/
def firstHeapPageWithRoom (cfg : Config) (s : Shard) (need : Nat) :
    Option Nat :=
  s.pages.findIdx? fun p => decide (need ≤ heapFreeTail cfg p)

/-- findOrMakePageLocked: the open page, any page with room, a page more
up to the shard's cap, or none. -/
def findOrMakeHeapPage (cfg : Config) (s : Shard) (need : Nat) :
    Except Err (Shard × Nat) :=
  if cfg.pageSize < need then .error .entryTooLarge
  else if ((s.pages[s.writeIdx]?).map
      fun p => decide (need ≤ heapFreeTail cfg p)).getD false then
    .ok (s, s.writeIdx)
  else
    match s.firstHeapPageWithRoom cfg need with
    | some i => .ok ({ s with writeIdx := i }, i)
    | none =>
      if s.pages.length < cfg.numPages then
        .ok ({ s with
          pages := s.pages ++ [Page.empty]
          writeIdx := s.pages.length }, s.pages.length)
      else .error .full

/-- A heap shard as newShard builds it, with `initial` pages. -/
def freshHeap (initial : Nat) : Shard where
  pages := List.replicate initial Page.empty
  tab := fun _ => none
  writeIdx := initial - 1
  writeSeq := 0
  nextVictim := 0
  flushedThroughSeq := 0
  lastAppliedStampMs := 0
  hdrStamp := 0

-- ======== writes

/-- putAtExpLocked. -/
def putAtExpHeap (cfg : Config) (s : Shard) (key : Key) (val : Bytes)
    (exp : Nat) : Shard × Option Err :=
  match s.findOrMakeHeapPage cfg (entrySpan key.length val.length) with
  | .error e => (s, some e)
  | .ok (s, i) =>
    let s := { s with writeSeq := s.writeSeq + 1 }
    if maxKeyLen < key.length ∨ maxValueLen < val.length then
      (s, some .keyTooLong)
    else
      let r := s.tailRef i
      ((s.append i ⟨key, val, exp, s.writeSeq, false⟩).upsert
        (cfg.hashKey key) r, none)

/-- delH without a durable record: the slot goes. -/
def delHeap (cfg : Config) (s : Shard) (key : Key) : Shard × Except Err Bool :=
  match s.findKey cfg key with
  | none => (s, .ok false)
  | some _ => (s.tombstone (cfg.hashKey key), .ok true)

/-- tryRetireExpiredPageLocked: unless an index-current entry of the page
is live at the stamp, its slots go and a fresh page takes its place. -/
def tryRetireExpiredPage (cfg : Config) (s : Shard) (i stamp : Nat) :
    Shard :=
  match s.pages[i]? with
  | none => s
  | some p =>
    if p.isEmpty || (pageWalk i p).any (fun x =>
        decide (s.tab (cfg.hashKey x.2.key) = some x.1)
          && !isExpired x.2.exp stamp) then s
    else
      { s with
        tab := drainSlots cfg s.tab (pageWalk i p)
        pages := s.pages.set i Page.empty }

end Shard

-- ======== stores

/-- A persistent shard as a handler sees it. -/
def shardStore (cfg : Config) (env : Shard.EvictEnv) : Ops.Store Shard where
  getAt := fun key t s =>
    ((s.advanceStamp t).get cfg key t true, s.resolve cfg key t)
  putAt := fun key val ttl t s =>
    (s.advanceStamp t).putAtExp cfg env key val (expiryAtFrom ttl t)
  putAbs := fun key val exp s => s.putAtExp cfg env key val exp
  del := fun key s => s.del cfg env key
  flush := Shard.flush

/-- A heap shard as a handler sees it. -/
def heapStore (cfg : Config) : Ops.Store Shard where
  getAt := fun key t s =>
    ((s.advanceStamp t).get cfg key t true, s.resolve cfg key t)
  putAt := fun key val ttl t s =>
    (s.advanceStamp t).putAtExpHeap cfg key val (expiryAtFrom ttl t)
  putAbs := fun key val exp s => s.putAtExpHeap cfg key val exp
  del := fun key s => s.delHeap cfg key
  flush := Shard.flush

end Rostam.Cache
