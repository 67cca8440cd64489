import ParanoidChain.Chain.ExactSegmentCache
import ParanoidChain.Chain.SparseRoot

/-!
# The segmented slot store

The slot vector split into segments of `2 ^ 16` slots, or one smaller segment below that depth. A
segment without columns is either all empty or evicted to disk. Segment ids and slot indices are
natural numbers, shifts and masks by a segment's size are division and remainder, and a hash set is
a list of which only membership is used.

The raw segment commitments (`seg_roots`, `tree` and their dirty leaves) are left out: nothing on
the exact path reads them. What remains of a commitment flush is its assertion that no dirty segment
is evicted.
-/

namespace ParanoidChain

open Lib

/-- `StateError`. -/
inductive StateError where
  | slotOutOfRange
  deriving DecidableEq, Repr

/-- `StateResizeError`. -/
inductive StateResizeError where
  | invalidTarget (current target : Nat)
  | evictedUpperSegment (segId : Nat)
  | nonEmptyUpperHalf (segId : Nat)
  deriving DecidableEq, Repr

structure SegmentedFriState where
  logSlots : Nat
  effectiveLogSeg : Nat
  numSegments : Nat
  segments : List (Option SegmentColumns)
  liveCounts : List Nat
  dirty : List Nat
  mdbxDirty : List Nat
  exactDirty : List Nat
  exactSegmentCache : ExactSegmentCache
  evicted : List Nat
  deriving DecidableEq, Repr

namespace SegmentedFriState

/-- `new_empty`; no state is built when the depth assertion fails. -/
def newEmpty (logSlots : Nat) : Option SegmentedFriState :=
  if 1 ≤ logSlots then
    let numSegments := if logSegmentSize < logSlots then 2 ^ (logSlots - logSegmentSize) else 1
    some
      { logSlots
        effectiveLogSeg := min logSlots logSegmentSize
        numSegments
        segments := List.replicate numSegments none
        liveCounts := List.replicate numSegments 0
        dirty := []
        mdbxDirty := []
        exactDirty := []
        exactSegmentCache := .default
        evicted := [] }
  else none

def numSlots (state : SegmentedFriState) : Nat := 2 ^ state.logSlots

def segIdOf (state : SegmentedFriState) (index : Nat) : Nat := index / 2 ^ state.effectiveLogSeg

def localIdxOf (state : SegmentedFriState) (index : Nat) : Nat :=
  index % 2 ^ state.effectiveLogSeg

def segmentSlotCount (state : SegmentedFriState) : Nat := 2 ^ state.effectiveLogSeg

def segmentLiveCount (state : SegmentedFriState) (segId : Nat) : Nat :=
  state.liveCounts.getD segId 0

def isEvicted (state : SegmentedFriState) (segId : Nat) : Bool := decide (segId ∈ state.evicted)

def tryGetSegmentColumns (state : SegmentedFriState) (segId : Nat) : Option SegmentColumns :=
  state.segments.getD segId none

/-- Read one slot; a segment without columns reads as empty. -/
def slot (state : SegmentedFriState) (index : Nat) : SlotValue :=
  match state.tryGetSegmentColumns (state.segIdOf index) with
  | none => .empty
  | some columns => columns.get (state.localIdxOf index)

/-- The live count of a segment after one of its slots changed. -/
def liveAfter (live : Nat) (oldEmpty newEmpty : Bool) : Nat :=
  match oldEmpty, newEmpty with
  | true, false => live + 1
  | false, true => live - 1
  | _, _ => live

/-- The write of one slot whose value changes, into columns that are resident or just made. -/
def storeSlot (hasher : StateHasher) (state : SegmentedFriState) (columns : SegmentColumns)
    (index : Nat) (slot : SlotValue) : SegmentedFriState :=
  let seg := state.segIdOf index
  let loc := state.localIdxOf index
  let live := liveAfter (state.segmentLiveCount seg) (state.slot index).isEmpty slot.isEmpty
  -- the last live slot of a segment takes the columns with it
  { state with
    segments := state.segments.set seg (if live = 0 then none else some (columns.put loc slot))
    liveCounts := state.liveCounts.set seg live
    exactSegmentCache :=
      if live = 0 then state.exactSegmentCache.remove seg
      else state.exactSegmentCache.updateSlot hasher seg loc slot
    evicted := if live = 0 then state.evicted.filter (· != seg) else state.evicted
    dirty := state.dirty.insert seg
    mdbxDirty := state.mdbxDirty.insert seg
    exactDirty := state.exactDirty.insert seg }

/-- One round of `apply_delta_in_place`. -/
def writeSlot (hasher : StateHasher) (state : SegmentedFriState) (write : Nat × SlotValue) :
    SegmentedFriState :=
  let seg := state.segIdOf write.1
  if state.slot write.1 = write.2 then state
  else
    match state.tryGetSegmentColumns seg with
    | some columns => state.storeSlot hasher columns write.1 write.2
    | none =>
      if write.2.isEmpty then state
      else
        -- the segment is materialised, and an evicted one is taken for empty
        { state with evicted := state.evicted.filter (· != seg) }.storeSlot hasher
          (.newZero state.segmentSlotCount) write.1 write.2

/-- `apply_delta_unrooted`. -/
def applyDeltaUnrooted (hasher : StateHasher) (state : SegmentedFriState)
    (deltas : List (Nat × SlotValue)) : Except StateError SegmentedFriState := do
  reject (deltas.any fun write => decide (state.numSlots ≤ write.1)) .slotOutOfRange
  pure (deltas.foldl (writeSlot hasher) state)

/-! ## Roots of resident segments -/

def clearExactDirty (state : SegmentedFriState) : SegmentedFriState :=
  { state with exactDirty := [] }

def cachedExactSegmentTree (state : SegmentedFriState) (segId : Nat) : Option ExactSegmentTree :=
  state.exactSegmentCache.get segId

def rememberExactSegmentTree (state : SegmentedFriState) (segId : Nat) (tree : ExactSegmentTree) :
    SegmentedFriState :=
  if state.segmentLiveCount segId ≠ 0 ∧ state.isEvicted segId = false then
    { state with exactSegmentCache := state.exactSegmentCache.insert segId tree }
  else state

/-- `exact_segment_root`: a tree is built, and remembered, only on a cache miss. -/
def exactSegmentRoot (hasher : StateHasher) (state : SegmentedFriState) (segId : Nat) :
    SegmentedFriState × Except ExactStateReadError Digest :=
  if state.isEvicted segId then (state, .error (.evictedSegment segId))
  else
    match state.cachedExactSegmentTree segId, state.tryGetSegmentColumns segId with
    | some tree, _ => (state, .ok tree.root)
    | none, none => (state, .ok (hasher.zeroSlotRoot state.effectiveLogSeg))
    | none, some columns =>
      let tree := ExactSegmentTree.fromColumns hasher state.effectiveLogSeg columns
      (state.rememberExactSegmentTree segId tree, .ok tree.root)

/-! ## Residency -/

def evictSegment (state : SegmentedFriState) (segId : Nat) : SegmentedFriState :=
  let removed := { state with exactSegmentCache := state.exactSegmentCache.remove segId }
  if (state.tryGetSegmentColumns segId).isSome then
    { removed with
      segments := state.segments.set segId none
      evicted := state.evicted.insert segId }
  else removed

def restoreEvictedSegment (state : SegmentedFriState) (segId : Nat) (columns : SegmentColumns) :
    SegmentedFriState :=
  let live := columns.countLive
  { state with
    exactSegmentCache := state.exactSegmentCache.remove segId
    liveCounts := state.liveCounts.set segId live
    segments := state.segments.set segId (if live = 0 then none else some columns)
    evicted := state.evicted.filter (· != segId)
    dirty := state.dirty.insert segId }

/-! ## Changes of depth -/

/-- `flush_all_dirty`: it aborts when a dirty segment is evicted. -/
def flushAllDirty (state : SegmentedFriState) : Option SegmentedFriState :=
  if state.dirty.any (state.isEvicted ·) then none else some { state with dirty := [] }

/-- `expand`; below the segment size the single segment grows, above it the number doubles. -/
def expand (state : SegmentedFriState) : Option SegmentedFriState :=
  let logSlots := state.logSlots + 1
  if logSlots ≤ logSegmentSize then
    flushAllDirty
      { state with
        logSlots
        effectiveLogSeg := logSlots
        exactSegmentCache := state.exactSegmentCache.remove 0
        segments := state.segments.set 0
          ((state.tryGetSegmentColumns 0).map (·.extend (2 ^ (logSlots - 1))))
        dirty := state.dirty.insert 0
        exactDirty := state.exactDirty.insert 0 }
  else some
    { state with
      logSlots
      numSegments := state.numSegments * 2
      segments := state.segments ++ List.replicate state.numSegments none
      liveCounts := state.liveCounts ++ List.replicate state.numSegments 0 }

/-- Finish one halving of the single segment once its upper half is known to be empty. -/
def halveSole (state : SegmentedFriState) :
    SegmentedFriState × Except (Fault StateResizeError) Unit :=
  let shrunk : SegmentedFriState :=
    { state with
      logSlots := state.logSlots - 1
      effectiveLogSeg := state.logSlots - 1
      exactSegmentCache := state.exactSegmentCache.remove 0
      dirty := state.dirty.insert 0
      mdbxDirty := state.mdbxDirty.insert 0
      exactDirty := state.exactDirty.insert 0 }
  match shrunk.flushAllDirty with
  | none => (shrunk, .error .panic)
  | some flushed => (flushed, .ok ())

/-- The single-segment round of `shrink_to_log_slots`. -/
def shrinkSole (state : SegmentedFriState) :
    SegmentedFriState × Except (Fault StateResizeError) Unit :=
  if state.isEvicted 0 then (state, .error (.err (.evictedUpperSegment 0)))
  else
    let keep := 2 ^ (state.logSlots - 1)
    match state.tryGetSegmentColumns 0 with
    | none => state.halveSole
    | some columns =>
      if columns.upperIsEmpty keep then
        let kept := columns.truncate keep
        let live := kept.countLive
        { state with
          liveCounts := state.liveCounts.set 0 live
          segments := state.segments.set 0 (if live = 0 then none else some kept) }.halveSole
      else (state, .error (.err (.nonEmptyUpperHalf 0)))

/-- Why a segment of the discarded half cannot be dropped, if it cannot. -/
def upperSegmentError (state : SegmentedFriState) (segId : Nat) : Option StateResizeError :=
  if state.isEvicted segId then some (.evictedUpperSegment segId)
  else if state.segmentLiveCount segId ≠ 0 then some (.nonEmptyUpperHalf segId)
  else none

/-- Drop every segment from `count` on. -/
def truncateSegments (state : SegmentedFriState) (count : Nat) : SegmentedFriState :=
  { state with
    numSegments := count
    exactSegmentCache := state.exactSegmentCache.truncateSegments count
    segments := state.segments.take count
    liveCounts := state.liveCounts.take count
    evicted := state.evicted.filter (· < count)
    dirty := state.dirty.filter (· < count)
    mdbxDirty := state.mdbxDirty.filter (· < count)
    exactDirty := state.exactDirty.filter (· < count) }

/-- The many-segment round of `shrink_to_log_slots`. -/
def shrinkHalf (state : SegmentedFriState) :
    SegmentedFriState × Except (Fault StateResizeError) Unit :=
  let count := state.numSegments / 2
  match (List.range' count (state.numSegments - count)).findSome? state.upperSegmentError with
  | some error => (state, .error (.err error))
  | none => ({ state.truncateSegments count with logSlots := state.logSlots - 1 }, .ok ())

/-- One round of `shrink_to_log_slots`. -/
def shrinkOnce (state : SegmentedFriState) :
    SegmentedFriState × Except (Fault StateResizeError) Unit :=
  match state.flushAllDirty with
  | none => (state, .error .panic)
  | some flushed =>
    if flushed.logSlots ≤ logSegmentSize then flushed.shrinkSole else flushed.shrinkHalf

/-- The loop of `shrink_to_log_slots`; a failing round keeps the rounds before it. -/
def shrinkLoop (target : Nat) : Nat → SegmentedFriState →
    SegmentedFriState × Except (Fault StateResizeError) Unit
  | 0, state => (state, .ok ())
  | fuel + 1, state =>
    if target < state.logSlots then
      match state.shrinkOnce with
      | (shrunk, .ok ()) => shrinkLoop target fuel shrunk
      | failed => failed
    else (state, .ok ())

def shrinkToLogSlots (state : SegmentedFriState) (target : Nat) :
    SegmentedFriState × Except (Fault StateResizeError) Unit :=
  if target < 1 ∨ state.logSlots < target then
    (state, .error (.err (.invalidTarget state.logSlots target)))
  else shrinkLoop target state.logSlots state

end SegmentedFriState

/-! ## The raw segment-root tree -/

def maxSegtreeDepth : Nat := 16

/-- The refusals of `sparse_state_root_from_segment_roots`. -/
inductive SegmentRootsError where
  | segmentLogExceeds (effectiveLogSeg logSlots : Nat)
  | lengthMismatch (ids roots : Nat)
  | unsortedIds
  | depthExceeds (depth : Nat)
  | idOutOfRange (id count : Nat)
  deriving DecidableEq, Repr

/-- `sparse_state_root_from_segment_roots`. It hashes with `compress`, and a missing segment has
`zero_seg_root_for` its size: both belong to the raw commitments and are parameters here. -/
def sparseStateRootFromSegmentRoots (compress : Digest → Digest → Digest)
    (zeroSegRootFor : Nat → Digest) (logSlots effectiveLogSeg : Nat) (segmentIds : List U16)
    (segmentRoots : List Digest) : Except SegmentRootsError Digest := do
  reject (logSlots < effectiveLogSeg) (.segmentLogExceeds effectiveLogSeg logSlots)
  reject (segmentIds.length ≠ segmentRoots.length)
    (.lengthMismatch segmentIds.length segmentRoots.length)
  reject (¬ segmentIds.IsChain (· < ·)) .unsortedIds
  let depth := logSlots - effectiveLogSeg
  reject (maxSegtreeDepth < depth) (.depthExceeds depth)
  let count := 2 ^ depth
  let leaves ← (segmentIds.zip segmentRoots).foldlM (fun leaves (id, root) => do
      reject (count ≤ id.toNat) (.idOutOfRange id.toNat count)
      return leaves.set id.toNat root)
    (List.replicate count (zeroSegRootFor effectiveLogSeg))
  if count = 1 then return leaves.getD 0 0
  let tree := (List.range' 1 (count - 1)).reverse.foldl (fun tree node =>
      tree.set node (compress (tree.getD (2 * node) 0) (tree.getD (2 * node + 1) 0)))
    (List.replicate count 0 ++ leaves)
  return tree.getD 1 0

end ParanoidChain
