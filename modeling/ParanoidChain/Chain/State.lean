import ParanoidChain.Chain.SegmentedState
import ParanoidChain.Lib.Overlay

/-!
# The chain state

The segmented store with its counters and the compact cache of exact roots: one root per segment and
the upper tree over them, a heap with the root at index 1.

A function that mutates its state and can fail returns the state it leaves behind next to its
result, so that what a failure leaves can be stated.
-/

namespace ParanoidChain

open Lib

/-- The compact two-level root cache. -/
structure ExactSegmentRootCache where
  logSlots : Nat
  effectiveLogSeg : Nat
  segmentRoots : List Digest
  tree : List Digest
  deriving DecidableEq, Repr

namespace ExactSegmentRootCache

variable (hasher : StateHasher)

/-- Recompute one inner node of the upper tree. -/
def rehash (tree : List Digest) (index : Nat) : List Digest :=
  tree.set index (hasher.stateNodeHash (tree.getD (2 * index) 0) (tree.getD (2 * index + 1) 0))

def buildTree (segmentRoots : List Digest) : List Digest :=
  let count := segmentRoots.length
  (List.range' 1 (count - 1)).reverse.foldl (rehash hasher) (List.replicate count 0 ++ segmentRoots)

def emptyWithSegmentLog (logSlots effectiveLogSeg : Nat) : ExactSegmentRootCache :=
  let segmentRoots :=
    List.replicate (2 ^ (logSlots - effectiveLogSeg)) (hasher.zeroSlotRoot effectiveLogSeg)
  { logSlots, effectiveLogSeg, segmentRoots, tree := buildTree hasher segmentRoots }

def empty (logSlots : Nat) : ExactSegmentRootCache :=
  emptyWithSegmentLog hasher logSlots (min logSlots logSegmentSize)

def root (cache : ExactSegmentRootCache) : Digest :=
  if cache.segmentRoots.length = 1 then cache.segmentRoots.getD 0 0 else cache.tree.getD 1 0

/-- The loop of `set_segment_root`: recompute the path above `node`. -/
def repairPath : Nat → Nat → List Digest → List Digest
  | 0, _, tree => tree
  | fuel + 1, node, tree =>
    if 1 < node then repairPath fuel (node / 2) (rehash hasher tree (node / 2)) else tree

def setSegmentRoot (cache : ExactSegmentRootCache) (segId : Nat) (root : Digest) :
    ExactSegmentRootCache :=
  let segmentRoots := cache.segmentRoots.set segId root
  let count := segmentRoots.length
  if count = 1 then { cache with segmentRoots }
  else
    let node := count + segId
    { cache with segmentRoots, tree := repairPath hasher node node (cache.tree.set node root) }

def expandOne (cache : ExactSegmentRootCache) : ExactSegmentRootCache :=
  let oldLogSlots := cache.logSlots
  let logSlots := oldLogSlots + 1
  if logSlots ≤ logSegmentSize then
    let segmentRoots := cache.segmentRoots.set 0
      (hasher.stateNodeHash cache.root (hasher.zeroSlotRoot oldLogSlots))
    { logSlots, effectiveLogSeg := logSlots, segmentRoots, tree := buildTree hasher segmentRoots }
  else
    let segmentRoots := cache.segmentRoots ++
      List.replicate cache.segmentRoots.length (hasher.zeroSlotRoot cache.effectiveLogSeg)
    { cache with logSlots, segmentRoots, tree := buildTree hasher segmentRoots }

/-- One round of `shrink_to`. Below the segment size the root is only a placeholder. -/
def shrinkOne (cache : ExactSegmentRootCache) : ExactSegmentRootCache :=
  let logSlots := cache.logSlots - 1
  if cache.logSlots ≤ logSegmentSize then
    let segmentRoots := [hasher.zeroSlotRoot logSlots]
    { logSlots, effectiveLogSeg := logSlots, segmentRoots, tree := buildTree hasher segmentRoots }
  else
    let segmentRoots := cache.segmentRoots.take (cache.segmentRoots.length / 2)
    { cache with logSlots, segmentRoots, tree := buildTree hasher segmentRoots }

def shrinkLoop (target : Nat) : Nat → ExactSegmentRootCache → ExactSegmentRootCache
  | 0, cache => cache
  | fuel + 1, cache =>
    if target < cache.logSlots then shrinkLoop target fuel (cache.shrinkOne hasher) else cache

def shrinkTo (cache : ExactSegmentRootCache) (target : Nat) : ExactSegmentRootCache :=
  shrinkLoop hasher target cache.logSlots cache

/-- `while self.log_slots < target { self.expand_one() }`. -/
def expandTo (cache : ExactSegmentRootCache) (target : Nat) : ExactSegmentRootCache :=
  (List.range (target - cache.logSlots)).foldl (fun cache _ => cache.expandOne hasher) cache

end ExactSegmentRootCache

structure ChainState where
  state : SegmentedFriState
  utxoRoot : Digest
  activeSlotCount : U64
  allocCounter : U64
  circulatingSupplyMicronoid : U128
  exactRoots : ExactSegmentRootCache
  deriving DecidableEq, Repr

namespace ChainState

variable (hasher : StateHasher)

/-- `with_log_slots`; no state is built when the depth assertion fails. -/
def withLogSlots (logSlots : Nat) : Option ChainState := do
  let state ← SegmentedFriState.newEmpty logSlots
  pure
    { state
      utxoRoot := hasher.zeroSlotRoot logSlots
      activeSlotCount := 0
      allocCounter := 0
      circulatingSupplyMicronoid := 0
      exactRoots := .empty hasher logSlots }

/-! ## Supply -/

/-- The value a slot update replaces; nothing when its segment is evicted. -/
def previousSlot (chain : ChainState) (index : Nat) : Option SlotValue :=
  if index < chain.state.numSlots then
    if chain.state.isEvicted (chain.state.segIdOf index) then none
    else some (chain.state.slot index)
  else some .empty

/-- One round of `supply_after_slot_updates`. -/
def supplyStep (chain : ChainState) (supply : U128) (update : Nat × SlotValue) : Option U128 := do
  let previous ← chain.previousSlot update.1
  let reduced ← checkedSub supply (previous.amount.setWidth 128)
  checkedAdd reduced (update.2.amount.setWidth 128)

/-- `supply_after_slot_updates`: the last update of a slot counts, in ascending slot order. -/
def supplyAfterSlotUpdates (chain : ChainState) (slotUpdates : List (Nat × SlotValue)) :
    Option U128 :=
  (SortedMap.ofWrites slotUpdates).foldlM chain.supplyStep chain.circulatingSupplyMicronoid

/-! ## Depth and roots -/

/-- `expand_one`; nothing is returned when the store aborts. -/
def expandOne (chain : ChainState) : Option ChainState := do
  let oldLogSlots := chain.state.logSlots
  let state ← chain.state.expand
  let exactCacheWasCurrent := chain.state.exactDirty = [] ∧
    chain.exactRoots.logSlots = oldLogSlots ∧ chain.exactRoots.root = chain.utxoRoot
  pure
    { chain with
      state := if exactCacheWasCurrent then state.clearExactDirty else state
      exactRoots := chain.exactRoots.expandOne hasher
      utxoRoot := hasher.stateNodeHash chain.utxoRoot (hasher.zeroSlotRoot oldLogSlots) }

/-- Bring the root cache to the depth of the store. -/
def resizeExactRoots (chain : ChainState) : ChainState :=
  let grown := chain.exactRoots.expandTo hasher chain.state.logSlots
  { chain with exactRoots :=
      if chain.state.logSlots < grown.logSlots then grown.shrinkTo hasher chain.state.logSlots
      else grown }

/-- Dirty segments with a current tree are refreshed first. -/
def refreshOrder (chain : ChainState) : List Nat :=
  chain.state.exactDirty.filter (fun id => (chain.state.cachedExactSegmentTree id).isSome) ++
    chain.state.exactDirty.filter (fun id => (chain.state.cachedExactSegmentTree id).isNone)

/-- The loop of `try_state_root` over the dirty segments. -/
def refreshSegments : List Nat → ChainState → ChainState × Except ExactStateReadError Unit
  | [], chain => (chain, .ok ())
  | segId :: rest, chain =>
    match chain.state.exactSegmentRoot hasher segId with
    | (state, .error error) => ({ chain with state }, .error error)
    | (state, .ok root) =>
      refreshSegments rest
        { chain with state, exactRoots := chain.exactRoots.setSegmentRoot hasher segId root }

def tryStateRoot (chain : ChainState) : ChainState × Except ExactStateReadError Digest :=
  let resized := chain.resizeExactRoots hasher
  match refreshSegments hasher resized.refreshOrder resized with
  | (refreshed, .error error) => (refreshed, .error error)
  | (refreshed, .ok ()) =>
    let root := refreshed.exactRoots.root
    ({ refreshed with state := refreshed.state.clearExactDirty, utxoRoot := root }, .ok root)

/-- `restore_evicted_segment`: columns are installed only under the retained summary. -/
def restoreEvictedSegment (chain : ChainState) (segId : Nat) (columns : SegmentColumns) :
    Except ExactStateReadError ChainState := do
  let expectedLen := 2 ^ chain.state.effectiveLogSeg
  let mismatch := ExactStateReadError.segmentRootMismatch segId
  reject (columns.hasLength expectedLen = false) mismatch
  let actualLive := (List.range expectedLen).countP fun index => !(columns.get index).isEmpty
  reject (chain.state.segmentLiveCount segId ≠ actualLive) mismatch
  let tree := ExactSegmentTree.fromColumns hasher chain.state.effectiveLogSeg columns
  reject (chain.exactRoots.segmentRoots[segId]? ≠ some tree.root) mismatch
  pure { chain with
    state := (chain.state.restoreEvictedSegment segId columns).rememberExactSegmentTree segId tree }

end ChainState

end ParanoidChain
