import ParanoidChain.Chain.SlotState

/-!
# Hot segment trees

`ExactSegmentTree` is a heap of hashes over one resident segment, with the root at index 1, and
`ExactSegmentCache` keeps the most recently written trees within a byte budget. A vector's capacity
is taken to be its length.
-/

namespace ParanoidChain

structure ExactSegmentTree where
  logSlots : Nat
  nodes : List Digest
  zeros : List Digest
  columnBytes : Nat
  deriving DecidableEq, Repr

namespace ExactSegmentTree

variable (hasher : StateHasher)

/-- The leaf hash of a slot, with the precomputed hash for an empty one. -/
def leafHash (zeros : List Digest) (slot : SlotValue) : Digest :=
  if slot.isEmpty then zeros.getD 0 0 else hasher.slotLeafHash slot

/-- The hash of an inner node, with the precomputed hash for two empty children of a level. -/
def parentHash (zeros : List Digest) (level : Nat) (left right : Digest) : Digest :=
  if left = zeros.getD level 0 ∧ right = zeros.getD level 0 then zeros.getD (level + 1) 0
  else hasher.stateNodeHash left right

/-- Recompute the node at one index from its children on the given level. -/
def rehash (zeros : List Digest) (level : Nat) (nodes : List Digest) (node : Nat) : List Digest :=
  nodes.set node
    (parentHash hasher zeros level (nodes.getD (2 * node) 0) (nodes.getD (2 * node + 1) 0))

/-- The inner levels, from the one above the leaves up to the root. -/
def buildLevels (zeros : List Digest) (logSlots : Nat) (leaves : List Digest) : List Digest :=
  (List.range logSlots).foldl (fun nodes level =>
    let start := 2 ^ logSlots / 2 ^ (level + 1)
    (List.range' start start).foldl (rehash hasher zeros level) nodes) leaves

def fromColumns (logSlots : Nat) (columns : SegmentColumns) : ExactSegmentTree :=
  let size := 2 ^ logSlots
  let zeros := hasher.zeroSlotRoots logSlots
  let leaves := List.replicate size (zeros.getD 0 0) ++
    (List.range size).map fun index => leafHash hasher zeros (columns.get index)
  { logSlots
    nodes := buildLevels hasher zeros logSlots leaves
    zeros
    columnBytes :=
      (columns.values.length + columns.ownersHi.length + columns.ownersLo.length) * 16 }

def root (tree : ExactSegmentTree) : Digest := tree.nodes.getD 1 0

/-- The loop of `set_slot`: repair the path above `node`, stopping at the first unchanged hash. -/
def repairPath (zeros : List Digest) : Nat → Nat → Nat → List Digest → List Digest
  | 0, _, _, nodes => nodes
  | fuel + 1, level, node, nodes =>
    if 1 < node then
      let parent := node / 2
      let hash := parentHash hasher zeros level (nodes.getD (2 * parent) 0)
        (nodes.getD (2 * parent + 1) 0)
      if nodes.getD parent 0 = hash then nodes
      else repairPath zeros fuel (level + 1) parent (nodes.set parent hash)
    else nodes

def setSlot (tree : ExactSegmentTree) (index : Nat) (slot : SlotValue) : ExactSegmentTree :=
  let node := 2 ^ tree.logSlots + index
  let hash := leafHash hasher tree.zeros slot
  if tree.nodes.getD node 0 = hash then tree
  else { tree with
    nodes := repairPath hasher tree.zeros tree.logSlots 0 node (tree.nodes.set node hash) }

/-- `overlay_root`, with the width of the subtree given by its height. -/
def overlayRoot (nodes : List Digest) : Nat → Nat → Nat → List (Nat × Digest) → Digest
  | _, node, _, [] => nodes.getD node 0
  | 0, _, _, update :: _ => update.2
  | height + 1, node, start, updates =>
    let half := 2 ^ height
    hasher.stateNodeHash
      (overlayRoot nodes height (2 * node) start
        (updates.takeWhile fun update => update.1 < start + half))
      (overlayRoot nodes height (2 * node + 1) (start + half)
        (updates.dropWhile fun update => update.1 < start + half))

/-- `root_with_updates`; the updates come from an ordered map. -/
def rootWithUpdates (tree : ExactSegmentTree) (updates : List (Nat × SlotValue)) : Digest :=
  overlayRoot hasher tree.nodes tree.logSlots 1 0
    (updates.map fun update => (update.1, leafHash hasher tree.zeros update.2))

def residentBytes (tree : ExactSegmentTree) : Nat :=
  (tree.nodes.length + tree.zeros.length) * 32 + tree.columnBytes

end ExactSegmentTree

/-- A small cache in least-recently-written order. -/
structure ExactSegmentCache where
  entries : List (Nat × ExactSegmentTree)
  bytes : Nat
  budget : Nat
  deriving DecidableEq, Repr

namespace ExactSegmentCache

def defaultCacheBytes : Nat := 64 * 1024 * 1024

/-- `ExactSegmentCache::default`. -/
def default : ExactSegmentCache := ⟨[], 0, defaultCacheBytes⟩

def get (cache : ExactSegmentCache) (id : Nat) : Option ExactSegmentTree :=
  (cache.entries.find? fun entry => entry.1 == id).map Prod.snd

/-- The bytes of the first entry of a segment, which is the only one. -/
def bytesOf (cache : ExactSegmentCache) (id : Nat) : Nat :=
  ((cache.get id).map ExactSegmentTree.residentBytes).getD 0

def remove (cache : ExactSegmentCache) (id : Nat) : ExactSegmentCache :=
  { cache with
    entries := cache.entries.eraseP fun entry => entry.1 == id
    bytes := cache.bytes - cache.bytesOf id }

/-- Drop the oldest entries until `need` more bytes fit. -/
def makeRoom (budget need : Nat) : List (Nat × ExactSegmentTree) → Nat →
    List (Nat × ExactSegmentTree) × Nat
  | [], bytes => ([], bytes)
  | oldest :: rest, bytes =>
    if budget < bytes + need then makeRoom budget need rest (bytes - oldest.2.residentBytes)
    else (oldest :: rest, bytes)

def insert (cache : ExactSegmentCache) (id : Nat) (tree : ExactSegmentTree) : ExactSegmentCache :=
  let removed := cache.remove id
  if removed.budget < tree.residentBytes then removed
  else
    let (kept, bytes) := makeRoom removed.budget tree.residentBytes removed.entries removed.bytes
    { removed with entries := kept ++ [(id, tree)], bytes := bytes + tree.residentBytes }

def updateSlot (hasher : StateHasher) (cache : ExactSegmentCache) (id index : Nat)
    (slot : SlotValue) : ExactSegmentCache :=
  match cache.get id with
  | none => cache
  | some tree => { cache with
      entries := (cache.entries.eraseP fun entry => entry.1 == id) ++
        [(id, tree.setSlot hasher index slot)] }

def truncateSegments (cache : ExactSegmentCache) (count : Nat) : ExactSegmentCache :=
  let entries := cache.entries.filter fun entry => entry.1 < count
  { cache with entries, bytes := (entries.map fun entry => entry.2.residentBytes).sum }

end ExactSegmentCache

end ParanoidChain
