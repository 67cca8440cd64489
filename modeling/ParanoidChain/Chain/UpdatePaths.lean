import ParanoidChain.Chain.SparseMerkle

/-!
# Update paths

The expansion of one canonical frontier into a sequence of single-leaf updates, and its split at the
segment size into local updates and one update for each segment. As in the reconstruction, digests
are of any type.

The partial tree of the expansion is a map from level and position to a digest. Assertions of a
debug build, an `expect` and a slice out of bounds are panics.
-/

namespace ParanoidChain

open Lib Lib.Multiproof

variable {α : Type} (node : α → α → α)

/-- `SequentialMerkleUpdatePath`. -/
structure SequentialMerkleUpdatePath (α : Type) where
  index : Nat
  oldLeaf : α
  newLeaf : α
  siblings : List α
  directions : List Bool
  rootBefore : α
  rootAfter : α
  deriving DecidableEq, Repr

/-! ## The partial tree -/

/-- The nodes of the partial tree, by level and position. -/
abbrev PartialNodes (α : Type) := Nat × Nat → Option α

/-- Enter one frontier sibling; it cannot overlap a known node. -/
def insertFrontier (nodes : PartialNodes α) (entry : FrontierSiblingPosition × α) :
    Except (Fault SparseMerkleError) (PartialNodes α) := do
  let key := (entry.1.level, entry.1.nodeIndex)
  reject ((nodes key).isSome = true) .panic
  return Function.update nodes key (some entry.2)

/-- Enter the parent of one pair. -/
def joinPair (level : Nat) (nodes : PartialNodes α) (base : Nat) :
    Except (Fault SparseMerkleError) (PartialNodes α) := do
  let left ← okOr .panic (nodes (level, base))
  let right ← okOr .panic (nodes (level, base + 1))
  return Function.update nodes (level + 1, base / 2) (some (node left right))

/-- Enter the ancestors of the current positions, level by level. -/
def joinLevels : Nat → Nat → List Nat → PartialNodes α →
    Except (Fault SparseMerkleError) (PartialNodes α)
  | 0, _, _, nodes => return nodes
  | remaining + 1, level, current, nodes => do
    let joined ← (parentBases current).foldlM (joinPair node level) nodes
    joinLevels remaining (level + 1) ((parentBases current).map (· / 2)) joined

/-- The touched leaves, the frontier and every ancestor on their paths. -/
def partialTree (indices : List Nat) (oldLeaves siblings : List α)
    (positions : List FrontierSiblingPosition) (depth : Nat) :
    Except (Fault SparseMerkleError) (PartialNodes α) := do
  let leaves := (indices.zip oldLeaves).foldl (fun nodes entry =>
    Function.update nodes (0, entry.1) (some entry.2)) fun _ => none
  let nodes ← (positions.zip siblings).foldlM insertFrontier leaves
  joinLevels node depth 0 indices nodes

/-! ## Sequential updates -/

/-- The accumulators of one update path. -/
structure PathClimb (α : Type) where
  nodes : PartialNodes α
  currentHash : α
  siblings : List α
  directions : List Bool

/-- One level of an update path. -/
def climbLevel (index : Nat) (climb : PathClimb α) (level : Nat) :
    Except (Fault SparseMerkleError) (PathClimb α) := do
  let position := index / 2 ^ level
  let sibling ← okOr .panic (climb.nodes (level, position ^^^ 1))
  let isRight := position % 2 == 1
  let currentHash :=
    if isRight then node sibling climb.currentHash else node climb.currentHash sibling
  return {
    nodes := Function.update climb.nodes (level + 1, position / 2) (some currentHash)
    currentHash
    siblings := climb.siblings ++ [sibling]
    directions := climb.directions ++ [isRight] }

/-- The accumulators of the update loop. -/
structure UpdateScan (α : Type) where
  nodes : PartialNodes α
  rollingRoot : α
  out : List (SequentialMerkleUpdatePath α)

/-- One touched leaf; it still holds its old value. -/
def updateLeaf [DecidableEq α] (depth : Nat) (scan : UpdateScan α) (entry : (Nat × α) × α) :
    Except (Fault SparseMerkleError) (UpdateScan α) := do
  let ((index, oldLeaf), newLeaf) := entry
  reject (scan.nodes (0, index) ≠ some oldLeaf) .panic
  let climb ← (List.range depth).foldlM (climbLevel node index)
    ⟨Function.update scan.nodes (0, index) (some newLeaf), newLeaf, [], []⟩
  return {
    nodes := climb.nodes
    rollingRoot := climb.currentHash
    out := scan.out ++ [⟨index, oldLeaf, newLeaf, climb.siblings, climb.directions,
      scan.rollingRoot, climb.currentHash⟩] }

/-- `expand_multiproof_sequential_updates`. -/
def expandMultiproofSequentialUpdates [DecidableEq α] (indices : List Nat)
    (oldLeaves newLeaves siblings : List α) (depth : Nat) :
    Except (Fault SparseMerkleError) (List (SequentialMerkleUpdatePath α)) := do
  reject (indices.length ≠ oldLeaves.length)
    (.err (.leafCountMismatch indices.length oldLeaves.length))
  reject (indices.length ≠ newLeaves.length)
    (.err (.leafCountMismatch indices.length newLeaves.length))
  let positions ← frontierSiblingPositions indices depth
  reject (siblings.length ≠ positions.length)
    (.err (.proofLengthMismatch positions.length siblings.length))
  let nodes ← partialTree node indices oldLeaves siblings positions depth
  let rollingRoot ← okOr .panic (nodes (depth, 0))
  let scan ← ((indices.zip oldLeaves).zip newLeaves).foldlM (updateLeaf node depth)
    ⟨nodes, rollingRoot, []⟩
  let simultaneousNewRoot ← reconstructRoot node indices newLeaves siblings depth
  reject (scan.rollingRoot ≠ simultaneousNewRoot) .panic
  return scan.out

/-! ## Segmented updates -/

/-- `SegmentedSequentialMerkleUpdates`. -/
structure SegmentedSequentialMerkleUpdates (α : Type) where
  localDepth : Nat
  upperDepth : Nat
  localUpdates : List (SequentialMerkleUpdatePath α)
  segmentUpdates : List (SequentialMerkleUpdatePath α)
  deriving DecidableEq, Repr

/-- `fold_directed_path`. -/
def foldDirectedPath (leaf : α) (siblings : List α) (directions : List Bool) :
    Except (Fault SparseMerkleError) α := do
  reject (siblings.length ≠ directions.length) .panic
  return foldPath node leaf siblings directions

/-- `path[..count]`. -/
def sliceTo {β : Type} (count : Nat) (path : List β) : Except (Fault SparseMerkleError) (List β) :=
  if path.length < count then .error .panic else .ok (path.take count)

/-- `path[count..]`. -/
def sliceFrom {β : Type} (count : Nat) (path : List β) :
    Except (Fault SparseMerkleError) (List β) :=
  if path.length < count then .error .panic else .ok (path.drop count)

/-- One step cut at the segment boundary. -/
def localUpdate (localDepth : Nat) (step : SequentialMerkleUpdatePath α) :
    Except (Fault SparseMerkleError) (SequentialMerkleUpdatePath α) := do
  let siblings ← sliceTo localDepth step.siblings
  let directions ← sliceTo localDepth step.directions
  let rootBefore ← foldDirectedPath node step.oldLeaf siblings directions
  let rootAfter ← foldDirectedPath node step.newLeaf siblings directions
  return { step with siblings, directions, rootBefore, rootAfter }

/-- The segment of an index; a shift by the whole word is avoided. -/
def segmentOf (localDepth index : Nat) : Nat :=
  if localDepth = 32 then 0 else index / 2 ^ localDepth

/-- Neighbouring steps connect. -/
def checkChain [DecidableEq α] (steps : List (SequentialMerkleUpdatePath α)) :
    Except (Fault SparseMerkleError) Unit :=
  forM (steps.zip (steps.drop 1)) fun pair => reject (pair.1.rootAfter ≠ pair.2.rootBefore) .panic

/-- The update of one segment, from the full and local steps of its run. -/
def segmentUpdate [DecidableEq α] (localDepth upperDepth : Nat)
    (run : List (SequentialMerkleUpdatePath α × SequentialMerkleUpdatePath α)) :
    Except (Fault SparseMerkleError) (SequentialMerkleUpdatePath α) := do
  checkChain (run.map Prod.snd)
  let (firstFull, firstLocal) ← okOr .panic run.head?
  let (lastFull, lastLocal) ← okOr .panic run.getLast?
  let siblings ← sliceFrom localDepth firstFull.siblings
  let directions ← sliceFrom localDepth firstFull.directions
  reject (siblings.length ≠ upperDepth) .panic
  let before ← foldDirectedPath node firstLocal.rootBefore siblings directions
  reject (before ≠ firstFull.rootBefore) .panic
  let after ← foldDirectedPath node lastLocal.rootAfter siblings directions
  reject (after ≠ lastFull.rootAfter) .panic
  return {
    index := segmentOf localDepth firstFull.index
    oldLeaf := firstLocal.rootBefore
    newLeaf := lastLocal.rootAfter
    siblings
    directions
    rootBefore := firstFull.rootBefore
    rootAfter := lastFull.rootAfter }

/-- `expand_multiproof_segmented_updates`. -/
def expandMultiproofSegmentedUpdates [DecidableEq α] (indices : List Nat)
    (oldLeaves newLeaves siblings : List α) (depth logSegmentSize : Nat) :
    Except (Fault SparseMerkleError) (SegmentedSequentialMerkleUpdates α) := do
  let full ← expandMultiproofSequentialUpdates node indices oldLeaves newLeaves siblings depth
  let localDepth := min depth logSegmentSize
  let upperDepth := depth - localDepth
  let localUpdates ← full.mapM (localUpdate node localDepth)
  -- the runs of neighbours in one segment
  let runs := (full.zip localUpdates).splitBy fun pair next =>
    segmentOf localDepth pair.1.index == segmentOf localDepth next.1.index
  let segmentUpdates ← runs.mapM (segmentUpdate node localDepth upperDepth)
  checkChain segmentUpdates
  return ⟨localDepth, upperDepth, localUpdates, segmentUpdates⟩

end ParanoidChain
