import ParanoidChain.Chain.SlotState
import ParanoidChain.Lib.Control
import ParanoidChain.Lib.Multiproof

/-!
# Sparse Merkle multiproofs

The canonical frontier of a set of leaves, the root it reconstructs, and the sparse cache it is read
from. Sets and maps of positions are lists in ascending order, which the checked indices start with
and every level keeps. Positions are natural numbers, and shifts and masks by powers of two are
division and remainder.

The assertions of a debug build are part of the model: one that fails is a panic, and so is an
`expect` or an index out of bounds.
-/

namespace ParanoidChain

open Lib Lib.Multiproof

/-- `SparseMerkleError`, without the errors of the padded class. -/
inductive SparseMerkleError where
  | invalidDepth (depth : Nat)
  | emptyIndices
  | leafCountMismatch (indices leaves : Nat)
  | unsortedIndices
  | duplicateIndex (index : Nat)
  | indexOutOfRange (index depth : Nat)
  | proofLengthMismatch (expected actual : Nat)
  | cacheDepthMismatch (cacheDepth requestedDepth : Nat)
  deriving DecidableEq, Repr

/-- One index of `validate_indices`, after the index before it. -/
def validateNextIndex (depth : Nat) (previous : Option Nat) (index : Nat) :
    Except SparseMerkleError (Option Nat) := do
  reject (2 ^ depth ≤ index) (.indexOutOfRange index depth)
  reject (previous.any (index < ·) = true) .unsortedIndices
  reject (previous = some index) (.duplicateIndex index)
  return some index

/-- `validate_indices`: ascending positions below `2 ^ depth`. -/
def validateIndices (indices : List Nat) (depth : Nat) : Except SparseMerkleError Unit := do
  reject (32 < depth) (.invalidDepth depth)
  reject (indices = []) .emptyIndices
  let _ ← indices.foldlM (validateNextIndex depth) none
  pure ()

/-! ## The frontier -/

/-- One level: a pair with one known child costs a sibling, and every pair gives a known parent. -/
def siblingLevel (known : List Nat) : Nat × List Nat :=
  let bases := (known.map fun pos => pos / 2 * 2).dedup
  (bases.countP fun base => decide (base ∈ known) != decide (base + 1 ∈ known), bases.map (· / 2))

/-- The loop over the levels. -/
def siblingCount : Nat → List Nat → Nat
  | 0, _ => 0
  | depth + 1, known => (siblingLevel known).1 + siblingCount depth (siblingLevel known).2

/-- `expected_sibling_count`. -/
def expectedSiblingCount (indices : List Nat) (depth : Nat) : Except SparseMerkleError Nat := do
  validateIndices indices depth
  return siblingCount depth indices

structure FrontierSiblingPosition where
  level : Nat
  nodeIndex : Nat
  deriving DecidableEq, Repr

/-- The sibling one pair lacks, if it lacks one. -/
def frontierPair (level : Nat) (known : List Nat) (base : Nat) :
    Except (Fault SparseMerkleError) (List FrontierSiblingPosition) :=
  match decide (base ∈ known), decide (base + 1 ∈ known) with
  | true, false => return [⟨level, base + 1⟩]
  | false, true => return [⟨level, base⟩]
  | true, true => return []
  | false, false => .error .panic

/-- The loop of `frontier_sibling_positions` over the levels. -/
def frontierLoop : Nat → Nat → List Nat →
    Except (Fault SparseMerkleError) (List FrontierSiblingPosition)
  | 0, _, _ => return []
  | remaining + 1, level, known => do
    let here ← (parentBases known).mapM (frontierPair level known)
    let above ← frontierLoop remaining (level + 1) ((parentBases known).map (· / 2))
    return here.flatten ++ above

/-- `frontier_sibling_positions`. -/
def frontierSiblingPositions (indices : List Nat) (depth : Nat) :
    Except (Fault SparseMerkleError) (List FrontierSiblingPosition) := do
  (validateIndices indices depth).mapError .err
  frontierLoop depth 0 indices

/-! ## Reconstruction

Digests are of any type here, and the hash of two children is a parameter. -/

section Reconstruction

variable {α : Type} (node : α → α → α)

/-- The parent of one pair; a missing child is the next sibling. -/
def reconstructPair (known : List (Nat × α)) (siblings : List α) (base : Nat) :
    Except (Fault SparseMerkleError) (α × List α) :=
  match known.lookup base, known.lookup (base + 1), siblings with
  | some left, some right, siblings => return (node left right, siblings)
  | some left, none, right :: siblings => return (node left right, siblings)
  | none, some right, left :: siblings => return (node left right, siblings)
  | _, _, _ => .error .panic

/-- One level of `reconstruct_root`. -/
def reconstructLevel (known : List (Nat × α)) (siblings : List α) :
    Except (Fault SparseMerkleError) (List (Nat × α) × List α) :=
  (parentBases (known.map Prod.fst)).foldlM (fun state base => do
    let (parent, rest) ← reconstructPair node known state.2 base
    return (state.1 ++ [(base / 2, parent)], rest)) ([], siblings)

/-- The loop over the levels. -/
def reconstructLoop : Nat → List (Nat × α) → List α →
    Except (Fault SparseMerkleError) (List (Nat × α) × List α)
  | 0, known, siblings => return (known, siblings)
  | remaining + 1, known, siblings => do
    let (next, rest) ← reconstructLevel node known siblings
    reconstructLoop remaining next rest

/-- `reconstruct_root`. -/
def reconstructRoot (indices : List Nat) (leaves siblings : List α) (depth : Nat) :
    Except (Fault SparseMerkleError) α := do
  reject (indices.length ≠ leaves.length)
    (.err (.leafCountMismatch indices.length leaves.length))
  let expected ← (expectedSiblingCount indices depth).mapError .err
  reject (siblings.length ≠ expected) (.err (.proofLengthMismatch expected siblings.length))
  let (known, rest) ← reconstructLoop node depth (indices.zip leaves) siblings
  reject (rest.isEmpty = false) .panic
  match known with
  | (0, root) :: _ => return root
  | _ => .error (.err (.invalidDepth depth))

end Reconstruction

/-! ## The sparse cache -/

/-- `SparseMerkleCache`: the nodes that differ from the zero node of their level. -/
structure SparseMerkleCache where
  depth : Nat
  nodes : Nat × Nat → Option Digest

namespace SparseMerkleCache

variable (hasher : StateHasher)

/-- `SparseMerkleCache::new`. -/
def new (depth : Nat) : Except SparseMerkleError SparseMerkleCache := do
  reject (32 < depth) (.invalidDepth depth)
  return ⟨depth, fun _ => none⟩

def nodeHash (cache : SparseMerkleCache) (level index : Nat) : Digest :=
  (cache.nodes (level, index)).getD (hasher.zeroSlotRoot level)

def root (cache : SparseMerkleCache) : Digest := cache.nodeHash hasher cache.depth 0

def setNode (cache : SparseMerkleCache) (level index : Nat) (hash : Digest) : SparseMerkleCache :=
  let stored := if hash = hasher.zeroSlotRoot level then none else some hash
  { cache with nodes := Function.update cache.nodes (level, index) stored }

/-- The path loop of `set_leaf`, from one level on. -/
def setPath : Nat → Nat → Nat → Digest → SparseMerkleCache → SparseMerkleCache
  | 0, _, _, _, cache => cache
  | remaining + 1, level, index, hash, cache =>
    let sibling := cache.nodeHash hasher level (index ^^^ 1)
    let parent := if index % 2 = 0 then hasher.stateNodeHash hash sibling
      else hasher.stateNodeHash sibling hash
    setPath remaining (level + 1) (index / 2) parent
      (cache.setNode hasher (level + 1) (index / 2) parent)

def setLeaf (cache : SparseMerkleCache) (index : Nat) (leaf : Digest) :
    Except SparseMerkleError SparseMerkleCache := do
  reject (32 < cache.depth) (.invalidDepth cache.depth)
  reject (2 ^ cache.depth ≤ index) (.indexOutOfRange index cache.depth)
  return setPath hasher cache.depth 0 index leaf (cache.setNode hasher 0 index leaf)

/-- `SparseMerkleCache::from_leaves`. -/
def fromLeaves (depth : Nat) (leaves : List (Nat × Digest)) :
    Except SparseMerkleError SparseMerkleCache := do
  let cache ← new depth
  leaves.foldlM (fun cache entry => cache.setLeaf hasher entry.1 entry.2) cache

end SparseMerkleCache

end ParanoidChain
