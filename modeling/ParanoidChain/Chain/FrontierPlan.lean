import ParanoidChain.Chain.SparseMerkle

/-!
# Structural frontier plans and expanded paths

The hash plan of a touched set, derived from its indices alone and evaluated later over leaves and
siblings, and the expansion of a multiproof into one directed path for each leaf. Both walk the tree
level by level as the reconstruction does, each with bookkeeping of its own. An `unreachable!`, an
index out of bounds and a failed assertion of a debug build are panics.
-/

namespace ParanoidChain

open Lib Lib.Multiproof

/-- `StructuralNodeRef`. -/
inductive StructuralNodeRef where
  | touchedLeaf (ordinal : Nat)
  | frontierSibling (ordinal : Nat)
  | combine (ordinal : Nat)
  deriving DecidableEq, Repr

/-- `StructuralCombine`. -/
structure StructuralCombine where
  left : StructuralNodeRef
  right : StructuralNodeRef
  deriving DecidableEq, Repr

/-- `StructuralFrontierPlan`. -/
structure StructuralFrontierPlan where
  touchedLeafCount : Nat
  frontierPositions : List FrontierSiblingPosition
  combines : List StructuralCombine
  root : StructuralNodeRef
  deriving DecidableEq, Repr

/-! ## Derivation -/

/-- The accumulators of the derivation: the nodes of the level in work and the plan so far. -/
structure PlanScan where
  next : List (Nat × StructuralNodeRef)
  frontierPositions : List FrontierSiblingPosition
  combines : List StructuralCombine

/-- The two children of a pair; a missing one is the next frontier sibling. -/
def planChildren (level : Nat) (known : List (Nat × StructuralNodeRef))
    (positions : List FrontierSiblingPosition) (base : Nat) :
    Except (Fault SparseMerkleError) (StructuralCombine × List FrontierSiblingPosition) :=
  match known.lookup base, known.lookup (base + 1) with
  | some left, some right => return (⟨left, right⟩, positions)
  | some left, none =>
    return (⟨left, .frontierSibling positions.length⟩, positions ++ [⟨level, base + 1⟩])
  | none, some right =>
    return (⟨.frontierSibling positions.length, right⟩, positions ++ [⟨level, base⟩])
  | none, none => .error .panic

def planPair (level : Nat) (known : List (Nat × StructuralNodeRef)) (scan : PlanScan) (base : Nat) :
    Except (Fault SparseMerkleError) PlanScan := do
  let (children, positions) ← planChildren level known scan.frontierPositions base
  return {
    next := scan.next ++ [(base / 2, .combine scan.combines.length)]
    frontierPositions := positions
    combines := scan.combines ++ [children] }

/-- One level of `derive_structural_frontier_plan`. -/
def planLevel (level : Nat) (scan : PlanScan) : Except (Fault SparseMerkleError) PlanScan :=
  (parentBases (scan.next.map Prod.fst)).foldlM (planPair level scan.next) { scan with next := [] }

/-- The loop over the levels. -/
def planLoop : Nat → Nat → PlanScan → Except (Fault SparseMerkleError) PlanScan
  | 0, _, scan => return scan
  | remaining + 1, level, scan => do
    let above ← planLevel level scan
    planLoop remaining (level + 1) above

/-- The root is the only node left. -/
def rootOf {β : Type} (known : List (Nat × β)) (depth : Nat) :
    Except (Fault SparseMerkleError) β :=
  match known with
  | (0, root) :: _ => return root
  | _ => .error (.err (.invalidDepth depth))

/-- `derive_structural_frontier_plan`. -/
def deriveStructuralFrontierPlan (indices : List Nat) (depth : Nat) :
    Except (Fault SparseMerkleError) StructuralFrontierPlan := do
  (validateIndices indices depth).mapError .err
  let scan ← planLoop depth 0
    ⟨indices.mapIdx fun ordinal index => (index, .touchedLeaf ordinal), [], []⟩
  let root ← rootOf scan.next depth
  reject (scan.combines.length ≠ indices.length + scan.frontierPositions.length - 1) .panic
  return ⟨indices.length, scan.frontierPositions, scan.combines, root⟩

section Digests

variable {α : Type} (node : α → α → α)

/-! ## Evaluation -/

/-- `StructuralFrontierEvaluation`. -/
structure StructuralFrontierEvaluation (α : Type) where
  root : α
  combines : List α
  deriving DecidableEq, Repr

/-- `structural_node_hash`; `none` is an index out of bounds. -/
def structuralNodeHash (ref : StructuralNodeRef) (leaves siblings combines : List α) : Option α :=
  match ref with
  | .touchedLeaf ordinal => leaves[ordinal]?
  | .frontierSibling ordinal => siblings[ordinal]?
  | .combine ordinal => combines[ordinal]?

def evaluateCombine (leaves siblings combines : List α) (combine : StructuralCombine) :
    Except (Fault SparseMerkleError) (List α) := do
  let left ← okOr .panic (structuralNodeHash combine.left leaves siblings combines)
  let right ← okOr .panic (structuralNodeHash combine.right leaves siblings combines)
  return combines ++ [node left right]

/-- `evaluate_structural_frontier`. -/
def evaluateStructuralFrontier (plan : StructuralFrontierPlan) (leaves siblings : List α) :
    Except (Fault SparseMerkleError) (StructuralFrontierEvaluation α) := do
  reject (leaves.length ≠ plan.touchedLeafCount)
    (.err (.leafCountMismatch plan.touchedLeafCount leaves.length))
  reject (siblings.length ≠ plan.frontierPositions.length)
    (.err (.proofLengthMismatch plan.frontierPositions.length siblings.length))
  let combines ← plan.combines.foldlM (evaluateCombine node leaves siblings) []
  let root ← okOr .panic (structuralNodeHash plan.root leaves siblings combines)
  return ⟨root, combines⟩

/-! ## Expanded paths -/

/-- `ExpandedMerklePath`. -/
structure ExpandedMerklePath (α : Type) where
  index : Nat
  leaf : α
  siblings : List α
  directions : List Bool
  deriving DecidableEq, Repr

/-- A known node with the ordinals of the touched leaves below it. -/
structure PathNode (α : Type) where
  hash : α
  leaves : List Nat

/-- The two children of a pair; a missing one is the next sibling and has no leaves. -/
def expandChildren (known : List (Nat × PathNode α)) (siblings : List α) (base : Nat) :
    Except (Fault SparseMerkleError) ((PathNode α × PathNode α) × List α) :=
  match known.lookup base, known.lookup (base + 1), siblings with
  | some left, some right, siblings => return ((left, right), siblings)
  | some left, none, right :: siblings => return ((left, ⟨right, []⟩), siblings)
  | none, some right, left :: siblings => return ((⟨left, []⟩, right), siblings)
  | _, _, _ => .error .panic

/-- Write one level of a leaf's path. -/
def setPathLevel (level : Nat) (sibling : α) (direction : Bool) (out : List (ExpandedMerklePath α))
    (leafPos : Nat) : Except (Fault SparseMerkleError) (List (ExpandedMerklePath α)) := do
  let path ← okOr .panic out[leafPos]?
  reject (path.siblings.length ≤ level ∨ path.directions.length ≤ level) .panic
  return out.set leafPos { path with
    siblings := path.siblings.set level sibling
    directions := path.directions.set level direction }

/-- The accumulators of the expansion. -/
structure PathScan (α : Type) where
  next : List (Nat × PathNode α)
  siblings : List α
  out : List (ExpandedMerklePath α)

def expandPair (level : Nat) (known : List (Nat × PathNode α)) (scan : PathScan α) (base : Nat) :
    Except (Fault SparseMerkleError) (PathScan α) := do
  let ((left, right), siblings) ← expandChildren known scan.siblings base
  let out ← left.leaves.foldlM (setPathLevel level right.hash false) scan.out
  let out ← right.leaves.foldlM (setPathLevel level left.hash true) out
  return {
    next := scan.next ++ [(base / 2, ⟨node left.hash right.hash, left.leaves ++ right.leaves⟩)]
    siblings
    out }

/-- One level of `expand_multiproof_paths`. -/
def expandLevel (level : Nat) (scan : PathScan α) : Except (Fault SparseMerkleError) (PathScan α) :=
  (parentBases (scan.next.map Prod.fst)).foldlM (expandPair node level scan.next)
    { scan with next := [] }

/-- The loop over the levels. -/
def expandLoop : Nat → Nat → PathScan α → Except (Fault SparseMerkleError) (PathScan α)
  | 0, _, scan => return scan
  | remaining + 1, level, scan => do
    let above ← expandLevel node level scan
    expandLoop remaining (level + 1) above

/-- `expand_multiproof_paths`; `zero` is the digest the paths are filled with at first. -/
def expandMultiproofPaths (zero : α) (indices : List Nat) (leaves siblings : List α) (depth : Nat) :
    Except (Fault SparseMerkleError) (List (ExpandedMerklePath α)) := do
  reject (indices.length ≠ leaves.length)
    (.err (.leafCountMismatch indices.length leaves.length))
  let expected ← (expectedSiblingCount indices depth).mapError .err
  reject (siblings.length ≠ expected) (.err (.proofLengthMismatch expected siblings.length))
  let scan ← expandLoop node depth 0 {
    next := (indices.zip leaves).mapIdx fun leafPos entry => (entry.1, ⟨entry.2, [leafPos]⟩)
    siblings
    out := (indices.zip leaves).map fun entry =>
      ⟨entry.1, entry.2, List.replicate depth zero, List.replicate depth false⟩ }
  reject (scan.siblings.isEmpty = false) .panic
  return scan.out

end Digests

end ParanoidChain
