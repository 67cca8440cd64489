import ParanoidChain.Chain.FrontierPlan
import ParanoidChain.Laws.Chain.SparseMerkle
import Mathlib.Data.List.Sort

/-!
# A structural plan is the reconstruction without its hashes

While a plan is derived, every node it has introduced is either an operand of a combine or still
open, and the open nodes stand for positions of the level in work: `Planned` says this, and that the
combines evaluate to the nodes of any tree. It is kept by the two things a pair can do, add a
frontier sibling and combine two open nodes. At the top only the root is open.

The expansion of a proof into paths is the reconstruction in which a node also carries the ordinals
of the touched leaves below it.
-/

namespace ParanoidChain

open Lib Lib.Merkle Lib.Multiproof

/-! ## Plans in progress -/

def StructuralCombine.operands (combine : StructuralCombine) : List StructuralNodeRef :=
  [combine.left, combine.right]

/-- All nodes of a plan, each once. -/
def planNodes (leaves siblings combines : Nat) : List StructuralNodeRef :=
  (List.range leaves).map .touchedLeaf ++ ((List.range siblings).map .frontierSibling ++
    (List.range combines).map .combine)

/-- A leaf, a sibling or a combine before the given one. -/
def StructuralNodeRef.Before (leaves siblings combine : Nat) : StructuralNodeRef → Prop
  | .touchedLeaf ordinal => ordinal < leaves
  | .frontierSibling ordinal => ordinal < siblings
  | .combine ordinal => ordinal < combine

theorem mem_planNodes {leaves siblings combines : Nat} {ref : StructuralNodeRef} :
    ref ∈ planNodes leaves siblings combines ↔ ref.Before leaves siblings combines := by
  cases ref <;> simp [planNodes, StructuralNodeRef.Before]

theorem StructuralNodeRef.Before.mono {leaves siblings more combine : Nat}
    {ref : StructuralNodeRef} (before : ref.Before leaves siblings combine)
    (wider : siblings ≤ more) : ref.Before leaves more combine := by
  cases ref with
  | frontierSibling ordinal => exact Nat.lt_of_lt_of_le before wider
  | touchedLeaf ordinal => exact before
  | combine ordinal => exact before

theorem planNodes_sibling (leaves siblings combines : Nat) :
    (planNodes leaves (siblings + 1) combines).Perm
      (.frontierSibling siblings :: planNodes leaves siblings combines) := by
  simp only [planNodes, List.range_succ, List.map_append, List.map_cons, List.map_nil]
  rw [List.append_assoc, ← List.append_assoc]
  refine List.perm_middle.trans ?_
  simp [List.append_assoc]

theorem planNodes_combine (leaves siblings combines : Nat) :
    planNodes leaves siblings (combines + 1) =
      planNodes leaves siblings combines ++ [.combine combines] := by
  simp [planNodes, List.range_succ]

/-- An open node: a node of the plan and the position it stands for. -/
structure OpenNode where
  ref : StructuralNodeRef
  level : Nat
  pos : Nat

/-- A plan in progress over the touched indices. -/
structure Planned (indices : List Nat) (positions : List FrontierSiblingPosition)
    (combines : List StructuralCombine) (live : List OpenNode) : Prop where
  once : (combines.flatMap StructuralCombine.operands ++ live.map OpenNode.ref).Perm
    (planNodes indices.length positions.length combines.length)
  earlier : ∀ (ordinal : Nat) (combine : StructuralCombine), combines[ordinal]? = some combine →
    ∀ ref ∈ combine.operands, ref.Before indices.length positions.length ordinal
  evaluates : ∀ {α : Type} {node : α → α → α} {value : Nat → Nat → α}, Along node indices value →
    ∀ more, ∃ hashes, combines.foldlM (evaluateCombine node (indices.map (value 0))
        (siblingsOf value positions ++ more)) [] = .ok hashes ∧ hashes.length = combines.length ∧
      ∀ place ∈ live, structuralNodeHash place.ref (indices.map (value 0))
        (siblingsOf value positions ++ more) hashes = some (value place.level place.pos)

namespace Planned

variable {indices : List Nat} {positions : List FrontierSiblingPosition}
  {combines : List StructuralCombine} {live : List OpenNode}

section

variable (planned : Planned indices positions combines live)
include planned

/-- The order of the open nodes is of no matter. -/
theorem perm {order : List OpenNode} (same : live.Perm order) :
    Planned indices positions combines order where
  once := ((List.Perm.refl _).append (same.map _).symm).trans planned.once
  earlier := planned.earlier
  evaluates along more := by
    obtain ⟨hashes, ran, length, reads⟩ := planned.evaluates along more
    exact ⟨hashes, ran, length, fun place member => reads place (same.mem_iff.mpr member)⟩

theorem before {place : OpenNode} (member : place ∈ live) :
    place.ref.Before indices.length positions.length combines.length :=
  mem_planNodes.mp (planned.once.mem_iff.mp
    (List.mem_append_right _ (List.mem_map_of_mem member)))

/-- A frontier sibling is a new open node. -/
theorem sibling (position : FrontierSiblingPosition) :
    Planned indices (positions ++ [position]) combines
      (⟨.frontierSibling positions.length, position.level, position.nodeIndex⟩ :: live) where
  once := by
    rw [List.length_append, List.length_singleton, List.map_cons]
    exact List.perm_middle.trans ((planned.once.cons _).trans (planNodes_sibling _ _ _).symm)
  earlier ordinal combine found ref member :=
    (planned.earlier ordinal combine found ref member).mono (by simp)
  evaluates {α node value} along more := by
    have split : siblingsOf value (positions ++ [position]) ++ more =
        siblingsOf value positions ++ (value position.level position.nodeIndex :: more) := by
      simp [siblingsOf]
    rw [split]
    obtain ⟨hashes, ran, length, reads⟩ :=
      planned.evaluates along (value position.level position.nodeIndex :: more)
    refine ⟨hashes, ran, length, fun place member => ?_⟩
    rcases List.mem_cons.mp member with rfl | member
    · simp [structuralNodeHash, siblingsOf]
    · exact reads place member

end

/-- Two open children are combined into their parent. -/
theorem combine {left right : StructuralNodeRef} {level base : Nat}
    (planned : Planned indices positions combines
      (⟨left, level, base⟩ :: ⟨right, level, base + 1⟩ :: live))
    (even : 2 * (base / 2) = base) (above : Above indices (level + 1) (base / 2)) :
    Planned indices positions (combines ++ [⟨left, right⟩])
      (⟨.combine combines.length, level + 1, base / 2⟩ :: live) where
  once := by
    rw [List.length_append, List.length_singleton, planNodes_combine, List.flatMap_append,
      List.map_cons]
    refine List.perm_middle.trans (List.Perm.trans ?_ (List.perm_append_singleton _ _).symm)
    refine List.Perm.cons _ (List.Perm.trans ?_ planned.once)
    simp [StructuralCombine.operands]
  earlier ordinal combine found ref member := by
    rcases Nat.lt_trichotomy ordinal combines.length with old | rfl | past
    · rw [List.getElem?_append_left old] at found
      exact planned.earlier ordinal combine found ref member
    · simp only [List.getElem?_concat_length, Option.some.injEq] at found
      subst found
      rcases List.mem_pair.mp member with rfl | rfl
      · exact planned.before (by simp : (⟨ref, level, base⟩ : OpenNode) ∈ _)
      · exact planned.before (by simp : (⟨ref, level, base + 1⟩ : OpenNode) ∈ _)
    · rw [List.getElem?_eq_none (by simp only [List.length_append, List.length_singleton]; omega)]
        at found
      exact absurd found (by simp)
  evaluates {α node value} along more := by
    obtain ⟨hashes, ran, length, reads⟩ := planned.evaluates along more
    refine ⟨hashes ++ [value (level + 1) (base / 2)], ?_, by simp [length], fun place member => ?_⟩
    · rw [List.foldlM_append, ran, along level _ above, even]
      have readLeft := reads ⟨left, level, base⟩ (by simp)
      have readRight := reads ⟨right, level, base + 1⟩ (by simp)
      simp only [List.foldlM_cons, List.foldlM_nil, bind_eq_ok, pure_eq_ok, evaluateCombine,
        okOr_eq_ok]
      exact ⟨_, rfl, _, ⟨_, readLeft, _, readRight, rfl⟩, rfl⟩
    · rcases List.mem_cons.mp member with rfl | member
      · simp [structuralNodeHash, ← length]
      · have old := reads place (by simp [member])
        have inside := planned.before (show place ∈ _ from List.mem_cons_of_mem _
          (List.mem_cons_of_mem _ member))
        obtain ⟨ref, _, _⟩ := place
        cases ref with
        | touchedLeaf ordinal => exact old
        | frontierSibling ordinal => exact old
        | combine ordinal =>
          simp only [structuralNodeHash]
          rw [List.getElem?_append_left (length ▸ inside)]
          exact old

end Planned

/-! ## The derivation -/

/-- The positions of a level, pair by pair. -/
theorem perm_pairs {known : List Nat} (nodup : known.Nodup) :
    ((parentBases known).flatMap fun base => [base, base + 1].filter (· ∈ known)).Perm known := by
  refine (List.perm_ext_iff_of_nodup (List.nodup_flatMap.mpr ⟨fun base _ => ?_, ?_⟩) nodup).mpr
    fun pos => ?_
  · exact (show [base, base + 1].Nodup by simp).filter _
  · refine (List.nodup_dedup _).imp_of_mem fun {first second} one two apart => ?_
    intro pos left right
    have := parentBases_even one
    have := parentBases_even two
    have := List.mem_of_mem_filter left
    have := List.mem_of_mem_filter right
    simp only [List.mem_cons, List.not_mem_nil, or_false] at *
    omega
  · simp only [List.mem_flatMap, List.mem_filter, decide_eq_true_eq]
    constructor
    · rintro ⟨_, _, _, inside⟩
      exact inside
    · intro inside
      refine ⟨pos / 2 * 2, mem_parentBases.mpr ⟨pos, inside, rfl⟩, ?_, inside⟩
      simp only [List.mem_cons, List.not_mem_nil, or_false]
      omega

/-- The known nodes of one level as open nodes. -/
def openAt (level : Nat) (known : List (Nat × StructuralNodeRef)) : List OpenNode :=
  known.map fun entry => ⟨entry.2, level, entry.1⟩

theorem openAt_concat (level : Nat) (known : List (Nat × StructuralNodeRef)) (pos : Nat)
    (ref : StructuralNodeRef) :
    openAt level (known ++ [(pos, ref)]) = openAt level known ++ [⟨ref, level, pos⟩] := by
  simp [openAt]

variable {indices : List Nat} {level : Nat} {known : List Nat}

/-- Whatever a pair lacks is added to the open nodes, so both children are open. -/
theorem planChildren_keeps {ref : Nat → StructuralNodeRef}
    {positions : List FrontierSiblingPosition} {combines : List StructuralCombine}
    {live : List OpenNode} {base : Nat} (member : base ∈ parentBases known)
    (planned : Planned indices positions combines
      (([base, base + 1].filter (· ∈ known)).map (fun pos => ⟨ref pos, level, pos⟩) ++ live)) :
    ∃ children, planChildren level (known.map fun pos => (pos, ref pos)) positions base =
        .ok (children, positions ++ lacking level known base) ∧
      Planned indices (positions ++ lacking level known base) combines
        (⟨children.left, level, base⟩ :: ⟨children.right, level, base + 1⟩ :: live) := by
  unfold planChildren lacking
  rw [lookup_map_pair, lookup_map_pair]
  by_cases left : base ∈ known <;> by_cases right : base + 1 ∈ known <;>
    simp only [left, right, List.filter_cons, List.filter_nil, decide_true, decide_false, if_true,
      Bool.false_eq_true, if_false, List.map_cons, List.map_nil, List.cons_append, List.nil_append,
      List.append_nil] at planned ⊢
  · exact ⟨⟨ref base, ref (base + 1)⟩, rfl, planned⟩
  · exact ⟨⟨ref base, .frontierSibling positions.length⟩, rfl,
      (planned.sibling ⟨level, base + 1⟩).perm (List.Perm.swap _ _ _)⟩
  · exact ⟨⟨.frontierSibling positions.length, ref (base + 1)⟩, rfl,
      planned.sibling ⟨level, base⟩⟩
  · exact absurd (known_of_mem_parentBases member) (by simp [left, right])

/-- One pair: its known children are used up, its parent is open. -/
theorem planPair_keeps {ref : Nat → StructuralNodeRef} {scan : PlanScan} {live : List OpenNode}
    {base : Nat} (held : Level indices level known) (member : base ∈ parentBases known)
    (planned : Planned indices scan.frontierPositions scan.combines
      (([base, base + 1].filter (· ∈ known)).map (fun pos => ⟨ref pos, level, pos⟩) ++ live)) :
    ∃ after, planPair level (known.map fun pos => (pos, ref pos)) scan base = .ok after ∧
      after.next = scan.next ++ [(base / 2, .combine scan.combines.length)] ∧
      after.frontierPositions = scan.frontierPositions ++ lacking level known base ∧
      Planned indices after.frontierPositions after.combines
        (⟨.combine scan.combines.length, level + 1, base / 2⟩ :: live) := by
  have above : Above indices (level + 1) (base / 2) :=
    (held.next.mem_iff _).mp (List.mem_map_of_mem member)
  obtain ⟨children, chosen, opened⟩ := planChildren_keeps member planned
  exact ⟨_, bind_eq_ok.mpr ⟨_, chosen, rfl⟩, rfl, rfl,
    opened.combine (parentBases_even member) above⟩

/-- The pairs of a level one after another. -/
theorem foldlM_planPair (ref : Nat → StructuralNodeRef) (held : Level indices level known) :
    ∀ (bases : List Nat) (scan : PlanScan), (∀ base ∈ bases, base ∈ parentBases known) →
      Planned indices scan.frontierPositions scan.combines
        ((bases.flatMap fun base => [base, base + 1].filter (· ∈ known)).map
          (fun pos => ⟨ref pos, level, pos⟩) ++ openAt (level + 1) scan.next) →
      ∃ after, bases.foldlM (planPair level (known.map fun pos => (pos, ref pos))) scan =
          .ok after ∧
        after.next.map Prod.fst = scan.next.map Prod.fst ++ bases.map (· / 2) ∧
        after.frontierPositions = scan.frontierPositions ++ bases.flatMap (lacking level known) ∧
        Planned indices after.frontierPositions after.combines (openAt (level + 1) after.next)
  | [], scan, _, planned => ⟨scan, rfl, by simp, by simp, by simpa using planned⟩
  | base :: bases, scan, members, planned => by
    rw [List.flatMap_cons, List.map_append, List.append_assoc] at planned
    obtain ⟨middle, ran, next, positions, kept⟩ :=
      planPair_keeps held (members base (by simp)) planned
    obtain ⟨after, rest, keys, asked, ended⟩ := foldlM_planPair ref held bases middle
      (fun other inside => members other (by simp [inside])) (by
        refine kept.perm ?_
        rw [next, openAt_concat, ← List.append_assoc]
        exact (List.perm_append_singleton _ _).symm)
    refine ⟨after, foldlM_cons_eq_ok.mpr ⟨middle, ran, rest⟩, ?_, ?_, ended⟩
    · rw [keys, next]
      simp
    · rw [asked, positions]
      simp

/-- A level turns its open nodes into those above them. -/
theorem planLevel_keeps {scan : PlanScan} (held : Level indices level (scan.next.map Prod.fst))
    (planned : Planned indices scan.frontierPositions scan.combines (openAt level scan.next)) :
    ∃ after, planLevel level scan = .ok after ∧
      after.next.map Prod.fst = parents (scan.next.map Prod.fst) ∧
      after.frontierPositions = scan.frontierPositions ++
        (parentBases (scan.next.map Prod.fst)).flatMap (lacking level (scan.next.map Prod.fst)) ∧
      Planned indices after.frontierPositions after.combines (openAt (level + 1) after.next) := by
  have nodup : (scan.next.map Prod.fst).Nodup := held.sorted.nodup
  have : Nonempty StructuralNodeRef := ⟨.touchedLeaf 0⟩
  obtain ⟨ref, refs⟩ := exists_map_eq nodup
    (show _ = (scan.next.map Prod.snd).length by simp)
  have entries : (scan.next.map Prod.fst).map (fun pos => (pos, ref pos)) = scan.next := by
    rw [List.map_prod_left_eq_zip, refs, ← List.unzip_fst, ← List.unzip_snd, List.zip_unzip]
  obtain ⟨after, ran, keys, positions, kept⟩ := foldlM_planPair ref held
    (parentBases (scan.next.map Prod.fst)) { scan with next := [] } (fun _ member => member) (by
      refine planned.perm ?_
      rw [show openAt (level + 1) [] = [] from rfl, List.append_nil]
      have all := ((perm_pairs nodup).map fun pos => (⟨ref pos, level, pos⟩ : OpenNode)).symm
      rwa [show (scan.next.map Prod.fst).map (fun pos => (⟨ref pos, level, pos⟩ : OpenNode)) =
        openAt level scan.next by rw [← entries, openAt]; simp] at all)
  rw [entries] at ran
  exact ⟨after, ran, keys, positions, kept⟩

theorem planLoop_keeps :
    ∀ (remaining level : Nat) (scan : PlanScan), Level indices level (scan.next.map Prod.fst) →
      Planned indices scan.frontierPositions scan.combines (openAt level scan.next) →
      ∃ after, planLoop remaining level scan = .ok after ∧
        Level indices (level + remaining) (after.next.map Prod.fst) ∧
        after.frontierPositions = scan.frontierPositions ++
          frontierFrom remaining level (scan.next.map Prod.fst) ∧
        Planned indices after.frontierPositions after.combines
          (openAt (level + remaining) after.next)
  | 0, level, scan, held, planned => ⟨scan, rfl, held, by simp [frontierFrom], planned⟩
  | remaining + 1, level, scan, held, planned => by
    obtain ⟨middle, ran, keys, positions, kept⟩ := planLevel_keeps held planned
    obtain ⟨after, rest, reached, asked, ended⟩ :=
      planLoop_keeps remaining (level + 1) middle (keys ▸ held.next) kept
    rw [show level + 1 + remaining = level + (remaining + 1) by omega] at reached ended
    refine ⟨after, bind_eq_ok.mpr ⟨middle, ran, rest⟩, reached, ?_, ended⟩
    rw [asked, positions, keys, frontierFrom, List.append_assoc]

/-- Before the first level the leaves are open. -/
theorem planned_leaves (indices : List Nat) :
    Planned indices [] [] (openAt 0 (indices.mapIdx fun ordinal index =>
      (index, .touchedLeaf ordinal))) where
  once := by
    have refs : (openAt 0 (indices.mapIdx fun ordinal index =>
        (index, StructuralNodeRef.touchedLeaf ordinal))).map OpenNode.ref =
          (List.range indices.length).map .touchedLeaf :=
      List.ext_getElem (by simp [openAt]) (by simp [openAt])
    rw [refs]
    simp [planNodes]
  earlier ordinal combine found := by simp at found
  evaluates {α node value} along more := by
    refine ⟨[], rfl, rfl, fun place member => ?_⟩
    simp only [openAt, List.mem_map, List.mem_mapIdx] at member
    obtain ⟨_, ⟨ordinal, bound, rfl⟩, rfl⟩ := member
    simp [structuralNodeHash, bound]

/-- The plan of checked indices: a single-use tree of combines over its leaves and siblings. -/
structure IsPlan (indices : List Nat) (depth : Nat) (plan : StructuralFrontierPlan) : Prop where
  leaves : plan.touchedLeafCount = indices.length
  positions : plan.frontierPositions = frontierFrom depth 0 indices
  planned : Planned indices plan.frontierPositions plan.combines [⟨plan.root, depth, 0⟩]

theorem Planned.length_combines {positions : List FrontierSiblingPosition}
    {combines : List StructuralCombine} {root : OpenNode}
    (planned : Planned indices positions combines [root]) :
    combines.length + 1 = indices.length + positions.length := by
  have sizes := planned.once.length_eq
  have operands : (combines.flatMap StructuralCombine.operands).length = 2 * combines.length := by
    rw [List.length_flatMap]
    simp [StructuralCombine.operands, Nat.mul_comm]
  simp only [List.length_append, operands, List.length_map, List.length_singleton, planNodes,
    List.length_range] at sizes
  omega

/-- `derive_structural_frontier_plan` succeeds on checked indices. -/
theorem deriveStructuralFrontierPlan_isPlan {depth : Nat} (valid : ValidIndices indices depth) :
    ∃ plan, deriveStructuralFrontierPlan indices depth = .ok plan ∧ IsPlan indices depth plan := by
  have keys : (indices.mapIdx fun ordinal index =>
      (index, StructuralNodeRef.touchedLeaf ordinal)).map Prod.fst = indices :=
    List.ext_getElem (by simp) (by simp)
  obtain ⟨scan, ran, reached, positions, planned⟩ := planLoop_keeps depth 0
    ⟨indices.mapIdx fun ordinal index => (index, .touchedLeaf ordinal), [], []⟩
    (keys.symm ▸ Level.start valid.sorted) (planned_leaves indices)
  rw [Nat.zero_add] at reached planned
  -- only the root is left
  obtain ⟨⟨_, root⟩, top, rfl⟩ := List.map_eq_singleton_iff.mp
    (reached.top valid.nonempty valid.inside)
  rw [top] at planned
  have count := planned.length_combines
  have some := List.length_pos_of_ne_nil valid.nonempty
  refine ⟨⟨indices.length, scan.frontierPositions, scan.combines, root⟩, ?_, rfl, ?_, planned⟩
  · simp only [deriveStructuralFrontierPlan, bind_eq_ok, mapError_ok_iff, validateIndices_eq_ok,
      reject_eq_ok, pure_eq_ok]
    exact ⟨(), valid, scan, ran, root, by rw [top]; rfl, (), by omega, rfl⟩
  · rw [positions, keys, List.nil_append]

/-! ## Evaluation -/

/-- On checked indices the reconstruction misses a leaf, misses a sibling, or walks a tree. -/
inductive Outcome {α : Type} (node : α → α → α) (indices : List Nat) (depth : Nat)
    (leaves siblings : List α) : Except (Fault SparseMerkleError) α → Prop where
  | leafCount (apart : indices.length ≠ leaves.length) : Outcome node indices depth leaves siblings
      (.error (.err (.leafCountMismatch indices.length leaves.length)))
  | siblingCount (same : indices.length = leaves.length)
      (apart : siblings.length ≠ (frontierFrom depth 0 indices).length) :
      Outcome node indices depth leaves siblings
        (.error (.err (.proofLengthMismatch (frontierFrom depth 0 indices).length siblings.length)))
  | tree (value : Nat → Nat → α) (along : Along node indices value)
      (below : leaves = indices.map (value 0))
      (beside : siblings = siblingsOf value (frontierFrom depth 0 indices)) :
      Outcome node indices depth leaves siblings (.ok (value depth 0))

theorem reconstructRoot_outcome {α : Type} (node : α → α → α) {depth : Nat}
    (valid : ValidIndices indices depth) (leaves siblings : List α) :
    Outcome node indices depth leaves siblings
      (reconstructRoot node indices leaves siblings depth) := by
  have expected := valid.expectedSiblingCount_eq
  by_cases leafCount : indices.length = leaves.length
  case neg =>
    have stop : reconstructRoot node indices leaves siblings depth =
        .error (.err (.leafCountMismatch indices.length leaves.length)) := by
      simp [reconstructRoot, reject, leafCount, bind, Except.bind]
    exact stop ▸ .leafCount leafCount
  by_cases siblingCount : siblings.length = (frontierFrom depth 0 indices).length
  case neg =>
    have stop : reconstructRoot node indices leaves siblings depth =
        .error (.err (.proofLengthMismatch (frontierFrom depth 0 indices).length siblings.length)) := by
      simp [reconstructRoot, reject, leafCount, expected, siblingCount, bind, Except.bind,
        Except.mapError]
    exact stop ▸ .siblingCount leafCount siblingCount
  obtain ⟨leaf, frontier, rfl, rfl⟩ := valid.exists_tree leafCount siblingCount.symm
  rw [reconstructRoot_eq_ok.mpr ⟨valid, leaf, frontier, rfl, rfl, rfl⟩]
  refine .tree (pruned node indices leaf frontier) along_pruned ?_ ?_
  · exact List.map_congr_left fun index inside => (pruned_leaf inside).symm
  · refine List.map_congr_left fun position found => ?_
    rw [pruned_frontier ((mem_frontierFrom (Level.start valid.sorted)).mp found).2.2.1]

/-- Evaluating a plan is the reconstruction, on any leaves and siblings. -/
theorem IsPlan.evaluate {α : Type} (node : α → α → α) {depth : Nat} {plan : StructuralFrontierPlan}
    (is : IsPlan indices depth plan) (valid : ValidIndices indices depth)
    (leaves siblings : List α) :
    (evaluateStructuralFrontier node plan leaves siblings).map StructuralFrontierEvaluation.root =
      reconstructRoot node indices leaves siblings depth := by
  have outcome := reconstructRoot_outcome node valid leaves siblings
  generalize reconstructRoot node indices leaves siblings depth = result at outcome ⊢
  cases outcome with
  | leafCount apart =>
    simp [evaluateStructuralFrontier, reject, is.leaves, apart.symm, bind, Except.bind, Except.map]
  | siblingCount same apart =>
    simp [evaluateStructuralFrontier, reject, is.leaves, same, is.positions, apart, bind,
      Except.bind, Except.map]
  | tree value along below beside =>
    obtain ⟨hashes, ran, -, reads⟩ := is.planned.evaluates along []
    rw [List.append_nil, is.positions] at ran reads
    suffices done : evaluateStructuralFrontier node plan leaves siblings =
        .ok ⟨value depth 0, hashes⟩ by rw [done]; rfl
    rw [below, beside]
    simp only [evaluateStructuralFrontier, bind_eq_ok, reject_eq_ok, pure_eq_ok, okOr_eq_ok]
    exact ⟨(), by simp [is.leaves], (), by simp [is.positions, siblingsOf], hashes, ran, _,
      reads ⟨plan.root, depth, 0⟩ (by simp), rfl⟩

/-! ## Expanded paths -/

/-- The ordinals of the touched leaves below a position. -/
def ordinalsBelow (indices : List Nat) (level pos : Nat) : List Nat :=
  (List.range indices.length).filter fun ordinal => indices[ordinal]?.any (· / 2 ^ level = pos)

theorem mem_ordinalsBelow {ordinal pos : Nat} :
    ordinal ∈ ordinalsBelow indices level pos ↔
      ∃ index, indices[ordinal]? = some index ∧ index / 2 ^ level = pos := by
  simp only [ordinalsBelow, List.mem_filter, List.mem_range, Option.any_eq_true, decide_eq_true_eq]
  exact and_iff_right_of_imp fun ⟨_, found, _⟩ => (List.getElem?_eq_some_iff.mp found).1

theorem pairwise_ordinalsBelow (indices : List Nat) (level pos : Nat) :
    (ordinalsBelow indices level pos).Pairwise (· < ·) := List.pairwise_lt_range.filter _

/-- Over ascending indices those below a pair come child by child. -/
theorem ordinalsBelow_succ (sorted : indices.Pairwise (· < ·)) (level : Nat) {base : Nat}
    (even : 2 * (base / 2) = base) :
    ordinalsBelow indices (level + 1) (base / 2) =
      ordinalsBelow indices level base ++ ordinalsBelow indices level (base + 1) := by
  have child (index : Nat) : index / 2 ^ (level + 1) = base / 2 ↔
      index / 2 ^ level = base ∨ index / 2 ^ level = base + 1 := by
    rw [Nat.pow_succ, ← Nat.div_div_eq_div_mul]
    omega
  refine (pairwise_ordinalsBelow ..).eq_of_mem_iff (List.pairwise_append.mpr
    ⟨pairwise_ordinalsBelow .., pairwise_ordinalsBelow .., fun first one second two => ?_⟩)
    fun ordinal => ?_
  · obtain ⟨_, found, here⟩ := mem_ordinalsBelow.mp one
    obtain ⟨_, again, there⟩ := mem_ordinalsBelow.mp two
    obtain ⟨bound, rfl⟩ := List.getElem?_eq_some_iff.mp found
    obtain ⟨bound', rfl⟩ := List.getElem?_eq_some_iff.mp again
    rcases Nat.lt_trichotomy first second with less | rfl | more
    · exact less
    · omega
    · have order := List.pairwise_iff_getElem.mp sorted second first bound' bound more
      have := Nat.div_le_div_right (c := 2 ^ level) order.le
      omega
  · rw [List.mem_append, mem_ordinalsBelow, mem_ordinalsBelow, mem_ordinalsBelow, ← exists_or]
    simp only [child, and_or_left]

section Paths

variable {α : Type} {node : α → α → α} {value : Nat → Nat → α} {zero : α} {depth : Nat}

/-- The path of a leaf of which the first levels are written. -/
def pathUpTo (value : Nat → Nat → α) (zero : α) (depth count index : Nat) : ExpandedMerklePath α where
  index := index
  leaf := value 0 index
  siblings := siblingsFrom value index 0 count ++ List.replicate (depth - count) zero
  directions := directionsFrom index 0 count ++ List.replicate (depth - count) false

/-- The paths of all leaves. -/
def pathsUpTo (indices : List Nat) (value : Nat → Nat → α) (zero : α) (depth : Nat)
    (count : Nat → Nat) : List (ExpandedMerklePath α) :=
  indices.map fun index => pathUpTo value zero depth (count index) index

theorem getElem?_iff_idxOf {ordinal index : Nat} (nodup : indices.Nodup) (inside : index ∈ indices) :
    indices[ordinal]? = some index ↔ indices.idxOf index = ordinal := by
  constructor
  · intro found
    obtain ⟨bound, here⟩ := List.getElem?_eq_some_iff.mp found
    rw [← here, nodup.idxOf_getElem]
  · rintro rfl
    exact List.getElem?_idxOf inside

/-- Writing the next level of a path. -/
theorem setPathLevel_eq (nodup : indices.Nodup) (low : level < depth) {ordinal index : Nat}
    {count : Nat → Nat} (found : indices[ordinal]? = some index) (reached : count index = level) :
    setPathLevel level (value level (index / 2 ^ level ^^^ 1)) (index / 2 ^ level % 2 == 1)
        (pathsUpTo indices value zero depth count) ordinal =
      .ok (pathsUpTo indices value zero depth (Function.update count index (level + 1))) := by
  have next : depth - level = depth - (level + 1) + 1 := by omega
  have bound := (List.getElem?_eq_some_iff.mp found).1
  simp only [setPathLevel, bind_eq_ok, okOr_eq_ok, reject_eq_ok, pure_eq_ok]
  refine ⟨pathUpTo value zero depth level index, ?_, (), by simp [pathUpTo]; omega, ?_⟩
  · rw [pathsUpTo, List.getElem?_map, found, Option.map_some, reached]
  · refine List.ext_getElem? fun other => ?_
    rw [List.getElem?_set, pathsUpTo, pathsUpTo, List.getElem?_map, List.getElem?_map]
    by_cases here : ordinal = other
    · subst here
      rw [if_pos rfl, if_pos (by simpa using bound), found, Option.map_some, Function.update_self]
      simp [pathUpTo, next, List.replicate_succ, siblingsFrom_concat, directionsFrom_concat]
    · rw [if_neg here]
      refine Option.map_congr fun entry at_other => ?_
      rw [Function.update_of_ne]
      rintro rfl
      exact here (((getElem?_iff_idxOf nodup (List.mem_of_getElem? found)).mp found).symm.trans
        ((getElem?_iff_idxOf nodup (List.mem_of_getElem? found)).mp at_other))

/-- Writing a level of the paths of all leaves below a position. -/
theorem foldlM_setPathLevel (value : Nat → Nat → α) (zero : α) (nodup : indices.Nodup)
    (low : level < depth) (pos : Nat) (count : Nat → Nat)
    (fresh : ∀ index, index / 2 ^ level = pos → count index = level) :
    (ordinalsBelow indices level pos).foldlM
        (setPathLevel level (value level (pos ^^^ 1)) (pos % 2 == 1))
        (pathsUpTo indices value zero depth count) =
      .ok (pathsUpTo indices value zero depth fun index =>
        if index / 2 ^ level = pos then level + 1 else count index) := by
  obtain ⟨after, ran, same⟩ := foldlM_exists
    (f := setPathLevel level (value level (pos ^^^ 1)) (pos % 2 == 1))
    (l := ordinalsBelow indices level pos)
    (P := fun done out => out = pathsUpTo indices value zero depth fun index =>
      if indices.idxOf index ∈ done then level + 1 else count index)
    (s := pathsUpTo indices value zero depth count) (by simp) (by
      rintro done ordinal rest _ split rfl
      obtain ⟨index, found, rfl⟩ := mem_ordinalsBelow.mp
        (show ordinal ∈ ordinalsBelow indices level pos by rw [split]; simp)
      have inside := List.mem_of_getElem? found
      have place := (getElem?_iff_idxOf nodup inside).mp found
      have new : ordinal ∉ done := by
        have distinct := (pairwise_ordinalsBelow indices level (index / 2 ^ level)).nodup
        rw [split] at distinct
        exact fun old => (List.nodup_append'.mp distinct).2.2 old (by simp)
      refine ⟨_, setPathLevel_eq nodup low found (by rw [place, if_neg new, fresh index rfl]), ?_⟩
      refine List.map_congr_left fun other member => ?_
      by_cases here : other = index
      · subst here
        simp [place]
      · have apart : indices.idxOf other ≠ ordinal := fun same =>
          here (Option.some.inj (((getElem?_iff_idxOf nodup member).mpr same).symm.trans found))
        simp [Function.update_of_ne here, apart])
  rw [ran, same]
  refine congrArg _ (List.map_congr_left fun index inside => ?_)
  have below : indices.idxOf index ∈ ordinalsBelow indices level pos ↔
      index / 2 ^ level = pos := by
    rw [mem_ordinalsBelow, List.getElem?_idxOf inside]
    simp
  simp only [below]

/-- The known nodes of one level. -/
def pathNodes (indices : List Nat) (value : Nat → Nat → α) (level : Nat) (known : List Nat) :
    List (Nat × PathNode α) :=
  known.map fun pos => (pos, ⟨value level pos, ordinalsBelow indices level pos⟩)

theorem expandChildren_eq {base : Nat} (held : Level indices level known) (rest : List α)
    (member : base ∈ parentBases known) :
    expandChildren (pathNodes indices value level known)
        (siblingsOf value (lacking level known base) ++ rest) base =
      .ok ((⟨value level base, ordinalsBelow indices level base⟩,
        ⟨value level (base + 1), ordinalsBelow indices level (base + 1)⟩), rest) := by
  have none {pos : Nat} (absent : pos ∉ known) : ordinalsBelow indices level pos = [] :=
    List.eq_nil_iff_forall_not_mem.mpr fun ordinal below => by
      obtain ⟨index, found, here⟩ := mem_ordinalsBelow.mp below
      exact absent ((held.mem_iff pos).mpr ⟨index, List.mem_of_getElem? found, here⟩)
  unfold expandChildren lacking siblingsOf pathNodes
  rw [lookup_map_pair, lookup_map_pair]
  by_cases left : base ∈ known
  · by_cases right : base + 1 ∈ known
    · simp [left, right, pure, Except.pure]
    · simp [left, right, pure, Except.pure, none right]
  · have right := (known_of_mem_parentBases member).resolve_left left
    simp [left, right, pure, Except.pure, none left]

/-- How many levels of a path are written when some pairs of a level are done. -/
def writtenLevels (level : Nat) (done : List Nat) (index : Nat) : Nat :=
  if index / 2 ^ level / 2 * 2 ∈ done then level + 1 else level

/-- One pair: its parent is known, and a level of the paths through it is written. -/
theorem expandPair_eq (sorted : indices.Pairwise (· < ·)) (along : Along node indices value)
    (held : Level indices level known) (low : level < depth) {base : Nat} {done : List Nat}
    (member : base ∈ parentBases known) (new : base ∉ done) (next : List (Nat × PathNode α))
    (rest : List α) :
    expandPair node level (pathNodes indices value level known)
        ⟨next, siblingsOf value (lacking level known base) ++ rest,
          pathsUpTo indices value zero depth (writtenLevels level done)⟩ base =
      .ok ⟨next ++ pathNodes indices value (level + 1) [base / 2], rest,
        pathsUpTo indices value zero depth (writtenLevels level (done ++ [base]))⟩ := by
  have even := parentBases_even member
  have above : Above indices (level + 1) (base / 2) :=
    (held.next.mem_iff _).mp (List.mem_map_of_mem member)
  obtain ⟨-, -, right⟩ | ⟨odd, -, -⟩ := pair_cases base
  case inr => omega
  obtain ⟨even', -, -⟩ | ⟨-, left, -⟩ := pair_cases (base + 1)
  case inl => omega
  have wroteLeft := foldlM_setPathLevel value zero sorted.nodup low base (writtenLevels level done)
    fun index here => by
      rw [writtenLevels, here, if_neg (by rwa [show base / 2 * 2 = base by omega])]
  have wroteRight := foldlM_setPathLevel value zero sorted.nodup low (base + 1)
    (fun index => if index / 2 ^ level = base then level + 1 else writtenLevels level done index)
    fun index here => by
      rw [if_neg (by omega), writtenLevels, here,
        if_neg (by rwa [show (base + 1) / 2 * 2 = base by omega])]
  rw [right, show (base % 2 == 1) = false by simp; omega] at wroteLeft
  rw [left, show 2 * ((base + 1) / 2) = base by omega,
    show ((base + 1) % 2 == 1) = true by simp; omega] at wroteRight
  rw [show 2 * (base / 2) + 1 = base + 1 by omega] at wroteLeft
  simp only [expandPair, bind_eq_ok, pure_eq_ok]
  refine ⟨_, expandChildren_eq held rest member, _, wroteLeft, _, wroteRight, ?_⟩
  have parent := ordinalsBelow_succ sorted level even
  have written : (fun index => if index / 2 ^ level = base + 1 then level + 1
      else if index / 2 ^ level = base then level + 1 else writtenLevels level done index) =
        writtenLevels level (done ++ [base]) := by
    funext index
    have pair : index / 2 ^ level / 2 * 2 = base ↔
        index / 2 ^ level = base + 1 ∨ index / 2 ^ level = base := by omega
    simp only [writtenLevels, List.mem_append, List.mem_singleton, pair]
    grind
  rw [written]
  simp [pathNodes, parent, along level _ above, even]

/-- A level of the expansion. -/
theorem expandLevel_eq (sorted : indices.Pairwise (· < ·)) (along : Along node indices value)
    (held : Level indices level known) (low : level < depth) (rest : List α) :
    expandLevel node level ⟨pathNodes indices value level known,
        siblingsOf value ((parentBases known).flatMap (lacking level known)) ++ rest,
        pathsUpTo indices value zero depth fun _ => level⟩ =
      .ok ⟨pathNodes indices value (level + 1) (parents known), rest,
        pathsUpTo indices value zero depth fun _ => level + 1⟩ := by
  have keys : (pathNodes indices value level known).map Prod.fst = known := by
    simp [pathNodes, Function.comp_def]
  have bases : (parentBases known).Nodup := List.nodup_dedup _
  rw [expandLevel, keys]
  obtain ⟨after, ran, same⟩ := foldlM_exists
    (f := expandPair node level (pathNodes indices value level known)) (l := parentBases known)
    (P := fun done scan => ∀ todo, parentBases known = done ++ todo →
      scan = ⟨pathNodes indices value (level + 1) (done.map (· / 2)),
        siblingsOf value (todo.flatMap (lacking level known)) ++ rest,
        pathsUpTo indices value zero depth (writtenLevels level done)⟩)
    (s := ⟨[], siblingsOf value ((parentBases known).flatMap (lacking level known)) ++ rest,
        pathsUpTo indices value zero depth fun _ => level⟩) (by
      rintro todo rfl
      rfl) (by
      intro done base todo scan split here
      obtain rfl := here _ split
      have new : base ∉ done := by
        rw [split] at bases
        exact fun old => (List.nodup_append'.mp bases).2.2 old (by simp)
      rw [List.flatMap_cons, siblingsOf_append, List.append_assoc]
      refine ⟨_, expandPair_eq sorted along held low (split ▸ by simp) new _ _, ?_⟩
      intro later again
      obtain rfl : todo = later := by
        rw [split, List.append_assoc, List.append_cancel_left_eq] at again
        exact (List.cons.inj again).2
      simp [pathNodes])
  rw [ran, same [] (List.append_nil _).symm]
  have all : pathsUpTo indices value zero depth (writtenLevels level (parentBases known)) =
      pathsUpTo indices value zero depth fun _ => level + 1 :=
    List.map_congr_left fun index inside => by
      rw [writtenLevels, if_pos (mem_parentBases.mpr ⟨_, (held.mem_iff _).mpr
        (above_self inside level), rfl⟩)]
  rw [all]
  rfl

theorem expandLoop_eq (zero : α) (sorted : indices.Pairwise (· < ·))
    (along : Along node indices value) :
    ∀ (remaining level : Nat) {known : List Nat}, Level indices level known →
      level + remaining = depth → ∃ top,
        expandLoop node remaining level ⟨pathNodes indices value level known,
            siblingsOf value (frontierFrom remaining level known),
            pathsUpTo indices value zero depth fun _ => level⟩ =
          .ok ⟨top, [], pathsUpTo indices value zero depth fun _ => depth⟩
  | 0, level, known, held, full => ⟨_, by rw [← full]; rfl⟩
  | remaining + 1, level, known, held, full => by
    obtain ⟨top, ran⟩ := expandLoop_eq zero sorted along remaining (level + 1) held.next
      (by omega)
    refine ⟨top, bind_eq_ok.mpr ⟨_, ?_, ran⟩⟩
    rw [frontierFrom, siblingsOf_append]
    exact expandLevel_eq sorted along held (by omega) _

/-- The expansion writes the path of every leaf up to the root. -/
theorem expandMultiproofPaths_eq (valid : ValidIndices indices depth)
    (along : Along node indices value) :
    expandMultiproofPaths node zero indices (indices.map (value 0))
        (siblingsOf value (frontierFrom depth 0 indices)) depth =
      .ok (pathsUpTo indices value zero depth fun _ => depth) := by
  have nodup : indices.Nodup := valid.sorted.nodup
  obtain ⟨top, ran⟩ := expandLoop_eq zero valid.sorted along depth 0 (Level.start valid.sorted)
    (Nat.zero_add depth)
  have nodes : (indices.zip (indices.map (value 0))).mapIdx (fun leafPos entry =>
      (entry.1, (⟨entry.2, [leafPos]⟩ : PathNode α))) = pathNodes indices value 0 indices := by
    refine List.ext_getElem (by simp [pathNodes]) fun ordinal first second => ?_
    have bound : ordinal < indices.length := by simpa [pathNodes] using second
    have own : ordinalsBelow indices 0 indices[ordinal] = [ordinal] :=
      (pairwise_ordinalsBelow ..).eq_of_mem_iff (List.pairwise_singleton ..) fun other => by
        simp [mem_ordinalsBelow, getElem?_iff_idxOf nodup (List.getElem_mem bound),
          nodup.idxOf_getElem, eq_comm]
    simp [pathNodes, own]
  have paths : (indices.zip (indices.map (value 0))).map (fun entry =>
      (⟨entry.1, entry.2, List.replicate depth zero, List.replicate depth false⟩ :
        ExpandedMerklePath α)) = pathsUpTo indices value zero depth fun _ => 0 := by
    rw [← List.map_prod_left_eq_zip, List.map_map]
    rfl
  simp only [expandMultiproofPaths, bind_eq_ok, reject_eq_ok, mapError_ok_iff,
    expectedSiblingCount_eq_ok, pure_eq_ok, nodes, paths]
  exact ⟨(), by simp, _, ⟨valid, rfl⟩, (), by simp [siblingsOf], _, ran, (), by simp, rfl⟩

end Paths

/-! ## The three walks agree -/

/-- Every node of the plan but the root is an operand once, and the root never is. -/
theorem IsPlan.root_last {depth : Nat} {plan : StructuralFrontierPlan}
    (is : IsPlan indices depth plan) (some : plan.combines ≠ []) :
    plan.root = .combine (plan.combines.length - 1) := by
  have count := List.length_pos_of_ne_nil some
  have last : StructuralNodeRef.combine (plan.combines.length - 1) ∈
      planNodes indices.length plan.frontierPositions.length plan.combines.length :=
    mem_planNodes.mpr (show plan.combines.length - 1 < plan.combines.length by omega)
  rcases List.mem_append.mp (is.planned.once.mem_iff.mpr last) with used | top
  · -- an operand comes before its combine
    obtain ⟨combine, inside, operand⟩ := List.mem_flatMap.mp used
    obtain ⟨ordinal, found⟩ := List.getElem?_of_mem inside
    have early := is.planned.earlier ordinal combine found _ operand
    have bound := (List.getElem?_eq_some_iff.mp found).1
    simp only [StructuralNodeRef.Before] at early
    omega
  · exact (List.mem_singleton.mp top).symm

/-- On checked indices the derivation succeeds. The combines of the plan ask only for leaves,
siblings and combines before them; the operands and the root are all nodes of the plan, each once;
the positions are the canonical frontier. Evaluating the plan is reconstructing the root, whatever
the leaves and siblings and with the same errors, and where that gives a root the expansion gives
for every leaf the path of full depth, directed by its index, that folds to it. -/
theorem structural_frontier_plan_reconstructs {indices : List Nat} {depth : Nat}
    (accepted : validateIndices indices depth = .ok ()) :
    ∃ plan, deriveStructuralFrontierPlan indices depth = .ok plan ∧
      plan.touchedLeafCount = indices.length ∧
      (∀ (ordinal : Nat) (combine : StructuralCombine), plan.combines[ordinal]? = some combine →
        ∀ ref ∈ combine.operands,
          ref.Before plan.touchedLeafCount plan.frontierPositions.length ordinal) ∧
      (plan.combines.flatMap StructuralCombine.operands ++ [plan.root]).Perm
        (planNodes plan.touchedLeafCount plan.frontierPositions.length plan.combines.length) ∧
      (plan.combines ≠ [] → plan.root = .combine (plan.combines.length - 1)) ∧
      plan.combines.length = plan.touchedLeafCount + plan.frontierPositions.length - 1 ∧
      frontierSiblingPositions indices depth = .ok plan.frontierPositions ∧
      ∀ (α : Type) (node : α → α → α) (leaves siblings : List α),
        (evaluateStructuralFrontier node plan leaves siblings).map
            StructuralFrontierEvaluation.root =
          reconstructRoot node indices leaves siblings depth ∧
        ∀ zero : α,
          (∀ error, reconstructRoot node indices leaves siblings depth = .error error →
            expandMultiproofPaths node zero indices leaves siblings depth = .error error) ∧
          ∀ root, reconstructRoot node indices leaves siblings depth = .ok root →
            ∃ paths, expandMultiproofPaths node zero indices leaves siblings depth = .ok paths ∧
              paths.map ExpandedMerklePath.index = indices ∧
              paths.map ExpandedMerklePath.leaf = leaves ∧
              ∀ path ∈ paths, path.siblings.length = depth ∧
                path.directions = directionsFrom path.index 0 depth ∧
                foldPath node path.leaf path.siblings path.directions = root := by
  have valid := validateIndices_eq_ok.mp accepted
  obtain ⟨plan, derived, is⟩ := deriveStructuralFrontierPlan_isPlan valid
  refine ⟨plan, derived, is.leaves, is.leaves ▸ is.planned.earlier, is.leaves ▸ is.planned.once,
    is.root_last, ?_, frontierSiblingPositions_eq_ok.mpr ⟨valid, is.positions⟩,
    fun α node leaves siblings => ⟨is.evaluate node valid leaves siblings, fun zero => ?_⟩⟩
  · have count := is.planned.length_combines
    rw [is.leaves]
    omega
  have expected := valid.expectedSiblingCount_eq
  have outcome := reconstructRoot_outcome node valid leaves siblings
  generalize reconstructRoot node indices leaves siblings depth = result at outcome ⊢
  cases outcome with
  | leafCount apart =>
    refine ⟨fun error same => ?_, fun root same => by simp at same⟩
    obtain rfl := Except.error.inj same
    simp [expandMultiproofPaths, reject, apart, bind, Except.bind]
  | siblingCount same apart =>
    refine ⟨fun error stop => ?_, fun root stop => by simp at stop⟩
    obtain rfl := Except.error.inj stop
    simp [expandMultiproofPaths, reject, same, expected, apart, bind, Except.bind, Except.mapError]
  | tree value along below beside =>
    refine ⟨fun error stop => by simp at stop, fun root same => ?_⟩
    obtain rfl := Except.ok.inj same
    subst below beside
    refine ⟨_, expandMultiproofPaths_eq valid along,
      by simp [pathsUpTo, pathUpTo, Function.comp_def],
      by simp [pathsUpTo, pathUpTo, Function.comp_def], fun path member => ?_⟩
    obtain ⟨index, inside, rfl⟩ := List.mem_map.mp member
    have folds := along.foldPath inside 0 depth
    rw [Nat.zero_add, Nat.div_eq_of_lt (valid.inside index inside), Nat.pow_zero,
      Nat.div_one] at folds
    simpa [pathUpTo] using folds

/-- Leaves 1, 2 and 5 of a tree of depth three, with its four siblings: the plan and the three
paths give the root of the reconstruction. -/
theorem structural_frontier_plan_three :
    let node : Nat → Nat → Nat := fun left right => 2 * left + 3 * right
    ∃ plan root paths, deriveStructuralFrontierPlan [1, 2, 5] 3 = .ok plan ∧
      plan.combines.length = 6 ∧ plan.root = .combine 5 ∧
      reconstructRoot node [1, 2, 5] [10, 20, 30] [1, 2, 3, 4] 3 = .ok root ∧
      (evaluateStructuralFrontier node plan [10, 20, 30] [1, 2, 3, 4]).map
        StructuralFrontierEvaluation.root = .ok root ∧
      expandMultiproofPaths node 0 [1, 2, 5] [10, 20, 30] [1, 2, 3, 4] 3 = .ok paths ∧
      paths.map ExpandedMerklePath.leaf = [10, 20, 30] ∧
      ∀ path ∈ paths, foldPath node path.leaf path.siblings path.directions = root := by
  intro node
  have ran : (deriveStructuralFrontierPlan [1, 2, 5] 3).toOption.any
      (fun plan => plan.combines.length == 6) = true := by decide +kernel
  have rebuilt : (reconstructRoot node [1, 2, 5] [10, 20, 30] [1, 2, 3, 4] 3).toOption.isSome =
      true := by decide +kernel
  simp only [Option.isSome_iff_exists, toOption_eq_some] at rebuilt
  obtain ⟨root, rebuilt⟩ := rebuilt
  obtain ⟨plan, derived, -, -, -, last, -, -, evaluated⟩ := structural_frontier_plan_reconstructs
    (show validateIndices [1, 2, 5] 3 = .ok () by decide)
  rw [derived] at ran
  have six : plan.combines.length = 6 := by simpa [Except.toOption] using ran
  obtain ⟨same, expands⟩ := evaluated Nat node [10, 20, 30] [1, 2, 3, 4]
  obtain ⟨paths, expanded, -, leaves, folds⟩ := (expands 0).2 root rebuilt
  refine ⟨plan, root, paths, derived, six, ?_, rebuilt, same.trans rebuilt, expanded, leaves, ?_⟩
  · rw [last (List.ne_nil_of_length_eq_add_one six), six]
  · intro path member
    exact (folds path member).2.2

end ParanoidChain
