import ParanoidChain.Chain.SparseMerkle
import ParanoidChain.Laws.Chain.SparseRoot
import ParanoidChain.Lib.Overlay

/-!
# Multiproofs are pruned trees

Checked indices are ascending positions of the tree. The frontier positions are exactly the places
that hang off their paths, in the order in which the reconstruction asks for siblings, so a proof of
the right length is a frontier of a pruned tree and `reconstruct_root` returns that tree's root
(`reconstructRoot_map`). The sparse cache holds the nodes of the tree over its leaves.
-/

namespace ParanoidChain

open Lib Lib.Merkle Lib.Multiproof

/-! ## Indices -/

/-- What `validate_indices` accepts. -/
structure ValidIndices (indices : List Nat) (depth : Nat) : Prop where
  depth_le : depth ≤ 32
  nonempty : indices ≠ []
  sorted : indices.Pairwise (· < ·)
  inside : ∀ index ∈ indices, index < 2 ^ depth

variable {depth : Nat}

theorem validateNextIndex_eq_ok {previous last : Option Nat} {index : Nat} :
    validateNextIndex depth previous index = .ok last ↔
      index < 2 ^ depth ∧ (∀ before ∈ previous, before < index) ∧ some index = last := by
  cases previous with
  | none => simp [validateNextIndex]
  | some before =>
    simp only [validateNextIndex, bind_eq_ok, reject_eq_ok, pure_eq_ok, Option.any_some,
      decide_eq_true_eq, Option.some.injEq, Option.mem_def, forall_eq', not_le, not_lt]
    constructor
    · rintro ⟨-, low, -, weak, -, apart, rfl⟩
      exact ⟨low, by omega, rfl⟩
    · rintro ⟨low, strict, rfl⟩
      exact ⟨(), low, (), strict.le, (), by omega, rfl⟩

theorem foldlM_validateNextIndex (depth : Nat) (indices : List Nat) :
    ∀ previous : Option Nat,
      (∃ last, indices.foldlM (validateNextIndex depth) previous = .ok last) ↔
        (∀ index ∈ indices, index < 2 ^ depth) ∧
          (previous.toList ++ indices).Pairwise (· < ·) := by
  induction indices with
  | nil => intro previous; cases previous <;> simp
  | cons index indices ih =>
    intro previous
    have chain : (previous.toList ++ index :: indices).Pairwise (· < ·) ↔
        (∀ before ∈ previous, before < index) ∧ (index :: indices).Pairwise (· < ·) := by
      cases previous with
      | none => simp
      | some before =>
        simp only [Option.toList_some, List.singleton_append, List.pairwise_cons,
          List.mem_cons, forall_eq_or_imp, Option.mem_def, Option.some.injEq, forall_eq']
        refine ⟨fun ⟨⟨first, _⟩, rest⟩ => ⟨first, rest⟩, fun ⟨first, rest⟩ => ⟨⟨first, ?_⟩, rest⟩⟩
        exact fun later member => first.trans (rest.1 later member)
    simp only [foldlM_cons_eq_ok, validateNextIndex_eq_ok, List.mem_cons, forall_eq_or_imp, chain]
    have next := ih (some index)
    simp only [Option.toList_some, List.singleton_append] at next
    constructor
    · rintro ⟨last, _, ⟨low, before, rfl⟩, ran⟩
      obtain ⟨inside, sorted⟩ := next.mp ⟨last, ran⟩
      exact ⟨⟨low, inside⟩, before, sorted⟩
    · rintro ⟨⟨low, inside⟩, before, sorted⟩
      obtain ⟨last, ran⟩ := next.mpr ⟨inside, sorted⟩
      exact ⟨last, some index, ⟨low, before, rfl⟩, ran⟩

variable {indices : List Nat}

theorem validateIndices_eq_ok {done : Unit} :
    validateIndices indices depth = .ok done ↔ ValidIndices indices depth := by
  have folds := foldlM_validateNextIndex depth indices none
  simp only [validateIndices, bind_eq_ok, reject_eq_ok, pure_eq_ok, not_lt]
  constructor
  · rintro ⟨-, low, -, some, last, ran, -⟩
    obtain ⟨inside, sorted⟩ := folds.mp ⟨last, ran⟩
    exact ⟨low, some, by simpa using sorted, inside⟩
  · rintro ⟨low, some, sorted, inside⟩
    obtain ⟨last, ran⟩ := folds.mpr ⟨inside, by simpa using sorted⟩
    exact ⟨(), low, (), some, last, ran, trivial⟩

/-! ## The frontier -/

/-- The sibling one pair lacks. -/
def lacking (level : Nat) (known : List Nat) (base : Nat) : List FrontierSiblingPosition :=
  if base ∈ known then if base + 1 ∈ known then [] else [⟨level, base + 1⟩] else [⟨level, base⟩]

theorem frontierPair_eq {level base : Nat} {known : List Nat}
    (member : base ∈ parentBases known) :
    frontierPair level known base = .ok (lacking level known base) := by
  unfold frontierPair lacking
  by_cases left : base ∈ known
  · by_cases right : base + 1 ∈ known <;> simp [left, right, pure, Except.pure]
  · have right := (known_of_mem_parentBases member).resolve_left left
    simp [left, right, pure, Except.pure]

/-- The frontier from one level on. -/
def frontierFrom : Nat → Nat → List Nat → List FrontierSiblingPosition
  | 0, _, _ => []
  | remaining + 1, level, known =>
    (parentBases known).flatMap (lacking level known) ++
      frontierFrom remaining (level + 1) (parents known)

/-- The loop collects the frontier level by level and never fails. -/
theorem frontierLoop_eq (remaining level : Nat) (known : List Nat) :
    frontierLoop remaining level known = .ok (frontierFrom remaining level known) := by
  induction remaining generalizing level known with
  | zero => rfl
  | succ remaining ih =>
    simp only [frontierLoop, bind_eq_ok, pure_eq_ok]
    exact ⟨_, mapM_eq_map fun _ member => frontierPair_eq member, _, ih _ _, by
      rw [frontierFrom, List.flatMap_def]; rfl⟩

/-- The frontier of checked indices. -/
theorem frontierSiblingPositions_eq_ok {positions : List FrontierSiblingPosition} :
    frontierSiblingPositions indices depth = .ok positions ↔
      ValidIndices indices depth ∧ positions = frontierFrom depth 0 indices := by
  simp only [frontierSiblingPositions, bind_eq_ok, mapError_ok_iff, validateIndices_eq_ok,
    frontierLoop_eq, Except.ok.injEq]
  constructor
  · rintro ⟨_, valid, same⟩
    exact ⟨valid, same.symm⟩
  · rintro ⟨valid, same⟩
    exact ⟨(), valid, same.symm⟩

/-- The count is the length of the frontier. -/
theorem siblingCount_eq (remaining level : Nat) (known : List Nat) :
    siblingCount remaining known = (frontierFrom remaining level known).length := by
  induction remaining generalizing level known with
  | zero => rfl
  | succ remaining ih =>
    have pairs (bases : List Nat) (members : ∀ base ∈ bases, base ∈ parentBases known) :
        bases.countP (fun base => decide (base ∈ known) != decide (base + 1 ∈ known)) =
          (bases.flatMap (lacking level known)).length := by
      induction bases with
      | nil => rfl
      | cons base bases step =>
        rw [List.countP_cons, List.flatMap_cons, List.length_append,
          step fun other member => members other (by simp [member]), Nat.add_comm]
        congr 1
        have one := known_of_mem_parentBases (members base (by simp))
        unfold lacking
        by_cases left : base ∈ known <;> by_cases right : base + 1 ∈ known <;>
          simp_all
    rw [siblingCount, frontierFrom, List.length_append, ← ih (level + 1)]
    exact congrArg (· + _) (pairs _ fun _ member => member)

theorem expectedSiblingCount_eq_ok {depth count : Nat} :
    expectedSiblingCount indices depth = .ok count ↔
      ValidIndices indices depth ∧ (frontierFrom depth 0 indices).length = count := by
  simp only [expectedSiblingCount, bind_eq_ok, validateIndices_eq_ok, pure_eq_ok,
    siblingCount_eq depth 0]
  constructor
  · rintro ⟨_, valid, same⟩
    exact ⟨valid, same⟩
  · rintro ⟨valid, same⟩
    exact ⟨(), valid, same⟩

theorem ValidIndices.expectedSiblingCount_eq {depth : Nat} (valid : ValidIndices indices depth) :
    expectedSiblingCount indices depth = .ok (frontierFrom depth 0 indices).length :=
  expectedSiblingCount_eq_ok.mpr ⟨valid, rfl⟩

theorem mem_lacking {level base : Nat} {known : List Nat} {position : FrontierSiblingPosition}
    (member : base ∈ parentBases known) :
    position ∈ lacking level known base ↔ position.level = level ∧
      position.nodeIndex / 2 * 2 = base ∧ position.nodeIndex ∉ known := by
  obtain ⟨height, pos⟩ := position
  have even := parentBases_even member
  have one := known_of_mem_parentBases member
  have either : pos / 2 * 2 = base ↔ pos = base ∨ pos = base + 1 := by omega
  simp only [either, lacking]
  split
  case isFalse absent =>
    simp only [List.mem_singleton, FrontierSiblingPosition.mk.injEq, and_congr_right_iff]
    grind
  case isTrue present =>
    split
    case isTrue both =>
      simp only [List.not_mem_nil, false_iff]
      grind
    case isFalse alone =>
      simp only [List.mem_singleton, FrontierSiblingPosition.mk.injEq, and_congr_right_iff]
      grind

/-- The frontier has exactly the positions that hang off the paths. -/
theorem mem_frontierFrom {touched : List Nat} {position : FrontierSiblingPosition} :
    ∀ {remaining level : Nat} {known : List Nat}, Level touched level known →
      (position ∈ frontierFrom remaining level known ↔ level ≤ position.level ∧
        position.level < level + remaining ∧
        Frontier touched position.level position.nodeIndex)
  | 0, level, known, _ => by
    simp only [frontierFrom, List.not_mem_nil, false_iff]
    omega
  | remaining + 1, level, known, held => by
    have here : position ∈ (parentBases known).flatMap (lacking level known) ↔
        position.level = level ∧ Frontier touched position.level position.nodeIndex := by
      simp only [List.mem_flatMap]
      constructor
      · rintro ⟨base, member, found⟩
        obtain ⟨same, pair, absent⟩ := (mem_lacking member).mp found
        obtain ⟨other, inside, beside⟩ := mem_parentBases.mp member
        rw [same]
        refine ⟨rfl, fun above => absent ((held.mem_iff _).mpr above), above_succ.mpr ⟨other, ?_, ?_⟩⟩
        · exact (held.mem_iff _).mp inside
        · omega
      · rintro ⟨rfl, apart, above⟩
        obtain ⟨child, known, half⟩ := above_succ.mp above
        have member : position.nodeIndex / 2 * 2 ∈ parentBases _ :=
          mem_parentBases.mpr ⟨child, (held.mem_iff _).mpr known, by rw [half]⟩
        exact ⟨_, member, (mem_lacking member).mpr
          ⟨rfl, rfl, fun inside => apart ((held.mem_iff _).mp inside)⟩⟩
    rw [frontierFrom, List.mem_append, here, mem_frontierFrom held.next]
    constructor
    · rintro (⟨rfl, hangs⟩ | ⟨low, high, hangs⟩)
      · exact ⟨le_rfl, by omega, hangs⟩
      · exact ⟨by omega, by omega, hangs⟩
    · rintro ⟨low, high, hangs⟩
      rcases Nat.eq_or_lt_of_le low with same | later
      · exact .inl ⟨same.symm, hangs⟩
      · exact .inr ⟨later, by omega, hangs⟩

/-- No position is asked for twice. -/
theorem nodup_frontierFrom {touched : List Nat} :
    ∀ {remaining level : Nat} {known : List Nat}, Level touched level known →
      (frontierFrom remaining level known).Nodup
  | 0, _, _, _ => List.nodup_nil
  | remaining + 1, level, known, held => by
    rw [frontierFrom, List.nodup_append]
    refine ⟨?_, nodup_frontierFrom held.next, ?_⟩
    · rw [List.nodup_flatMap]
      refine ⟨fun base _ => ?_, (pairwise_parentBases held.sorted).imp_of_mem ?_⟩
      · unfold lacking
        split <;> [split <;> simp; simp]
      · intro first second one two less position found again
        have := ((mem_lacking one).mp found).2.1
        have := ((mem_lacking two).mp again).2.1
        omega
    · intro position found other again same
      obtain ⟨base, member, inside⟩ := List.mem_flatMap.mp found
      have := ((mem_lacking member).mp inside).1
      have := ((mem_frontierFrom held.next).mp again).1
      subst same
      omega

/-! ## Reconstruction -/

section Reconstruction

variable {α : Type} {node : α → α → α}

/-- The siblings that an assignment of nodes gives to the positions of a frontier. -/
def siblingsOf (value : Nat → Nat → α) (positions : List FrontierSiblingPosition) : List α :=
  positions.map fun position => value position.level position.nodeIndex

theorem siblingsOf_append (value : Nat → Nat → α) (low high : List FrontierSiblingPosition) :
    siblingsOf value (low ++ high) = siblingsOf value low ++ siblingsOf value high :=
  List.map_append

theorem lookup_map_pair (value : Nat → α) (known : List Nat) (pos : Nat) :
    (known.map fun other => (other, value other)).lookup pos =
      if pos ∈ known then some (value pos) else none := by
  induction known with
  | nil => rfl
  | cons other known ih =>
    rw [List.map_cons, List.lookup_cons, ih]
    by_cases same : pos = other
    · simp [same]
    · simp [same, beq_eq_false_iff_ne.mpr same]

theorem reconstructPair_eq {level base : Nat} {known : List Nat} (value : Nat → Nat → α)
    (rest : List α) (member : base ∈ parentBases known) :
    reconstructPair node (known.map fun pos => (pos, value level pos))
        (siblingsOf value (lacking level known base) ++ rest) base =
      .ok (node (value level base) (value level (base + 1)), rest) := by
  unfold reconstructPair lacking
  rw [lookup_map_pair, lookup_map_pair]
  by_cases left : base ∈ known
  · by_cases right : base + 1 ∈ known <;> simp [left, right, siblingsOf, pure, Except.pure]
  · have right := (known_of_mem_parentBases member).resolve_left left
    simp [left, right, siblingsOf, pure, Except.pure]

/-- One level turns the nodes of a level into those above them and uses up its siblings. -/
theorem reconstructLevel_eq {level : Nat} {known : List Nat} (value : Nat → Nat → α)
    (rest : List α) :
    reconstructLevel node (known.map fun pos => (pos, value level pos))
        (siblingsOf value ((parentBases known).flatMap (lacking level known)) ++ rest) =
      .ok ((parents known).map fun pos =>
        (pos, node (value level (2 * pos)) (value level (2 * pos + 1))), rest) := by
  have keys : (known.map fun pos => (pos, value level pos)).map Prod.fst = known := by
    simp [Function.comp_def]
  rw [reconstructLevel, keys]
  have loop (bases : List Nat) (members : ∀ base ∈ bases, base ∈ parentBases known)
      (done : List (Nat × α)) :
      bases.foldlM (fun state base => do
        let pair ← reconstructPair node (known.map fun pos => (pos, value level pos)) state.2 base
        return (state.1 ++ [(base / 2, pair.1)], pair.2))
        (done, siblingsOf value (bases.flatMap (lacking level known)) ++ rest) =
      .ok (done ++ (bases.map (· / 2)).map fun pos =>
        (pos, node (value level (2 * pos)) (value level (2 * pos + 1))), rest) := by
    induction bases generalizing done with
    | nil => simp [siblingsOf, pure, Except.pure]
    | cons base bases ih =>
      obtain ⟨member, members⟩ := List.forall_mem_cons.mp members
      rw [foldlM_cons_eq_ok, List.flatMap_cons, siblingsOf_append, List.append_assoc]
      refine ⟨_, bind_eq_ok.mpr ⟨_, reconstructPair_eq value _ member, rfl⟩,
        (ih members _).trans ?_⟩
      simp [parentBases_even member]
  exact loop _ (fun _ member => member) []

/-- The loop rebuilds the levels and consumes the siblings of the frontier. -/
theorem reconstructLoop_eq {touched : List Nat} {value : Nat → Nat → α}
    (along : Along node touched value) (rest : List α) :
    ∀ (remaining level : Nat) {known : List Nat}, Level touched level known →
      ∃ top, Level touched (level + remaining) top ∧
        reconstructLoop node remaining (known.map fun pos => (pos, value level pos))
            (siblingsOf value (frontierFrom remaining level known) ++ rest) =
          .ok (top.map fun pos => (pos, value (level + remaining) pos), rest)
  | 0, level, known, held => ⟨known, held, rfl⟩
  | remaining + 1, level, known, held => by
    obtain ⟨top, reached, ran⟩ := reconstructLoop_eq along rest remaining (level + 1) held.next
    rw [show level + 1 + remaining = level + (remaining + 1) by omega] at reached ran
    have same : (parents known).map (fun pos => (pos, value (level + 1) pos)) =
        (parents known).map fun pos =>
          (pos, node (value level (2 * pos)) (value level (2 * pos + 1))) :=
      List.map_congr_left fun pos member => by
        rw [along level pos ((held.next.mem_iff pos).mp member)]
    rw [frontierFrom, siblingsOf_append, List.append_assoc, reconstructLoop]
    exact ⟨top, reached, bind_eq_ok.mpr ⟨_, reconstructLevel_eq _ _, same ▸ ran⟩⟩

/-- The reconstruction over leaves and siblings that are read from one assignment of nodes. -/
theorem reconstructRoot_map (valid : ValidIndices indices depth) {value : Nat → Nat → α}
    (along : Along node indices value) :
    reconstructRoot node indices (indices.map (value 0))
        (siblingsOf value (frontierFrom depth 0 indices)) depth = .ok (value depth 0) := by
  obtain ⟨top, reached, ran⟩ := reconstructLoop_eq along [] depth 0 (Level.start valid.sorted)
  rw [Nat.zero_add] at reached ran
  rw [reached.top valid.nonempty valid.inside, List.append_nil] at ran
  have pairs : indices.zip (indices.map (value 0)) = indices.map fun pos => (pos, value 0 pos) :=
    List.map_prod_left_eq_zip.symm
  simp only [reconstructRoot, bind_eq_ok, reject_eq_ok, mapError_ok_iff, expectedSiblingCount_eq_ok]
  refine ⟨(), by simp, _, ⟨valid, rfl⟩, (), by simp [siblingsOf], _, pairs ▸ ran, ?_⟩
  simp [pure, Except.pure]

/-- A list is a function on different keys. -/
theorem exists_map_eq {κ : Type} [DecidableEq κ] [Nonempty α] {keys : List κ} (nodup : keys.Nodup) :
    ∀ {values : List α}, keys.length = values.length → ∃ f : κ → α, keys.map f = values := by
  induction keys with
  | nil =>
    intro values length
    exact ⟨fun _ => Classical.arbitrary α, (List.length_eq_zero_iff.mp length.symm).symm⟩
  | cons key keys ih =>
    intro values length
    obtain ⟨absent, nodup⟩ := List.nodup_cons.mp nodup
    cases values with
    | nil => simp at length
    | cons first values =>
      obtain ⟨f, same⟩ := ih nodup (by simpa using length)
      refine ⟨Function.update f key first, ?_⟩
      rw [List.map_cons, Function.update_self, List.cons.injEq]
      refine ⟨rfl, same ▸ List.map_congr_left fun other member => Function.update_of_ne ?_ _ _⟩
      rintro rfl
      exact absent member

/-- Leaves and siblings in the right numbers are those of a pruned tree. -/
theorem ValidIndices.exists_tree {leaves siblings : List α} (valid : ValidIndices indices depth)
    (leafCount : indices.length = leaves.length)
    (siblingCount : (frontierFrom depth 0 indices).length = siblings.length) :
    ∃ (leaf : Nat → α) (frontier : Nat → Nat → α), leaves = indices.map leaf ∧
      siblings = siblingsOf frontier (frontierFrom depth 0 indices) := by
  have : Nonempty α := by
    cases leaves with
    | nil => exact absurd (List.length_eq_zero_iff.mp leafCount) valid.nonempty
    | cons first _ => exact ⟨first⟩
  obtain ⟨leaf, rfl⟩ := exists_map_eq valid.sorted.nodup leafCount
  obtain ⟨frontier, rfl⟩ := exists_map_eq (nodup_frontierFrom (Level.start valid.sorted))
    siblingCount
  exact ⟨leaf, fun level pos => frontier ⟨level, pos⟩, rfl, rfl⟩

/-- `reconstruct_root` returns exactly the roots of pruned trees over the given leaves and
siblings. -/
theorem reconstructRoot_eq_ok {leaves siblings : List α} {root : α} :
    reconstructRoot node indices leaves siblings depth = .ok root ↔
      ValidIndices indices depth ∧ ∃ leaf frontier, leaves = indices.map leaf ∧
        siblings = siblingsOf frontier (frontierFrom depth 0 indices) ∧
        root = pruned node indices leaf frontier depth 0 := by
  have tree (leaf : Nat → α) (frontier : Nat → Nat → α) (valid : ValidIndices indices depth) :
      reconstructRoot node indices (indices.map leaf)
          (siblingsOf frontier (frontierFrom depth 0 indices)) depth =
        .ok (pruned node indices leaf frontier depth 0) := by
    have leaves_eq : indices.map leaf = indices.map (pruned node indices leaf frontier 0) :=
      List.map_congr_left fun index inside => (pruned_leaf inside).symm
    have siblings_eq : siblingsOf frontier (frontierFrom depth 0 indices) =
        siblingsOf (pruned node indices leaf frontier) (frontierFrom depth 0 indices) :=
      List.map_congr_left fun position found => (pruned_frontier
        ((mem_frontierFrom (Level.start valid.sorted)).mp found).2.2.1).symm
    rw [leaves_eq, siblings_eq]
    exact reconstructRoot_map valid along_pruned
  constructor
  · intro ran
    have checked := ran
    simp only [reconstructRoot, bind_eq_ok, reject_eq_ok, mapError_ok_iff,
      expectedSiblingCount_eq_ok, not_not] at checked
    obtain ⟨_, leafCount, _, ⟨valid, rfl⟩, _, siblingCount, -⟩ := checked
    obtain ⟨leaf, frontier, rfl, rfl⟩ := valid.exists_tree leafCount siblingCount.symm
    exact ⟨valid, leaf, frontier, rfl, rfl, Except.ok.inj (ran.symm.trans (tree leaf frontier valid))⟩
  · rintro ⟨valid, leaf, frontier, rfl, rfl, rfl⟩
    exact tree leaf frontier valid

end Reconstruction

/-! ## The sparse cache -/

namespace SparseMerkleCache

variable {hasher : StateHasher} {cache : SparseMerkleCache} {leaf : Nat → Digest}

/-- The cache holds the nodes of the tree over the leaves. -/
def Holds (hasher : StateHasher) (cache : SparseMerkleCache) (leaf : Nat → Digest) : Prop :=
  ∀ level ≤ cache.depth, ∀ pos,
    cache.nodeHash hasher level pos = subRoot hasher.stateNodeHash leaf level pos

theorem nodeHash_setNode (cache : SparseMerkleCache) (level index : Nat) (hash : Digest)
    (height pos : Nat) :
    (cache.setNode hasher level index hash).nodeHash hasher height pos =
      if height = level ∧ pos = index then hash else cache.nodeHash hasher height pos := by
  unfold nodeHash setNode
  by_cases here : (height, pos) = (level, index)
  · obtain ⟨rfl, rfl⟩ := Prod.mk.inj here
    simp only [Function.update_self, and_self, if_true]
    split <;> simp_all
  · simp only [Function.update_of_ne here]
    rw [if_neg (by simpa using here)]

/-- The path loop repairs the levels one after another. -/
theorem setPath_holds (hasher : StateHasher) (leaf : Nat → Digest) (index : Nat) (value : Digest) :
    ∀ (remaining level : Nat) (cache : SparseMerkleCache), level + remaining = cache.depth →
      (∀ height ≤ level, ∀ pos, cache.nodeHash hasher height pos =
        subRoot hasher.stateNodeHash (Function.update leaf index value) height pos) →
      (∀ height, level < height → height ≤ cache.depth → ∀ pos,
        cache.nodeHash hasher height pos = subRoot hasher.stateNodeHash leaf height pos) →
      let repaired := setPath hasher remaining level (index / 2 ^ level)
        (subRoot hasher.stateNodeHash (Function.update leaf index value) level
          (index / 2 ^ level)) cache
      repaired.depth = cache.depth ∧ Holds hasher repaired (Function.update leaf index value)
  | 0, level, cache, split, low, _ => by
    refine ⟨rfl, fun height below => low height ?_⟩
    simp only [setPath] at below
    omega
  | remaining + 1, level, cache, split, low, high => by
    have half : index / 2 ^ (level + 1) = index / 2 ^ level / 2 := by
      rw [Nat.div_div_eq_div_mul, Nat.pow_succ]
    have parent : (if index / 2 ^ level % 2 = 0 then
          hasher.stateNodeHash (subRoot hasher.stateNodeHash (Function.update leaf index value)
            level (index / 2 ^ level)) (cache.nodeHash hasher level (index / 2 ^ level ^^^ 1))
        else hasher.stateNodeHash (cache.nodeHash hasher level (index / 2 ^ level ^^^ 1))
          (subRoot hasher.stateNodeHash (Function.update leaf index value) level
            (index / 2 ^ level))) =
        subRoot hasher.stateNodeHash (Function.update leaf index value) (level + 1)
          (index / 2 ^ (level + 1)) := by
      rw [low level le_rfl, subRoot_succ, half]
      obtain ⟨even, own, other⟩ | ⟨odd, other, own⟩ := pair_cases (index / 2 ^ level)
      · rw [if_pos even, other, ← own]
      · rw [if_neg (by omega), other, ← own]
    rw [setPath]
    simp only [parent, ← half]
    refine setPath_holds hasher leaf index value remaining (level + 1) _
      (by simp only [setNode]; omega) ?_ ?_
    · intro height below pos
      rw [nodeHash_setNode]
      split
      case isTrue here => rw [here.1, here.2]
      case isFalse apart =>
        rcases Nat.lt_or_ge level height with new | old
        · obtain rfl : height = level + 1 := by omega
          have apart : index / 2 ^ (level + 1) ≠ pos := by rintro rfl; simp at apart
          rw [high _ new (by omega), subRoot_update_of_ne _ apart]
        · exact low height old pos
    · intro height above below pos
      rw [nodeHash_setNode, if_neg (by omega)]
      exact high height (by omega) below pos

theorem Holds.setLeaf (held : Holds hasher cache leaf) (shallow : cache.depth ≤ 32) {index : Nat}
    (inside : index < 2 ^ cache.depth) (value : Digest) :
    ∃ updated, cache.setLeaf hasher index value = .ok updated ∧ updated.depth = cache.depth ∧
      Holds hasher updated (Function.update leaf index value) := by
  have leaves := setPath_holds hasher leaf index value cache.depth 0
    (cache.setNode hasher 0 index value) (Nat.zero_add _) ?_ ?_
  · refine ⟨_, ?_, leaves⟩
    simp [SparseMerkleCache.setLeaf, shallow, inside]
  · intro height low pos
    obtain rfl : height = 0 := by omega
    rw [nodeHash_setNode, subRoot_zero, Function.update_apply, held 0 (Nat.zero_le _)]
    simp
  · intro height above below pos
    rw [nodeHash_setNode, if_neg (by omega)]
    exact held height below pos

theorem foldlM_setLeaf {leaves : List (Nat × Digest)} (shallow : depth ≤ 32) :
    ∀ {cache : SparseMerkleCache} {leaf : Nat → Digest}, cache.depth = depth →
      Holds hasher cache leaf → (∀ entry ∈ leaves, entry.1 < 2 ^ depth) →
      ∃ built, leaves.foldlM (fun cache entry => cache.setLeaf hasher entry.1 entry.2) cache =
          .ok built ∧ built.depth = depth ∧ Holds hasher built (overlay leaf leaves) := by
  induction leaves with
  | nil => exact fun same held _ => ⟨_, rfl, same, held⟩
  | cons entry leaves ih =>
    intro cache leaf same held inside
    subst same
    obtain ⟨updated, set, depth_eq, holds⟩ := held.setLeaf shallow (inside entry (by simp)) entry.2
    obtain ⟨built, ran, built_eq, all⟩ := ih depth_eq holds fun other member =>
      inside other (by simp [member])
    exact ⟨built, foldlM_cons_eq_ok.mpr ⟨updated, set, ran⟩, built_eq, all⟩

/-- A cache built from leaf updates holds the tree over the leaves they leave behind. -/
theorem fromLeaves_holds (hasher : StateHasher) (shallow : depth ≤ 32)
    {leaves : List (Nat × Digest)} (inside : ∀ entry ∈ leaves, entry.1 < 2 ^ depth) :
    ∃ cache, fromLeaves hasher depth leaves = .ok cache ∧ cache.depth = depth ∧
      Holds hasher cache (overlay (fun _ => hasher.slotLeafHash .empty) leaves) := by
  have empty : Holds hasher ⟨depth, fun _ => none⟩ fun _ => hasher.slotLeafHash .empty := by
    intro level _ pos
    rw [subRoot_eq_zeroRoot fun _ _ _ => rfl]
    exact zeroSlotRoot_eq level
  obtain ⟨cache, ran, depth_eq, held⟩ := foldlM_setLeaf shallow rfl empty inside
  refine ⟨cache, ?_, depth_eq, held⟩
  simp only [fromLeaves, new, bind_eq_ok, reject_eq_ok, pure_eq_ok]
  exact ⟨_, ⟨(), by omega, rfl⟩, ran⟩

/-- The root of the cache is that of its leaf vector. -/
theorem Holds.root_eq (held : Holds hasher cache leaf) :
    cache.root hasher = subRoot hasher.stateNodeHash leaf cache.depth 0 := held _ le_rfl 0

end SparseMerkleCache

end ParanoidChain
