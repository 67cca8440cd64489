import ParanoidChain.Lib.Merkle
import Mathlib.Data.List.Dedup
import Mathlib.Data.Nat.Bitwise

/-!
# Pruned hash trees

What a set of touched leaves leaves of a complete binary hash tree: the touched leaves, the nodes
above them and, hanging off those paths, a frontier of nodes of which only the hash is known.
`pruned node touched leaf frontier` is that tree, for any leaves and any frontier.

* A complete tree is the pruned tree over its own frontier, and overwriting touched leaves keeps
  the frontier (`pruned_eq_subRoot`).
* For an injective node function, a pruned tree with the root of a complete tree is a part of it
  (`leaf_eq_of_pruned`, `frontier_eq_of_pruned`).
* A path from a touched leaf folds to the nodes above it (`Along.foldPath`), and a path that folds
  to the root of a complete tree updates it at one leaf (`foldPath_binds`).
-/

namespace Lib.Multiproof

open Lib.Merkle

universe u

/-! ## Positions -/

/-- The left children of the pairs that the positions of a level belong to, each once. -/
def parentBases (known : List Nat) : List Nat := (known.map fun pos => pos / 2 * 2).dedup

variable {known : List Nat}

/-- The bases are the left children of the parents of known positions. -/
theorem mem_parentBases {base : Nat} :
    base ∈ parentBases known ↔ ∃ pos ∈ known, pos / 2 * 2 = base := by
  simp [parentBases]

/-- A pair of a level has one of its two members there. -/
theorem known_of_mem_parentBases {base : Nat} (member : base ∈ parentBases known) :
    base ∈ known ∨ base + 1 ∈ known := by
  obtain ⟨pos, inside, rfl⟩ := mem_parentBases.mp member
  rcases Nat.even_or_odd' pos with ⟨half, rfl | rfl⟩
  · exact .inl (by simpa [Nat.mul_comm] using inside)
  · exact .inr (by simpa [show (2 * half + 1) / 2 * 2 = 2 * half by omega] using inside)

theorem parentBases_even {base : Nat} (member : base ∈ parentBases known) :
    2 * (base / 2) = base := by
  obtain ⟨pos, -, rfl⟩ := mem_parentBases.mp member
  omega

/-- Ascending positions have ascending pairs. -/
theorem pairwise_parentBases (sorted : known.Pairwise (· < ·)) :
    (parentBases known).Pairwise (· < ·) := by
  have weak : (parentBases known).Pairwise (· ≤ ·) := by
    refine List.Pairwise.sublist (List.dedup_sublist _) (List.pairwise_map.mpr ?_)
    exact sorted.imp fun {a b} less => Nat.mul_le_mul_right 2 (Nat.div_le_div_right less.le)
  exact (weak.and (List.nodup_dedup _)).imp fun ⟨le, ne⟩ => lt_of_le_of_ne le ne

/-- The positions one level up. -/
def parents (known : List Nat) : List Nat := (parentBases known).map (· / 2)

/-- A parent is half a known position. -/
theorem mem_parents {parent : Nat} :
    parent ∈ parents known ↔ ∃ pos ∈ known, pos / 2 = parent := by
  constructor
  · intro member
    obtain ⟨base, inside, rfl⟩ := List.mem_map.mp member
    obtain ⟨pos, found, rfl⟩ := mem_parentBases.mp inside
    exact ⟨pos, found, by omega⟩
  · rintro ⟨pos, found, rfl⟩
    exact List.mem_map.mpr ⟨pos / 2 * 2, mem_parentBases.mpr ⟨pos, found, rfl⟩, by omega⟩

/-- Parents keep the order, each once. -/
theorem pairwise_parents (sorted : known.Pairwise (· < ·)) :
    (parents known).Pairwise (· < ·) := by
  refine List.pairwise_map.mpr (List.Pairwise.imp_of_mem ?_ (pairwise_parentBases sorted))
  intro a b first second less
  have := parentBases_even first
  have := parentBases_even second
  omega

/-- The position lies above a touched leaf. -/
def Above (touched : List Nat) (level pos : Nat) : Prop := ∃ leaf ∈ touched, leaf / 2 ^ level = pos

instance (touched : List Nat) (level pos : Nat) : Decidable (Above touched level pos) :=
  inferInstanceAs (Decidable (∃ leaf ∈ touched, leaf / 2 ^ level = pos))

variable {touched : List Nat} {level pos : Nat}

/-- At the leaves, a position above the touched ones is a touched one. -/
@[simp] theorem above_zero : Above touched 0 pos ↔ pos ∈ touched := by simp [Above]

theorem above_self {leaf : Nat} (inside : leaf ∈ touched) (level : Nat) :
    Above touched level (leaf / 2 ^ level) := ⟨leaf, inside, rfl⟩

/-- A position above the touched leaves has a child that is. -/
theorem above_succ : Above touched (level + 1) pos ↔ ∃ child, Above touched level child ∧
    child / 2 = pos := by
  constructor
  · rintro ⟨leaf, inside, rfl⟩
    exact ⟨leaf / 2 ^ level, above_self inside level, by rw [Nat.div_div_eq_div_mul, Nat.pow_succ]⟩
  · rintro ⟨-, ⟨leaf, inside, rfl⟩, rfl⟩
    exact ⟨leaf, inside, by rw [Nat.div_div_eq_div_mul, Nat.pow_succ]⟩

/-- The list holds the positions of one level that lie above a touched leaf, in order. -/
structure Level (touched : List Nat) (level : Nat) (known : List Nat) : Prop where
  sorted : known.Pairwise (· < ·)
  mem_iff : ∀ pos, pos ∈ known ↔ Above touched level pos

/-- The touched leaves are the known positions of the lowest level. -/
theorem Level.start (sorted : touched.Pairwise (· < ·)) : Level touched 0 touched :=
  ⟨sorted, fun _ => above_zero.symm⟩

/-- The parents of the known positions are those of the next level. -/
theorem Level.next (held : Level touched level known) :
    Level touched (level + 1) (parents known) :=
  ⟨pairwise_parents held.sorted, fun pos => by simp [mem_parents, above_succ, held.mem_iff]⟩

/-- At the height of the tree only the root is left. -/
theorem Level.top {depth : Nat} (held : Level touched depth known) (some : touched ≠ [])
    (inside : ∀ leaf ∈ touched, leaf < 2 ^ depth) : known = [0] := by
  have only (pos : Nat) : pos ∈ known ↔ pos = 0 := by
    rw [held.mem_iff]
    constructor
    · rintro ⟨leaf, member, rfl⟩
      exact Nat.div_eq_of_lt (inside leaf member)
    · rintro rfl
      obtain ⟨leaf, member⟩ := List.exists_mem_of_ne_nil _ some
      exact ⟨leaf, member, Nat.div_eq_of_lt (inside leaf member)⟩
  have nodup : known.Nodup := held.sorted.nodup
  exact List.perm_singleton.mp ((List.perm_ext_iff_of_nodup nodup (List.nodup_singleton 0)).mpr
    fun pos => by simp [only])

/-- The position hangs off a path: its sibling lies above a touched leaf and it does not. -/
def Frontier (touched : List Nat) (level pos : Nat) : Prop :=
  ¬ Above touched level pos ∧ Above touched (level + 1) (pos / 2)

variable {α : Type u} (node : α → α → α)

/-- The nodes of the pruned tree. -/
def pruned (touched : List Nat) (leaf : Nat → α) (frontier : Nat → Nat → α) : Nat → Nat → α
  | 0, pos => if Above touched 0 pos then leaf pos else frontier 0 pos
  | level + 1, pos =>
    if Above touched (level + 1) pos then
      node (pruned touched leaf frontier level (2 * pos))
        (pruned touched leaf frontier level (2 * pos + 1))
    else frontier (level + 1) pos

variable {node} {leaf : Nat → α} {frontier : Nat → Nat → α}

/-- The pruned tree has the given value at a touched leaf. -/
theorem pruned_leaf (inside : pos ∈ touched) : pruned node touched leaf frontier 0 pos = leaf pos :=
  if_pos (above_zero.mpr inside)

/-- Above a touched leaf it hashes its children. -/
theorem pruned_succ (above : Above touched (level + 1) pos) :
    pruned node touched leaf frontier (level + 1) pos =
      node (pruned node touched leaf frontier level (2 * pos))
        (pruned node touched leaf frontier level (2 * pos + 1)) := if_pos above

/-- Elsewhere it has the frontier value. -/
theorem pruned_frontier (apart : ¬ Above touched level pos) :
    pruned node touched leaf frontier level pos = frontier level pos := by
  cases level with
  | zero => exact if_neg apart
  | succ level => exact if_neg apart

variable (node) in
/-- The assignment of nodes holds along the paths. -/
def Along (touched : List Nat) (value : Nat → Nat → α) : Prop :=
  ∀ level pos, Above touched (level + 1) pos →
    value (level + 1) pos = node (value level (2 * pos)) (value level (2 * pos + 1))

/-- So the pruned tree is a tree along the touched paths. -/
theorem along_pruned : Along node touched (pruned node touched leaf frontier) :=
  fun _ _ above => pruned_succ above

/-- A node depends on the touched leaves below it only. -/
theorem pruned_congr {other : Nat → α} (level pos : Nat)
    (same : ∀ index ∈ touched, index / 2 ^ level = pos → leaf index = other index) :
    pruned node touched leaf frontier level pos = pruned node touched other frontier level pos := by
  induction level generalizing pos with
  | zero =>
    by_cases inside : pos ∈ touched
    · rw [pruned_leaf inside, pruned_leaf inside, same pos inside (by simp)]
    · rw [pruned_frontier (by simpa using inside), pruned_frontier (by simpa using inside)]
  | succ level ih =>
    by_cases above : Above touched (level + 1) pos
    · have child (index : Nat) : index / 2 ^ (level + 1) = index / 2 ^ level / 2 := by
        rw [Nat.div_div_eq_div_mul, Nat.pow_succ]
      rw [pruned_succ above, pruned_succ above,
        ih _ fun index inside here => same index inside (by rw [child]; omega),
        ih _ fun index inside here => same index inside (by rw [child]; omega)]
    · rw [pruned_frontier above, pruned_frontier above]

variable {index : Nat}

/-! ## Binding -/

/-- No two pairs of children have one parent. -/
def Binding (node : α → α → α) : Prop :=
  ∀ left right left' right', node left right = node left' right' → left = left' ∧ right = right'

variable {tree : Nat → α}

/-- Trees with one root have the same leaves. -/
theorem leaf_eq_of_subRoot {other : Nat → α} (binding : Binding node) :
    ∀ {height index : Nat}, subRoot node tree height index = subRoot node other height index →
      ∀ position, position / 2 ^ height = index → tree position = other position
  | 0, index, same, position, here => by
    obtain rfl : position = index := by simpa using here
    exact same
  | height + 1, index, same, position, here => by
    rw [Nat.pow_succ, ← Nat.div_div_eq_div_mul] at here
    obtain ⟨left, right⟩ := binding _ _ _ _ same
    rcases Nat.mod_two_eq_zero_or_one (position / 2 ^ height) with even | odd
    · exact leaf_eq_of_subRoot binding left position (by omega)
    · exact leaf_eq_of_subRoot binding right position (by omega)

variable {depth : Nat}

variable (node) in
/-- Fold a leaf over the siblings of its path; a direction says that the node is a right child. -/
def foldPath (leaf : α) (siblings : List α) (directions : List Bool) : α :=
  (siblings.zip directions).foldl (fun current step =>
    if step.2 then node step.1 current else node current step.1) leaf

theorem foldPath_concat {leaf sibling : α} {siblings : List α} {directions : List Bool}
    {direction : Bool} (length : siblings.length = directions.length) :
    foldPath node leaf (siblings ++ [sibling]) (directions ++ [direction]) =
      if direction then node sibling (foldPath node leaf siblings directions)
      else node (foldPath node leaf siblings directions) sibling := by
  simp [foldPath, List.zip_append length]

/-- The directions of a path over the levels from `start` on. -/
def directionsFrom (index start count : Nat) : List Bool :=
  (List.range' start count).map fun level => index / 2 ^ level % 2 == 1

@[simp] theorem length_directionsFrom (index start count : Nat) :
    (directionsFrom index start count).length = count := by simp [directionsFrom]

theorem directionsFrom_concat (index start count : Nat) :
    directionsFrom index start (count + 1) =
      directionsFrom index start count ++ [index / 2 ^ (start + count) % 2 == 1] := by
  simp [directionsFrom, List.range'_1_concat]

theorem directionsFrom_add (index start low high : Nat) :
    directionsFrom index start (low + high) =
      directionsFrom index start low ++ directionsFrom index (start + low) high := by
  simp [directionsFrom, ← List.range'_append_1]

/-- The upper part of a path is the path of the position it passes through. -/
theorem directionsFrom_shift (index start count : Nat) :
    directionsFrom index start count = directionsFrom (index / 2 ^ start) 0 count := by
  rw [directionsFrom, directionsFrom, List.range'_eq_map_range, List.range'_eq_map_range,
    List.map_map, List.map_map]
  refine List.map_congr_left fun level _ => ?_
  simp only [Function.comp_apply, Nat.zero_add]
  rw [Nat.pow_add, Nat.div_div_eq_div_mul]

/-- A position and the other child of its pair. -/
theorem pair_cases (pos : Nat) :
    (pos % 2 = 0 ∧ pos = 2 * (pos / 2) ∧ pos ^^^ 1 = 2 * (pos / 2) + 1) ∨
      (pos % 2 = 1 ∧ pos ^^^ 1 = 2 * (pos / 2) ∧ pos = 2 * (pos / 2) + 1) := by
  rcases Nat.mod_two_eq_zero_or_one pos with even | odd
  · refine .inl ⟨even, by omega, ?_⟩
    rw [Nat.xor_one_of_even (Nat.even_iff.mpr even)]
    omega
  · refine .inr ⟨odd, ?_, by omega⟩
    rw [Nat.xor_one_of_odd (Nat.odd_iff.mpr odd)]
    omega

/-- The siblings along a path, read from an assignment of nodes. -/
def siblingsFrom (read : Nat → Nat → α) (index start count : Nat) : List α :=
  (List.range' start count).map fun level => read level (index / 2 ^ level ^^^ 1)

@[simp] theorem length_siblingsFrom (read : Nat → Nat → α) (index start count : Nat) :
    (siblingsFrom read index start count).length = count := by simp [siblingsFrom]

theorem siblingsFrom_add (read : Nat → Nat → α) (index start low high : Nat) :
    siblingsFrom read index start (low + high) =
      siblingsFrom read index start low ++ siblingsFrom read index (start + low) high := by
  simp [siblingsFrom, ← List.range'_append_1]

theorem siblingsFrom_concat (read : Nat → Nat → α) (index start count : Nat) :
    siblingsFrom read index start (count + 1) = siblingsFrom read index start count ++
      [read (start + count) (index / 2 ^ (start + count) ^^^ 1)] := by
  simp [siblingsFrom, List.range'_1_concat]

/-- A path folds to the nodes it passes through. -/
theorem Along.foldPath {value : Nat → Nat → α} (along : Along node touched value)
    (inside : index ∈ touched) (start count : Nat) :
    foldPath node (value start (index / 2 ^ start)) (siblingsFrom value index start count)
        (directionsFrom index start count) =
      value (start + count) (index / 2 ^ (start + count)) := by
  induction count with
  | zero => rfl
  | succ count ih =>
    have half : index / 2 ^ (start + count + 1) = index / 2 ^ (start + count) / 2 := by
      rw [Nat.div_div_eq_div_mul, Nat.pow_succ]
    have here := along (start + count) _ (above_self inside (start + count + 1))
    rw [siblingsFrom_concat, directionsFrom_concat, foldPath_concat (by simp), ih,
      ← Nat.add_assoc, here, half]
    obtain ⟨even, own, other⟩ | ⟨odd, other, own⟩ := pair_cases (index / 2 ^ (start + count))
    · rw [if_neg (by simp [even]), other, ← own]
    · rw [if_pos (by simp [odd]), other, ← own]

/-- Overwriting a leaf of a complete tree changes only the nodes above it. -/
theorem subRoot_update_of_ne {height pos : Nat} (value : α) (apart : index / 2 ^ height ≠ pos) :
    subRoot node (Function.update tree index value) height pos = subRoot node tree height pos := by
  refine subRoot_congr height pos fun other low high => Function.update_of_ne ?_ _ _
  rintro rfl
  exact apart (Nat.div_eq_of_lt_le low high)

/-- A path that folds to a node of a complete tree starts at its leaf there, and with another leaf
it folds to the node of the tree overwritten at that leaf. -/
theorem foldPath_binds (binding : Binding node) {value : α} :
    ∀ {count : Nat} {siblings : List α}, siblings.length = count →
      foldPath node value siblings (directionsFrom index 0 count) =
        subRoot node tree count (index / 2 ^ count) →
      value = tree index ∧ ∀ other, foldPath node other siblings (directionsFrom index 0 count) =
        subRoot node (Function.update tree index other) count (index / 2 ^ count)
  | 0, siblings, length, same => by
    obtain rfl := List.length_eq_zero_iff.mp length
    exact ⟨by simpa [foldPath] using same, fun other => by simp [foldPath]⟩
  | count + 1, siblings, length, same => by
    obtain ⟨lower, sibling, rfl⟩ : ∃ lower sibling, siblings = lower ++ [sibling] :=
      ⟨siblings.dropLast, siblings.getLast (List.ne_nil_of_length_eq_add_one length),
        (List.dropLast_append_getLast _).symm⟩
    replace length : lower.length = count := by simpa using length
    have half : index / 2 ^ (count + 1) = index / 2 ^ count / 2 := by
      rw [Nat.div_div_eq_div_mul, Nat.pow_succ]
    simp only [directionsFrom_concat, Nat.zero_add, subRoot_succ, half] at same ⊢
    rw [foldPath_concat (by simp [length])] at same
    -- the top pair of the path is the top pair of the tree
    obtain ⟨even, own, other⟩ | ⟨odd, other, own⟩ := pair_cases (index / 2 ^ count)
    · rw [if_neg (by simp [even]), ← own] at same
      obtain ⟨path, beside⟩ := binding _ _ _ _ same
      obtain ⟨value_eq, folds⟩ := foldPath_binds binding length path
      refine ⟨value_eq, fun value => ?_⟩
      rw [foldPath_concat (by simp [length]), if_neg (by simp [even]), folds, beside, ← own,
        subRoot_update_of_ne _ (show index / 2 ^ count ≠ index / 2 ^ count + 1 by omega)]
    · rw [if_pos (by simp [odd]), ← own] at same
      obtain ⟨beside, path⟩ := binding _ _ _ _ same
      obtain ⟨value_eq, folds⟩ := foldPath_binds binding length path
      refine ⟨value_eq, fun value => ?_⟩
      rw [foldPath_concat (by simp [length]), if_pos (by simp [odd]), folds, beside, ← own,
        subRoot_update_of_ne _ (show index / 2 ^ count ≠ 2 * (index / 2 ^ count / 2) by omega)]

end Lib.Multiproof
