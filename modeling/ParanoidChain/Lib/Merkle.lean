import Mathlib.Tactic.Linarith
import Mathlib.Tactic.Ring

/-!
# Complete binary hash trees

A leaf vector is a function on the natural numbers, and `subRoot node leaf height index` is the root
of the aligned subtree of the given height: the one over the leaves `index * 2 ^ height` up to
`(index + 1) * 2 ^ height`. The root of a tree of depth `d` is `subRoot node leaf d 0`. The node
function is arbitrary throughout.

Three representations are related to it:

* a heap, an array with the root at `1` and the children of `k` at `2 k` and `2 k + 1`
  (`Consistent`), including the state in the middle of a path repair;
* a stack of completed blocks, as an incremental builder keeps it (`Covers`);
* the table of all-empty subtree roots (`zeroRoot`).
-/

namespace Lib.Merkle

universe u

variable {α : Type u} (node : α → α → α)

/-- The root of the aligned subtree of one height at one index of that height. -/
def subRoot (leaf : Nat → α) : Nat → Nat → α
  | 0, index => leaf index
  | height + 1, index =>
    node (subRoot leaf height (2 * index)) (subRoot leaf height (2 * index + 1))

/-- The root of a subtree all of whose leaves are `zero`. -/
def zeroRoot (zero : α) : Nat → α
  | 0 => zero
  | height + 1 => node (zeroRoot zero height) (zeroRoot zero height)

variable {node}

@[simp] theorem subRoot_zero (leaf : Nat → α) (index : Nat) :
    subRoot node leaf 0 index = leaf index := rfl

theorem subRoot_succ (leaf : Nat → α) (height index : Nat) :
    subRoot node leaf (height + 1) index =
      node (subRoot node leaf height (2 * index)) (subRoot node leaf height (2 * index + 1)) := rfl

theorem zeroRoot_succ (zero : α) (height : Nat) :
    zeroRoot node zero (height + 1) =
      node (zeroRoot node zero height) (zeroRoot node zero height) := rfl

/-- A subtree root depends only on the leaves below it. -/
theorem subRoot_congr {first second : Nat → α} :
    ∀ (height index : Nat),
      (∀ leaf, index * 2 ^ height ≤ leaf → leaf < (index + 1) * 2 ^ height →
        first leaf = second leaf) →
      subRoot node first height index = subRoot node second height index
  | 0, index, same => same index (by simp) (by simp)
  | height + 1, index, same => by
    rw [subRoot_succ, subRoot_succ]
    have width : (2 : Nat) ^ (height + 1) = 2 * 2 ^ height := by ring
    rw [width] at same
    congr 1
    · exact subRoot_congr height _ fun leaf low high =>
        same leaf (by linarith) (by linarith [Nat.two_pow_pos height])
    · exact subRoot_congr height _ fun leaf low high =>
        same leaf (by linarith [Nat.two_pow_pos height]) (by linarith)

variable (node) in
/-- Two different pairs of children at the same place of two trees have one node. -/
def Collide (first second : Nat → α) (height : Nat) : Prop :=
  ∃ level < height, ∃ place,
    ¬ (subRoot node first level (2 * place) = subRoot node second level (2 * place) ∧
      subRoot node first level (2 * place + 1) = subRoot node second level (2 * place + 1)) ∧
    subRoot node first (level + 1) place = subRoot node second (level + 1) place

/-- Trees with one root have the same leaves, or they collide. -/
theorem leaf_eq_or_collide {first second : Nat → α} :
    ∀ {height index : Nat}, subRoot node first height index = subRoot node second height index →
      ∀ position, position / 2 ^ height = index →
        first position = second position ∨ Collide node first second height
  | 0, index, same, position, here => by
    obtain rfl : position = index := by simpa using here
    exact .inl same
  | height + 1, index, same, position, here => by
    rw [Nat.pow_succ, ← Nat.div_div_eq_div_mul] at here
    by_cases children : subRoot node first height (2 * index) =
        subRoot node second height (2 * index) ∧
      subRoot node first height (2 * index + 1) = subRoot node second height (2 * index + 1)
    · have below := (Nat.mod_two_eq_zero_or_one (position / 2 ^ height)).elim
        (fun even => leaf_eq_or_collide children.1 position (by omega))
        (fun odd => leaf_eq_or_collide children.2 position (by omega))
      exact below.imp_right fun ⟨level, low, meet⟩ => ⟨level, by omega, meet⟩
    · exact .inr ⟨height, by omega, index, children, same⟩

/-- A tree over the roots of its subtrees is the tree over their leaves. -/
theorem subRoot_split (leaf : Nat → α) (below : Nat) :
    ∀ (above index : Nat),
      subRoot node (subRoot node leaf below) above index = subRoot node leaf (above + below) index
  | 0, index => by simp
  | above + 1, index => by
    rw [subRoot_succ, subRoot_split leaf below above, subRoot_split leaf below above,
      Nat.add_right_comm, subRoot_succ]

/-- A subtree of zero leaves has the zero root of its height. -/
theorem subRoot_eq_zeroRoot {leaf : Nat → α} {zero : α} {height index : Nat}
    (empty : ∀ position, index * 2 ^ height ≤ position → position < (index + 1) * 2 ^ height →
      leaf position = zero) :
    subRoot node leaf height index = zeroRoot node zero height := by
  have constant : ∀ (height index : Nat),
      subRoot node (fun _ => zero) height index = zeroRoot node zero height := by
    intro height
    induction height with
    | zero => intro index; rfl
    | succ height ih => intro index; rw [subRoot_succ, ih, ih, zeroRoot_succ]
  rw [subRoot_congr height index empty, constant]

/-- A subtree is the tree over its own leaves. -/
theorem subRoot_shift (leaf : Nat → α) (height start : Nat) :
    ∀ (below index : Nat), below ≤ height →
      subRoot node (fun position => leaf (start * 2 ^ height + position)) below index =
        subRoot node leaf below (start * 2 ^ (height - below) + index)
  | 0, index, _ => rfl
  | below + 1, index, inside => by
    have split : (2 : Nat) ^ (height - below) = 2 * 2 ^ (height - (below + 1)) := by
      rw [← Nat.pow_succ']
      congr 1
      omega
    have left : start * 2 ^ (height - below) + 2 * index =
        2 * (start * 2 ^ (height - (below + 1)) + index) := by rw [split]; ring
    rw [subRoot_succ, subRoot_shift leaf height start below _ (by omega),
      subRoot_shift leaf height start below _ (by omega), subRoot_succ, ← Nat.add_assoc, left]

/-! ## Heaps -/

variable (node) in
/-- The chosen positions hold the nodes of their children. -/
def ConsistentOn (chosen : Nat → Prop) (read : Nat → α) : Prop :=
  ∀ position, chosen position → read position = node (read (2 * position)) (read (2 * position + 1))

variable {read : Nat → α}

/-- Recomputing a position that is no child of a chosen one adds it to the chosen ones. -/
theorem ConsistentOn.rehash {chosen : Nat → Prop} (held : ConsistentOn node chosen read)
    (position : Nat) (pos : 1 ≤ position)
    (apart : ∀ other, chosen other → position ≠ 2 * other ∧ position ≠ 2 * other + 1) :
    ConsistentOn node (fun other => other = position ∨ chosen other)
      (Function.update read position (node (read (2 * position)) (read (2 * position + 1)))) := by
  intro other inside
  by_cases here : other = position
  · subst here
    rw [Function.update_self, Function.update_of_ne (by omega), Function.update_of_ne (by omega)]
  · have former : chosen other := inside.resolve_left here
    obtain ⟨left, right⟩ := apart other former
    rw [Function.update_of_ne here, Function.update_of_ne left.symm,
      Function.update_of_ne right.symm]
    exact held other former

variable (node) in
/-- Every inner position below `count`, the one at `except` apart, holds the node of its children. -/
def Consistent (read : Nat → α) (count except : Nat) : Prop :=
  ∀ position, 1 ≤ position → position < count → position ≠ except →
    read position = node (read (2 * position)) (read (2 * position + 1))

/-- In a consistent heap of `2 ^ depth` leaves, every position is a subtree root. -/
theorem Consistent.read_eq {depth : Nat} (heap : Consistent node read (2 ^ depth) 0) :
    ∀ (height level index : Nat), level + height = depth → index < 2 ^ level →
      read (2 ^ level + index) =
        subRoot node (fun leaf => read (2 ^ depth + leaf)) height index
  | 0, level, index, split, _ => by
    obtain rfl : level = depth := by omega
    rfl
  | height + 1, level, index, split, inside => by
    have above : 2 ^ level + index < 2 ^ depth := by
      have : (2 : Nat) ^ (level + 1) ≤ 2 ^ depth := Nat.pow_le_pow_right (by omega) (by omega)
      have : (2 : Nat) ^ (level + 1) = 2 * 2 ^ level := by ring
      omega
    have pos := Nat.two_pow_pos level
    have next : (2 : Nat) ^ (level + 1) = 2 * 2 ^ level := by ring
    have left : 2 * (2 ^ level + index) = 2 ^ (level + 1) + 2 * index := by omega
    rw [heap _ (by omega) above (by omega), subRoot_succ, left, Nat.add_assoc,
      heap.read_eq height (level + 1) (2 * index) (by omega) (by omega),
      heap.read_eq height (level + 1) (2 * index + 1) (by omega) (by omega)]

/-- The root of a consistent heap is the root of its leaves. -/
theorem Consistent.root_eq {depth : Nat} (heap : Consistent node read (2 ^ depth) 0) :
    read 1 = subRoot node (fun leaf => read (2 ^ depth + leaf)) depth 0 :=
  heap.read_eq depth 0 0 (by omega) (by omega)

/-- Overwriting a leaf or an inner position can only break the position above it. -/
theorem Consistent.overwrite {count position : Nat} (heap : Consistent node read count position)
    (value : α) (repaired : position < count →
      value = node (read (2 * position)) (read (2 * position + 1))) (pos : 1 ≤ position) :
    Consistent node (Function.update read position value) count (position / 2) := by
  intro other low below apart
  have left : 2 * other ≠ position := by omega
  have right : 2 * other + 1 ≠ position := by omega
  rw [Function.update_of_ne left, Function.update_of_ne right]
  by_cases same : other = position
  · subst same
    rw [Function.update_self]
    exact repaired below
  · rw [Function.update_of_ne same]
    exact heap other low below same

/-- A position that turns out unchanged breaks nothing. -/
theorem Consistent.of_unchanged {count except : Nat} (heap : Consistent node read count except)
    (same : 1 ≤ except → read except = node (read (2 * except)) (read (2 * except + 1))) :
    Consistent node read count 0 := by
  intro position low below _
  by_cases here : position = except
  · subst here
    exact same low
  · exact heap position low below here

/-! ## Stacks of completed blocks -/

variable (node) in
/-- The stack, top first, holds the roots of the aligned blocks that partition the leaves below
`position`. A block is always the left child of its parent, so no two have the same height. -/
inductive Covers (leaf : Nat → α) : List (Nat × α) → Nat → Prop
  | nil : Covers leaf [] 0
  | push {stack : List (Nat × α)} (height index : Nat)
      (below : Covers leaf stack (2 * index * 2 ^ height)) :
      Covers leaf ((height, subRoot node leaf height (2 * index)) :: stack)
        ((2 * index + 1) * 2 ^ height)

variable (node) in
/-- Append a completed block, merging it with equal-height blocks below it. -/
def appendBlock : List (Nat × α) → Nat → α → List (Nat × α)
  | [], height, root => [(height, root)]
  | (top, left) :: stack, height, root =>
    if top = height then appendBlock stack (height + 1) (node left root)
    else (height, root) :: (top, left) :: stack

/-- An odd part and a power of two are determined by their product. -/
theorem odd_mul_two_pow_inj {a b m n : Nat} (same : (2 * a + 1) * 2 ^ m = (2 * b + 1) * 2 ^ n) :
    m = n ∧ a = b := by
  have no {a b m n : Nat} (less : m < n) (same : (2 * a + 1) * 2 ^ m = (2 * b + 1) * 2 ^ n) :
      False := by
    obtain ⟨gap, rfl⟩ : ∃ gap, n = m + (gap + 1) := ⟨n - m - 1, by omega⟩
    have cancelled : 2 * a + 1 = 2 * ((2 * b + 1) * 2 ^ gap) := by
      apply Nat.eq_of_mul_eq_mul_right (Nat.two_pow_pos m)
      rw [same]
      ring
    omega
  rcases Nat.lt_trichotomy m n with less | rfl | more
  · exact (no less same).elim
  · have := Nat.eq_of_mul_eq_mul_right (Nat.two_pow_pos m) same
    exact ⟨rfl, by omega⟩
  · exact (no more same.symm).elim

/-- Appending the next aligned block extends the partition by it. -/
theorem Covers.append {leaf : Nat → α} {stack : List (Nat × α)} {position : Nat}
    (covers : Covers node leaf stack position) :
    ∀ {height index : Nat}, position = index * 2 ^ height →
      Covers node leaf (appendBlock node stack height (subRoot node leaf height index))
        ((index + 1) * 2 ^ height) := by
  induction covers with
  | nil =>
    intro height index aligned
    obtain rfl : index = 0 := by
      have := Nat.two_pow_pos height
      by_contra nonzero
      have : 0 < index * 2 ^ height := Nat.mul_pos (by omega) this
      omega
    exact Covers.push height 0 (by simpa using Covers.nil)
  | @push stack top block below ih =>
    intro height index aligned
    rcases Nat.even_or_odd' index with ⟨half, rfl | rfl⟩
    · -- an even block cannot merge: its height would have to be that of the block below it
      have differs : top ≠ height := by
        rintro rfl
        have := Nat.eq_of_mul_eq_mul_right (Nat.two_pow_pos top) aligned
        omega
      rw [appendBlock, if_neg differs]
      refine Covers.push height half ?_
      rw [← aligned]
      exact Covers.push top block below
    · obtain ⟨rfl, rfl⟩ := odd_mul_two_pow_inj aligned
      have merged : Covers node leaf
          (appendBlock node stack (top + 1) (subRoot node leaf (top + 1) block))
          ((block + 1) * 2 ^ (top + 1)) := ih (by ring)
      have finish : (2 * block + 1 + 1) * 2 ^ top = (block + 1) * 2 ^ (top + 1) := by ring
      rw [appendBlock, if_pos rfl, finish]
      exact merged

/-- A stack that covers a whole tree is that tree's root. -/
theorem Covers.whole {leaf : Nat → α} {stack : List (Nat × α)} {depth : Nat}
    (covers : Covers node leaf stack (2 ^ depth)) :
    stack = [(depth, subRoot node leaf depth 0)] := by
  have pos := Nat.two_pow_pos depth
  generalize whole : 2 ^ depth = position at covers
  cases covers with
  | nil => omega
  | push height index below =>
    obtain ⟨rfl, rfl⟩ := odd_mul_two_pow_inj (a := 0) (by simpa using whole)
    rw [Nat.mul_zero, Nat.zero_mul] at below
    generalize start : 0 = position at below
    cases below with
    | nil => rfl
    | push height index below =>
      have : 0 < (2 * index + 1) * 2 ^ height := Nat.mul_pos (by omega) (Nat.two_pow_pos _)
      omega

end Lib.Merkle
