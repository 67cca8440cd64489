import ParanoidChain.Chain.State
import ParanoidChain.Laws.Chain.Resize

/-!
# The compact root cache

`WellFormed` is the shape of the cache: one root per segment and, once there are several, a heap of
upper nodes over them. Every operation keeps it and has a short description on the segment roots, so
the root of the cache is always the root of the tree over them, and the plain root of the slot
vector when each of them is the root of its segment (`root_eq_plainRoot`).
-/

namespace ParanoidChain

open Lib Lib.Merkle

namespace ExactSegmentRootCache

variable {hasher : StateHasher} {roots : ExactSegmentRootCache}

/-- The heap of upper nodes over the segment roots. -/
structure Heap (hasher : StateHasher) (segmentRoots tree : List Digest) : Prop where
  length_eq : tree.length = segmentRoots.length + segmentRoots.length
  leaf_eq : ∀ id < segmentRoots.length,
    heapRead tree (segmentRoots.length + id) = segmentRoots.getD id 0
  inner : Consistent hasher.stateNodeHash (heapRead tree) segmentRoots.length 0

/-- The shape of the cache. A single root has no upper nodes, and its heap is not kept. -/
structure WellFormed (hasher : StateHasher) (roots : ExactSegmentRootCache) : Prop where
  segmentLog_eq : roots.effectiveLogSeg = min roots.logSlots logSegmentSize
  length_eq : roots.segmentRoots.length = 2 ^ (roots.logSlots - roots.effectiveLogSeg)
  heap : roots.segmentRoots.length ≠ 1 → Heap hasher roots.segmentRoots roots.tree

/-- The segment roots as leaves of the upper tree. -/
def leaf (roots : ExactSegmentRootCache) (id : Nat) : Digest := roots.segmentRoots.getD id 0

/-- The root of the cache is the root of the tree over the segment roots. -/
theorem WellFormed.root_eq (wf : WellFormed hasher roots) :
    roots.root = subRoot hasher.stateNodeHash roots.leaf
      (roots.logSlots - roots.effectiveLogSeg) 0 := by
  unfold root
  split
  case isTrue single =>
    have shallow : roots.logSlots - roots.effectiveLogSeg = 0 := by
      have := wf.length_eq.symm.trans single
      exact (Nat.pow_eq_one.mp this).resolve_left (by omega)
    rw [shallow]
    rfl
  case isFalse several =>
    have heap := wf.heap several
    have inner := heap.inner
    rw [wf.length_eq] at inner
    refine inner.root_eq.trans (subRoot_congr _ _ fun id _ high => ?_)
    rw [← wf.length_eq]
    exact heap.leaf_eq id (by simpa [wf.length_eq] using high)

/-! ## Building -/

theorem heapRead_rehash {tree : List Digest} {position : Nat} (inside : position < tree.length) :
    heapRead (rehash hasher tree position) = Function.update (heapRead tree) position
      (hasher.stateNodeHash (heapRead tree (2 * position)) (heapRead tree (2 * position + 1))) :=
  heapRead_set inside _

/-- Hashing positions in descending order makes all of them consistent. -/
theorem foldl_rehash (hasher : StateHasher) (last : Nat) {count : Nat} {tree : List Digest}
    (below : last < count) (length : tree.length = count + count)
    (held : ConsistentOn hasher.stateNodeHash (fun position => last < position ∧ position < count)
      (heapRead tree)) :
    let built := (List.range' 1 last).reverse.foldl (rehash hasher) tree
    built.length = count + count ∧
      (∀ position, count ≤ position → heapRead built position = heapRead tree position) ∧
      Consistent hasher.stateNodeHash (heapRead built) count 0 := by
  induction last generalizing tree with
  | zero => exact ⟨length, fun _ _ => rfl, fun position low high _ => held position ⟨low, high⟩⟩
  | succ last ih =>
    have inside : 1 + last < tree.length := by omega
    have grown := held.rehash (1 + last) (by omega) fun other chosen => by omega
    rw [← heapRead_rehash inside] at grown
    obtain ⟨length', same, consistent⟩ := ih (by omega) (by simpa [rehash] using length)
      fun position chosen => grown position (by omega)
    simp only [List.range'_1_concat, List.reverse_append, List.reverse_singleton,
      List.singleton_append, List.foldl_cons]
    refine ⟨length', fun position above => (same position above).trans ?_, consistent⟩
    rw [heapRead_rehash inside, Function.update_of_ne (by omega)]

theorem heap_buildTree {segmentRoots : List Digest} (pos : segmentRoots.length ≠ 0) :
    Heap hasher segmentRoots (buildTree hasher segmentRoots) := by
  have length : (List.replicate segmentRoots.length (0 : Digest) ++ segmentRoots).length =
      segmentRoots.length + segmentRoots.length := by simp
  obtain ⟨length', same, consistent⟩ := foldl_rehash hasher (segmentRoots.length - 1)
    (by omega) length fun position chosen => by omega
  refine ⟨length', fun id inside => ?_, consistent⟩
  refine (same _ (by omega)).trans ?_
  rw [heapRead, List.getD_append_right _ _ _ _ (by simp)]
  simp

theorem empty_wellFormed (hasher : StateHasher) (logSlots : Nat) :
    WellFormed hasher (empty hasher logSlots) :=
  ⟨rfl, by simp [empty, emptyWithSegmentLog],
    fun _ => heap_buildTree (by simp [empty, emptyWithSegmentLog])⟩

theorem leaf_empty {logSlots id : Nat}
    (inside : id < 2 ^ (logSlots - min logSlots logSegmentSize)) :
    (empty hasher logSlots).leaf id = hasher.zeroSlotRoot (min logSlots logSegmentSize) := by
  rw [leaf, empty, emptyWithSegmentLog]
  exact List.getD_replicate _ inside

/-! ## Setting a segment root -/

/-- Hashing the path above one broken position makes the heap consistent. -/
theorem repairPath_consistent {count fuel position : Nat} {tree : List Digest}
    (enough : position ≤ fuel) (pos : 1 ≤ position) (inside : position < count + count)
    (length : tree.length = count + count)
    (broken : Consistent hasher.stateNodeHash (heapRead tree) count (position / 2)) :
    let repaired := repairPath hasher fuel position tree
    repaired.length = count + count ∧
      Consistent hasher.stateNodeHash (heapRead repaired) count 0 ∧
      ∀ other, count ≤ other → heapRead repaired other = heapRead tree other := by
  induction fuel generalizing position tree with
  | zero => omega
  | succ fuel ih =>
    simp only [repairPath]
    split
    case isFalse top =>
      obtain rfl : position = 1 := by omega
      exact ⟨length, broken, fun _ _ => rfl⟩
    case isTrue above =>
      have here : position / 2 < tree.length := by omega
      have overwritten := broken.overwrite _ (fun _ => rfl) (by omega)
      rw [← heapRead_rehash here] at overwritten
      obtain ⟨length', consistent, same⟩ := ih (by omega) (by omega) (by omega)
        (by simpa [rehash] using length) overwritten
      refine ⟨length', consistent, fun other high => (same other high).trans ?_⟩
      rw [heapRead_rehash here, Function.update_of_ne (by omega)]

theorem Heap.setSegmentRoot {segmentRoots tree : List Digest}
    (heap : Heap hasher segmentRoots tree) {segId : Nat} (inside : segId < segmentRoots.length)
    (root : Digest) :
    Heap hasher (segmentRoots.set segId root)
      (repairPath hasher (segmentRoots.length + segId) (segmentRoots.length + segId)
        (tree.set (segmentRoots.length + segId) root)) := by
  have here : segmentRoots.length + segId < tree.length := by
    rw [heap.length_eq]
    omega
  have broken := (show Consistent hasher.stateNodeHash (heapRead tree) segmentRoots.length
      (segmentRoots.length + segId) from fun position low high _ =>
        heap.inner position low high (by omega)).overwrite root
    (fun low => absurd low (by omega)) (by omega)
  rw [← heapRead_set here] at broken
  obtain ⟨length, consistent, same⟩ := repairPath_consistent le_rfl (by omega) (by omega)
    (by simpa using heap.length_eq) broken
  refine ⟨by simpa using length, fun id below => ?_, by simpa using consistent⟩
  rw [List.length_set] at below ⊢
  refine (same _ (by omega)).trans ?_
  have read : (segmentRoots.set segId root).getD id 0 =
      Function.update (fun other => segmentRoots.getD other 0) segId root id :=
    congrFun (getD_set inside root 0) id
  rw [heapRead_set here, read]
  by_cases this : id = segId
  · subst this
    rw [Function.update_self, Function.update_self]
  · rw [Function.update_of_ne this, Function.update_of_ne (by omega), heap.leaf_eq id below]

section

variable (wf : WellFormed hasher roots)
include wf

/-- Setting a segment root keeps the shape and sets one leaf of the upper tree. -/
theorem WellFormed.setSegmentRoot {segId : Nat} (inside : segId < roots.segmentRoots.length)
    (root : Digest) :
    WellFormed hasher (roots.setSegmentRoot hasher segId root) ∧
      (roots.setSegmentRoot hasher segId root).logSlots = roots.logSlots ∧
      (roots.setSegmentRoot hasher segId root).effectiveLogSeg = roots.effectiveLogSeg ∧
      (roots.setSegmentRoot hasher segId root).leaf = Function.update roots.leaf segId root := by
  have leaves : (fun id => (roots.segmentRoots.set segId root).getD id 0) =
      Function.update roots.leaf segId root := getD_set inside root 0
  simp only [ExactSegmentRootCache.setSegmentRoot, List.length_set]
  split
  case isTrue single =>
    exact ⟨⟨wf.segmentLog_eq, by simpa using wf.length_eq,
      fun several => absurd (by simpa using single) several⟩, rfl, rfl, leaves⟩
  case isFalse several =>
    exact ⟨⟨wf.segmentLog_eq, by simpa using wf.length_eq,
      fun _ => (wf.heap several).setSegmentRoot inside root⟩, rfl, rfl, leaves⟩

/-! ## Changes of depth -/

/-- Growing by one level pairs the old root with an empty half, or adds empty segments. -/
theorem WellFormed.expandOne :
    WellFormed hasher (roots.expandOne hasher) ∧
      (roots.expandOne hasher).logSlots = roots.logSlots + 1 ∧
      (roots.logSlots < logSegmentSize →
        (roots.expandOne hasher).leaf 0 =
          hasher.stateNodeHash roots.root (hasher.zeroSlotRoot roots.logSlots)) ∧
      (logSegmentSize ≤ roots.logSlots →
        (roots.expandOne hasher).effectiveLogSeg = roots.effectiveLogSeg ∧
        (roots.expandOne hasher).segmentRoots.length = roots.segmentRoots.length * 2 ∧
        (∀ id < roots.segmentRoots.length, (roots.expandOne hasher).leaf id = roots.leaf id) ∧
        ∀ id, roots.segmentRoots.length ≤ id → id < roots.segmentRoots.length * 2 →
          (roots.expandOne hasher).leaf id = hasher.zeroSlotRoot roots.effectiveLogSeg) := by
  have size := wf.length_eq
  have log := wf.segmentLog_eq
  simp only [ExactSegmentRootCache.expandOne]
  split
  case isTrue shallow =>
    have single : roots.segmentRoots.length = 1 := by
      rw [size, log, Nat.min_eq_left (by omega), Nat.sub_self, Nat.pow_zero]
    refine ⟨⟨by simp only; omega, by simp [single], fun several => absurd ?_ several⟩, rfl,
      fun _ => ?_, fun deep => by omega⟩
    · simpa using single
    · simp [leaf, single]
  case isFalse deep =>
    have double : roots.segmentRoots.length * 2 =
        2 ^ (roots.logSlots + 1 - roots.effectiveLogSeg) := by
      rw [size, ← Nat.pow_succ]
      congr 1
      omega
    have positive : roots.segmentRoots.length ≠ 0 := by
      rw [size]
      exact (Nat.two_pow_pos _).ne'
    refine ⟨⟨by simp only; omega, ?_, fun _ => heap_buildTree ?_⟩, rfl, fun _ => by omega, fun _ =>
      ⟨rfl, ?_, fun id inside => ?_, fun id low high => ?_⟩⟩
    · simp only [List.length_append, List.length_replicate, ← double]
      omega
    · simp only [List.length_append, List.length_replicate]
      omega
    · simp only [List.length_append, List.length_replicate]
      omega
    · exact List.getD_append _ _ _ _ inside
    · rw [leaf, List.getD_append_right _ _ _ _ low]
      exact List.getD_replicate _ (by omega)

/-- Shrinking by one level keeps the lower segment roots, unless the only segment is halved. -/
theorem WellFormed.shrinkOne (two : 2 ≤ roots.logSlots) :
    WellFormed hasher (roots.shrinkOne hasher) ∧
      (roots.shrinkOne hasher).logSlots + 1 = roots.logSlots ∧
      (logSegmentSize < roots.logSlots →
        (roots.shrinkOne hasher).effectiveLogSeg = roots.effectiveLogSeg ∧
        ∀ id < (roots.shrinkOne hasher).segmentRoots.length,
          (roots.shrinkOne hasher).leaf id = roots.leaf id) := by
  have size := wf.length_eq
  have log := wf.segmentLog_eq
  simp only [ExactSegmentRootCache.shrinkOne]
  split
  case isTrue shallow =>
    exact ⟨⟨by simp only; omega, by simp, fun several => absurd (by simp) several⟩,
      by simp only; omega, fun deep => by omega⟩
  case isFalse deep =>
    have half : roots.segmentRoots.length / 2 =
        2 ^ (roots.logSlots - 1 - roots.effectiveLogSeg) := by
      have split : 2 ^ (roots.logSlots - roots.effectiveLogSeg) =
          2 ^ (roots.logSlots - 1 - roots.effectiveLogSeg) * 2 := by
        rw [← Nat.pow_succ]
        congr 1
        omega
      omega
    have length : (roots.segmentRoots.take (roots.segmentRoots.length / 2)).length =
        2 ^ (roots.logSlots - 1 - roots.effectiveLogSeg) := by
      rw [List.length_take, ← half]
      omega
    refine ⟨⟨by simp only; omega, length, fun _ => heap_buildTree ?_⟩, by simp only; omega,
      fun _ => ⟨rfl, fun id inside => ?_⟩⟩
    · rw [length]
      exact (Nat.two_pow_pos _).ne'
    · simp only [length, ← half] at inside
      simp [leaf, List.getD_eq_getElem?_getD, inside]

/-- The loop of `shrink_to` ends at the target; above the segment size it keeps the lower roots. -/
theorem WellFormed.shrinkLoop {target : Nat} (fuel : Nat) (pos : 1 ≤ target)
    (low : target ≤ roots.logSlots) (enough : roots.logSlots ≤ target + fuel) :
    WellFormed hasher (roots.shrinkLoop hasher target fuel) ∧
      (roots.shrinkLoop hasher target fuel).logSlots = target ∧
      (logSegmentSize ≤ target →
        (roots.shrinkLoop hasher target fuel).effectiveLogSeg = roots.effectiveLogSeg ∧
        ∀ id < (roots.shrinkLoop hasher target fuel).segmentRoots.length,
          (roots.shrinkLoop hasher target fuel).leaf id = roots.leaf id) := by
  induction fuel generalizing roots with
  | zero => exact ⟨wf, by simp only [ExactSegmentRootCache.shrinkLoop]; omega,
      fun _ => ⟨rfl, fun _ _ => rfl⟩⟩
  | succ fuel ih =>
    rw [ExactSegmentRootCache.shrinkLoop]
    split
    case isFalse reached => exact ⟨wf, by omega, fun _ => ⟨rfl, fun _ _ => rfl⟩⟩
    case isTrue deeper =>
      obtain ⟨once, log, kept⟩ := wf.shrinkOne (by omega)
      obtain ⟨rest, reached, more⟩ := ih once (by omega) (by omega)
      refine ⟨rest, reached, fun deep => ?_⟩
      obtain ⟨same, leaves⟩ := kept (by omega)
      obtain ⟨same', leaves'⟩ := more deep
      refine ⟨same'.trans same, fun id inside => (leaves' id inside).trans (leaves id ?_)⟩
      refine inside.trans_le ?_
      rw [rest.length_eq, once.length_eq, same', reached]
      exact Nat.pow_le_pow_right (by omega) (by omega)

/-! ## The root of a slot vector -/

/-- When every segment root is the root of its segment, the root is the plain root. -/
theorem WellFormed.root_eq_plainRoot {slots : Nat → SlotValue}
    (leaves : ∀ id < roots.segmentRoots.length,
      roots.leaf id = subtreeRoot hasher slots roots.effectiveLogSeg id) :
    roots.root = plainRoot hasher slots roots.logSlots := by
  have le : roots.effectiveLogSeg ≤ roots.logSlots := by
    rw [wf.segmentLog_eq]
    exact Nat.min_le_left _ _
  calc roots.root
      = subRoot hasher.stateNodeHash roots.leaf (roots.logSlots - roots.effectiveLogSeg) 0 :=
        wf.root_eq
    _ = subRoot hasher.stateNodeHash (subtreeRoot hasher slots roots.effectiveLogSeg)
          (roots.logSlots - roots.effectiveLogSeg) 0 :=
        subRoot_congr _ _ fun id _ high => leaves id (by rw [wf.length_eq]; simpa using high)
    _ = subtreeRoot hasher slots
          (roots.logSlots - roots.effectiveLogSeg + roots.effectiveLogSeg) 0 :=
        subRoot_split (leafVector hasher slots) roots.effectiveLogSeg _ 0
    _ = plainRoot hasher slots roots.logSlots := by rw [Nat.sub_add_cancel le, plainRoot]

end

end ExactSegmentRootCache

end ParanoidChain
