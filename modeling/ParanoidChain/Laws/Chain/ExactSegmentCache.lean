import ParanoidChain.Chain.ExactSegmentCache
import ParanoidChain.Laws.Chain.SparseRoot
import ParanoidChain.Lib.Overlay

/-!
# Hot segment trees stay current

A tree is `Current` for a vector of local slots when its leaves are their hashes and every inner
node is the node of its children. Building one, writing a slot with the early-stopping path repair
and reading the root through an overlay of updates are each related to the plain root. The shortcuts
for empty subtrees return what the hash would.

`ExactSegmentCache.Holds` is the one invariant rule of the cache: a property of its trees that every
operation keeps.
-/

namespace ParanoidChain

open Lib Lib.Merkle

variable {hasher : StateHasher}

/-- A list of hashes read as a heap. -/
def heapRead (nodes : List Digest) (position : Nat) : Digest := nodes.getD position 0

variable {nodes : List Digest}

theorem heapRead_set {position : Nat} (inside : position < nodes.length) (hash : Digest) :
    heapRead (nodes.set position hash) = Function.update (heapRead nodes) position hash :=
  getD_set inside hash 0

/-- The slots of one segment, by local index. -/
def segmentSlots (slots : Nat → SlotValue) (log segId : Nat) (index : Nat) : SlotValue :=
  slots (segId * 2 ^ log + index)

/-- A subtree inside a segment is a subtree of the vector. -/
theorem subtreeRoot_segmentSlots (slots : Nat → SlotValue) {log level : Nat} (segId index : Nat)
    (below : level ≤ log) :
    subtreeRoot hasher (segmentSlots slots log segId) level index =
      subtreeRoot hasher slots level (segId * 2 ^ (log - level) + index) :=
  subRoot_shift (leafVector hasher slots) log segId level index below

/-- The root of a segment on its own is its subtree of the whole. -/
theorem plainRoot_segmentSlots (slots : Nat → SlotValue) (log segId : Nat) :
    plainRoot hasher (segmentSlots slots log segId) log = subtreeRoot hasher slots log segId := by
  rw [plainRoot, subtreeRoot_segmentSlots slots segId 0 le_rfl, Nat.sub_self, Nat.pow_zero,
    Nat.mul_one, Nat.add_zero]

theorem leafVector_overlay (slots : Nat → SlotValue) (updates : List (Nat × SlotValue)) :
    overlay (leafVector hasher slots)
        (updates.map fun update => (update.1, hasher.slotLeafHash update.2)) =
      leafVector hasher (overlay slots updates) := by
  induction updates generalizing slots with
  | nil => rfl
  | cons update updates ih =>
    rw [List.map_cons, overlay_cons, overlay_cons, ← ih]
    congr 1
    funext index
    by_cases here : index = update.1
    · subst here
      simp [leafVector]
    · simp [leafVector, Function.update_of_ne here]

namespace ExactSegmentTree

/-- The empty-leaf shortcut changes nothing. -/
theorem leafHash_eq (log : Nat) (slot : SlotValue) :
    leafHash hasher (hasher.zeroSlotRoots log) slot = hasher.slotLeafHash slot := by
  unfold leafHash
  split
  · rename_i empty
    rw [getD_zeroSlotRoots (Nat.zero_le _), of_decide_eq_true empty]
    rfl
  · rfl

/-- The empty-subtree shortcut changes nothing. -/
theorem parentHash_eq (hasher : StateHasher) {log level : Nat} (below : level < log)
    (left right : Digest) :
    parentHash hasher (hasher.zeroSlotRoots log) level left right =
      hasher.stateNodeHash left right := by
  unfold parentHash
  split
  · rename_i both
    rw [getD_zeroSlotRoots (by omega)] at both
    rw [getD_zeroSlotRoots (by omega), both.1, both.2, zeroRoot_succ]
  · rfl

/-- The tree describes the given local slots. -/
structure Current (hasher : StateHasher) (log : Nat) (slots : Nat → SlotValue)
    (tree : ExactSegmentTree) : Prop where
  logSlots_eq : tree.logSlots = log
  zeros_eq : tree.zeros = hasher.zeroSlotRoots log
  length_eq : tree.nodes.length = 2 ^ log + 2 ^ log
  leaf_eq : ∀ index < 2 ^ log,
    heapRead tree.nodes (2 ^ log + index) = hasher.slotLeafHash (slots index)
  inner : Consistent hasher.stateNodeHash (heapRead tree.nodes) (2 ^ log) 0

variable {log : Nat} {slots : Nat → SlotValue} {tree : ExactSegmentTree}

section

variable (current : Current hasher log slots tree)
include current

/-- Every node of a current tree is a subtree root. -/
theorem Current.read_eq (height level index : Nat) (split : level + height = log)
    (inside : index < 2 ^ level) :
    heapRead tree.nodes (2 ^ level + index) = subtreeRoot hasher slots height index := by
  rw [current.inner.read_eq height level index split inside]
  refine subRoot_congr height index fun leaf _ high => current.leaf_eq leaf ?_
  calc leaf < (index + 1) * 2 ^ height := high
    _ ≤ 2 ^ level * 2 ^ height := Nat.mul_le_mul_right _ inside
    _ = 2 ^ log := by rw [← Nat.pow_add, split]

theorem Current.root_eq :
    tree.root = plainRoot hasher slots log :=
  current.read_eq log 0 0 (by omega) (by omega)

theorem Current.congr {others : Nat → SlotValue}
    (same : ∀ index < 2 ^ log, slots index = others index) : Current hasher log others tree :=
  { current with leaf_eq := fun index inside => by rw [current.leaf_eq index inside, same index inside] }

end

/-! ### Building -/

theorem heapRead_rehash (hasher : StateHasher) {level position : Nat} (below : level < log)
    (inside : position < nodes.length) :
    heapRead (rehash hasher (hasher.zeroSlotRoots log) level nodes position) =
      Function.update (heapRead nodes) position
        (hasher.stateNodeHash (heapRead nodes (2 * position))
          (heapRead nodes (2 * position + 1))) := by
  rw [rehash, heapRead_set inside, parentHash_eq hasher below]
  rfl

/-- Within a level, the nodes done so far are consistent and everything outside the level is as it
was. -/
theorem foldl_rehash_level (level : Nat) {start done : Nat} (below : level < log) (pos : 1 ≤ start)
    (low : done ≤ start) (length : 2 * start ≤ nodes.length)
    (held : ConsistentOn hasher.stateNodeHash
      (fun position => 2 * start ≤ position ∧ position < 2 ^ log) (heapRead nodes)) :
    let built := (List.range' start done).foldl
      (rehash hasher (hasher.zeroSlotRoots log) level) nodes
    built.length = nodes.length ∧
      (∀ position, 2 * start ≤ position → heapRead built position = heapRead nodes position) ∧
      ConsistentOn hasher.stateNodeHash (fun position =>
        (start ≤ position ∧ position < start + done) ∨
          (2 * start ≤ position ∧ position < 2 ^ log)) (heapRead built) := by
  induction done with
  | zero =>
    refine ⟨rfl, fun _ _ => rfl, fun position chosen => held position ?_⟩
    omega
  | succ done ih =>
    obtain ⟨length_eq, same, consistent⟩ := ih (by omega)
    rw [List.range'_1_concat, List.foldl_append]
    set built := (List.range' start done).foldl
      (rehash hasher (hasher.zeroSlotRoots log) level) nodes
    have inside : start + done < built.length := by omega
    have read := heapRead_rehash hasher below inside
    simp only [List.foldl_cons, List.foldl_nil]
    refine ⟨by simp [rehash, length_eq], fun position above => ?_, ?_⟩
    · rw [read, Function.update_of_ne (by omega)]
      exact same position above
    · rw [read]
      have grown := consistent.rehash (start + done) (by omega)
        fun other chosen => by omega
      exact fun position chosen => grown position (by omega)

/-- Once the lowest levels are built, all inner positions from there on are consistent, and the
leaves are as they were. -/
theorem foldl_buildLevels (hasher : StateHasher) {levels : Nat} {leaves : List Digest}
    (low : levels ≤ log) (length : leaves.length = 2 ^ log + 2 ^ log) :
    let built := (List.range levels).foldl (fun nodes level =>
      let start := 2 ^ log / 2 ^ (level + 1)
      (List.range' start start).foldl (rehash hasher (hasher.zeroSlotRoots log) level) nodes) leaves
    built.length = leaves.length ∧
      (∀ position, 2 ^ log ≤ position → heapRead built position = heapRead leaves position) ∧
      ConsistentOn hasher.stateNodeHash (fun position =>
        2 ^ (log - levels) ≤ position ∧ position < 2 ^ log) (heapRead built) := by
  induction levels with
  | zero =>
    refine ⟨rfl, fun _ _ => rfl, fun position chosen => ?_⟩
    simp at chosen
    omega
  | succ levels ih =>
    obtain ⟨length_eq, same, consistent⟩ := ih (by omega)
    have start_eq : 2 ^ log / 2 ^ (levels + 1) = 2 ^ (log - (levels + 1)) :=
      Nat.pow_div (by omega) (by omega)
    have double : 2 ^ (log - levels) = 2 * 2 ^ (log - (levels + 1)) := by
      rw [← Nat.pow_succ']
      congr 1
      omega
    have fits : 2 ^ (log - levels) ≤ 2 ^ log := Nat.pow_le_pow_right (by omega) (by omega)
    rw [List.range_succ, List.foldl_append]
    simp only [List.foldl_cons, List.foldl_nil, start_eq]
    rw [double] at consistent
    obtain ⟨length_eq', same', consistent'⟩ := foldl_rehash_level levels (by omega)
      (Nat.two_pow_pos _) le_rfl (by omega) consistent
    refine ⟨length_eq'.trans length_eq, fun position above => ?_, fun position chosen => ?_⟩
    · rw [same' position (by omega)]
      exact same position above
    · exact consistent' position (by omega)

theorem fromColumns_current (hasher : StateHasher) (log : Nat) (columns : SegmentColumns) :
    Current hasher log columns.get (fromColumns hasher log columns) := by
  have length : (List.replicate (2 ^ log) ((hasher.zeroSlotRoots log).getD 0 0) ++
      (List.range (2 ^ log)).map fun index =>
        leafHash hasher (hasher.zeroSlotRoots log) (columns.get index)).length =
      2 ^ log + 2 ^ log := by simp
  obtain ⟨length_eq, same, consistent⟩ := foldl_buildLevels hasher le_rfl length
  refine ⟨rfl, rfl, length_eq.trans length, fun index inside => ?_, fun position low high _ => ?_⟩
  · refine (same (2 ^ log + index) (by omega)).trans ?_
    rw [heapRead, List.getD_append_right _ _ _ _ (by simp)]
    simp [List.getD_eq_getElem?_getD, inside, leafHash_eq]
  · exact consistent position ⟨by simpa using low, high⟩

/-! ### Writing -/

/-- Repairing the path above one broken position makes the heap consistent. -/
theorem repairPath_consistent (fuel level : Nat) {position : Nat} (total : level + fuel = log)
    (low : 2 ^ fuel ≤ position) (high : position < 2 * 2 ^ fuel)
    (length : nodes.length = 2 ^ log + 2 ^ log)
    (broken : Consistent hasher.stateNodeHash (heapRead nodes) (2 ^ log) (position / 2)) :
    let repaired := repairPath hasher (hasher.zeroSlotRoots log) fuel level position nodes
    repaired.length = nodes.length ∧
      Consistent hasher.stateNodeHash (heapRead repaired) (2 ^ log) 0 ∧
      ∀ other, 2 ^ log ≤ other → heapRead repaired other = heapRead nodes other := by
  induction fuel generalizing level position nodes with
  | zero =>
    obtain rfl : position = 1 := by simp at low high; omega
    exact ⟨rfl, broken, fun _ _ => rfl⟩
  | succ fuel ih =>
    have width : (2 : Nat) ^ (fuel + 1) = 2 * 2 ^ fuel := by ring
    have pos := Nat.two_pow_pos fuel
    have small : 2 ^ (fuel + 1) ≤ 2 ^ log := Nat.pow_le_pow_right (by omega) (by omega)
    have hash := parentHash_eq hasher (show level < log by omega)
      (heapRead nodes (2 * (position / 2))) (heapRead nodes (2 * (position / 2) + 1))
    have inside : position / 2 < nodes.length := by omega
    simp only [repairPath]
    rw [if_pos (by omega)]
    split
    case isTrue unchanged =>
      refine ⟨rfl, broken.of_unchanged fun _ => ?_, fun _ _ => rfl⟩
      exact (show heapRead nodes (position / 2) = _ from unchanged).trans hash
    case isFalse changed =>
      have overwritten := broken.overwrite (parentHash hasher (hasher.zeroSlotRoots log)
        level (heapRead nodes (2 * (position / 2))) (heapRead nodes (2 * (position / 2) + 1)))
        (fun _ => hash) (by omega)
      rw [← heapRead_set inside] at overwritten
      obtain ⟨length_eq, consistent, same⟩ := ih (level + 1) (by omega) (by omega)
        (by omega) (by simpa using length) overwritten
      refine ⟨length_eq.trans List.length_set, consistent, fun other above => ?_⟩
      refine (same other above).trans ?_
      exact (congrFun (heapRead_set inside _) other).trans (Function.update_of_ne (by omega) _ _)

/-- Writing a slot keeps the tree current. -/
theorem Current.setSlot (current : Current hasher log slots tree) {index : Nat}
    (inside : index < 2 ^ log) (slot : SlotValue) :
    Current hasher log (Function.update slots index slot) (tree.setSlot hasher index slot) := by
  have hash : leafHash hasher tree.zeros slot = hasher.slotLeafHash slot := by
    rw [current.zeros_eq, leafHash_eq]
  have bound : 2 ^ log + index < tree.nodes.length := by
    rw [current.length_eq]
    omega
  unfold ExactSegmentTree.setSlot
  simp only [current.logSlots_eq, hash]
  split
  case isTrue unchanged =>
    refine { current with leaf_eq := fun other below => ?_ }
    by_cases here : other = index
    · subst here
      rw [Function.update_self]
      exact unchanged
    · rw [Function.update_of_ne here]
      exact current.leaf_eq other below
  case isFalse changed =>
    have broken := (show Consistent hasher.stateNodeHash (heapRead tree.nodes) (2 ^ log)
        (2 ^ log + index) from fun position low high _ =>
          current.inner position low high (by omega)).overwrite
      (hasher.slotLeafHash slot) (fun above => absurd above (by omega))
      (Nat.le_add_right_of_le (Nat.two_pow_pos log))
    rw [← heapRead_set bound] at broken
    obtain ⟨length_eq, consistent, same⟩ := repairPath_consistent log 0
      (by omega) (by omega) (by omega) (by simpa using current.length_eq) broken
    rw [← current.zeros_eq] at length_eq consistent same
    refine ⟨rfl, current.zeros_eq, ?_, fun other below => ?_, consistent⟩
    · simpa using length_eq.trans (by simpa using current.length_eq)
    · refine (same (2 ^ log + other) (by omega)).trans ?_
      rw [heapRead_set bound]
      by_cases here : other = index
      · subst here
        simp
      · rw [Function.update_of_ne here, Function.update_of_ne (by omega)]
        exact current.leaf_eq other below

/-! ### Reading through updates -/

/-- Below a node, the overlay root is the subtree root over the overlaid leaves. -/
theorem overlayRoot_eq (current : Current hasher log slots tree) :
    ∀ (height level index : Nat) {updates : List (Nat × Digest)}, level + height = log →
      index < 2 ^ level → SortedMap.Ascending updates →
      (∀ update ∈ updates, index * 2 ^ height ≤ update.1 ∧ update.1 < (index + 1) * 2 ^ height) →
      overlayRoot hasher tree.nodes height (2 ^ level + index) (index * 2 ^ height) updates =
        subRoot hasher.stateNodeHash (overlay (leafVector hasher slots) updates) height index
  | height, level, index, [], split, inside, _, _ => by
    unfold overlayRoot
    exact current.read_eq _ _ _ split inside
  | 0, level, index, (key, hash) :: rest, split, inside, asc, keys => by
    have unique := asc.head_not_mem
    obtain rfl : key = index := by
      have := keys (key, hash) List.mem_cons_self
      simp at this
      omega
    unfold overlayRoot
    rw [subRoot_zero, overlay_cons, overlay_of_not_mem unique, Function.update_self]
  | height + 1, level, index, first :: rest, split, inside, asc, keys => by
    have width : (2 : Nat) ^ (height + 1) = 2 * 2 ^ height := by ring
    have nextLevel : (2 : Nat) ^ (level + 1) = 2 * 2 ^ level := by ring
    have middle : index * 2 ^ (height + 1) + 2 ^ height = (2 * index + 1) * 2 ^ height := by ring
    have start : index * 2 ^ (height + 1) = 2 * index * 2 ^ height := by ring
    have stop : (index + 1) * 2 ^ (height + 1) = (2 * index + 1 + 1) * 2 ^ height := by ring
    set updates := first :: rest
    set left := updates.takeWhile fun update => update.1 < index * 2 ^ (height + 1) + 2 ^ height
    set right := updates.dropWhile fun update => update.1 < index * 2 ^ (height + 1) + 2 ^ height
    have parts : left ++ right = updates := List.takeWhile_append_dropWhile
    have leftAsc : SortedMap.Ascending left := asc.sublist (List.takeWhile_sublist _)
    have rightAsc : SortedMap.Ascending right := asc.sublist (List.dropWhile_sublist _)
    have leftKeys : ∀ update ∈ left, 2 * index * 2 ^ height ≤ update.1 ∧
        update.1 < (2 * index + 1) * 2 ^ height := by
      intro update member
      have low := (keys update ((List.takeWhile_sublist _).mem member)).1
      have high := List.mem_takeWhile_imp member
      simp only [decide_eq_true_eq] at high
      omega
    have rightKeys : ∀ update ∈ right, (2 * index + 1) * 2 ^ height ≤ update.1 ∧
        update.1 < (2 * index + 1 + 1) * 2 ^ height := by
      intro update member
      refine ⟨?_, stop ▸ (keys update ((List.dropWhile_sublist _).mem member)).2⟩
      rw [← middle]
      exact asc.le_of_mem_dropWhile member
    have leftRoot := overlayRoot_eq current height (level + 1) (2 * index) (by omega) (by omega)
      leftAsc leftKeys
    have rightRoot := overlayRoot_eq current height (level + 1) (2 * index + 1) (by omega)
      (by omega) rightAsc rightKeys
    have leftNode : 2 * (2 ^ level + index) = 2 ^ (level + 1) + 2 * index := by omega
    have rightNode : 2 * (2 ^ level + index) + 1 = 2 ^ (level + 1) + (2 * index + 1) := by omega
    have unfolded : overlayRoot hasher tree.nodes (height + 1) (2 ^ level + index)
        (index * 2 ^ (height + 1)) updates =
        hasher.stateNodeHash
          (overlayRoot hasher tree.nodes height (2 * (2 ^ level + index))
            (index * 2 ^ (height + 1)) left)
          (overlayRoot hasher tree.nodes height (2 * (2 ^ level + index) + 1)
            (index * 2 ^ (height + 1) + 2 ^ height) right) := rfl
    rw [unfolded, middle, start, rightNode, leftNode, leftRoot, rightRoot, subRoot_succ, ← parts,
      overlay_append]
    congr 1
    · refine subRoot_congr height _ fun leaf _ high => (overlay_of_not_mem fun named => ?_).symm
      obtain ⟨update, member, rfl⟩ := List.mem_map.mp named
      have := (rightKeys update member).1
      omega
    · refine subRoot_congr height _ fun leaf low _ =>
        overlay_congr (overlay_of_not_mem fun named => ?_).symm
      obtain ⟨update, member, rfl⟩ := List.mem_map.mp named
      have := (leftKeys update member).2
      omega

/-- Reading the root through an ordered map of updates is the plain root of the updated slots. -/
theorem Current.rootWithUpdates_eq (current : Current hasher log slots tree)
    {updates : List (Nat × SlotValue)} (asc : SortedMap.Ascending updates)
    (inside : ∀ update ∈ updates, update.1 < 2 ^ log) :
    tree.rootWithUpdates hasher updates = plainRoot hasher (overlay slots updates) log := by
  have hashes : (updates.map fun update => (update.1, leafHash hasher tree.zeros update.2)) =
      updates.map fun update => (update.1, hasher.slotLeafHash update.2) := by
    simp only [current.zeros_eq, leafHash_eq]
  have ordered : SortedMap.Ascending
      (updates.map fun update => (update.1, hasher.slotLeafHash update.2)) :=
    asc.map _ fun _ _ less => less
  have keys : ∀ hashed ∈ updates.map fun update => (update.1, hasher.slotLeafHash update.2),
      0 * 2 ^ log ≤ hashed.1 ∧ hashed.1 < (0 + 1) * 2 ^ log := by
    intro hashed member
    obtain ⟨update, original, rfl⟩ := List.mem_map.mp member
    simpa using inside update original
  have read := overlayRoot_eq current log 0 0 (by omega) (by omega) ordered keys
  rw [leafVector_overlay, Nat.zero_mul] at read
  rw [rootWithUpdates, hashes, current.logSlots_eq]
  exact read

end ExactSegmentTree

/-! ## The cache -/

namespace ExactSegmentCache

/-- No segment has two trees, and every tree has the property. -/
structure Holds (P : Nat → ExactSegmentTree → Prop) (cache : ExactSegmentCache) : Prop where
  nodup : (cache.entries.map Prod.fst).Nodup
  all : ∀ entry ∈ cache.entries, P entry.1 entry.2

variable {P Q : Nat → ExactSegmentTree → Prop} {cache : ExactSegmentCache}

theorem holds_default : Holds P .default := ⟨List.nodup_nil, by simp [default]⟩

theorem Holds.mono (held : Holds P cache) (weaker : ∀ id tree, P id tree → Q id tree) :
    Holds Q cache := ⟨held.nodup, fun entry member => weaker _ _ (held.all entry member)⟩

variable {tree : ExactSegmentTree}

theorem mem_of_get {id : Nat} (found : cache.get id = some tree) :
    (id, tree) ∈ cache.entries := by
  obtain ⟨entry, here, rfl⟩ := Option.map_eq_some_iff.mp found
  have same : entry.1 = id := by simpa using List.find?_some here
  exact same ▸ List.mem_of_find?_eq_some here

theorem Holds.get (held : Holds P cache) {id : Nat} (found : cache.get id = some tree) :
    P id tree := held.all _ (mem_of_get found)

/-- With distinct keys, erasing the first entry of a segment erases all of them. -/
theorem eraseP_eq_filter {entries : List (Nat × ExactSegmentTree)}
    (nodup : (entries.map Prod.fst).Nodup) (id : Nat) :
    (entries.eraseP fun entry => entry.1 == id) = entries.filter fun entry => entry.1 != id := by
  induction entries with
  | nil => rfl
  | cons entry rest ih =>
    rw [List.map_cons, List.nodup_cons] at nodup
    by_cases here : entry.1 = id
    · have others : ∀ other ∈ rest, (other.1 != id) = true := fun other member => by
        simp only [bne_iff_ne, ne_eq]
        intro same
        exact nodup.1 (here.trans same.symm ▸ List.mem_map_of_mem member)
      simp [here, List.filter_eq_self.mpr others]
    · simp [here, ih nodup.2]

/-- Erasing the tree of a segment leaves the trees of the others. -/
theorem Holds.erased (held : Holds P cache) (id : Nat) :
    ((cache.entries.eraseP fun entry => entry.1 == id).map Prod.fst).Nodup ∧
      ∀ entry ∈ cache.entries.eraseP fun entry => entry.1 == id, entry.1 ≠ id ∧ P entry.1 entry.2 := by
  rw [eraseP_eq_filter held.nodup]
  refine ⟨held.nodup.sublist (List.filter_sublist.map _), fun entry member => ⟨?_, ?_⟩⟩
  · simpa using (List.mem_filter.mp member).2
  · exact held.all entry (List.mem_of_mem_filter member)

theorem Holds.remove (held : Holds P cache) (id : Nat) :
    Holds (fun other tree => other ≠ id ∧ P other tree) (cache.remove id) :=
  ⟨(held.erased id).1, (held.erased id).2⟩

theorem makeRoom_sublist (budget need : Nat) (entries : List (Nat × ExactSegmentTree))
    (bytes : Nat) : ((makeRoom budget need entries bytes).1).Sublist entries := by
  induction entries generalizing bytes with
  | nil => exact List.Sublist.refl _
  | cons oldest rest ih =>
    rw [makeRoom]
    split
    · exact (ih _).cons _
    · exact List.Sublist.refl _

/-- A new tree goes last, whatever was dropped to make room for it. -/
theorem nodup_concat {entries : List (Nat × ExactSegmentTree)} {id : Nat}
    (nodup : (entries.map Prod.fst).Nodup) (fresh : ∀ entry ∈ entries, entry.1 ≠ id) :
    ((entries ++ [(id, tree)]).map Prod.fst).Nodup := by
  rw [List.map_append, List.nodup_append]
  refine ⟨nodup, by simp, ?_⟩
  intro key member other last
  obtain ⟨entry, inside, rfl⟩ := List.mem_map.mp member
  obtain rfl : other = id := by simpa using last
  exact fresh entry inside

theorem Holds.insert (held : Holds P cache) {id : Nat} (new : P id tree) :
    Holds P (cache.insert id tree) := by
  have removed := held.remove id
  simp only [ExactSegmentCache.insert]
  split
  · exact removed.mono fun _ _ both => both.2
  · have kept := makeRoom_sublist (cache.remove id).budget tree.residentBytes
      (cache.remove id).entries (cache.remove id).bytes
    refine ⟨nodup_concat (removed.nodup.sublist (kept.map _))
      fun entry member => (removed.all entry (kept.mem member)).1, fun entry member => ?_⟩
    rcases List.mem_append.mp member with old | last
    · exact (removed.all entry (kept.mem old)).2
    · obtain rfl := List.mem_singleton.mp last
      exact new

/-- A write to one slot changes the tree of its segment. -/
theorem Holds.updateSlot {hasher : StateHasher} (held : Holds P cache) {id index : Nat}
    {slot : SlotValue} (written : ∀ tree, P id tree → Q id (tree.setSlot hasher index slot))
    (others : ∀ other tree, other ≠ id → P other tree → Q other tree) :
    Holds Q (cache.updateSlot hasher id index slot) := by
  unfold ExactSegmentCache.updateSlot
  split
  case h_1 missing =>
    refine ⟨held.nodup, fun entry member => others _ _ ?_ (held.all entry member)⟩
    rintro rfl
    have absent := List.find?_eq_none.mp (Option.map_eq_none_iff.mp missing) entry member
    simp at absent
  case h_2 tree found =>
    obtain ⟨nodup, rest⟩ := held.erased id
    refine ⟨nodup_concat nodup fun entry member => (rest entry member).1, fun entry member => ?_⟩
    rcases List.mem_append.mp member with old | last
    · exact others _ _ (rest entry old).1 (rest entry old).2
    · obtain rfl := List.mem_singleton.mp last
      exact written tree (held.get found)

theorem Holds.truncateSegments (held : Holds P cache) (count : Nat) :
    Holds (fun id tree => id < count ∧ P id tree) (cache.truncateSegments count) := by
  have sublist : (cache.truncateSegments count).entries.Sublist cache.entries :=
    List.filter_sublist
  refine ⟨held.nodup.sublist (sublist.map _), fun entry member => ⟨?_, ?_⟩⟩
  · simpa using (List.mem_filter.mp member).2
  · exact held.all entry (sublist.mem member)

end ExactSegmentCache

end ParanoidChain
