import ParanoidChain.Laws.Chain.ExactRoots
import ParanoidChain.Laws.Chain.SparseMerkle

/-!
# One root, four builders

The sparse cache, the stream, the heap of one segment and the tree over the segment roots compute the
root of the same plain tree. Each has an invariant that names the vector it describes; here they are
read off together, for one vector and every way to arrive at it.

`sparse_state_root_from_segment_roots` has the shape of the last builder and not its hash: it folds
raw segment commitments with `compress`. Over the node hash of the exact state it would be a fifth
builder; over any other it is not.
-/

namespace ParanoidChain

open Lib Lib.Merkle

variable {hasher : StateHasher}

/-! ## Trees of one segment -/

variable {writes : List (Nat × SlotValue)}

namespace ExactSegmentTree

variable {log : Nat} {slots : Nat → SlotValue} {tree other : ExactSegmentTree}

/-- The part of a tree that its slots do not determine: the unused first node and the byte count. -/
def SameFrame (tree other : ExactSegmentTree) : Prop :=
  heapRead tree.nodes 0 = heapRead other.nodes 0 ∧ tree.columnBytes = other.columnBytes

/-- Up to its frame, a tree is determined by the slots it describes. -/
theorem Current.unique (current : Current hasher log slots tree)
    (current' : Current hasher log slots other) (frame : SameFrame tree other) : tree = other := by
  have nodes : tree.nodes = other.nodes := by
    refine List.ext_getElem (current.length_eq.trans current'.length_eq.symm)
      fun position inside inside' => ?_
    suffices same : heapRead tree.nodes position = heapRead other.nodes position by
      rwa [heapRead, heapRead, List.getD_eq_getElem _ _ inside,
        List.getD_eq_getElem _ _ inside'] at same
    rcases Nat.eq_zero_or_pos position with rfl | pos
    · exact frame.1
    · -- the position lies on the level of its highest bit
      have low := Nat.log2_self_le (by omega : position ≠ 0)
      have high := Nat.lt_log2_self (n := position)
      rw [Nat.pow_succ] at high
      have level : position.log2 ≤ log := by
        by_contra deep
        have wide : 2 ^ (log + 1) ≤ 2 ^ position.log2 := Nat.pow_le_pow_right (by omega) (by omega)
        rw [current.length_eq] at inside
        rw [Nat.pow_succ] at wide
        omega
      have read {tree : ExactSegmentTree} (current : Current hasher log slots tree) :=
        current.read_eq (log - position.log2) position.log2 (position - 2 ^ position.log2)
          (by omega) (by omega)
      rw [Nat.add_sub_cancel' low] at read
      rw [read current, read current']
  obtain ⟨log₁, nodes₁, zeros₁, bytes₁⟩ := tree
  obtain ⟨log₂, nodes₂, zeros₂, bytes₂⟩ := other
  have depth := current.logSlots_eq.trans current'.logSlots_eq.symm
  have zeros := current.zeros_eq.trans current'.zeros_eq.symm
  have bytes := frame.2
  dsimp only at nodes depth zeros bytes
  rw [nodes, depth, zeros, bytes]

/-! ### What writing leaves alone -/

theorem heapRead_set_zero {position : Nat} (pos : 1 ≤ position) (nodes : List Digest)
    (hash : Digest) : heapRead (nodes.set position hash) 0 = heapRead nodes 0 := by
  simp only [heapRead, List.getD_eq_getElem?_getD]
  rw [List.getElem?_set_ne (by omega)]

theorem heapRead_repairPath_zero (hasher : StateHasher) (zeros : List Digest) :
    ∀ (fuel level position : Nat) (nodes : List Digest),
      heapRead (repairPath hasher zeros fuel level position nodes) 0 = heapRead nodes 0
  | 0, _, _, _ => rfl
  | fuel + 1, level, position, nodes => by
    simp only [repairPath]
    split
    case isFalse => rfl
    case isTrue above =>
      split
      · rfl
      · rw [heapRead_repairPath_zero hasher zeros fuel, heapRead_set_zero (by omega)]

/-- A write touches neither the unused node of the heap nor the byte count. -/
theorem setSlot_sameFrame (hasher : StateHasher) (tree : ExactSegmentTree) (index : Nat) (slot : SlotValue) :
    SameFrame (tree.setSlot hasher index slot) tree := by
  unfold ExactSegmentTree.setSlot
  dsimp only
  split
  · exact ⟨rfl, rfl⟩
  · refine ⟨?_, rfl⟩
    have pos := Nat.two_pow_pos tree.logSlots
    exact (heapRead_repairPath_zero hasher _ _ _ _ _).trans (heapRead_set_zero (by omega) _ _)

theorem heapRead_buildLevels_zero (zeros : List Digest) {log : Nat} {leaves : List Digest} :
    heapRead (buildLevels hasher zeros log leaves) 0 = heapRead leaves 0 := by
  refine List.foldlRecOn (List.range log) _
    (motive := fun nodes => heapRead nodes 0 = heapRead leaves 0) rfl ?_
  intro nodes kept level below
  have start : 1 ≤ 2 ^ log / 2 ^ (level + 1) :=
    Nat.div_pos (Nat.pow_le_pow_right (by omega) (List.mem_range.mp below)) (Nat.two_pow_pos _)
  refine List.foldlRecOn _ _ (motive := fun nodes => heapRead nodes 0 = heapRead leaves 0) kept ?_
  intro nodes kept position member
  rw [rehash, heapRead_set_zero (by simp only [List.mem_range'_1] at member; omega), kept]

theorem fromColumns_sameFrame (hasher : StateHasher) (log : Nat) {size : Nat}
    {columns others : SegmentColumns} (sized : columns.Sized size) (sized' : others.Sized size) :
    SameFrame (fromColumns hasher log columns) (fromColumns hasher log others) := by
  refine ⟨?_, ?_⟩
  · simp only [fromColumns, heapRead_buildLevels_zero]
    rw [heapRead, heapRead, List.getD_append _ _ _ _ (by simp),
      List.getD_append _ _ _ _ (by simp)]
  · simp only [fromColumns, sized.values, sized.ownersHi, sized.ownersLo, sized'.values,
      sized'.ownersHi, sized'.ownersLo]

/-! ### Runs of writes -/

/-- Writes one after the other give the tree of the written columns. -/
theorem foldl_setSlot_fromColumns {columns : SegmentColumns} (sized : columns.Sized (2 ^ log))
    (inside : ∀ write ∈ writes, write.1 < 2 ^ log) :
    writes.foldl (fun tree write => tree.setSlot hasher write.1 write.2)
        (fromColumns hasher log columns) =
      fromColumns hasher log (writes.foldl (fun columns write => columns.put write.1 write.2)
        columns) := by
  induction writes generalizing columns with
  | nil => rfl
  | cons write writes ih =>
    obtain ⟨here, others⟩ := List.forall_mem_cons.mp inside
    have once : (fromColumns hasher log columns).setSlot hasher write.1 write.2 =
        fromColumns hasher log (columns.put write.1 write.2) := by
      have written := (fromColumns_current hasher log columns).setSlot here write.2
      have rebuilt := fromColumns_current hasher log (columns.put write.1 write.2)
      rw [sized.get_put here] at rebuilt
      have frame := setSlot_sameFrame hasher (fromColumns hasher log columns) write.1 write.2
      have frame' := fromColumns_sameFrame hasher log sized (sized.put write.1 write.2)
      exact written.unique rebuilt ⟨frame.1.trans frame'.1, frame.2.trans frame'.2⟩
    rw [List.foldl_cons, List.foldl_cons, once, ih (sized.put _ _) others]

theorem Current.foldl_setSlot (current : Current hasher log slots tree)
    (inside : ∀ write ∈ writes, write.1 < 2 ^ log) :
    Current hasher log (overlay slots writes)
      (writes.foldl (fun tree write => tree.setSlot hasher write.1 write.2) tree) := by
  induction writes generalizing slots tree with
  | nil => exact current
  | cons write writes ih =>
    obtain ⟨here, others⟩ := List.forall_mem_cons.mp inside
    exact ih (current.setSlot here write.2) others

/-- Reading through updates is writing them and reading. -/
theorem Current.rootWithUpdates_eq_foldl (current : Current hasher log slots tree)
    {updates : List (Nat × SlotValue)} (asc : SortedMap.Ascending updates)
    (inside : ∀ update ∈ updates, update.1 < 2 ^ log) :
    tree.rootWithUpdates hasher updates =
      (updates.foldl (fun tree update => tree.setSlot hasher update.1 update.2) tree).root := by
  rw [current.rootWithUpdates_eq asc inside, (current.foldl_setSlot inside).root_eq]

end ExactSegmentTree

/-! ## Streams of live leaves -/

namespace StreamingSparseRoot

variable {depth : Nat} {slots : Nat → SlotValue}

/-- The builder, fed with the given leaves. -/
def ofLeaves (hasher : StateHasher) (depth : Nat) (entries : List (Nat × SlotValue)) :
    Except ApplyExactTransitionError Digest := do
  let start ← new hasher depth
  let stream ← entries.foldlM (fun stream (index, slot) =>
    stream.pushLeaf hasher index (hasher.slotLeafHash slot)) start
  stream.finish hasher

/-- The entries are the live slots of a vector, in ascending order. -/
structure LiveEntries (depth : Nat) (slots : Nat → SlotValue) (entries : List (Nat × SlotValue)) :
    Prop where
  asc : SortedMap.Ascending entries
  inside : ∀ entry ∈ entries, entry.1 < 2 ^ depth
  held : ∀ entry ∈ entries, slots entry.1 = entry.2
  complete : ∀ index < 2 ^ depth, slots index ≠ .empty → index ∈ entries.map Prod.fst

/-- The stream has read the given entries and stands right after the last of them. -/
structure HasRead (hasher : StateHasher) (depth : Nat) (slots : Nat → SlotValue)
    (done : List (Nat × SlotValue)) (stream : StreamingSparseRoot) : Prop where
  streams : Streams hasher slots depth stream
  passed : ∀ entry ∈ done, entry.1 < stream.position
  last : stream.position = 0 ∨ ∃ entry ∈ done, stream.position = entry.1 + 1

theorem HasRead.push (small : depth < 64) {entries done rest : List (Nat × SlotValue)}
    {entry : Nat × SlotValue} {stream : StreamingSparseRoot}
    (live : LiveEntries depth slots entries) (split : entries = done ++ entry :: rest)
    (read : HasRead hasher depth slots done stream) :
    ∃ pushed, stream.pushLeaf hasher entry.1 (hasher.slotLeafHash entry.2) = .ok pushed ∧
      HasRead hasher depth slots (done ++ [entry]) pushed := by
  have asc := live.asc
  rw [split, SortedMap.Ascending, List.pairwise_append, List.pairwise_cons] at asc
  obtain ⟨-, ⟨later, -⟩, earlier⟩ := asc
  have member : entry ∈ entries := by simp [split]
  have inside := live.inside entry member
  have before : stream.position ≤ entry.1 := by
    rcases read.last with none | ⟨other, found, here⟩
    · omega
    · have := earlier other found entry List.mem_cons_self
      omega
  have gap : ∀ slot, stream.position ≤ slot → slot < entry.1 → slots slot = .empty := by
    intro slot low high
    by_contra occupied
    obtain ⟨other, found, rfl⟩ := List.mem_map.mp (live.complete slot (by omega) occupied)
    rw [split, List.mem_append, List.mem_cons] at found
    rcases found with earlier | rfl | unread
    · have := read.passed other earlier
      omega
    · omega
    · have := later other unread
      omega
  obtain ⟨pushed, ok, grown, reached⟩ := pushLeaf_streams small read.streams before inside gap
  rw [live.held entry member] at ok
  refine ⟨pushed, ok, grown, fun other found => ?_, .inr ⟨entry, by simp, reached⟩⟩
  rcases List.mem_append.mp found with found | here
  · have := read.passed other found
    omega
  · obtain rfl := List.mem_singleton.mp here
    omega

theorem ofLeaves_eq (small : depth < 64) {entries : List (Nat × SlotValue)}
    (live : LiveEntries depth slots entries) :
    ofLeaves hasher depth entries = .ok (plainRoot hasher slots depth) := by
  have start : HasRead hasher depth slots [] ⟨depth, 0, hasher.zeroSlotRoots depth, []⟩ :=
    ⟨⟨rfl, rfl, .nil⟩, by simp, .inl rfl⟩
  obtain ⟨stream, ran, read⟩ := foldlM_exists start
    fun _ _ _ _ split read => HasRead.push small live split read
  have before : stream.position ≤ 2 ^ depth := by
    rcases read.last with none | ⟨entry, found, here⟩
    · simp [none]
    · have := live.inside entry found
      omega
  have tail : ∀ slot, stream.position ≤ slot → slot < 2 ^ depth → slots slot = .empty := by
    intro slot low high
    by_contra occupied
    obtain ⟨entry, found, rfl⟩ := List.mem_map.mp (live.complete slot high occupied)
    have := read.passed entry found
    omega
  simp only [ofLeaves, new, checkedSlotCount, small, if_true, bind_eq_ok, okOr_eq_ok, pure_eq_ok]
  exact ⟨_, ⟨_, rfl, rfl⟩, stream, ran, finish_eq small read.streams before tail⟩

end StreamingSparseRoot

/-! ## Trees over segment roots -/

/-- The slots of every segment, as its columns hold them. -/
def HoldsSegments (slots : Nat → SlotValue) (depth : Nat) (columns : Nat → SegmentColumns) : Prop :=
  ∀ id < 2 ^ (depth - logSegmentSize), (columns id).Sized (2 ^ logSegmentSize) ∧
    ∀ index < 2 ^ logSegmentSize, (columns id).get index = slots (id * 2 ^ logSegmentSize + index)

/-- The segments that are missing from a list hold nothing. -/
def OthersEmpty (slots : Nat → SlotValue) (depth : Nat) (ids : List Nat) : Prop :=
  ∀ id < 2 ^ (depth - logSegmentSize), id ∉ ids →
    ∀ index < 2 ^ logSegmentSize, slots (id * 2 ^ logSegmentSize + index) = .empty

section Segments

variable {depth : Nat} {slots : Nat → SlotValue} {columns : Nat → SegmentColumns} {ids : List Nat}

/-- The tree of a segment has the root of its subtree. -/
theorem HoldsSegments.root_eq (held : HoldsSegments slots depth columns) {id : Nat}
    (inside : id < 2 ^ (depth - logSegmentSize)) :
    (ExactSegmentTree.fromColumns hasher logSegmentSize (columns id)).root =
      subtreeRoot hasher slots logSegmentSize id := by
  have current : ExactSegmentTree.Current hasher logSegmentSize
      (segmentSlots slots logSegmentSize id) _ :=
    (ExactSegmentTree.fromColumns_current hasher logSegmentSize (columns id)).congr
      (held id inside).2
  rw [current.root_eq, plainRoot_segmentSlots]

theorem OthersEmpty.root_eq (others : OthersEmpty slots depth ids) {id : Nat}
    (inside : id < 2 ^ (depth - logSegmentSize)) (missing : id ∉ ids) :
    hasher.zeroSlotRoot logSegmentSize = subtreeRoot hasher slots logSegmentSize id := by
  rw [zeroSlotRoot_eq, subtreeRoot_of_empty fun slot low high => ?_]
  obtain ⟨index, rfl⟩ := Nat.exists_eq_add_of_le low
  rw [Nat.succ_mul] at high
  exact others id inside missing index (by omega)

/-- Setting the roots of some segments sets those leaves and no others. -/
theorem ExactSegmentRootCache.WellFormed.foldl_setSegmentRoot {roots : ExactSegmentRootCache}
    (wf : roots.WellFormed hasher) (root : Nat → Digest)
    (inside : ∀ id ∈ ids, id < roots.segmentRoots.length) :
    let set := ids.foldl (fun roots id => roots.setSegmentRoot hasher id (root id)) roots
    set.WellFormed hasher ∧ set.logSlots = roots.logSlots ∧
      set.effectiveLogSeg = roots.effectiveLogSeg ∧
      ∀ id, set.leaf id = if id ∈ ids then root id else roots.leaf id := by
  induction ids generalizing roots with
  | nil => exact ⟨wf, rfl, rfl, fun id => by simp⟩
  | cons first ids ih =>
    obtain ⟨here, others⟩ := List.forall_mem_cons.mp inside
    obtain ⟨wf', depth, log, leaf⟩ := wf.setSegmentRoot here (root first)
    have length : (roots.setSegmentRoot hasher first (root first)).segmentRoots.length =
        roots.segmentRoots.length := by
      rw [wf'.length_eq, wf.length_eq, depth, log]
    obtain ⟨done, depth', log', leaves⟩ := ih wf' (by simpa [length] using others)
    refine ⟨done, depth'.trans depth, log'.trans log, fun id => (leaves id).trans ?_⟩
    rw [leaf]
    by_cases same : id = first
    · subst same
      simp
    · rw [Function.update_of_ne same]
      simp [same]

/-- The cache, filled with the roots of the segments that hold something. -/
theorem foldl_setSegmentRoot_eq (deep : logSegmentSize ≤ depth)
    (held : HoldsSegments slots depth columns) (others : OthersEmpty slots depth ids)
    (inside : ∀ id ∈ ids, id < 2 ^ (depth - logSegmentSize)) :
    (ids.foldl (fun roots id => roots.setSegmentRoot hasher id
      (ExactSegmentTree.fromColumns hasher logSegmentSize (columns id)).root)
      (ExactSegmentRootCache.empty hasher depth)).root = plainRoot hasher slots depth := by
  have wf := ExactSegmentRootCache.empty_wellFormed hasher depth
  have log : min depth logSegmentSize = logSegmentSize := Nat.min_eq_right deep
  have count : (ExactSegmentRootCache.empty hasher depth).segmentRoots.length =
      2 ^ (depth - logSegmentSize) := by
    rw [wf.length_eq, wf.segmentLog_eq]
    exact congrArg (fun log => 2 ^ (depth - log)) log
  obtain ⟨done, depth', log', leaves⟩ := wf.foldl_setSegmentRoot
    (fun id => (ExactSegmentTree.fromColumns hasher logSegmentSize (columns id)).root)
    (by simpa only [count] using inside)
  have segmentLog : (ExactSegmentRootCache.empty hasher depth).effectiveLogSeg = logSegmentSize :=
    log
  rw [segmentLog] at log'
  rw [done.root_eq_plainRoot fun id below => ?_, depth']
  · rfl
  · rw [done.length_eq, log', depth'] at below
    rw [leaves, log']
    split
    case isTrue => exact held.root_eq below
    case isFalse missing =>
      rw [ExactSegmentRootCache.leaf_empty (by rw [log]; exact below), log]
      exact others.root_eq below missing

end Segments

/-! ### The raw segment-root tree -/

theorem foldlM_set_of_inside {count : Nat} (root : Nat → Digest) {ids : List U16}
    (inside : ∀ id ∈ ids, id.toNat < count) (leaves : List Digest)
    (length : leaves.length = count) :
    ∃ filled, (ids.zip (ids.map fun id => root id.toNat)).foldlM (fun leaves (id, root) => do
        reject (count ≤ id.toNat) (SegmentRootsError.idOutOfRange id.toNat count)
        return leaves.set id.toNat root) leaves = .ok filled ∧ filled.length = count ∧
      ∀ id, filled.getD id 0 = if id ∈ ids.map BitVec.toNat then root id else leaves.getD id 0 := by
  induction ids generalizing leaves with
  | nil => exact ⟨leaves, rfl, length, by simp⟩
  | cons first ids ih =>
    obtain ⟨here, others⟩ := List.forall_mem_cons.mp inside
    obtain ⟨filled, ran, length', reads⟩ := ih others (leaves.set first.toNat (root first.toNat))
      (by simpa using length)
    refine ⟨filled, ?_, length', fun id => (reads id).trans ?_⟩
    · simp only [List.map_cons, List.zip_cons_cons, List.foldlM_cons, bind_eq_ok, reject_eq_ok,
        pure_eq_ok, not_le]
      exact ⟨_, ⟨(), here, rfl⟩, ran⟩
    · have set := congrFun (getD_set (show first.toNat < leaves.length by omega)
        (root first.toNat) 0) id
      rw [set]
      by_cases same : id = first.toNat
      · subst same
        simp
      · rw [Function.update_of_ne same]
        simp [same]

/-- The raw fold is the tree of its own node hash over its own leaves. -/
theorem sparseStateRootFromSegmentRoots_eq (compress : Digest → Digest → Digest)
    (zeroSegRootFor : Nat → Digest) {logSlots log : Nat} (fits : log ≤ logSlots)
    (shallow : logSlots - log ≤ maxSegtreeDepth) {ids : List U16} (sorted : ids.IsChain (· < ·))
    (inside : ∀ id ∈ ids, id.toNat < 2 ^ (logSlots - log)) (root : Nat → Digest) :
    sparseStateRootFromSegmentRoots compress zeroSegRootFor logSlots log ids
        (ids.map fun id => root id.toNat) =
      .ok (subRoot compress
        (fun id => if id ∈ ids.map BitVec.toNat then root id else zeroSegRootFor log)
        (logSlots - log) 0) := by
  obtain ⟨leaves, ran, length, reads⟩ := foldlM_set_of_inside root inside
    (List.replicate (2 ^ (logSlots - log)) (zeroSegRootFor log)) List.length_replicate
  have leaf : ∀ id < 2 ^ (logSlots - log), leaves.getD id 0 =
      if id ∈ ids.map BitVec.toNat then root id else zeroSegRootFor log := by
    intro id below
    rw [reads, List.getD_replicate _ below]
  simp only [sparseStateRootFromSegmentRoots, bind_eq_ok, reject_eq_ok, not_lt, not_not, ne_eq]
  refine ⟨(), fits, (), by simp, (), sorted, (), shallow, leaves, ran, ?_⟩
  split
  case isTrue single =>
    have flat : logSlots - log = 0 := (Nat.pow_eq_one.mp single).resolve_left (by omega)
    rw [leaf 0 (by omega), flat]
    rfl
  case isFalse several =>
    -- the same loop as in the cache of exact roots, over another node hash
    have heap : ExactSegmentRootCache.Heap ⟨fun _ => 0, compress⟩ leaves _ :=
      ExactSegmentRootCache.heap_buildTree (by rw [length]; exact (Nat.two_pow_pos _).ne')
    have inner := heap.inner
    rw [length] at inner
    have folded := inner.root_eq.trans (subRoot_congr _ _ fun id _ high => by
      rw [← length, heap.leaf_eq id (by rw [length]; simpa using high),
        leaf id (by simpa using high)])
    rw [ExactSegmentRootCache.buildTree, length] at folded
    exact congrArg Except.ok folded

variable {slots : Nat → SlotValue}

/-- Over the node hash of the exact state the raw fold is the exact root. -/
theorem sparseStateRootFromSegmentRoots_exact {depth : Nat} {columns : Nat → SegmentColumns}
    (deep : logSegmentSize ≤ depth) (shallow : depth ≤ 32)
    (held : HoldsSegments slots depth columns) {ids : List U16}
    (others : OthersEmpty slots depth (ids.map BitVec.toNat)) (sorted : ids.IsChain (· < ·))
    (inside : ∀ id ∈ ids, id.toNat < 2 ^ (depth - logSegmentSize)) :
    sparseStateRootFromSegmentRoots hasher.stateNodeHash hasher.zeroSlotRoot depth logSegmentSize
        ids (ids.map fun id =>
          (ExactSegmentTree.fromColumns hasher logSegmentSize (columns id.toNat)).root) =
      .ok (plainRoot hasher slots depth) := by
  have upper : depth - logSegmentSize ≤ maxSegtreeDepth := by
    rw [maxSegtreeDepth, logSegmentSize]
    omega
  rw [sparseStateRootFromSegmentRoots_eq _ _ deep upper sorted inside
    fun id => (ExactSegmentTree.fromColumns hasher logSegmentSize (columns id)).root]
  have pieces : subRoot hasher.stateNodeHash (subtreeRoot hasher slots logSegmentSize)
      (depth - logSegmentSize) 0 = plainRoot hasher slots depth := by
    refine (subRoot_split (leafVector hasher slots) logSegmentSize _ 0).trans ?_
    rw [Nat.sub_add_cancel deep]
    rfl
  rw [← pieces]
  refine congrArg Except.ok (subRoot_congr _ _ fun id _ high => ?_)
  have below : id < 2 ^ (depth - logSegmentSize) := by simpa using high
  split
  case isTrue => exact held.root_eq below
  case isFalse missing => exact others.root_eq below missing

/-- A hasher that counts levels: a tree of one height over any slots has one root. -/
def levelHasher (leaf step : Digest) : StateHasher := ⟨fun _ => leaf, fun left _ => left + step⟩

theorem subtreeRoot_levelHasher (leaf step : Digest) (slots : Nat → SlotValue) :
    ∀ level index, subtreeRoot (levelHasher leaf step) slots level index =
      leaf + step * BitVec.ofNat 256 level
  | 0, index => by simp [subtreeRoot, leafVector, levelHasher]
  | level + 1, index => by
    have below := subtreeRoot_levelHasher leaf step slots level (2 * index)
    rw [subtreeRoot] at below ⊢
    rw [subRoot_succ, below, levelHasher, BitVec.ofNat_add, BitVec.mul_add, ← BitVec.add_assoc]
    simp

theorem holdsSegments_empty (depth : Nat) :
    HoldsSegments (fun _ => .empty) depth fun _ => .newZero (2 ^ logSegmentSize) :=
  fun _ _ => ⟨SegmentColumns.sized_newZero _, fun index _ => SegmentColumns.get_newZero _ index⟩

/-- Two segments under the raw fold. -/
theorem sparseStateRoot_pair (compress : Digest → Digest → Digest) (zeroSegRootFor : Nat → Digest)
    (root : Nat → Digest) :
    sparseStateRootFromSegmentRoots compress zeroSegRootFor 17 logSegmentSize [0, 1]
        (([0, 1] : List U16).map fun id => root id.toNat) = .ok (compress (root 0) (root 1)) := by
  have folded := sparseStateRootFromSegmentRoots_eq compress zeroSegRootFor
    (show logSegmentSize ≤ 17 by decide) (by decide)
    (show ([0, 1] : List U16).IsChain (· < ·) by decide) (by simp [logSegmentSize]) root
  have one : 17 - logSegmentSize = 1 := rfl
  rw [folded, one, subRoot_succ, subRoot_zero, subRoot_zero, if_pos (by decide), if_pos (by decide)]

theorem root_levelHasher (leaf step : Digest) {columns : Nat → SegmentColumns}
    (held : HoldsSegments slots 17 columns) {id : Nat} (inside : id < 2 ^ (17 - logSegmentSize)) :
    (ExactSegmentTree.fromColumns (levelHasher leaf step) logSegmentSize (columns id)).root =
      leaf + step * 16 := by
  rw [held.root_eq inside, subtreeRoot_levelHasher]
  rfl

/-- Whatever `compress` is, folding exact segment roots through the raw segment-root tree misses the
exact root of some hasher. -/
theorem raw_segment_tree_differs (compress : Digest → Digest → Digest)
    (zeroSegRootFor : Nat → Digest) : ∃ hasher slots columns, HoldsSegments slots 17 columns ∧
      sparseStateRootFromSegmentRoots compress zeroSegRootFor 17 logSegmentSize [0, 1]
        (([0, 1] : List U16).map fun id =>
          (ExactSegmentTree.fromColumns hasher logSegmentSize (columns id.toNat)).root) ≠
        .ok (plainRoot hasher slots 17) := by
  have held := holdsSegments_empty 17
  have folded (leaf step : Digest) :=
    sparseStateRoot_pair compress zeroSegRootFor fun id => (ExactSegmentTree.fromColumns
      (levelHasher leaf step) logSegmentSize (.newZero (2 ^ logSegmentSize))).root
  have root (leaf step : Digest) := root_levelHasher leaf step held (show 0 < _ by decide)
  -- the two hashers have one segment root and two different roots above it
  by_cases same : compress 16 16 = 17
  · refine ⟨levelHasher (-16) 2, _, _, held, ?_⟩
    rw [folded, root, plainRoot, subtreeRoot_levelHasher,
      show (-16 : Digest) + 2 * 16 = 16 by decide, same]
    decide
  · refine ⟨levelHasher 0 1, _, _, held, ?_⟩
    rw [folded, root, plainRoot, subtreeRoot_levelHasher, show (0 : Digest) + 1 * 16 = 16 by decide]
    exact fun equal => same (Except.ok.inj equal)

/-- No choice of the raw hash functions makes the raw segment-root tree a builder of exact roots. -/
theorem raw_segment_tree_never_exact :
    {raw : (Digest → Digest → Digest) × (Nat → Digest) | ∀ hasher slots columns,
      HoldsSegments slots 17 columns →
        sparseStateRootFromSegmentRoots raw.1 raw.2 17 logSegmentSize [0, 1]
            (([0, 1] : List U16).map fun id =>
              (ExactSegmentTree.fromColumns hasher logSegmentSize (columns id.toNat)).root) =
          .ok (plainRoot hasher slots 17)} = ∅ := by
  refine Set.eq_empty_of_forall_notMem fun raw exact => ?_
  obtain ⟨hasher, slots, columns, held, differs⟩ := raw_segment_tree_differs raw.1 raw.2
  exact differs (exact hasher slots columns held)

/-! ## Agreement -/

/-- The cache, after any writes that leave the given slots. -/
theorem fromLeaves_root_eq {depth : Nat} (shallow : depth ≤ 32)
    (inside : ∀ write ∈ writes, write.1 < 2 ^ depth)
    (net : ∀ index < 2 ^ depth, overlay (fun _ => .empty) writes index = slots index) :
    ∃ cache, SparseMerkleCache.fromLeaves hasher depth
        (writes.map fun write => (write.1, hasher.slotLeafHash write.2)) = .ok cache ∧
      cache.root hasher = plainRoot hasher slots depth := by
  have bounded : ∀ entry ∈ writes.map fun write => (write.1, hasher.slotLeafHash write.2),
      entry.1 < 2 ^ depth := by
    intro entry member
    obtain ⟨write, written, rfl⟩ := List.mem_map.mp member
    exact inside write written
  obtain ⟨cache, built, same, holds⟩ :=
    SparseMerkleCache.fromLeaves_holds hasher shallow bounded
  refine ⟨cache, built, ?_⟩
  have leaves := @leafVector_overlay hasher (fun _ => .empty) writes
  have empty : leafVector hasher (fun _ => .empty) = fun _ => hasher.slotLeafHash .empty := rfl
  rw [empty] at leaves
  rw [holds.root_eq, same, leaves]
  refine subRoot_congr _ _ fun index _ high => ?_
  rw [leafVector, leafVector, net index (by simpa using high)]

/-- For one slot vector, the sparse cache after any writes, the stream of the live leaves and the tree
over the segment roots all have the root of the plain tree; the heap of a segment is the same however
it was written, and reads through updates as if they were written. -/
theorem root_builders_agree (hasher : StateHasher) (depth : Nat) (shallow : depth ≤ 32)
    (slots : Nat → SlotValue) :
    (∀ writes : List (Nat × SlotValue), (∀ write ∈ writes, write.1 < 2 ^ depth) →
      (∀ index < 2 ^ depth, overlay (fun _ => .empty) writes index = slots index) →
      ∃ cache, SparseMerkleCache.fromLeaves hasher depth
          (writes.map fun write => (write.1, hasher.slotLeafHash write.2)) = .ok cache ∧
        cache.root hasher = plainRoot hasher slots depth) ∧
    (∀ entries, StreamingSparseRoot.LiveEntries depth slots entries →
      StreamingSparseRoot.ofLeaves hasher depth entries = .ok (plainRoot hasher slots depth)) ∧
    (logSegmentSize < depth → ∀ columns, HoldsSegments slots depth columns →
      (∀ ids : List Nat, (∀ id ∈ ids, id < 2 ^ (depth - logSegmentSize)) →
        OthersEmpty slots depth ids →
        (ids.foldl (fun roots id => roots.setSegmentRoot hasher id
          (ExactSegmentTree.fromColumns hasher logSegmentSize (columns id)).root)
          (ExactSegmentRootCache.empty hasher depth)).root = plainRoot hasher slots depth) ∧
      (∀ ids : List U16, ids.IsChain (· < ·) →
        (∀ id ∈ ids, id.toNat < 2 ^ (depth - logSegmentSize)) →
        OthersEmpty slots depth (ids.map BitVec.toNat) →
        sparseStateRootFromSegmentRoots hasher.stateNodeHash hasher.zeroSlotRoot depth
            logSegmentSize ids (ids.map fun id =>
              (ExactSegmentTree.fromColumns hasher logSegmentSize (columns id.toNat)).root) =
          .ok (plainRoot hasher slots depth))) ∧
    (∀ (log : Nat) (columns : SegmentColumns), columns.Sized (2 ^ log) →
      ∀ writes : List (Nat × SlotValue), (∀ write ∈ writes, write.1 < 2 ^ log) →
        writes.foldl (fun tree write => tree.setSlot hasher write.1 write.2)
            (ExactSegmentTree.fromColumns hasher log columns) =
          ExactSegmentTree.fromColumns hasher log
            (writes.foldl (fun columns write => columns.put write.1 write.2) columns) ∧
        ∀ updates : List (Nat × SlotValue), SortedMap.Ascending updates →
          (∀ update ∈ updates, update.1 < 2 ^ log) →
          let tree := writes.foldl (fun tree write => tree.setSlot hasher write.1 write.2)
            (ExactSegmentTree.fromColumns hasher log columns)
          tree.rootWithUpdates hasher updates =
            (updates.foldl (fun tree update => tree.setSlot hasher update.1 update.2) tree).root) := by
  refine ⟨fun writes inside net => ?_, fun entries live => ?_, fun deep columns held =>
    ⟨fun ids inside others => ?_, fun ids sorted inside others => ?_⟩,
    fun log columns sized writes inside => ⟨?_, fun updates asc fits => ?_⟩⟩
  · exact fromLeaves_root_eq shallow inside net
  · exact StreamingSparseRoot.ofLeaves_eq (by omega) live
  · exact foldl_setSegmentRoot_eq deep.le held others inside
  · exact sparseStateRootFromSegmentRoots_exact deep.le shallow held others sorted inside
  · exact ExactSegmentTree.foldl_setSlot_fromColumns sized inside
  · exact ((ExactSegmentTree.fromColumns_current hasher log columns).foldl_setSlot
      inside).rootWithUpdates_eq_foldl asc fits

theorem root_builders_agree_written : ∃ cache,
    SparseMerkleCache.fromLeaves .sample 2
        ([(3, ⟨1, 0, 0⟩), (2, ⟨5, 0, 1⟩), (3, .empty)].map fun write =>
          (write.1, StateHasher.sample.slotLeafHash write.2)) = .ok cache ∧
      StreamingSparseRoot.ofLeaves .sample 2 [(2, ⟨5, 0, 1⟩)] = .ok (cache.root .sample) := by
  have agree := root_builders_agree .sample 2 (by decide)
    (Function.update (fun _ => .empty) 2 ⟨5, 0, 1⟩)
  obtain ⟨cache, built, root⟩ := agree.1 [(3, ⟨1, 0, 0⟩), (2, ⟨5, 0, 1⟩), (3, .empty)] (by decide)
    (by decide)
  refine ⟨cache, built, ?_⟩
  rw [root]
  exact agree.2.1 [(2, ⟨5, 0, 1⟩)] ⟨List.pairwise_singleton _ _, by decide, by decide, by decide⟩

end ParanoidChain
