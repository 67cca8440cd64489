import ParanoidChain.Chain.UpdatePaths
import ParanoidChain.Laws.Chain.SparseMerkle
import Mathlib.Data.List.SplitBy
import Mathlib.Data.Nat.Pairing

/-!
# Update paths are faithful

The expansion carries a partial tree through the touched leaves. Its invariant is that every node
the pruned tree needs is there (`Agree`): each touched leaf is overwritten in turn, the nodes above
it follow, and the siblings of its path are nodes of the tree as the earlier updates left it.

Cut at the segment size, the steps of one segment move its root while everything above the segment
stays, so one upper step replaces them (`SegmentChain`). Under an injective node hash a segment
chain between the roots of two trees overwrites exactly the leaves it names.
-/

namespace ParanoidChain

open Lib Lib.Merkle Lib.Multiproof

variable {α : Type} {node : α → α → α}

/-! ## The partial tree -/

/-- The partial tree has the value at every place of the domain. -/
def Agree (domain : Nat → Nat → Prop) (value : Nat → Nat → α) (nodes : PartialNodes α) : Prop :=
  ∀ level pos, domain level pos → nodes (level, pos) = some (value level pos)

variable {domain : Nat → Nat → Prop} {value : Nat → Nat → α} {nodes : PartialNodes α}

/-- Entering a right value extends the domain. -/
theorem Agree.insert (agree : Agree domain value nodes) (height index : Nat) :
    Agree (fun level pos => domain level pos ∨ (level = height ∧ pos = index)) value
      (Function.update nodes (height, index) (some (value height index))) := by
  intro level pos inside
  by_cases here : (level, pos) = (height, index)
  · obtain ⟨rfl, rfl⟩ := Prod.mk.inj here
    rw [Function.update_self]
  · rw [Function.update_of_ne here]
    exact agree level pos (inside.resolve_right fun same => here (by rw [same.1, same.2]))

theorem Agree.mono {other : Nat → Nat → Prop} (agree : Agree domain value nodes)
    (fewer : ∀ level pos, other level pos → domain level pos) : Agree other value nodes :=
  fun level pos inside => agree level pos (fewer level pos inside)

/-- Values entered at a list of keys. -/
theorem foldl_enter (value : Nat × Nat → α) (keys : List (Nat × Nat)) (nodes : PartialNodes α)
    (key : Nat × Nat) :
    keys.foldl (fun nodes key => Function.update nodes key (some (value key))) nodes key =
      if key ∈ keys then some (value key) else nodes key := by
  induction keys generalizing nodes with
  | nil => simp
  | cons first keys ih =>
    rw [List.foldl_cons, ih, Function.update_apply]
    by_cases later : key ∈ keys
    · simp [later]
    · by_cases here : key = first <;> simp [later, here]

/-- The place of a frontier position. -/
def place (position : FrontierSiblingPosition) : Nat × Nat := (position.level, position.nodeIndex)

/-- Distinct places that are still free can be entered. -/
theorem foldlM_insertFrontier (value : Nat → Nat → α) {positions : List FrontierSiblingPosition}
    (nodup : positions.Nodup) (free : ∀ position ∈ positions, nodes (place position) = none) :
    ∃ filled, (positions.zip (siblingsOf value positions)).foldlM insertFrontier nodes = .ok filled ∧
      ∀ key, filled key =
        if key ∈ positions.map place then some (value key.1 key.2) else nodes key := by
  refine ⟨_, ?_, foldl_enter (fun key => value key.1 key.2) (positions.map place) nodes⟩
  induction positions generalizing nodes with
  | nil => rfl
  | cons position positions ih =>
    obtain ⟨absent, nodup⟩ := List.nodup_cons.mp nodup
    obtain ⟨here, free⟩ := List.forall_mem_cons.mp free
    rw [siblingsOf, List.map_cons, List.zip_cons_cons, foldlM_cons_eq_ok]
    refine ⟨_, by simp [insertFrontier, show nodes (_, _) = none from here]; rfl,
      ih nodup fun later member => ?_⟩
    refine (Function.update_of_ne (fun same => ?_) _ _).trans (free later member)
    obtain ⟨level, index⟩ := Prod.mk.inj same
    exact absent (by cases later; cases position; simp_all)

variable {touched : List Nat} {depth : Nat}

/-- The places known once the paths are entered up to one level. -/
def Joined (touched : List Nat) (depth height level pos : Nat) : Prop :=
  (level ≤ height ∧ Above touched level pos) ∨ (level < depth ∧ Frontier touched level pos)

variable {height : Nat}

/-- Below the height both members of a pair are known. -/
theorem joined_child {level pos : Nat} (above : Above touched (level + 1) (pos / 2))
    (low : level ≤ height) (below : level < depth) : Joined touched depth height level pos := by
  by_cases known : Above touched level pos
  · exact .inl ⟨low, known⟩
  · exact .inr ⟨below, known, above⟩

/-- One level of joins. -/
theorem foldlM_joinPair (along : Along node touched value) (below : height < depth)
    {current : List Nat} (held : Level touched height current)
    (agree : Agree (Joined touched depth height) value nodes) :
    ∃ joined, (parentBases current).foldlM (joinPair node height) nodes = .ok joined ∧
      Agree (Joined touched depth (height + 1)) value joined := by
  obtain ⟨joined, ran, all⟩ := foldlM_exists (f := joinPair node height) (l := parentBases current)
    (P := fun done => Agree (fun level pos => Joined touched depth height level pos ∨
      (level = height + 1 ∧ ∃ base ∈ done, pos = base / 2)) value)
    (agree.mono fun level pos inside => by simpa using inside)
    fun done base rest joined split held' => by
      have member : base ∈ parentBases current := by simp [split]
      have even := parentBases_even member
      have here := (held.next.mem_iff _).mp (List.mem_map_of_mem member)
      have child (pos : Nat) (half : pos / 2 = base / 2) :=
        held' height pos (.inl (joined_child (half ▸ here) le_rfl below))
      have parent := along height (base / 2) here
      rw [even] at parent
      refine ⟨_, ?_, (held'.insert (height + 1) (base / 2)).mono fun level pos inside => ?_⟩
      · simp [joinPair, child base rfl, child (base + 1) (by omega), parent]
      · rcases inside with old | ⟨rfl, other, found, rfl⟩
        · exact .inl (.inl old)
        · rcases List.mem_append.mp found with earlier | last
          · exact .inl (.inr ⟨rfl, other, earlier, rfl⟩)
          · exact .inr ⟨rfl, by rw [List.mem_singleton.mp last]⟩
  refine ⟨joined, ran, all.mono fun level pos inside => ?_⟩
  rcases inside with ⟨low, known⟩ | hangs
  · rcases Nat.lt_or_ge height level with new | old
    · obtain rfl : level = height + 1 := by omega
      obtain ⟨base, member, rfl⟩ := List.mem_map.mp ((held.next.mem_iff _).mpr known)
      exact .inr ⟨rfl, base, member, rfl⟩
    · exact .inl (.inl ⟨old, known⟩)
  · exact .inl (.inr hangs)

/-- The joins enter every node above a touched leaf. -/
theorem joinLevels_agree (along : Along node touched value) :
    ∀ (remaining level : Nat) {current : List Nat} {nodes : PartialNodes α},
      level + remaining = depth → Level touched level current →
      Agree (Joined touched depth level) value nodes →
      ∃ joined, joinLevels node remaining level current nodes = .ok joined ∧
        Agree (Joined touched depth depth) value joined
  | 0, level, current, nodes, split, _, agree => ⟨nodes, rfl, by simpa [← split] using agree⟩
  | remaining + 1, level, current, nodes, split, held, agree => by
    obtain ⟨joined, ran, raised⟩ := foldlM_joinPair along (by omega) held agree
    obtain ⟨final, rest, done⟩ :=
      joinLevels_agree along remaining (level + 1) (by omega) held.next raised
    exact ⟨final, bind_eq_ok.mpr ⟨joined, ran, rest⟩, done⟩

variable {indices : List Nat}

/-- The partial tree over touched leaves and a frontier is the pruned tree. -/
theorem partialTree_agree (node : α → α → α) (valid : ValidIndices indices depth) (leaf : Nat → α)
    (frontier : Nat → Nat → α) :
    ∃ nodes, partialTree node indices (indices.map leaf)
        (siblingsOf frontier (frontierFrom depth 0 indices)) (frontierFrom depth 0 indices) depth =
        .ok nodes ∧
      Agree (Joined indices depth depth) (pruned node indices leaf frontier) nodes := by
  have start := Level.start valid.sorted
  have member (level pos : Nat) : (level, pos) ∈ (frontierFrom depth 0 indices).map place ↔
      level < depth ∧ Frontier indices level pos := by
    rw [List.mem_map]
    constructor
    · rintro ⟨position, found, same⟩
      obtain ⟨rfl, rfl⟩ := Prod.mk.inj same
      obtain ⟨-, low, hangs⟩ := (mem_frontierFrom start).mp found
      exact ⟨by omega, hangs⟩
    · rintro ⟨low, hangs⟩
      exact ⟨⟨level, pos⟩, (mem_frontierFrom start).mpr ⟨Nat.zero_le _, by simpa using low, hangs⟩,
        rfl⟩
  set bottom : PartialNodes α := (indices.zip (indices.map leaf)).foldl (fun nodes entry =>
    Function.update nodes (0, entry.1) (some entry.2)) fun _ => none with bottom_eq
  have leaves (key : Nat × Nat) :
      bottom key = if key ∈ indices.map (Prod.mk 0) then some (leaf key.2) else none := by
    have entered := foldl_enter (fun key => leaf key.2) (indices.map (Prod.mk 0)) (fun _ => none) key
    rw [List.foldl_map] at entered
    rw [bottom_eq, ← List.map_prod_left_eq_zip, List.foldl_map]
    exact entered
  have free (position : FrontierSiblingPosition) (found : position ∈ frontierFrom depth 0 indices) :
      bottom (place position) = none := by
    rw [leaves, if_neg]
    intro again
    obtain ⟨index, inside, same⟩ := List.mem_map.mp again
    have hangs := ((member _ _).mp (List.mem_map_of_mem found)).2.1
    rw [← (Prod.mk.inj same).1, ← (Prod.mk.inj same).2] at hangs
    exact hangs (above_zero.mpr inside)
  obtain ⟨filled, ran, reads⟩ := foldlM_insertFrontier frontier (nodup_frontierFrom start) free
  have known : Agree (Joined indices depth 0) (pruned node indices leaf frontier) filled := by
    intro level pos inside
    rw [reads]
    rcases inside with ⟨zero, above⟩ | ⟨below, hangs⟩
    · obtain rfl : level = 0 := by omega
      have touched := above_zero.mp above
      rw [if_neg fun found => ((member _ _).mp found).2.1 above, leaves,
        if_pos (List.mem_map_of_mem touched), pruned_leaf touched]
    · rw [if_pos ((member _ _).mpr ⟨below, hangs⟩), pruned_frontier hangs.1]
  obtain ⟨nodes, joined, agree⟩ :=
    joinLevels_agree along_pruned depth 0 (Nat.zero_add depth) start known
  exact ⟨nodes, bind_eq_ok.mpr ⟨filled, ran, joined⟩, agree⟩

/-! ## Paths -/

/-- The tree over varying leaves: it holds along the paths of the touched leaves, and a node depends
on the touched leaves below it only. -/
structure Grown (node : α → α → α) (touched : List Nat) (tree : (Nat → α) → Nat → Nat → α) : Prop where
  along (leaf : Nat → α) : Along node touched (tree leaf)
  leaf_eq (leaf : Nat → α) {index : Nat} : index ∈ touched → tree leaf 0 index = leaf index
  congr (leaf other : Nat → α) (level pos : Nat) :
    (∀ index ∈ touched, index / 2 ^ level = pos → leaf index = other index) →
      tree leaf level pos = tree other level pos

theorem grown_pruned (node : α → α → α) (frontier : Nat → Nat → α) :
    Grown node touched fun leaf => pruned node touched leaf frontier :=
  ⟨fun _ => along_pruned, fun _ _ => pruned_leaf, fun _ _ => pruned_congr⟩

/-- The path of an index over the levels from `start` on, between two states of the leaves. -/
def pathAt (tree : (Nat → α) → Nat → Nat → α) (start count : Nat) (old new : Nat → α) (index : Nat) :
    SequentialMerkleUpdatePath α where
  index := index / 2 ^ start
  oldLeaf := tree old start (index / 2 ^ start)
  newLeaf := tree new start (index / 2 ^ start)
  siblings := siblingsFrom (tree old) index start count
  directions := directionsFrom index start count
  rootBefore := tree old (start + count) (index / 2 ^ (start + count))
  rootAfter := tree new (start + count) (index / 2 ^ (start + count))

/-- The step that overwrites one leaf, seen up to one height. -/
def stepAt (tree : (Nat → α) → Nat → Nat → α) (height : Nat) (leaf : Nat → α) (write : Nat × α) :
    SequentialMerkleUpdatePath α :=
  pathAt tree 0 height leaf (overlay leaf [write]) write.1

variable {tree : (Nat → α) → Nat → Nat → α} {leaf : Nat → α} {write : Nat × α}

/-- Overwriting a leaf changes only the nodes above it. -/
theorem Grown.write_of_ne (grown : Grown node touched tree) (leaf : Nat → α) {level pos : Nat}
    (apart : write.1 / 2 ^ level ≠ pos) :
    tree (overlay leaf [write]) level pos = tree leaf level pos :=
  grown.congr _ _ _ _ fun _ _ here => overlay_of_not_mem fun named =>
    apart (List.mem_singleton.mp named ▸ here)

/-! ## One update -/

/-- The nodes in the middle of a climb: the new ones up to a level, above it the old ones. -/
def halfway (tree : (Nat → α) → Nat → Nat → α) (leaf : Nat → α) (write : Nat × α)
    (height level pos : Nat) : α :=
  if level ≤ height then tree (overlay leaf [write]) level pos else tree leaf level pos

/-- The accumulators of a climb at one height. -/
def climbAt (tree : (Nat → α) → Nat → Nat → α) (leaf : Nat → α) (write : Nat × α) (height : Nat)
    (nodes : PartialNodes α) : PathClimb α where
  nodes
  currentHash := tree (overlay leaf [write]) height (write.1 / 2 ^ height)
  siblings := siblingsFrom (tree leaf) write.1 0 height
  directions := directionsFrom write.1 0 height

/-- One level of a climb. -/
theorem climbLevel_eq (grown : Grown node touched tree) (inside : write.1 ∈ touched)
    (below : height < depth)
    (agree : Agree (Joined touched depth depth) (halfway tree leaf write height) nodes) :
    ∃ climbed, climbLevel node write.1 (climbAt tree leaf write height nodes) height =
        .ok (climbAt tree leaf write (height + 1) climbed) ∧
      Agree (Joined touched depth depth) (halfway tree leaf write (height + 1)) climbed := by
  have half : write.1 / 2 ^ height / 2 = write.1 / 2 ^ (height + 1) := by
    rw [Nat.div_div_eq_div_mul, Nat.pow_succ]
  have above := above_self inside (height + 1)
  have mate : (write.1 / 2 ^ height ^^^ 1) / 2 = write.1 / 2 ^ (height + 1) ∧
      write.1 / 2 ^ height ≠ write.1 / 2 ^ height ^^^ 1 := by
    obtain ⟨_, own, other⟩ | ⟨_, other, own⟩ := pair_cases (write.1 / 2 ^ height) <;> omega
  have sibling := agree height (write.1 / 2 ^ height ^^^ 1)
    (joined_child (mate.1 ▸ above) below.le below)
  rw [halfway, if_pos le_rfl, grown.write_of_ne leaf mate.2] at sibling
  have parent := grown.along (overlay leaf [write]) height _ above
  set fresh := tree (overlay leaf [write]) with fresh_eq
  have joined : (if (write.1 / 2 ^ height % 2 == 1) = true then
        node (tree leaf height (write.1 / 2 ^ height ^^^ 1)) (fresh height (write.1 / 2 ^ height))
      else node (fresh height (write.1 / 2 ^ height))
        (tree leaf height (write.1 / 2 ^ height ^^^ 1))) =
      fresh (height + 1) (write.1 / 2 ^ (height + 1)) := by
    rw [← grown.write_of_ne leaf mate.2, ← fresh_eq, parent, ← half]
    obtain ⟨even, own, other⟩ | ⟨odd, other, own⟩ := pair_cases (write.1 / 2 ^ height)
    · rw [if_neg (by simp [even]), other, ← own]
    · rw [if_pos (by simp [odd]), other, ← own]
  refine ⟨Function.update nodes (height + 1, write.1 / 2 ^ (height + 1))
    (some (fresh (height + 1) (write.1 / 2 ^ (height + 1)))), ?_, fun level pos known => ?_⟩
  · simp only [climbLevel, climbAt, bind_eq_ok, okOr_eq_ok, pure_eq_ok]
    refine ⟨_, sibling, ?_⟩
    rw [joined, half, siblingsFrom_concat, directionsFrom_concat, Nat.zero_add]
  · by_cases here : (level, pos) = (height + 1, write.1 / 2 ^ (height + 1))
    · obtain ⟨rfl, rfl⟩ := Prod.mk.inj here
      rw [Function.update_self, halfway, if_pos le_rfl]
    · rw [Function.update_of_ne here, agree level pos known, halfway, halfway]
      rcases Nat.lt_trichotomy level (height + 1) with low | rfl | high
      · rw [if_pos (by omega), if_pos (by omega)]
      · have apart : write.1 / 2 ^ (height + 1) ≠ pos := by rintro rfl; exact here rfl
        rw [if_neg (by omega), if_pos le_rfl, grown.write_of_ne leaf apart]
      · rw [if_neg (by omega), if_neg (by omega)]

/-- A whole climb overwrites one leaf. -/
theorem foldlM_climbLevel (grown : Grown node touched tree) (inside : write.1 ∈ touched)
    (agree : Agree (Joined touched depth depth) (tree leaf) nodes) :
    ∀ height : Nat, height ≤ depth →
      ∃ climbed, (List.range height).foldlM (climbLevel node write.1)
          ⟨Function.update nodes (0, write.1) (some write.2), write.2, [], []⟩ =
        .ok (climbAt tree leaf write height climbed) ∧
        Agree (Joined touched depth depth) (halfway tree leaf write height) climbed
  | 0, _ => by
    have bottom : tree (overlay leaf [write]) 0 write.1 = write.2 := by
      rw [grown.leaf_eq _ inside, overlay_cons, overlay_nil, Function.update_self]
    refine ⟨Function.update nodes (0, write.1) (some write.2), ?_, fun level pos known => ?_⟩
    · simp [climbAt, bottom, siblingsFrom, directionsFrom, pure, Except.pure]
    · rw [halfway]
      by_cases here : (level, pos) = (0, write.1)
      · obtain ⟨rfl, rfl⟩ := Prod.mk.inj here
        rw [Function.update_self, if_pos le_rfl, bottom]
      · rw [Function.update_of_ne here, agree level pos known]
        split
        case isTrue bottom =>
          obtain rfl : level = 0 := by omega
          rw [grown.write_of_ne]
          rintro rfl
          simp at here
        case isFalse => rfl
  | height + 1, low => by
    obtain ⟨climbed, ran, held⟩ := foldlM_climbLevel grown inside agree height (by omega)
    obtain ⟨next, step, reached⟩ := climbLevel_eq grown inside (by omega) held
    rw [List.range_succ]
    refine ⟨next, foldlM_append_eq_ok.mpr ⟨_, ran, ?_⟩, reached⟩
    simp only [List.foldlM_cons, List.foldlM_nil, bind_eq_ok, pure_eq_ok]
    exact ⟨_, step, rfl⟩

/-! ## Sequential updates -/

section Trace

variable {β γ : Type} {f : (Nat → α) → Nat × α → β}

/-- What is made of each write of a batch and the leaves that the earlier ones leave. -/
def trace (f : (Nat → α) → Nat × α → β) : (Nat → α) → List (Nat × α) → List β
  | _, [] => []
  | leaf, write :: writes => f leaf write :: trace f (overlay leaf [write]) writes

theorem trace_append (first second : List (Nat × α)) (leaf : Nat → α) :
    trace f leaf (first ++ second) = trace f leaf first ++ trace f (overlay leaf first) second := by
  induction first generalizing leaf with
  | nil => rfl
  | cons write first ih => exact congrArg (f leaf write :: ·) (ih _)

theorem map_trace (g : β → γ) (leaf : Nat → α) (writes : List (Nat × α)) :
    (trace f leaf writes).map g = trace (fun leaf write => g (f leaf write)) leaf writes := by
  induction writes generalizing leaf with
  | nil => rfl
  | cons write writes ih => exact congrArg (g (f leaf write) :: ·) (ih _)

theorem trace_eq_map (g : Nat × α → β) (leaf : Nat → α) (writes : List (Nat × α)) :
    trace (fun _ => g) leaf writes = writes.map g := by
  induction writes generalizing leaf with
  | nil => rfl
  | cons write writes ih => exact congrArg (g write :: ·) (ih _)

@[simp] theorem length_trace (leaf : Nat → α) (writes : List (Nat × α)) :
    (trace f leaf writes).length = writes.length := by
  rw [← List.length_map (fun _ => ()), map_trace, trace_eq_map, List.length_map]

theorem zip_trace (g : (Nat → α) → Nat × α → γ) (leaf : Nat → α) (writes : List (Nat × α)) :
    (trace f leaf writes).zip (trace g leaf writes) =
      trace (fun leaf write => (f leaf write, g leaf write)) leaf writes := by
  induction writes generalizing leaf with
  | nil => rfl
  | cons write writes ih => exact congrArg ((f leaf write, g leaf write) :: ·) (ih _)

theorem mem_trace {made : β} {writes : List (Nat × α)} {leaf : Nat → α}
    (member : made ∈ trace f leaf writes) : ∃ earlier, ∃ write ∈ writes, made = f earlier write := by
  induction writes generalizing leaf with
  | nil => cases member
  | cons write writes ih =>
    rcases List.mem_cons.mp member with rfl | later
    · exact ⟨leaf, write, by simp, rfl⟩
    · obtain ⟨earlier, other, written, same⟩ := ih later
      exact ⟨earlier, other, List.mem_cons_of_mem _ written, same⟩

/-- The last write of a batch finds what the others leave. -/
theorem getLast?_trace {writes : List (Nat × α)} (some : writes ≠ []) (leaf : Nat → α) :
    ∃ previous last, last ∈ writes ∧ overlay previous [last] = overlay leaf writes ∧
      (trace f leaf writes).getLast? = Option.some (f previous last) := by
  rcases writes.eq_nil_or_concat' with rfl | ⟨front, last, rfl⟩
  · exact absurd rfl some
  · refine ⟨overlay leaf front, last, by simp, (overlay_append ..).symm, ?_⟩
    rw [trace_append]
    exact List.getLast?_concat

end Trace

variable {writes : List (Nat × α)}

/-- The leaves that a batch does not write first are read as they were. -/
theorem map_update_of_not_mem {γ : Type} (read : α → Nat × α → γ) (absent : write.1 ∉ writes.map Prod.fst)
    (leaf : Nat → α) :
    writes.map (fun other => read (overlay leaf [write] other.1) other) =
      writes.map fun other => read (leaf other.1) other :=
  List.map_congr_left fun other member => by
    rw [overlay_of_not_mem fun named => absent ?_]
    exact List.mem_singleton.mp named ▸ List.mem_map_of_mem member

/-- The update loop over distinct touched leaves that still hold their old values. -/
theorem foldlM_updateLeaf [DecidableEq α] (grown : Grown node touched tree) (scan : UpdateScan α)
    (nodup : (writes.map Prod.fst).Nodup)
    (inside : ∀ write ∈ writes, write.1 ∈ touched ∧ write.1 < 2 ^ depth)
    (agree : Agree (Joined touched depth depth) (tree leaf) scan.nodes)
    (root : scan.rollingRoot = tree leaf depth 0) :
    ∃ nodes, (writes.map fun write => ((write.1, leaf write.1), write.2)).foldlM
        (updateLeaf node depth) scan =
      .ok ⟨nodes, tree (overlay leaf writes) depth 0,
        scan.out ++ trace (stepAt tree depth) leaf writes⟩ := by
  induction writes generalizing leaf scan with
  | nil => exact ⟨scan.nodes, by simp [trace, ← root, pure, Except.pure]⟩
  | cons write writes ih =>
    obtain ⟨absent, nodup⟩ := List.nodup_cons.mp nodup
    obtain ⟨⟨member, low⟩, inside⟩ := List.forall_mem_cons.mp inside
    have top : write.1 / 2 ^ depth = 0 := Nat.div_eq_of_lt low
    obtain ⟨climbed, ran, held⟩ := foldlM_climbLevel grown member agree depth le_rfl
    have settled : Agree (Joined touched depth depth) (tree (overlay leaf [write])) climbed := by
      intro level pos known
      rw [held level pos known, halfway, if_pos (known.elim (·.1) (·.1.le))]
    have old : scan.nodes (0, write.1) = some (leaf write.1) := by
      rw [agree 0 write.1 (.inl ⟨Nat.zero_le _, above_zero.mpr member⟩), grown.leaf_eq _ member]
    obtain ⟨nodes, rest⟩ := ih ⟨climbed, tree (overlay leaf [write]) depth 0,
      scan.out ++ [stepAt tree depth leaf write]⟩ nodup inside settled rfl
    rw [map_update_of_not_mem (fun old other => ((other.1, old), other.2)) absent] at rest
    refine ⟨nodes, foldlM_cons_eq_ok.mpr ⟨_, ?_, rest.trans (by simp [trace, overlay_cons])⟩⟩
    simp only [updateLeaf, bind_eq_ok, reject_eq_ok, pure_eq_ok, old, not_not]
    refine ⟨(), trivial, _, ran, ?_⟩
    simp [climbAt, stepAt, pathAt, root, top, grown.leaf_eq _ member, overlay_cons]

variable {newLeaves : List α}

/-- The expansion of checked inputs never fails. -/
theorem expandMultiproofSequentialUpdates_map [DecidableEq α] (node : α → α → α)
    (valid : ValidIndices indices depth) (leaf : Nat → α) (frontier : Nat → Nat → α)
    (length : newLeaves.length = indices.length) :
    expandMultiproofSequentialUpdates node indices (indices.map leaf) newLeaves
        (siblingsOf frontier (frontierFrom depth 0 indices)) depth =
      .ok (trace (stepAt (fun leaf => pruned node indices leaf frontier) depth) leaf
        (indices.zip newLeaves)) := by
  have keys : (indices.zip newLeaves).map Prod.fst = indices := List.map_fst_zip length.ge
  obtain ⟨nodes, built, agree⟩ := partialTree_agree node valid leaf frontier
  obtain ⟨first, some⟩ := List.exists_mem_of_ne_nil _ valid.nonempty
  have root := agree depth 0 (.inl ⟨le_rfl, first, some, Nat.div_eq_of_lt (valid.inside _ some)⟩)
  obtain ⟨final, ran⟩ := foldlM_updateLeaf (grown_pruned node frontier) ⟨nodes, _, []⟩
    (keys.symm ▸ valid.sorted.nodup) (fun write member =>
      have inside := (List.of_mem_zip member).1
      ⟨inside, valid.inside _ inside⟩) agree rfl
  have entries : (indices.zip (indices.map leaf)).zip newLeaves =
      (indices.zip newLeaves).map fun write => ((write.1, leaf write.1), write.2) := by
    rw [← List.map_prod_left_eq_zip, List.zip_map_left]
    rfl
  have simultaneous : reconstructRoot node indices newLeaves
      (siblingsOf frontier (frontierFrom depth 0 indices)) depth =
      .ok (pruned node indices (overlay leaf (indices.zip newLeaves)) frontier depth 0) :=
    reconstructRoot_eq_ok.mpr ⟨valid, _, _,
      (map_overlay_zip valid.sorted.nodup length leaf).symm, rfl, rfl⟩
  simp only [expandMultiproofSequentialUpdates, bind_eq_ok, reject_eq_ok, pure_eq_ok, okOr_eq_ok,
    frontierSiblingPositions_eq_ok, not_not]
  exact ⟨(), by simp, (), length.symm, _, ⟨valid, rfl⟩, (), by simp [siblingsOf], nodes, built, _,
    root, _, entries ▸ ran, _, simultaneous, (), rfl, by simp⟩

/-! ## Segmented updates -/

/-- A step folds its old and its new leaf over its own siblings and directions to its roots. -/
structure PathStep (node : α → α → α) (height : Nat) (step : SequentialMerkleUpdatePath α) :
    Prop where
  length_eq : step.siblings.length = height
  directions_eq : step.directions = directionsFrom step.index 0 height
  before : foldPath node step.oldLeaf step.siblings step.directions = step.rootBefore
  after : foldPath node step.newLeaf step.siblings step.directions = step.rootAfter

/-- Each step starts from the root the one before it leaves. -/
def Chained : List (SequentialMerkleUpdatePath α) → α → α → Prop
  | [], before, after => before = after
  | step :: steps, before, after => step.rootBefore = before ∧ Chained steps step.rootAfter after

/-- Local steps grouped by segment, with one step above each group: the local steps of a segment
connect its old root to its new one, and the segment steps connect the roots of the whole tree. -/
inductive SegmentChain (node : α → α → α) (localDepth upperDepth : Nat) :
    List (SequentialMerkleUpdatePath α) → List (SequentialMerkleUpdatePath α) → α → α → Prop
  | done (root : α) : SegmentChain node localDepth upperDepth [] [] root root
  | segment {run rest segments : List (SequentialMerkleUpdatePath α)}
      {upper : SequentialMerkleUpdatePath α} {after : α} (some : run ≠ [])
      (inside : ∀ step ∈ run, step.index / 2 ^ localDepth = upper.index)
      (steps : ∀ step ∈ run, PathStep node localDepth step)
      (chained : Chained run upper.oldLeaf upper.newLeaf) (step : PathStep node upperDepth upper)
      (later : SegmentChain node localDepth upperDepth rest segments upper.rootAfter after) :
      SegmentChain node localDepth upperDepth (run ++ rest) (upper :: segments) upper.rootBefore
        after

/-- The siblings of a path do not change with the leaves below it. -/
theorem Grown.siblingsFrom_congr (grown : Grown node touched tree) {old new : Nat → α}
    {start index : Nat} (count : Nat)
    (same : ∀ position ∈ touched, position / 2 ^ start ≠ index / 2 ^ start →
      new position = old position) :
    siblingsFrom (tree new) index start count = siblingsFrom (tree old) index start count := by
  refine List.map_congr_left fun level member => grown.congr _ _ _ _ fun position inside here => ?_
  refine same position inside fun together => ?_
  obtain ⟨gap, rfl⟩ : ∃ gap, level = start + gap :=
    ⟨level - start, by have := (List.mem_range'_1.mp member).1; omega⟩
  rw [Nat.pow_add, ← Nat.div_div_eq_div_mul, ← Nat.div_div_eq_div_mul, together] at here
  obtain ⟨_, own, mate⟩ | ⟨_, mate, own⟩ := pair_cases (index / 2 ^ start / 2 ^ gap) <;> omega

/-- Between two states that differ below the start of a path only, the path folds. -/
theorem Grown.pathStep (grown : Grown node touched tree) {old new : Nat → α} {start index : Nat}
    (inside : index ∈ touched) (count : Nat)
    (same : ∀ position ∈ touched, position / 2 ^ start ≠ index / 2 ^ start →
      new position = old position) :
    PathStep node count (pathAt tree start count old new index) where
  length_eq := length_siblingsFrom ..
  directions_eq := directionsFrom_shift ..
  before := (grown.along old).foldPath inside start count
  after := by
    have folded := (grown.along new).foldPath inside start count
    rwa [grown.siblingsFrom_congr count same] at folded

theorem Grown.pathStep_stepAt (grown : Grown node touched tree) (inside : write.1 ∈ touched)
    (height : Nat) (leaf : Nat → α) : PathStep node height (stepAt tree height leaf write) :=
  grown.pathStep inside height fun _ _ apart => overlay_of_not_mem fun named =>
    apart (by rw [List.mem_singleton.mp named])

/-- A step is cut at a lower height. -/
theorem Grown.localUpdate_stepAt (grown : Grown node touched tree) (inside : write.1 ∈ touched)
    (height rest : Nat) (leaf : Nat → α) :
    localUpdate node height (stepAt tree (height + rest) leaf write) =
      .ok (stepAt tree height leaf write) := by
  obtain ⟨-, -, before, after⟩ := grown.pathStep_stepAt inside height leaf
  have siblings : sliceTo height (stepAt tree (height + rest) leaf write).siblings =
      .ok (stepAt tree height leaf write).siblings := by
    simp [sliceTo, stepAt, pathAt, siblingsFrom_add]
  have directions : sliceTo height (stepAt tree (height + rest) leaf write).directions =
      .ok (stepAt tree height leaf write).directions := by
    simp [sliceTo, stepAt, pathAt, directionsFrom_add]
  simp only [localUpdate, foldDirectedPath, bind_eq_ok, reject_eq_ok, pure_eq_ok, not_not]
  exact ⟨_, siblings, _, directions, _, ⟨(), by simp [stepAt, pathAt], before⟩, _,
    ⟨(), by simp [stepAt, pathAt], after⟩, rfl⟩

theorem Grown.mapM_localUpdate (grown : Grown node touched tree)
    (inside : ∀ write ∈ writes, write.1 ∈ touched) (height rest : Nat) (leaf : Nat → α) :
    (trace (stepAt tree (height + rest)) leaf writes).mapM (localUpdate node height) =
      .ok (trace (stepAt tree height) leaf writes) := by
  induction writes generalizing leaf with
  | nil => rfl
  | cons write writes ih =>
    obtain ⟨here, inside⟩ := List.forall_mem_cons.mp inside
    simp only [trace, List.mapM_cons, bind_eq_ok, pure_eq_ok, List.cons.injEq]
    exact ⟨_, grown.localUpdate_stepAt here height rest leaf, _, ih inside _, rfl, rfl⟩

/-- The local steps of one segment connect. -/
theorem chained_trace {segment : Nat} (inside : ∀ write ∈ writes, write.1 / 2 ^ height = segment)
    (leaf : Nat → α) :
    Chained (trace (stepAt tree height) leaf writes) (tree leaf height segment)
      (tree (overlay leaf writes) height segment) := by
  induction writes generalizing leaf with
  | nil => rfl
  | cons write writes ih =>
    obtain ⟨here, inside⟩ := List.forall_mem_cons.mp inside
    refine ⟨by simp [stepAt, pathAt, here], ?_⟩
    simpa [stepAt, pathAt, here, overlay_cons] using ih inside (overlay leaf [write])

variable {steps : List (SequentialMerkleUpdatePath α)}

theorem checkChain_of_chained [DecidableEq α] :
    ∀ {before after : α}, Chained steps before after → checkChain steps = .ok () := by
  induction steps with
  | nil => exact fun _ => rfl
  | cons first steps ih =>
    intro before after chained
    cases steps with
    | nil => rfl
    | cons second steps =>
      have rest := ih chained.2
      simp only [checkChain, forM_eq_ok, List.drop_succ_cons, List.drop_zero, List.zip_cons_cons,
        List.mem_cons, forall_eq_or_imp] at rest ⊢
      exact ⟨by simp [reject, chained.2.1], rest⟩

theorem segmentOf_eq {localDepth index : Nat} (low : index < 2 ^ 32) :
    segmentOf localDepth index = index / 2 ^ localDepth := by
  unfold segmentOf
  split
  case isTrue whole => rw [whole, Nat.div_eq_of_lt low]
  case isFalse => rfl

theorem segmentOf_mono (localDepth : Nat) {first second : Nat} (le : first ≤ second) :
    segmentOf localDepth first ≤ segmentOf localDepth second := by
  unfold segmentOf
  split
  · exact le_rfl
  · exact Nat.div_le_div_right le

variable {localDepth upperDepth : Nat}

/-- A full step with its local part. -/
def pairAt (tree : (Nat → α) → Nat → Nat → α) (localDepth upperDepth : Nat) (leaf : Nat → α)
    (write : Nat × α) : SequentialMerkleUpdatePath α × SequentialMerkleUpdatePath α :=
  (stepAt tree (localDepth + upperDepth) leaf write, stepAt tree localDepth leaf write)

/-- One upper step replaces all local steps of a segment: above it nothing else has changed. -/
theorem Grown.pathStep_upper (grown : Grown node touched tree) (member : write.1 ∈ touched)
    (inside : ∀ other ∈ writes, other.1 / 2 ^ localDepth = write.1 / 2 ^ localDepth)
    (upperDepth : Nat) (leaf : Nat → α) :
    PathStep node upperDepth
      (pathAt tree localDepth upperDepth leaf (overlay leaf writes) write.1) :=
  grown.pathStep member upperDepth fun position _ apart => overlay_of_not_mem fun named => by
    obtain ⟨other, written, rfl⟩ := List.mem_map.mp named
    exact apart (inside other written)

/-- The update of one segment from its run. -/
theorem Grown.segmentUpdate_run [DecidableEq α] (grown : Grown node touched tree)
    (shallow : localDepth + upperDepth ≤ 32)
    (touches : ∀ other ∈ write :: writes, other.1 ∈ touched ∧
      other.1 < 2 ^ (localDepth + upperDepth))
    (inside : ∀ other ∈ write :: writes, other.1 / 2 ^ localDepth = write.1 / 2 ^ localDepth)
    (leaf : Nat → α) :
    segmentUpdate node localDepth upperDepth
        (trace (pairAt tree localDepth upperDepth) leaf (write :: writes)) =
      .ok (pathAt tree localDepth upperDepth leaf (overlay leaf (write :: writes)) write.1) := by
  obtain ⟨member, low⟩ := touches write (by simp)
  obtain ⟨-, -, before, after⟩ := grown.pathStep_upper member inside upperDepth leaf
  obtain ⟨previous, last, written, done, found⟩ :=
    getLast?_trace (f := pairAt tree localDepth upperDepth) (List.cons_ne_nil write writes) leaf
  have lastTop := Nat.div_eq_of_lt (touches last written).2
  have firstTop := Nat.div_eq_of_lt low
  have word : write.1 < 2 ^ 32 := low.trans_le (Nat.pow_le_pow_right (by omega) shallow)
  have siblings : sliceFrom localDepth
        (stepAt tree (localDepth + upperDepth) leaf write).siblings =
      .ok (siblingsFrom (tree leaf) write.1 localDepth upperDepth) := by
    simp [sliceFrom, stepAt, pathAt, siblingsFrom_add]
  have directions : sliceFrom localDepth
        (stepAt tree (localDepth + upperDepth) leaf write).directions =
      .ok (directionsFrom write.1 localDepth upperDepth) := by
    simp [sliceFrom, stepAt, pathAt, directionsFrom_add]
  simp only [segmentUpdate, foldDirectedPath, bind_eq_ok, reject_eq_ok, pure_eq_ok, okOr_eq_ok,
    not_not]
  refine ⟨(), by rw [map_trace]; exact checkChain_of_chained (chained_trace inside leaf),
    (_, _), rfl, (_, _), found, _, siblings, _, directions, (), by simp, _, ⟨(), by simp, rfl⟩, (), ?_,
    _, ⟨(), by simp, rfl⟩, (), ?_, ?_⟩
  · simpa [stepAt, pathAt, firstTop] using before
  · simpa [stepAt, pathAt, done, lastTop, firstTop, inside last written] using after
  · simp [stepAt, pathAt, done, lastTop, firstTop, inside last written, segmentOf_eq word]

/-- The writes of a run of neighbours in one segment. -/
theorem run_segment (word : ∀ other ∈ write :: writes, other.1 < 2 ^ 32)
    (together : (trace (pairAt tree localDepth upperDepth) leaf (write :: writes)).IsChain
      fun pair next => segmentOf localDepth pair.1.index == segmentOf localDepth next.1.index) :
    ∀ other ∈ write :: writes, other.1 / 2 ^ localDepth = write.1 / 2 ^ localDepth := by
  have equal : ((write :: writes).map fun other => segmentOf localDepth other.1).IsChain (· = ·) := by
    have keys : (trace (pairAt tree localDepth upperDepth) leaf (write :: writes)).map
        (fun pair => segmentOf localDepth pair.1.index) = _ :=
      (map_trace ..).trans (trace_eq_map (fun other => segmentOf localDepth (other.1 / 2 ^ 0)) ..)
    simp only [Nat.pow_zero, Nat.div_one] at keys
    rw [← keys, List.isChain_map]
    exact together.imp fun _ _ same => by simpa using same
  intro other member
  rcases List.mem_cons.mp member with rfl | later
  · rfl
  · have same : segmentOf localDepth write.1 = segmentOf localDepth other.1 :=
      (List.pairwise_cons.mp equal.pairwise).1 _ (List.mem_map_of_mem later)
    rw [segmentOf_eq (word write (by simp)), segmentOf_eq (word other member)] at same
    exact same.symm

/-- The steps of distinct touched writes, field by field. -/
theorem Grown.map_trace_stepAt (grown : Grown node touched tree) (height : Nat)
    (inside : ∀ write ∈ writes, write.1 ∈ touched) (nodup : (writes.map Prod.fst).Nodup)
    (leaf : Nat → α) :
    (trace (stepAt tree height) leaf writes).map (·.index) = writes.map Prod.fst ∧
      (trace (stepAt tree height) leaf writes).map (·.oldLeaf) = (writes.map Prod.fst).map leaf ∧
      (trace (stepAt tree height) leaf writes).map (·.newLeaf) = writes.map Prod.snd := by
  induction writes generalizing leaf with
  | nil => exact ⟨rfl, rfl, rfl⟩
  | cons write writes ih =>
    obtain ⟨here, inside⟩ := List.forall_mem_cons.mp inside
    obtain ⟨absent, nodup⟩ := List.nodup_cons.mp nodup
    obtain ⟨indices, olds, news⟩ := ih inside nodup (overlay leaf [write])
    rw [List.map_map] at olds
    have same := map_update_of_not_mem (fun old _ => old) absent leaf
    simp only [trace, List.map_cons, indices, news, List.map_map, olds.trans same]
    simp [stepAt, pathAt, grown.leaf_eq _ here, overlay_cons]

variable {runs : List (List (SequentialMerkleUpdatePath α × SequentialMerkleUpdatePath α))}

/-- The runs of the steps, one update for each. -/
theorem Grown.mapM_segmentUpdate [DecidableEq α] (grown : Grown node touched tree)
    (shallow : localDepth + upperDepth ≤ 32)
    (whole : runs.flatten = trace (pairAt tree localDepth upperDepth) leaf writes)
    (proper : ∀ run ∈ runs, run ≠ [] ∧ run.IsChain fun pair next =>
      segmentOf localDepth pair.1.index == segmentOf localDepth next.1.index)
    (touches : ∀ write ∈ writes, write.1 ∈ touched ∧ write.1 < 2 ^ (localDepth + upperDepth)) :
    ∃ segments, runs.mapM (segmentUpdate node localDepth upperDepth) = .ok segments ∧
      SegmentChain node localDepth upperDepth (trace (stepAt tree localDepth) leaf writes) segments
        (tree leaf (localDepth + upperDepth) 0)
        (tree (overlay leaf writes) (localDepth + upperDepth) 0) ∧
      List.Forall₂ (fun run upper => ∀ pair ∈ run,
        segmentOf localDepth pair.1.index = upper.index) runs segments := by
  induction runs generalizing writes leaf with
  | nil =>
    obtain rfl : writes = [] := by simpa [eq_comm] using congrArg List.length whole
    exact ⟨[], rfl, .done _, .nil⟩
  | cons run runs ih =>
    obtain ⟨⟨some, together⟩, others⟩ := List.forall_mem_cons.mp proper
    have fits : run.length ≤ writes.length := by
      have := congrArg List.length whole
      simp at this
      omega
    obtain ⟨front, back, rfl, length⟩ : ∃ front back, writes = front ++ back ∧
        run.length = front.length :=
      ⟨writes.take run.length, writes.drop run.length, (List.take_append_drop _ _).symm, by simp [fits]⟩
    rw [trace_append, List.flatten_cons] at whole
    obtain ⟨rfl, rest⟩ := List.append_inj whole (by simp [length])
    obtain ⟨here, there⟩ := List.forall_mem_append.mp touches
    cases front with
    | nil => exact absurd rfl some
    | cons write front =>
      have word (other : Nat × α) (member : other ∈ write :: front) : other.1 < 2 ^ 32 :=
        (here other member).2.trans_le (Nat.pow_le_pow_right (by omega) shallow)
      have inside := run_segment word together
      obtain ⟨segments, ran, chain, keys⟩ := ih rest others there
      obtain ⟨member, low⟩ := here write (by simp)
      refine ⟨pathAt tree localDepth upperDepth leaf (overlay leaf (write :: front)) write.1 ::
        segments, ?_, ?_, .cons (fun pair found => ?_) keys⟩
      · simp only [List.mapM_cons, bind_eq_ok, pure_eq_ok]
        exact ⟨_, grown.segmentUpdate_run shallow here inside leaf, _, ran, rfl⟩
      · have top := Nat.div_eq_of_lt low
        rw [trace_append, overlay_append, ← top]
        rw [← top] at chain
        refine SegmentChain.segment (by simp [trace]) (fun step found => ?_) (fun step found => ?_)
          (chained_trace inside leaf) (grown.pathStep_upper member inside upperDepth leaf) chain
        · obtain ⟨earlier, other, written, rfl⟩ := mem_trace found
          simpa [stepAt, pathAt] using inside other written
        · obtain ⟨earlier, other, written, rfl⟩ := mem_trace found
          exact grown.pathStep_stepAt (here other written).1 _ _
      · obtain ⟨earlier, other, written, rfl⟩ := mem_trace found
        simpa [pairAt, stepAt, pathAt, segmentOf_eq (word other written)] using inside other written

variable {segments : List (SequentialMerkleUpdatePath α)}

/-- Ascending steps give ascending segments. -/
theorem segments_ascend {key : SequentialMerkleUpdatePath α × SequentialMerkleUpdatePath α → Nat}
    (keys : List.Forall₂ (fun run upper => ∀ pair ∈ run, key pair = upper.index) runs segments)
    (apart : runs.IsChain fun run next =>
      ∃ some other, (key (run.getLast some) == key (next.head other)) = false)
    (sorted : runs.flatten.Pairwise fun pair next => key pair ≤ key next) :
    (segments.map (·.index)).IsChain (· < ·) := by
  induction keys with
  | nil => exact .nil
  | @cons run upper runs segments here rest ih =>
    cases rest with
    | nil => exact .singleton _
    | @cons next second runs segments there rest =>
      obtain ⟨⟨some, other, differ⟩, apart⟩ := List.isChain_cons_cons.mp apart
      rw [List.flatten_cons, List.pairwise_append] at sorted
      obtain ⟨-, later, across⟩ := sorted
      have le := across _ (List.getLast_mem some) (next.head other) (by
        rw [List.flatten_cons]
        exact List.mem_append_left _ (List.head_mem other))
      have ne : key (run.getLast some) ≠ key (next.head other) := by simpa using differ
      rw [here _ (List.getLast_mem some), there _ (List.head_mem other)] at le ne
      exact .cons_cons (lt_of_le_of_ne le ne) (ih apart later)

variable {locals : List (SequentialMerkleUpdatePath α)}

theorem SegmentChain.chained {before after : α}
    (chain : SegmentChain node localDepth upperDepth locals segments before after) :
    Chained segments before after := by
  induction chain with
  | done => rfl
  | segment _ _ _ _ _ _ ih => exact ⟨rfl, ih⟩

/-- The segmented expansion of checked inputs. -/
theorem expandMultiproofSegmentedUpdates_map [DecidableEq α] (node : α → α → α)
    (valid : ValidIndices indices depth) (leaf : Nat → α) (frontier : Nat → Nat → α)
    (length : newLeaves.length = indices.length) (logSegmentSize : Nat) :
    let tree leaf := pruned node indices leaf frontier
    let locals := trace (stepAt tree (min depth logSegmentSize)) leaf (indices.zip newLeaves)
    ∃ segments, expandMultiproofSegmentedUpdates node indices (indices.map leaf) newLeaves
        (siblingsOf frontier (frontierFrom depth 0 indices)) depth logSegmentSize =
        .ok ⟨min depth logSegmentSize, depth - min depth logSegmentSize, locals, segments⟩ ∧
      SegmentChain node (min depth logSegmentSize) (depth - min depth logSegmentSize) locals segments
        (tree leaf depth 0) (tree (overlay leaf (indices.zip newLeaves)) depth 0) ∧
      (segments.map (·.index)).Pairwise (· < ·) := by
  intro tree
  have grown : Grown node indices tree := grown_pruned node frontier
  have low : min depth logSegmentSize ≤ depth := Nat.min_le_left _ _
  simp only [expandMultiproofSegmentedUpdates]
  generalize min depth logSegmentSize = localDepth at low ⊢
  obtain ⟨upperDepth, rfl⟩ : ∃ upperDepth, depth = localDepth + upperDepth :=
    ⟨depth - localDepth, by omega⟩
  rw [Nat.add_sub_cancel_left]
  set writes := indices.zip newLeaves with writes_eq
  have keys : writes.map Prod.fst = indices := List.map_fst_zip (by omega)
  have touches : ∀ write ∈ writes,
      write.1 ∈ indices ∧ write.1 < 2 ^ (localDepth + upperDepth) := fun write member =>
    have inside := (List.of_mem_zip member).1
    ⟨inside, valid.inside _ inside⟩
  have full := expandMultiproofSequentialUpdates_map node valid leaf frontier length
  have locals := grown.mapM_localUpdate (fun write member => (touches write member).1) localDepth
    upperDepth leaf
  let together (pair next : SequentialMerkleUpdatePath α × SequentialMerkleUpdatePath α) : Bool :=
    segmentOf localDepth pair.1.index == segmentOf localDepth next.1.index
  have runs := List.flatten_splitBy together (trace (pairAt tree localDepth upperDepth) leaf writes)
  have sorted : (trace (pairAt tree localDepth upperDepth) leaf writes).Pairwise fun pair next =>
      segmentOf localDepth pair.1.index ≤ segmentOf localDepth next.1.index := by
    have order : ((trace (pairAt tree localDepth upperDepth) leaf writes).map (·.1.index)).Pairwise
        (· < ·) := by
      rw [map_trace]
      simpa [pairAt, stepAt, pathAt, trace_eq_map, keys] using valid.sorted
    exact (List.pairwise_map.mp order).imp fun less => segmentOf_mono localDepth less.le
  obtain ⟨segments, ran, chain, groups⟩ := grown.mapM_segmentUpdate valid.depth_le runs
    (fun run member => ⟨List.ne_nil_of_mem_splitBy member, List.isChain_of_mem_splitBy member⟩)
    touches
  have ascending := segments_ascend groups (List.isChain_getLast_head_splitBy together _)
    (by rwa [runs])
  refine ⟨segments, ?_, chain, ascending.pairwise⟩
  simp only [bind_eq_ok, pure_eq_ok]
  exact ⟨_, full, _, locals, _, by rw [zip_trace]; exact ran, (),
    checkChain_of_chained chain.chained, rfl⟩

/-! ## Binding -/

/-- Connected steps below one node of a tree end at the node of the overwritten tree. -/
theorem Chained.binds (binding : Binding node) {segment : Nat} :
    ∀ {tree : Nat → α} {after : α}, (∀ step ∈ steps, step.index / 2 ^ height = segment) →
      (∀ step ∈ steps, PathStep node height step) →
      Chained steps (subRoot node tree height segment) after →
      after = subRoot node (overlay tree (steps.map fun step => (step.index, step.newLeaf)))
        height segment := by
  induction steps with
  | nil => exact fun _ _ chained => chained.symm
  | cons step steps ih =>
    intro tree after inside folds chained
    have here := inside step (by simp)
    obtain ⟨length, directions, before, moved⟩ := folds step (by simp)
    rw [directions] at before moved
    rw [chained.1, ← here] at before
    have updated := (foldPath_binds binding length before).2 step.newLeaf
    rw [moved, here] at updated
    have rest := chained.2
    rw [updated] at rest
    exact ih (fun other member => inside other (by simp [member]))
      (fun other member => folds other (by simp [member])) rest

/-- Writes inside one segment leave the other segment roots alone. -/
theorem subRoot_overlay_of_ne {tree : Nat → α} {segment : Nat}
    (inside : ∀ write ∈ writes, write.1 / 2 ^ height = segment) {other : Nat}
    (apart : other ≠ segment) :
    subRoot node (overlay tree writes) height other = subRoot node tree height other := by
  refine subRoot_congr height other fun index low high => overlay_of_not_mem fun named => apart ?_
  obtain ⟨write, member, rfl⟩ := List.mem_map.mp named
  rw [← inside write member]
  exact (Nat.div_eq_of_lt_le low high).symm

/-- A segment chain that starts at the root of a tree ends at the root of the overwritten tree. -/
theorem SegmentChain.binds (binding : Binding node) {before after : α}
    (chain : SegmentChain node localDepth upperDepth locals segments before after)
    (low : ∀ step ∈ locals, step.index < 2 ^ (upperDepth + localDepth)) {tree : Nat → α}
    (start : before = subRoot node tree (upperDepth + localDepth) 0) :
    after = subRoot node (overlay tree (locals.map fun step => (step.index, step.newLeaf)))
      (upperDepth + localDepth) 0 := by
  induction chain generalizing tree with
  | done root => exact start
  | @segment run rest segments upper after some inside steps chained step later ih =>
    obtain ⟨first, member⟩ := List.exists_mem_of_ne_nil _ some
    have top : upper.index / 2 ^ upperDepth = 0 := by
      rw [← inside first member, Nat.div_div_eq_div_mul, ← Nat.pow_add, Nat.add_comm localDepth]
      exact Nat.div_eq_of_lt (low first (List.mem_append_left _ member))
    obtain ⟨length, directions, folded, moved⟩ := step
    rw [directions] at folded moved
    have path : foldPath node upper.oldLeaf upper.siblings (directionsFrom upper.index 0 upperDepth) =
        subRoot node (subRoot node tree localDepth) upperDepth (upper.index / 2 ^ upperDepth) := by
      rw [folded, start, ← subRoot_split, top]
    obtain ⟨old, fold⟩ := foldPath_binds binding length path
    rw [old] at chained
    have new := Chained.binds binding inside steps chained
    have updated := fold upper.newLeaf
    rw [moved, top] at updated
    -- the segment root is replaced by that of the overwritten segment and no other root moves
    have roots : Function.update (subRoot node tree localDepth) upper.index upper.newLeaf =
        subRoot node (overlay tree (run.map fun step => (step.index, step.newLeaf))) localDepth := by
      funext other
      by_cases here : other = upper.index
      · rw [here, Function.update_self, new]
      · rw [Function.update_of_ne here]
        refine (subRoot_overlay_of_ne (fun write written => ?_) here).symm
        obtain ⟨step, found, rfl⟩ := List.mem_map.mp written
        exact inside step found
    rw [roots, subRoot_split] at updated
    rw [List.map_append, overlay_append]
    exact ih (fun step found => low step (List.mem_append_right _ found)) updated

/-- Inputs that fit together: what the expansion accepts. -/
structure Fitting (indices : List Nat) (oldLeaves newLeaves siblings : List α) (depth : Nat) :
    Prop where
  valid : ValidIndices indices depth
  old : indices.length = oldLeaves.length
  new : newLeaves.length = indices.length
  frontier : (frontierFrom depth 0 indices).length = siblings.length

/-- Whatever gets past the checks of the inputs fits. -/
theorem Fitting.of_ok [DecidableEq α] {oldLeaves siblings : List α}
    (ok : expandMultiproofSequentialUpdates node indices oldLeaves newLeaves siblings depth =
      .ok steps) : Fitting indices oldLeaves newLeaves siblings depth := by
  simp only [expandMultiproofSequentialUpdates, bind_eq_ok, reject_eq_ok, not_not,
    frontierSiblingPositions_eq_ok] at ok
  obtain ⟨-, old, -, new, _, ⟨valid, rfl⟩, -, frontier, -⟩ := ok
  exact ⟨valid, old, new.symm, frontier.symm⟩

theorem Fitting.of_panic [DecidableEq α] {oldLeaves siblings : List α}
    (panic : expandMultiproofSequentialUpdates node indices oldLeaves newLeaves siblings depth =
      .error .panic) : Fitting indices oldLeaves newLeaves siblings depth := by
  simp only [expandMultiproofSequentialUpdates, frontierSiblingPositions, frontierLoop_eq,
    bind_eq_error, bind_eq_ok, reject_eq_error, reject_eq_ok, mapError_eq_error, mapError_ok_iff,
    validateIndices_eq_ok, reduceCtorEq, and_false, exists_false, false_or, not_not,
    Except.ok.injEq] at panic
  obtain ⟨-, old, -, new, _, ⟨-, valid, rfl⟩, -, frontier, -⟩ := panic
  exact ⟨valid, old, new.symm, frontier.symm⟩

/-- The expansion never panics. What it returns for an accepted input are local steps, one for each
touched index, and segment steps in ascending order, one for each segment that has a touched index:
every step folds its leaves over its own path to its roots, the local steps of a segment connect its
old root to its new one, and the segment steps connect the root reconstructed from the old leaves to
the one reconstructed from the new leaves. Conversely, when the node hash is injective, a chain of
such steps between the roots of two trees overwrites the first at the touched indices and nowhere
else. -/
theorem segmented_updates_faithful :
    (∀ (α : Type) (_ : DecidableEq α) (node : α → α → α) (indices : List Nat)
      (oldLeaves newLeaves siblings : List α) (depth logSegmentSize : Nat),
      expandMultiproofSegmentedUpdates node indices oldLeaves newLeaves siblings depth
        logSegmentSize ≠ .error .panic ∧
      ∀ updates, expandMultiproofSegmentedUpdates node indices oldLeaves newLeaves siblings depth
          logSegmentSize = .ok updates →
        ∃ before after, reconstructRoot node indices oldLeaves siblings depth = .ok before ∧
          reconstructRoot node indices newLeaves siblings depth = .ok after ∧
          updates.localDepth = min depth logSegmentSize ∧
          updates.upperDepth = depth - updates.localDepth ∧
          SegmentChain node updates.localDepth updates.upperDepth updates.localUpdates
            updates.segmentUpdates before after ∧
          updates.localUpdates.map (·.index) = indices ∧
          updates.localUpdates.map (·.oldLeaf) = oldLeaves ∧
          updates.localUpdates.map (·.newLeaf) = newLeaves ∧
          (updates.segmentUpdates.map (·.index)).Pairwise (· < ·)) ∧
    (∀ (α : Type) (node : α → α → α), Binding node →
      ∀ (tree other : Nat → α) (localDepth upperDepth : Nat)
        (localUpdates segmentUpdates : List (SequentialMerkleUpdatePath α)),
        (∀ step ∈ localUpdates, step.index < 2 ^ (upperDepth + localDepth)) →
        SegmentChain node localDepth upperDepth localUpdates segmentUpdates
          (subRoot node tree (upperDepth + localDepth) 0)
          (subRoot node other (upperDepth + localDepth) 0) →
        ∀ index < 2 ^ (upperDepth + localDepth), other index =
          overlay tree (localUpdates.map fun step => (step.index, step.newLeaf)) index) := by
  refine ⟨?_, ?_⟩
  · intro α _ node indices oldLeaves newLeaves siblings depth logSegmentSize
    by_cases fit : Fitting indices oldLeaves newLeaves siblings depth
    · obtain ⟨leaf, frontier, rfl, rfl⟩ := fit.valid.exists_tree fit.old fit.frontier
      have nodup : indices.Nodup := fit.valid.sorted.nodup
      obtain ⟨segments, ran, chain, ascending⟩ :=
        expandMultiproofSegmentedUpdates_map node fit.valid leaf frontier fit.new logSegmentSize
      rw [ran]
      refine ⟨by simp, fun updates ok => ?_⟩
      obtain rfl := Except.ok.inj ok
      have keys : (indices.zip newLeaves).map Prod.fst = indices :=
        List.map_fst_zip fit.new.symm.le
      obtain ⟨index, old, new⟩ := (grown_pruned node frontier).map_trace_stepAt
        (min depth logSegmentSize) (fun write member => (List.of_mem_zip member).1)
        (keys.symm ▸ nodup) leaf
      rw [keys] at index old
      rw [List.map_snd_zip fit.new.le] at new
      exact ⟨_, _, reconstructRoot_eq_ok.mpr ⟨fit.valid, leaf, frontier, rfl, rfl, rfl⟩,
        reconstructRoot_eq_ok.mpr ⟨fit.valid, _, frontier,
          (map_overlay_zip nodup fit.new leaf).symm, rfl, rfl⟩,
        rfl, rfl, chain, index, old, new, ascending⟩
    · refine ⟨fun panic => ?_, fun updates ok => ?_⟩
      · rcases bind_eq_error.mp panic with panic | ⟨full, ok, -⟩
        · exact fit (.of_panic panic)
        · exact fit (.of_ok ok)
      · obtain ⟨full, ok, -⟩ := bind_eq_ok.mp ok
        exact absurd (.of_ok ok) fit
  · intro α node binding tree other localDepth upperDepth locals segments low chain index inside
    exact leaf_eq_of_subRoot binding (chain.binds binding low rfl) index (Nat.div_eq_of_lt inside)

/-- Two leaves of different segments in a tree of four paired numbers. -/
theorem segmented_updates_of_two_segments : ∃ updates,
    expandMultiproofSegmentedUpdates Nat.pair [0, 2] [0, 2] [5, 6] [1, 3] 2 1 = .ok updates ∧
      updates.segmentUpdates.map (·.index) = [0, 1] ∧
      ∀ other : Nat → Nat, subRoot Nat.pair other 2 0 = Nat.pair (Nat.pair 5 1) (Nat.pair 6 3) →
        ∀ index < 4, other index =
          overlay id (updates.localUpdates.map fun step => (step.index, step.newLeaf)) index := by
  have ran : (expandMultiproofSegmentedUpdates Nat.pair [0, 2] [0, 2] [5, 6] [1, 3] 2 1).toOption.any
      (fun updates => decide (updates.segmentUpdates.map (·.index) = [0, 1])) = true := by
    decide +kernel
  simp only [Option.any_eq_true, decide_eq_true_eq, toOption_eq_some] at ran
  obtain ⟨updates, ok, segments⟩ := ran
  refine ⟨updates, ok, segments, fun other root index inside => ?_⟩
  obtain ⟨before, after, old, new, lower, upper, chain, indices, -⟩ :=
    (segmented_updates_faithful.1 Nat inferInstance Nat.pair [0, 2] [0, 2] [5, 6] [1, 3] 2 1).2
      updates ok
  obtain rfl : Nat.pair (Nat.pair 0 1) (Nat.pair 2 3) = before := Except.ok.inj old
  obtain rfl : Nat.pair (Nat.pair 5 1) (Nat.pair 6 3) = after := Except.ok.inj new
  rw [← root, upper, lower] at chain
  refine segmented_updates_faithful.2 Nat Nat.pair (fun _ _ _ _ same => Nat.pair_eq_pair.mp same) id
    other 1 1 updates.localUpdates updates.segmentUpdates (fun step member => ?_) chain index inside
  have named := List.mem_map_of_mem (f := (·.index)) member
  rw [indices] at named
  rcases List.mem_pair.mp named with same | same <;> rw [same] <;> decide

end ParanoidChain
