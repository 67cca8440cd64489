import ParanoidChain.Laws.Chain.ExactRoots

/-!
# Soundness of the chain state

`Sound hasher chain slots` is the invariant of the whole root hierarchy: the store represents the
slot vector, the compact cache is well formed and at least as deep as the store, and each segment
root that is not marked dirty is the root of its segment. Every operation keeps it, and under it
`try_state_root` returns the plain root of the vector.
-/

namespace ParanoidChain

open Lib Lib.Merkle

namespace ChainState

/-- The root hierarchy is sound for the slot vector. -/
structure Sound (hasher : StateHasher) (chain : ChainState) (slots : Nat → SlotValue) : Prop where
  rep : chain.state.Represents hasher slots
  roots : chain.exactRoots.WellFormed hasher
  depth_le : chain.state.logSlots ≤ chain.exactRoots.logSlots
  dirty_lt : ∀ id ∈ chain.state.exactDirty, id < chain.state.numSegments
  fresh : ∀ id < chain.state.numSegments, id ∉ chain.state.exactDirty →
    chain.exactRoots.effectiveLogSeg = chain.state.effectiveLogSeg ∧
      chain.exactRoots.leaf id = subtreeRoot hasher slots chain.state.effectiveLogSeg id

variable {hasher : StateHasher} {chain : ChainState} {slots : Nat → SlotValue}

/-- Caches and stores of one depth have the same segments. -/
theorem segments_eq (rep : chain.state.Represents hasher slots)
    {roots : ExactSegmentRootCache} (wf : roots.WellFormed hasher)
    (depth : roots.logSlots = chain.state.logSlots) :
    roots.effectiveLogSeg = chain.state.effectiveLogSeg ∧
      roots.segmentRoots.length = chain.state.numSegments := by
  have log : roots.effectiveLogSeg = chain.state.effectiveLogSeg := by
    rw [wf.segmentLog_eq, rep.segmentLog_eq, depth]
  exact ⟨log, by rw [wf.length_eq, rep.numSegments_eq, log, depth]⟩

theorem withLogSlots_sound {logSlots : Nat} (built : withLogSlots hasher logSlots = some chain) :
    Sound hasher chain (fun _ => .empty) ∧ chain.state.logSlots = logSlots ∧
      chain.exactRoots.logSlots = logSlots ∧ chain.state.evicted = [] ∧
      chain.state.exactDirty = [] := by
  simp only [withLogSlots, bind_eq_some, pure_eq_some] at built
  obtain ⟨state, new, rfl⟩ := built
  obtain ⟨rep, log, evicted, dirty⟩ := SegmentedFriState.newEmpty_represents hasher new
  have wf := ExactSegmentRootCache.empty_wellFormed hasher logSlots
  refine ⟨⟨rep, wf, log.le, by simp [dirty], fun id inside _ => ⟨?_, ?_⟩⟩, log, rfl, evicted, dirty⟩
  · exact wf.segmentLog_eq.trans (log ▸ rep.segmentLog_eq).symm
  · have inside : id < 2 ^ (logSlots - min logSlots logSegmentSize) := by
      rw [rep.numSegments_eq, rep.segmentLog_eq, log] at inside
      exact inside
    rw [ExactSegmentRootCache.leaf_empty inside, zeroSlotRoot_eq, subtreeRoot_of_empty
      (fun _ _ _ => rfl), rep.segmentLog_eq, log]

/-- Soundness speaks of the store and the root cache only. -/
theorem Sound.transfer {after : ChainState} (sound : Sound hasher chain slots)
    (store : after.state = chain.state) (roots : after.exactRoots = chain.exactRoots) :
    Sound hasher after slots :=
  ⟨store ▸ sound.rep, roots ▸ sound.roots, store ▸ roots ▸ sound.depth_le, store ▸ sound.dirty_lt,
    store ▸ roots ▸ sound.fresh⟩

/-! ## The root -/

/-- Bringing the cache to the store's depth keeps the roots of the store's segments, unless a single
segment is cut. -/
theorem resizeExactRoots_spec (rep : chain.state.Represents hasher slots)
    (wf : chain.exactRoots.WellFormed hasher)
    (depth_le : chain.state.logSlots ≤ chain.exactRoots.logSlots) :
    ∃ roots, chain.resizeExactRoots hasher = { chain with exactRoots := roots } ∧
      roots.WellFormed hasher ∧ roots.logSlots = chain.state.logSlots ∧
      (logSegmentSize ≤ chain.state.logSlots ∨
          chain.exactRoots.logSlots = chain.state.logSlots →
        ∀ id < chain.state.numSegments, roots.leaf id = chain.exactRoots.leaf id) := by
  have noGrowth : chain.exactRoots.expandTo hasher chain.state.logSlots = chain.exactRoots := by
    rw [ExactSegmentRootCache.expandTo, Nat.sub_eq_zero_of_le depth_le]
    rfl
  refine ⟨_, rfl, ?_⟩
  rw [noGrowth]
  split
  case isFalse equal => exact ⟨wf, by omega, fun _ _ _ => rfl⟩
  case isTrue deeper =>
    obtain ⟨wf', depth, kept⟩ := wf.shrinkLoop chain.exactRoots.logSlots rep.depth_pos deeper.le
      (by omega)
    have size := (segments_eq rep wf' depth).2
    refine ⟨wf', depth, fun deep id inside => (kept ?_).2 id (size ▸ inside)⟩
    exact deep.resolve_right (by omega)

/-- What the refresh of some pending segments leaves behind: when it succeeds their roots are those of
their slots, and it succeeds when none of them is evicted. -/
structure Refreshed (hasher : StateHasher) (slots : Nat → SlotValue) (pending : List Nat)
    (before after : ChainState) (result : Except ExactStateReadError Unit) : Prop where
  rep : after.state.Represents hasher slots
  roots : after.exactRoots.WellFormed hasher
  logSlots_eq : after.state.logSlots = before.state.logSlots
  evicted_eq : after.state.evicted = before.state.evicted
  exactDirty_eq : after.state.exactDirty = before.state.exactDirty
  depth_eq : after.exactRoots.logSlots = before.exactRoots.logSlots
  active_eq : after.activeSlotCount = before.activeSlotCount
  alloc_eq : after.allocCounter = before.allocCounter
  supply_eq : after.circulatingSupplyMicronoid = before.circulatingSupplyMicronoid
  others : ∀ id, id ∉ pending → after.exactRoots.leaf id = before.exactRoots.leaf id
  done : result = .ok () → ∀ id ∈ pending,
    after.exactRoots.leaf id = subtreeRoot hasher slots before.state.effectiveLogSeg id
  succeeds : (∀ id ∈ pending, id ∉ before.state.evicted) → result = .ok ()

theorem refreshSegments_spec (chain : ChainState) {pending : List Nat}
    (rep : chain.state.Represents hasher slots)
    (wf : chain.exactRoots.WellFormed hasher)
    (depth : chain.exactRoots.logSlots = chain.state.logSlots)
    (inside : ∀ id ∈ pending, id < chain.state.numSegments) :
    Refreshed hasher slots pending chain (refreshSegments hasher pending chain).1
      (refreshSegments hasher pending chain).2 := by
  induction pending generalizing chain with
  | nil =>
    exact ⟨rep, wf, rfl, rfl, rfl, rfl, rfl, rfl, rfl, fun _ _ => rfl, by simp, fun _ => rfl⟩
  | cons segId rest ih =>
    have here := inside segId List.mem_cons_self
    by_cases gone : segId ∈ chain.state.evicted
    · have stopped : refreshSegments hasher (segId :: rest) chain =
          (chain, .error (.evictedSegment segId)) := by
        simp [refreshSegments, SegmentedFriState.exactSegmentRoot, SegmentedFriState.isEvicted, gone]
      rw [stopped]
      exact ⟨rep, wf, rfl, rfl, rfl, rfl, rfl, rfl, rfl, fun _ _ => rfl, fun ok => (by cases ok),
        fun present => absurd gone (present segId List.mem_cons_self)⟩
    · obtain ⟨read, root_eq, rep', log, evicted, dirty⟩ := rep.exactSegmentRoot here gone
      obtain ⟨wf', depth', -, leaves⟩ := wf.setSegmentRoot
        ((segments_eq rep wf depth).2 ▸ here)
        (subtreeRoot hasher slots chain.state.effectiveLogSeg segId)
      obtain ⟨sameLog, sameCount⟩ := rep.geometry rep' log
      let next : ChainState :=
        { chain with
          state := read
          exactRoots := chain.exactRoots.setSegmentRoot hasher segId
            (subtreeRoot hasher slots chain.state.effectiveLogSeg segId) }
      have stepped : refreshSegments hasher (segId :: rest) chain =
          refreshSegments hasher rest next := by rw [refreshSegments, root_eq]
      rw [stepped]
      have later := ih next rep' wf'
        (depth'.trans (depth.trans log.symm))
        fun id member => sameCount ▸ inside id (List.mem_cons_of_mem _ member)
      refine ⟨later.rep, later.roots, later.logSlots_eq.trans log, later.evicted_eq.trans evicted,
        later.exactDirty_eq.trans dirty, later.depth_eq.trans depth', later.active_eq,
        later.alloc_eq, later.supply_eq, ?_, ?_, ?_⟩
      · intro id unnamed
        simp only [List.mem_cons, not_or] at unnamed
        rw [later.others id unnamed.2, leaves, Function.update_of_ne unnamed.1]
      · intro ok id member
        by_cases again : id ∈ rest
        · have := later.done ok id again
          rwa [sameLog] at this
        · obtain rfl := (List.mem_cons.mp member).resolve_right again
          rw [later.others id again, leaves, Function.update_self]
      · intro present
        exact later.succeeds fun id member => evicted ▸ present id (List.mem_cons_of_mem _ member)

theorem mem_refreshOrder {id : Nat} :
    id ∈ chain.refreshOrder ↔ id ∈ chain.state.exactDirty := by
  simp only [refreshOrder, List.mem_append, List.mem_filter, ← and_or_left]
  cases chain.state.cachedExactSegmentTree id <;> simp

/-- The order of the pending segments is of no matter. -/
theorem Refreshed.congr {pending marked : List Nat} {before after : ChainState}
    {result : Except ExactStateReadError Unit} (same : ∀ id, id ∈ pending ↔ id ∈ marked)
    (refreshed : Refreshed hasher slots pending before after result) :
    Refreshed hasher slots marked before after result :=
  { refreshed with
    others := fun id fresh => refreshed.others id (mt (same id).mp fresh)
    done := fun ok id member => refreshed.done ok id ((same id).mpr member)
    succeeds := fun present => refreshed.succeeds fun id member => present id ((same id).mp member) }

section TryStateRoot

variable (rep : chain.state.Represents hasher slots) (wf : chain.exactRoots.WellFormed hasher)
  (depth_le : chain.state.logSlots ≤ chain.exactRoots.logSlots)
  (dirty_lt : ∀ id ∈ chain.state.exactDirty, id < chain.state.numSegments)
include rep wf depth_le dirty_lt

/-- `try_state_root` refreshes the marked segments in a cache of the depth of the store. -/
theorem tryStateRoot_refreshed :
    ∃ roots after result, roots.WellFormed hasher ∧ roots.logSlots = chain.state.logSlots ∧
      (logSegmentSize ≤ chain.state.logSlots ∨
          chain.exactRoots.logSlots = chain.state.logSlots →
        ∀ id < chain.state.numSegments, roots.leaf id = chain.exactRoots.leaf id) ∧
      Refreshed hasher slots chain.state.exactDirty { chain with exactRoots := roots } after result ∧
      chain.tryStateRoot hasher = match result with
        | .error error => (after, .error error)
        | .ok () => ({ after with
            state := after.state.clearExactDirty
            utxoRoot := after.exactRoots.root }, .ok after.exactRoots.root) := by
  obtain ⟨roots, resized, wf', depth, kept⟩ := resizeExactRoots_spec rep wf depth_le
  have order (id : Nat) : id ∈ (chain.resizeExactRoots hasher).refreshOrder ↔
      id ∈ chain.state.exactDirty := by
    rw [mem_refreshOrder, resized]
  rw [resized] at order
  refine ⟨roots, _, _, wf', depth, kept, (refreshSegments_spec { chain with exactRoots := roots } rep
    wf' depth fun id member => dirty_lt id ((order id).mp member)).congr order, ?_⟩
  simp only [ChainState.tryStateRoot, resized]
  rcases refreshSegments hasher _ _ with ⟨after, _ | _⟩ <;> rfl

/-- Whatever the cache holds, a root that is returned is the one of the tree over the roots the cache
then holds, and those of unmarked segments are as before. -/
theorem tryStateRoot_leaves (deep : logSegmentSize ≤ chain.state.logSlots) :
    ((∀ id ∈ chain.state.exactDirty, id ∉ chain.state.evicted) →
      ∃ root, (chain.tryStateRoot hasher).2 = .ok root) ∧
    ∀ root, (chain.tryStateRoot hasher).2 = .ok root →
      root = subRoot hasher.stateNodeHash (chain.tryStateRoot hasher).1.exactRoots.leaf
          (chain.state.logSlots - logSegmentSize) 0 ∧
        ∀ id < chain.state.numSegments, id ∉ chain.state.exactDirty →
          (chain.tryStateRoot hasher).1.exactRoots.leaf id = chain.exactRoots.leaf id := by
  obtain ⟨roots, after, result, -, depth, kept, refreshed, ran⟩ :=
    tryStateRoot_refreshed rep wf depth_le dirty_lt
  rw [ran]
  cases result with
  | error error =>
    refine ⟨fun present => ?_, fun root ok => by cases ok⟩
    cases refreshed.succeeds present
  | ok _ =>
    refine ⟨fun _ => ⟨_, rfl⟩, fun root ok => ?_⟩
    obtain rfl := Except.ok.inj ok
    have afterLog : after.exactRoots.logSlots = chain.state.logSlots :=
      refreshed.depth_eq.trans depth
    constructor
    · have upper := refreshed.roots.root_eq
      rwa [refreshed.roots.segmentLog_eq, afterLog, Nat.min_eq_right deep] at upper
    · intro id inside fresh
      exact (refreshed.others id fresh).trans (kept (.inl deep) id inside)

end TryStateRoot

/-- What `try_state_root` leaves behind: a sound state with its counters, residency and depth kept.
Its success is the plain root of the vector, and it fails only on an evicted dirty segment. -/
structure Rooted (hasher : StateHasher) (slots : Nat → SlotValue) (before after : ChainState)
    (result : Except ExactStateReadError Digest) : Prop where
  sound : Sound hasher after slots
  logSlots_eq : after.state.logSlots = before.state.logSlots
  depth_eq : after.exactRoots.logSlots = after.state.logSlots
  evicted_eq : after.state.evicted = before.state.evicted
  active_eq : after.activeSlotCount = before.activeSlotCount
  alloc_eq : after.allocCounter = before.allocCounter
  supply_eq : after.circulatingSupplyMicronoid = before.circulatingSupplyMicronoid
  ok : ∀ root, result = .ok root → root = plainRoot hasher slots before.state.logSlots ∧
    after.utxoRoot = root ∧ after.state.exactDirty = []
  succeeds : (∀ id ∈ before.state.exactDirty, id ∉ before.state.evicted) →
    ∃ root, result = .ok root

theorem Sound.tryStateRoot (sound : Sound hasher chain slots) :
    Rooted hasher slots chain (chain.tryStateRoot hasher).1 (chain.tryStateRoot hasher).2 := by
  obtain ⟨roots, after, result, -, depth, kept, refreshed, ran⟩ :=
    tryStateRoot_refreshed sound.rep sound.roots sound.depth_le sound.dirty_lt
  rw [ran]
  obtain ⟨sameLog, sameCount⟩ := sound.rep.geometry refreshed.rep refreshed.logSlots_eq
  have sameDepth : after.exactRoots.logSlots = after.state.logSlots :=
    refreshed.depth_eq.trans (depth.trans refreshed.logSlots_eq.symm)
  obtain ⟨rootLog, rootCount⟩ := segments_eq refreshed.rep refreshed.roots sameDepth
  have unmarked (id : Nat) (inside : id < chain.state.numSegments)
      (fresh : id ∉ chain.state.exactDirty) : after.exactRoots.leaf id =
        subtreeRoot hasher slots chain.state.effectiveLogSeg id := by
    obtain ⟨log, current⟩ := sound.fresh id inside fresh
    have deep : logSegmentSize ≤ chain.state.logSlots ∨
        chain.exactRoots.logSlots = chain.state.logSlots := by
      -- below the segment size a deeper cache would have longer segments
      have := sound.depth_le
      rw [sound.roots.segmentLog_eq, sound.rep.segmentLog_eq] at log
      omega
    exact (refreshed.others id fresh).trans ((kept deep id inside).trans current)
  cases result with
  | error error =>
    refine ⟨⟨refreshed.rep, refreshed.roots, sameDepth.ge, ?_, fun id inside fresh => ⟨rootLog, ?_⟩⟩,
      refreshed.logSlots_eq, sameDepth, refreshed.evicted_eq, refreshed.active_eq,
      refreshed.alloc_eq, refreshed.supply_eq, fun root ok => (by cases ok), fun present => ?_⟩
    · rw [refreshed.exactDirty_eq, sameCount]
      exact sound.dirty_lt
    · rw [refreshed.exactDirty_eq] at fresh
      rw [sameLog]
      exact unmarked id (sameCount ▸ inside) fresh
    · cases refreshed.succeeds present
  | ok _ =>
    have leaves (id : Nat) (inside : id < chain.state.numSegments) : after.exactRoots.leaf id =
        subtreeRoot hasher slots chain.state.effectiveLogSeg id := by
      by_cases dirty : id ∈ chain.state.exactDirty
      · exact refreshed.done rfl id dirty
      · exact unmarked id inside dirty
    have root_eq : after.exactRoots.root = plainRoot hasher slots chain.state.logSlots := by
      rw [← refreshed.logSlots_eq, ← sameDepth]
      refine refreshed.roots.root_eq_plainRoot fun id inside => ?_
      rw [rootLog, sameLog]
      exact leaves id (by rwa [rootCount, sameCount] at inside)
    refine ⟨⟨refreshed.rep.congr rfl rfl rfl rfl rfl rfl rfl, refreshed.roots, sameDepth.ge,
      fun id none => (by cases none), fun id inside _ => ⟨rootLog, ?_⟩⟩, refreshed.logSlots_eq,
      sameDepth, refreshed.evicted_eq, refreshed.active_eq, refreshed.alloc_eq, refreshed.supply_eq,
      fun root ok => ?_, fun _ => ⟨_, rfl⟩⟩
    · show after.exactRoots.leaf id = subtreeRoot hasher slots after.state.effectiveLogSeg id
      rw [sameLog]
      exact leaves id (sameCount ▸ inside)
    · obtain rfl := Except.ok.inj ok
      exact ⟨root_eq, rfl, rfl⟩

/-! ## The operations -/

variable {state : SegmentedFriState}

section

variable (sound : Sound hasher chain slots)
include sound

/-- A change of the store that keeps its geometry and marks what it changes. -/
theorem Sound.of_wrote {result : Nat → SlotValue} (rep : state.Represents hasher result)
    (wrote : chain.state.Wrote state slots result) :
    Sound hasher { chain with state } result where
  rep := rep
  roots := sound.roots
  depth_le := wrote.logSlots_eq ▸ sound.depth_le
  dirty_lt id member := by
    rw [wrote.numSegments_eq]
    exact (wrote.exactDirty_new id member).elim (sound.dirty_lt id) And.left
  fresh id inside fresh := by
    obtain ⟨log, leaf⟩ := sound.fresh id (wrote.numSegments_eq ▸ inside)
      fun member => fresh (wrote.exactDirty_mono id member)
    refine ⟨log.trans wrote.segmentLog_eq.symm, leaf.trans ?_⟩
    simp only [wrote.segmentLog_eq]
    rw [← plainRoot_segmentSlots, ← plainRoot_segmentSlots]
    refine subtreeRoot_congr fun index _ high => (wrote.clean id fresh index ?_).symm
    simpa using high

/-- A batch of writes off the evicted segments overlays the vector. -/
theorem Sound.applyDelta {deltas : List (Nat × SlotValue)}
    (applied : chain.state.applyDeltaUnrooted hasher deltas = .ok state)
    (present : ∀ write ∈ deltas, chain.state.segIdOf write.1 ∉ chain.state.evicted) :
    Sound hasher { chain with state } (overlay slots deltas) ∧
      chain.state.Wrote state slots (overlay slots deltas) := by
  obtain ⟨inside, rfl⟩ := SegmentedFriState.applyDeltaUnrooted_eq_ok.mp applied
  obtain ⟨rep, wrote⟩ := sound.rep.foldl_writeSlot inside present
  exact ⟨sound.of_wrote rep wrote, wrote⟩

/-- A change of the store that keeps the vector, the geometry and the exact marks. -/
theorem Sound.of_residency (rep : state.Represents hasher slots)
    (log : state.logSlots = chain.state.logSlots)
    (dirty : ∀ id, id ∈ state.exactDirty ↔ id ∈ chain.state.exactDirty) :
    Sound hasher { chain with state } slots := by
  obtain ⟨segmentLog, count⟩ := sound.rep.geometry rep log
  refine ⟨rep, sound.roots, log ▸ sound.depth_le, fun id member => ?_, fun id inside fresh => ?_⟩
  · rw [count]
    exact sound.dirty_lt id ((dirty id).mp member)
  · rw [segmentLog]
    exact sound.fresh id (count ▸ inside) (mt (dirty id).mpr fresh)

theorem Sound.evictSegment {segId : Nat} (inside : segId < chain.state.numSegments) :
    Sound hasher { chain with state := chain.state.evictSegment segId } slots := by
  refine sound.of_residency (sound.rep.evictSegment inside) ?_ ?_ <;>
    simp only [SegmentedFriState.evictSegment] <;> split <;> simp

end

/-- Columns of one segment that hold its slots. -/
def Matching (chain : ChainState) (slots : Nat → SlotValue) (segId : Nat)
    (columns : SegmentColumns) : Prop :=
  columns.Sized (2 ^ chain.state.effectiveLogSeg) ∧
    ∀ index < 2 ^ chain.state.effectiveLogSeg,
      columns.get index = segmentSlots slots chain.state.effectiveLogSeg segId index

section

variable (sound : Sound hasher chain slots)
include sound

theorem Sound.restoreStore {segId : Nat} {columns : SegmentColumns}
    (inside : segId < chain.state.numSegments) (matching : chain.Matching slots segId columns) :
    Sound hasher { chain with state := chain.state.restoreEvictedSegment segId columns } slots :=
  sound.of_residency (sound.rep.restoreEvictedSegment inside matching.1 matching.2) rfl
    fun _ => Iff.rfl

/-- The checked restore installs matching columns together with their tree. -/
theorem Sound.restoreEvictedSegment {segId : Nat} {columns : SegmentColumns} {restored : ChainState}
    (done : chain.restoreEvictedSegment hasher segId columns = .ok restored)
    (inside : segId < chain.state.numSegments) (matching : chain.Matching slots segId columns) :
    Sound hasher restored slots := by
  simp only [ChainState.restoreEvictedSegment, bind_eq_ok, pure_eq_ok] at done
  obtain ⟨_, -, _, -, _, -, rfl⟩ := done
  have current := (ExactSegmentTree.fromColumns_current hasher _ columns).congr matching.2
  have rep := sound.rep.restoreEvictedSegment inside matching.1 matching.2
  refine sound.of_residency (rep.rememberExactSegmentTree inside current) ?_ ?_ <;>
    simp only [SegmentedFriState.rememberExactSegmentTree] <;> split <;>
    simp [SegmentedFriState.restoreEvictedSegment]

end

/-- The empty half added by one more level. -/
theorem subtreeRoot_upper (rep : chain.state.Represents hasher slots) (level id : Nat)
    (beyond : 2 ^ chain.state.logSlots ≤ id * 2 ^ level) :
    subtreeRoot hasher slots level id = hasher.zeroSlotRoot level := by
  rw [zeroSlotRoot_eq]
  exact subtreeRoot_of_empty fun slot low _ => rep.beyond slot (beyond.trans low)

/-- The cache holds no root but the empty one for the segments that the domain gains next. After a
shrink it can hold another, since only the next root cuts the cache. -/
def UpperEmpty (hasher : StateHasher) (chain : ChainState) : Prop :=
  logSegmentSize ≤ chain.state.logSlots → ∀ id < 2 * chain.state.numSegments,
    chain.state.numSegments ≤ id → id < chain.exactRoots.segmentRoots.length →
      chain.exactRoots.leaf id = hasher.zeroSlotRoot logSegmentSize

/-- A cache of the depth of the store holds no root beyond it. -/
theorem UpperEmpty.of_aligned (sound : Sound hasher chain slots)
    (aligned : chain.exactRoots.logSlots = chain.state.logSlots) : UpperEmpty hasher chain := by
  intro _ id _ new held
  have count := (segments_eq sound.rep sound.roots aligned).2
  omega

/-- What growing by one level does to the store, its marks and the cache. -/
theorem expandOne_spec (rep : chain.state.Represents hasher slots) {grown : ChainState}
    (expanded : chain.expandOne hasher = some grown) :
    grown.state.Represents hasher slots ∧ grown.state.logSlots = chain.state.logSlots + 1 ∧
      grown.state.evicted = chain.state.evicted ∧
      grown.exactRoots = chain.exactRoots.expandOne hasher ∧
      (chain.state.logSlots < logSegmentSize → 0 ∈ grown.state.exactDirty ∨
        chain.exactRoots.logSlots = chain.state.logSlots ∧ chain.state.exactDirty = []) ∧
      (logSegmentSize ≤ chain.state.logSlots →
        ∀ id, id ∈ grown.state.exactDirty ↔ id ∈ chain.state.exactDirty) ∧
      ∀ id ∈ grown.state.exactDirty, id = 0 ∨ id ∈ chain.state.exactDirty := by
  simp only [ChainState.expandOne, bind_eq_some, pure_eq_some] at expanded
  obtain ⟨state, stepped, rfl⟩ := expanded
  obtain ⟨grew, log, evicted, shallow, deep⟩ := rep.expand stepped
  split
  case isTrue current =>
    refine ⟨grew.congr rfl rfl rfl rfl rfl rfl rfl, log, evicted, rfl,
      fun _ => .inr ⟨current.2.1, current.1⟩, fun _ id => ?_, fun id none => by cases none⟩
    simp [current.1, SegmentedFriState.clearExactDirty]
  case isFalse =>
    refine ⟨grew, log, evicted, rfl, fun low => .inl ?_, fun high id => ?_, fun id member => ?_⟩
    · rw [shallow low]
      exact List.mem_insert_self
    · rw [(deep high).1]
    · rcases Nat.lt_or_ge chain.state.logSlots logSegmentSize with low | high
      · simp only [shallow low] at member
        exact List.mem_insert_iff.mp member
      · exact .inr ((deep high).1 ▸ member)

section

variable (sound : Sound hasher chain slots)
include sound

/-- Growing by one level keeps soundness: the marks say which roots stay current. -/
theorem Sound.expandOne (regrow : UpperEmpty hasher chain) {grown : ChainState}
    (expanded : chain.expandOne hasher = some grown) : Sound hasher grown slots := by
  obtain ⟨rep, log, -, roots, shallow, deep, marked⟩ := expandOne_spec sound.rep expanded
  obtain ⟨wf, depth, paired, added⟩ := sound.roots.expandOne
  rw [← roots] at wf depth paired added
  have depth_le := sound.depth_le
  have rootLog := sound.roots.segmentLog_eq
  have stateLog := sound.rep.segmentLog_eq
  have more : chain.state.numSegments ≤ grown.state.numSegments := by
    rw [rep.numSegments_eq, sound.rep.numSegments_eq, rep.segmentLog_eq, stateLog]
    exact Nat.pow_le_pow_right (by omega) (by omega)
  refine ⟨rep, wf, by omega, fun id member => ?_, fun id inside fresh => ?_⟩
  · rcases marked id member with rfl | earlier
    · rw [rep.numSegments_eq]
      exact Nat.two_pow_pos _
    · exact (sound.dirty_lt id earlier).trans_le more
  · rcases Nat.lt_or_ge chain.state.logSlots logSegmentSize with low | high
    · obtain ⟨log', count'⟩ := rep.sole (by omega)
      obtain rfl : id = 0 := by omega
      rcases shallow low with stale | ⟨aligned, clean⟩
      · exact absurd stale fresh
      · obtain ⟨-, rootCount⟩ := segments_eq sound.rep sound.roots aligned
        have whole : chain.exactRoots.root = plainRoot hasher slots chain.state.logSlots := by
          rw [← aligned]
          refine sound.roots.root_eq_plainRoot fun id inside => ?_
          rw [rootLog, aligned, ← stateLog]
          exact (sound.fresh id (rootCount ▸ inside) (by simp [clean])).2
        refine ⟨(segments_eq rep wf (by omega)).1, ?_⟩
        rw [paired (by omega), whole, aligned, log', log,
          ← subtreeRoot_upper sound.rep _ 1 (by simp)]
        rfl
    · obtain ⟨sameLog, double, kept, zeros⟩ := added (by omega)
      have grownLog := rep.segmentLog_eq
      have segmentLog : grown.state.effectiveLogSeg = chain.state.effectiveLogSeg := by omega
      have grownCount : grown.state.numSegments = 2 * chain.state.numSegments := by
        rw [rep.numSegments_eq, sound.rep.numSegments_eq, segmentLog, log, stateLog, ← Nat.pow_succ']
        congr 1
        omega
      have least : chain.state.numSegments ≤ chain.exactRoots.segmentRoots.length := by
        rw [sound.rep.numSegments_eq, sound.roots.length_eq, rootLog, stateLog]
        exact Nat.pow_le_pow_right (by omega) (by omega)
      refine ⟨by omega, ?_⟩
      rw [segmentLog]
      rcases Nat.lt_or_ge id chain.state.numSegments with old | new
      · rw [kept id (by omega)]
        exact (sound.fresh id old (mt (deep high id).mpr fresh)).2
      · have segment : chain.state.effectiveLogSeg = logSegmentSize := by omega
        have empty : subtreeRoot hasher slots chain.state.effectiveLogSeg id =
            hasher.zeroSlotRoot chain.state.effectiveLogSeg := by
          apply subtreeRoot_upper sound.rep
          rw [← sound.rep.size_eq]
          exact Nat.mul_le_mul_right _ new
        rw [empty, segment]
        rcases Nat.lt_or_ge id chain.exactRoots.segmentRoots.length with held | fresh
        · rw [kept id held]
          exact regrow high id (by omega) new held
        · rw [zeros id fresh (by omega)]
          congr 1
          omega

/-- Shrinking the store leaves the deeper cache for the next root to cut. -/
theorem Sound.of_resized (rep : state.Represents hasher slots)
    (resized : chain.state.Resized state) :
    Sound hasher { chain with state } slots := by
  refine ⟨rep, sound.roots, resized.le.trans sound.depth_le, resized.dirty_lt sound.dirty_lt,
    fun id inside fresh => ?_⟩
  obtain ⟨earlier, unmarked, log⟩ := resized.fresh id inside fresh
  simp only [log]
  exact sound.fresh id earlier unmarked

end

end ChainState

end ParanoidChain
