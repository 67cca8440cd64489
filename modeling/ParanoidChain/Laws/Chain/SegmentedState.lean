import ParanoidChain.Chain.SegmentedState
import ParanoidChain.Laws.Chain.ExactSegmentCache
import ParanoidChain.Laws.Chain.SlotState

/-!
# The segmented store represents a slot vector

`Represents hasher state slots` says that the store stands for the vector `slots`, in which evicted
segments keep the contents they have on disk: resident columns hold their part of it, a segment
without columns that is not evicted is empty, live counts are exact and every cached tree is
current. Each operation of the store is related to the vector: a write overwrites one place of it
and every other operation keeps it.
-/

namespace ParanoidChain

open Lib

section SegmentSlots

variable {slots : Nat → SlotValue} {log index segId : Nat}

theorem segmentSlots_div_mod (slots : Nat → SlotValue) (log index : Nat) :
    segmentSlots slots log (index / 2 ^ log) (index % 2 ^ log) = slots index := by
  rw [segmentSlots, Nat.mul_comm, Nat.div_add_mod]

/-- A write is a write of the segment it falls into. -/
theorem segmentSlots_update_self (slots : Nat → SlotValue) (log index : Nat) (slot : SlotValue) :
    segmentSlots (Function.update slots index slot) log (index / 2 ^ log) =
      Function.update (segmentSlots slots log (index / 2 ^ log)) (index % 2 ^ log) slot := by
  have split := Nat.div_add_mod index (2 ^ log)
  rw [Nat.mul_comm] at split
  funext other
  by_cases here : other = index % 2 ^ log
  · subst here
    rw [Function.update_self, segmentSlots, split, Function.update_self]
  · rw [Function.update_of_ne here, segmentSlots, segmentSlots, Function.update_of_ne (by omega)]

/-- A write leaves the other segments alone. -/
theorem segmentSlots_update_ne (slots : Nat → SlotValue) (apart : segId ≠ index / 2 ^ log)
    (slot : SlotValue) {other : Nat} (inside : other < 2 ^ log) :
    segmentSlots (Function.update slots index slot) log segId other =
      segmentSlots slots log segId other := by
  rw [segmentSlots, segmentSlots, Function.update_of_ne]
  rintro rfl
  apply apart
  rw [Nat.mul_comm, Nat.mul_add_div (Nat.two_pow_pos log), Nat.div_eq_of_lt inside, Nat.add_zero]

end SegmentSlots

namespace SegmentedFriState

/-- What the store keeps of one segment stands for the slots of that segment. -/
structure SegmentHolds (columns : Option SegmentColumns) (live : Nat) (evicted : Prop)
    (size : Nat) (slots : Nat → SlotValue) : Prop where
  resident : ∀ held, columns = some held →
    held.Sized size ∧ (∀ index < size, held.get index = slots index) ∧ ¬ evicted
  absent : columns = none → ¬ evicted → ∀ index < size, slots index = .empty
  live_eq : live = total occupied slots size

variable {slots others : Nat → SlotValue}

theorem SegmentHolds.congr {columns : Option SegmentColumns} {live size : Nat} {evicted : Prop}
    (holds : SegmentHolds columns live evicted size slots)
    (same : ∀ index < size, others index = slots index) :
    SegmentHolds columns live evicted size others where
  resident held found := by
    obtain ⟨sized, reads, present⟩ := holds.resident held found
    exact ⟨sized, fun index inside => (reads index inside).trans (same index inside).symm, present⟩
  absent missing present index inside :=
    (same index inside).trans (holds.absent missing present index inside)
  live_eq := holds.live_eq.trans (total_congr same).symm

variable {columns : SegmentColumns}

/-- Counted columns stand for what they hold, and columns without a live slot need not be kept. -/
theorem SegmentHolds.of_columns {live size : Nat} {evicted : Prop} (sized : columns.Sized size)
    (reads : ∀ index < size, columns.get index = slots index)
    (counted : live = total occupied slots size) (present : ¬ evicted) :
    SegmentHolds (if live = 0 then none else some columns) live evicted size slots where
  resident held found := by
    split at found
    · cases found
    · cases found
      exact ⟨sized, reads, present⟩
  absent missing _ index inside := by
    split at missing
    case isTrue none =>
      rw [none] at counted
      exact eq_empty_of_total counted.symm inside
    case isFalse => cases missing
  live_eq := counted

/-- Grown columns stand for a longer vector when nothing lies beyond the old one. -/
theorem SegmentHolds.extend {columns : Option SegmentColumns} {live size : Nat} {evicted : Prop}
    (holds : SegmentHolds columns live evicted size slots)
    (beyond : ∀ index, size ≤ index → slots index = .empty) (extra : Nat) :
    SegmentHolds (columns.map (·.extend extra)) live evicted (size + extra) slots where
  resident held found := by
    obtain ⟨original, known, rfl⟩ := Option.map_eq_some_iff.mp found
    obtain ⟨sized, reads, present⟩ := holds.resident original known
    refine ⟨sized.extend extra, fun index _ => ?_, present⟩
    rw [SegmentColumns.get_extend]
    rcases Nat.lt_or_ge index size with low | high
    · exact reads index low
    · rw [sized.get_of_le high, beyond index high]
  absent missing present index _ := by
    rcases Nat.lt_or_ge index size with low | high
    · exact holds.absent (Option.map_eq_none_iff.mp missing) present index low
    · exact beyond index high
  live_eq := holds.live_eq.trans (total_extend (Nat.le_add_right _ _) fun index high _ => by
    rw [beyond index high, occupied_empty]).symm

/-- The store stands for the slot vector. -/
structure Represents (hasher : StateHasher) (state : SegmentedFriState)
    (slots : Nat → SlotValue) : Prop where
  depth_pos : 1 ≤ state.logSlots
  segmentLog_eq : state.effectiveLogSeg = min state.logSlots logSegmentSize
  numSegments_eq : state.numSegments = 2 ^ (state.logSlots - state.effectiveLogSeg)
  segments_length : state.segments.length = state.numSegments
  liveCounts_length : state.liveCounts.length = state.numSegments
  evicted_lt : ∀ id ∈ state.evicted, id < state.numSegments
  segment : ∀ id < state.numSegments,
    SegmentHolds (state.tryGetSegmentColumns id) (state.segmentLiveCount id) (id ∈ state.evicted)
      (2 ^ state.effectiveLogSeg) (segmentSlots slots state.effectiveLogSeg id)
  beyond : ∀ index, 2 ^ state.logSlots ≤ index → slots index = .empty
  cached : state.exactSegmentCache.Holds fun id tree => id < state.numSegments ∧
    tree.Current hasher state.effectiveLogSeg (segmentSlots slots state.effectiveLogSeg id)

namespace Represents

variable {hasher : StateHasher} {state : SegmentedFriState} {slots : Nat → SlotValue}

section

variable (rep : Represents hasher state slots)
include rep

/-- The slots beyond the domain weigh nothing. -/
theorem total_wider {depth : Nat} (deeper : state.logSlots ≤ depth) {weight : SlotValue → Nat}
    (empty : weight .empty = 0) :
    total weight slots (2 ^ depth) = total weight slots (2 ^ state.logSlots) :=
  total_extend (Nat.pow_le_pow_right (by omega) deeper) fun index high _ => by
    rw [rep.beyond index high, empty]

theorem segmentLog_le :
    state.effectiveLogSeg ≤ state.logSlots := by
  rw [rep.segmentLog_eq]
  exact Nat.min_le_left _ _

/-- The segments partition the slot domain. -/
theorem size_eq :
    state.numSegments * 2 ^ state.effectiveLogSeg = 2 ^ state.logSlots := by
  rw [rep.numSegments_eq, ← Nat.pow_add, Nat.sub_add_cancel rep.segmentLog_le]

theorem segIdOf_lt {index : Nat} (inside : index < 2 ^ state.logSlots) :
    state.segIdOf index < state.numSegments :=
  Nat.div_lt_of_lt_mul (by rw [Nat.mul_comm, rep.size_eq]; exact inside)

end

theorem localIdxOf_lt (state : SegmentedFriState) (index : Nat) :
    state.localIdxOf index < 2 ^ state.effectiveLogSeg := Nat.mod_lt _ (Nat.two_pow_pos _)

section

variable (rep : Represents hasher state slots)
include rep

theorem tryGet_lt {id : Nat} (found : state.tryGetSegmentColumns id = some columns) :
    id < state.numSegments := by
  by_contra outside
  rw [tryGetSegmentColumns, List.getD_eq_default _ _ (by rw [rep.segments_length]; omega)] at found
  cases found

/-- A slot of a segment that is not evicted reads as what the vector holds. -/
theorem slot_eq {index : Nat} (inside : index < 2 ^ state.logSlots)
    (present : state.segIdOf index ∉ state.evicted) :
    state.slot index = slots index := by
  have below := localIdxOf_lt state index
  have holds := rep.segment _ (rep.segIdOf_lt inside)
  have here : segmentSlots slots state.effectiveLogSeg (state.segIdOf index)
      (state.localIdxOf index) = slots index := segmentSlots_div_mod _ _ _
  rw [slot]
  split
  case h_1 missing => rw [← here, holds.absent missing present _ below]
  case h_2 columns found => rw [(holds.resident _ found).2.1 _ below, here]

/-- Hot trees of a represented store have the root of their segment. -/
theorem cachedRoot_eq {id : Nat} {tree : ExactSegmentTree}
    (found : state.cachedExactSegmentTree id = some tree) :
    tree.root = subtreeRoot hasher slots state.effectiveLogSeg id := by
  rw [(rep.cached.get found).2.root_eq, plainRoot_segmentSlots]

end

variable {other : SegmentedFriState}

section

variable (rep : Represents hasher state slots)
include rep

/-- The depth determines the geometry. -/
theorem geometry (rep' : Represents hasher other others) (log : other.logSlots = state.logSlots) :
    other.effectiveLogSeg = state.effectiveLogSeg ∧ other.numSegments = state.numSegments := by
  have segmentLog : other.effectiveLogSeg = state.effectiveLogSeg := by
    rw [rep'.segmentLog_eq, rep.segmentLog_eq, log]
  exact ⟨segmentLog, by rw [rep'.numSegments_eq, rep.numSegments_eq, segmentLog, log]⟩

/-- What the store does to its dirty sets does not matter. -/
theorem congr (log : other.logSlots = state.logSlots)
    (segmentLog : other.effectiveLogSeg = state.effectiveLogSeg)
    (count : other.numSegments = state.numSegments) (segments : other.segments = state.segments)
    (live : other.liveCounts = state.liveCounts) (evicted : other.evicted = state.evicted)
    (cache : other.exactSegmentCache = state.exactSegmentCache) :
    Represents hasher other slots := by
  obtain ⟨log', segmentLog', count', segments', live', dirty, mdbx, exact, cache', evicted'⟩ := other
  simp only at log segmentLog count segments live evicted cache
  subst log segmentLog count segments live cache evicted
  exact { rep with }

/-- The rule for an operation on one segment: the others are as they were, in the store and in the
vector, and what the store now keeps of this one stands for its new slots. -/
theorem replace {segId : Nat} (log : other.logSlots = state.logSlots)
    (segmentLog : other.effectiveLogSeg = state.effectiveLogSeg)
    (count : other.numSegments = state.numSegments)
    (segments : other.segments.length = state.segments.length)
    (live : other.liveCounts.length = state.liveCounts.length)
    (evicted : ∀ id ∈ other.evicted, id ≠ segId → id ∈ state.evicted)
    (inside : segId < state.numSegments)
    (apart : ∀ id, id ≠ segId → other.tryGetSegmentColumns id = state.tryGetSegmentColumns id ∧
      other.segmentLiveCount id = state.segmentLiveCount id ∧
      (id ∈ other.evicted ↔ id ∈ state.evicted))
    (unchanged : ∀ id, id ≠ segId → ∀ index < 2 ^ state.effectiveLogSeg,
      segmentSlots others state.effectiveLogSeg id index =
        segmentSlots slots state.effectiveLogSeg id index)
    (here : SegmentHolds (other.tryGetSegmentColumns segId) (other.segmentLiveCount segId)
      (segId ∈ other.evicted) (2 ^ state.effectiveLogSeg)
      (segmentSlots others state.effectiveLogSeg segId))
    (beyond : ∀ index, 2 ^ state.logSlots ≤ index → others index = .empty)
    (cached : other.exactSegmentCache.Holds fun id tree => id < state.numSegments ∧
      tree.Current hasher state.effectiveLogSeg (segmentSlots others state.effectiveLogSeg id)) :
    Represents hasher other others where
  depth_pos := log ▸ rep.depth_pos
  segmentLog_eq := by rw [segmentLog, log, rep.segmentLog_eq]
  numSegments_eq := by rw [count, log, segmentLog, rep.numSegments_eq]
  segments_length := by rw [segments, count, rep.segments_length]
  liveCounts_length := by rw [live, count, rep.liveCounts_length]
  evicted_lt id member := by
    rw [count]
    by_cases same : id = segId
    · exact same ▸ inside
    · exact rep.evicted_lt id (evicted id member same)
  segment id below := by
    rw [count] at below
    rw [segmentLog]
    by_cases same : id = segId
    · exact same ▸ here
    · obtain ⟨columns, counts, residency⟩ := apart id same
      rw [columns, counts, residency]
      exact (rep.segment id below).congr (unchanged id same)
  beyond := log ▸ beyond
  cached := by
    rw [count, segmentLog]
    exact cached

end

end Represents

/-! ## Building -/

theorem newEmpty_represents (hasher : StateHasher) {logSlots : Nat} {state : SegmentedFriState}
    (built : newEmpty logSlots = some state) :
    Represents hasher state (fun _ => .empty) ∧ state.logSlots = logSlots ∧
      state.evicted = [] ∧ state.exactDirty = [] := by
  unfold newEmpty at built
  split at built
  case isFalse => cases built
  case isTrue pos =>
    cases built
    have count : (if logSegmentSize < logSlots then 2 ^ (logSlots - logSegmentSize) else 1) =
        2 ^ (logSlots - min logSlots logSegmentSize) := by
      split
      · rw [Nat.min_eq_right (by omega)]
      · rw [Nat.min_eq_left (by omega), Nat.sub_self, Nat.pow_zero]
    refine ⟨⟨pos, rfl, count, by simp, by simp, by simp, fun id _ => ⟨?_, fun _ _ _ _ => rfl, ?_⟩,
      fun _ _ => rfl, ExactSegmentCache.holds_default⟩, rfl, rfl, rfl⟩
    · intro columns found
      rw [tryGetSegmentColumns, List.getD_eq_getElem?_getD,
        List.getElem?_getD_replicate_default_eq] at found
      cases found
    · rw [segmentLiveCount, List.getD_eq_getElem?_getD, List.getElem?_getD_replicate_default_eq]
      simp [total, segmentSlots]

/-! ## Writing -/

section Write

variable {hasher : StateHasher} {state : SegmentedFriState} {slots : Nat → SlotValue}

/-- The live count follows the occupation of the segment. -/
theorem liveAfter_eq {old : Nat → SlotValue} {size index : Nat} (inside : index < size)
    (slot : SlotValue) :
    liveAfter (total occupied old size) (old index).isEmpty slot.isEmpty =
      total occupied (Function.update old index slot) size := by
  have change := total_update occupied old inside slot
  cases was : (old index).isEmpty <;> cases now : slot.isEmpty <;>
    simp only [occupied, was, now, Bool.false_eq_true, if_false, if_true, liveAfter] at change ⊢ <;>
    omega

theorem filter_ne_eq_self {ids : List Nat} {id : Nat} (absent : id ∉ ids) :
    ids.filter (· != id) = ids :=
  List.filter_eq_self.mpr fun other member => by
    simp only [bne_iff_ne, ne_eq]
    rintro rfl
    exact absent member

/-- The hot trees after a write: the tree of the segment is written or dropped. -/
theorem Represents.cached_write (rep : Represents hasher state slots) (index : Nat)
    (slot : SlotValue) (dropped : Prop) [Decidable dropped] :
    (if dropped then state.exactSegmentCache.remove (state.segIdOf index)
      else state.exactSegmentCache.updateSlot hasher (state.segIdOf index) (state.localIdxOf index)
        slot).Holds fun id tree => id < state.numSegments ∧
      tree.Current hasher state.effectiveLogSeg
        (segmentSlots (Function.update slots index slot) state.effectiveLogSeg id) := by
  have others (id : Nat) (tree : ExactSegmentTree) (apart : id ≠ state.segIdOf index)
      (held : id < state.numSegments ∧ tree.Current hasher state.effectiveLogSeg
        (segmentSlots slots state.effectiveLogSeg id)) : id < state.numSegments ∧
      tree.Current hasher state.effectiveLogSeg
        (segmentSlots (Function.update slots index slot) state.effectiveLogSeg id) :=
    ⟨held.1, held.2.congr fun other low => (segmentSlots_update_ne slots apart slot low).symm⟩
  split
  · exact (rep.cached.remove _).mono fun id tree held => others id tree held.1 held.2
  · refine rep.cached.updateSlot (fun tree held => ⟨held.1, ?_⟩) others
    rw [segIdOf, segmentSlots_update_self]
    exact held.2.setSlot (localIdxOf_lt state index) slot

/-- Storing a slot into the columns of a segment that is not evicted writes the vector. -/
theorem Represents.storeSlot (rep : Represents hasher state slots) {index : Nat}
    (inside : index < 2 ^ state.logSlots) (present : state.segIdOf index ∉ state.evicted)
    (sized : columns.Sized (2 ^ state.effectiveLogSeg))
    (agrees : ∀ other < 2 ^ state.effectiveLogSeg, columns.get other =
      segmentSlots slots state.effectiveLogSeg (state.segIdOf index) other) (slot : SlotValue) :
    Represents hasher (state.storeSlot hasher columns index slot)
      (Function.update slots index slot) := by
  have segment := rep.segIdOf_lt inside
  have below := localIdxOf_lt state index
  have old : state.slot index =
      segmentSlots slots state.effectiveLogSeg (state.segIdOf index) (state.localIdxOf index) := by
    rw [rep.slot_eq inside present, localIdxOf, segIdOf, segmentSlots_div_mod]
  have counted : liveAfter (state.segmentLiveCount (state.segIdOf index))
      (state.slot index).isEmpty slot.isEmpty = total occupied
        (segmentSlots (Function.update slots index slot) state.effectiveLogSeg
          (state.segIdOf index)) (2 ^ state.effectiveLogSeg) := by
    rw [(rep.segment _ segment).live_eq, old, liveAfter_eq below]
    exact congrArg (total occupied · _) (segmentSlots_update_self ..).symm
  have residency (id : Nat) : id ∈ (state.storeSlot hasher columns index slot).evicted ↔
      id ∈ state.evicted := by
    simp only [SegmentedFriState.storeSlot, filter_ne_eq_self present, ite_self]
  refine rep.replace rfl rfl rfl (by simp [SegmentedFriState.storeSlot])
    (by simp [SegmentedFriState.storeSlot]) (fun id member _ => (residency id).mp member) segment
    (fun id apart => ⟨?_, ?_, residency id⟩)
    (fun id apart other low => segmentSlots_update_ne slots apart slot low) ?_
    (fun other outside => ?_) (rep.cached_write index slot _)
  · exact (getD_set_apply (rep.segments_length ▸ segment) _ none id).trans (if_neg apart)
  · exact (getD_set_apply (rep.liveCounts_length ▸ segment) _ 0 id).trans (if_neg apart)
  · rw [residency, tryGetSegmentColumns, segmentLiveCount, SegmentedFriState.storeSlot,
      getD_set_apply (rep.segments_length ▸ segment), if_pos rfl,
      getD_set_apply (rep.liveCounts_length ▸ segment), if_pos rfl]
    refine .of_columns (sized.put _ slot) (fun other low => ?_) counted present
    rw [sized.get_put below, segIdOf, segmentSlots_update_self]
    by_cases here : other = state.localIdxOf index
    · subst here
      simp [localIdxOf]
    · rw [Function.update_of_ne here, Function.update_of_ne (by exact here)]
      exact agrees other low
  · have apart : other ≠ index := by omega
    rw [Function.update_of_ne apart]
    exact rep.beyond other outside

/-- What a batch of writes does beside writing the vector: the geometry and the residency stay, and
a segment not marked for an exact refresh has kept its slots. -/
structure Wrote (state written : SegmentedFriState) (slots result : Nat → SlotValue) : Prop where
  logSlots_eq : written.logSlots = state.logSlots
  segmentLog_eq : written.effectiveLogSeg = state.effectiveLogSeg
  numSegments_eq : written.numSegments = state.numSegments
  evicted_iff : ∀ id, id ∈ written.evicted ↔ id ∈ state.evicted
  exactDirty_new : ∀ id ∈ written.exactDirty,
    id ∈ state.exactDirty ∨ id < state.numSegments ∧ id ∉ state.evicted
  exactDirty_mono : ∀ id ∈ state.exactDirty, id ∈ written.exactDirty
  clean : ∀ id, id ∉ written.exactDirty → ∀ index < 2 ^ state.effectiveLogSeg,
    segmentSlots result state.effectiveLogSeg id index =
      segmentSlots slots state.effectiveLogSeg id index

theorem Wrote.refl (state : SegmentedFriState) (slots : Nat → SlotValue) :
    Wrote state state slots slots :=
  ⟨rfl, rfl, rfl, fun _ => Iff.rfl, fun _ member => .inl member, fun _ member => member,
    fun _ _ _ _ => rfl⟩

theorem Wrote.trans {first second third : SegmentedFriState} {before between after : Nat → SlotValue}
    (one : Wrote first second before between) (two : Wrote second third between after) :
    Wrote first third before after where
  logSlots_eq := two.logSlots_eq.trans one.logSlots_eq
  segmentLog_eq := two.segmentLog_eq.trans one.segmentLog_eq
  numSegments_eq := two.numSegments_eq.trans one.numSegments_eq
  evicted_iff id := (two.evicted_iff id).trans (one.evicted_iff id)
  exactDirty_new id member := by
    rcases two.exactDirty_new id member with earlier | ⟨inside, present⟩
    · exact one.exactDirty_new id earlier
    · exact .inr ⟨one.numSegments_eq ▸ inside, mt (one.evicted_iff id).mpr present⟩
  exactDirty_mono id member := two.exactDirty_mono id (one.exactDirty_mono id member)
  clean id fresh index inside := by
    have later := two.clean id fresh index (one.segmentLog_eq ▸ inside)
    rw [one.segmentLog_eq] at later
    exact later.trans (one.clean id (fun member => fresh (two.exactDirty_mono id member)) index inside)

/-- Writing evicts nothing. -/
theorem Wrote.evicted_eq_nil {written : SegmentedFriState} {result : Nat → SlotValue}
    (wrote : Wrote state written slots result) (none : state.evicted = []) :
    written.evicted = [] :=
  List.eq_nil_iff_forall_not_mem.mpr fun id => by simp [wrote.evicted_iff, none]

theorem storeSlot_wrote {index : Nat} (slot : SlotValue)
    (segment : state.segIdOf index < state.numSegments)
    (present : state.segIdOf index ∉ state.evicted) :
    Wrote state (state.storeSlot hasher columns index slot) slots
      (Function.update slots index slot) where
  logSlots_eq := rfl
  segmentLog_eq := rfl
  numSegments_eq := rfl
  evicted_iff id := by simp only [storeSlot, filter_ne_eq_self present, ite_self]
  exactDirty_new id member := by
    rcases List.mem_insert_iff.mp member with rfl | earlier
    · exact .inr ⟨segment, present⟩
    · exact .inl earlier
  exactDirty_mono id member := List.mem_insert_of_mem member
  clean id fresh index' inside := by
    refine segmentSlots_update_ne slots (fun same => fresh ?_) slot inside
    exact same ▸ List.mem_insert_self

/-- One round of the delta loop writes one place of the vector. -/
theorem Represents.writeSlot (rep : Represents hasher state slots) {write : Nat × SlotValue}
    (inside : write.1 < 2 ^ state.logSlots) (present : state.segIdOf write.1 ∉ state.evicted) :
    Represents hasher (state.writeSlot hasher write) (Function.update slots write.1 write.2) ∧
      Wrote state (state.writeSlot hasher write) slots
        (Function.update slots write.1 write.2) := by
  have segment := rep.segIdOf_lt inside
  have holds := rep.segment _ segment
  have read := rep.slot_eq inside present
  simp only [SegmentedFriState.writeSlot]
  split
  case isTrue same =>
    rw [← same, read, Function.update_eq_self]
    exact ⟨rep, .refl ..⟩
  case isFalse changed =>
    split
    case h_1 columns found =>
      obtain ⟨sized, reads, -⟩ := holds.resident columns found
      exact ⟨rep.storeSlot inside present sized reads write.2,
        storeSlot_wrote write.2 segment present⟩
    case h_2 missing =>
      split
      case isTrue empty =>
        -- an empty value is no change of a segment without columns
        have unread : state.slot write.1 = .empty := by rw [slot, missing]
        rw [SlotValue.isEmpty_iff] at empty
        exact absurd (unread.trans empty.symm) changed
      case isFalse live =>
        rw [filter_ne_eq_self present]
        refine ⟨rep.storeSlot inside present (SegmentColumns.sized_newZero _) (fun other low => ?_)
          write.2, storeSlot_wrote write.2 segment present⟩
        rw [SegmentColumns.get_newZero, holds.absent missing present other low]

/-- A batch that stays in range and off the evicted segments overlays the vector. -/
theorem Represents.foldl_writeSlot {deltas : List (Nat × SlotValue)}
    (rep : Represents hasher state slots)
    (inside : ∀ write ∈ deltas, write.1 < 2 ^ state.logSlots)
    (present : ∀ write ∈ deltas, state.segIdOf write.1 ∉ state.evicted) :
    Represents hasher (deltas.foldl (SegmentedFriState.writeSlot hasher) state)
        (overlay slots deltas) ∧
      Wrote state (deltas.foldl (SegmentedFriState.writeSlot hasher) state) slots
        (overlay slots deltas) := by
  induction deltas generalizing state slots with
  | nil => exact ⟨rep, .refl ..⟩
  | cons write deltas ih =>
    obtain ⟨first, wrote⟩ := rep.writeSlot (inside write List.mem_cons_self)
      (present write List.mem_cons_self)
    obtain ⟨rest, more⟩ := ih first
      (fun later member => by
        rw [wrote.logSlots_eq]
        exact inside later (List.mem_cons_of_mem _ member))
      (fun later member => by
        rw [wrote.evicted_iff, segIdOf, wrote.segmentLog_eq]
        exact present later (List.mem_cons_of_mem _ member))
    exact ⟨rest, wrote.trans more⟩

theorem applyDeltaUnrooted_eq_ok {deltas : List (Nat × SlotValue)} {written : SegmentedFriState} :
    state.applyDeltaUnrooted hasher deltas = .ok written ↔
      (∀ write ∈ deltas, write.1 < 2 ^ state.logSlots) ∧
        deltas.foldl (writeSlot hasher) state = written := by
  simp only [applyDeltaUnrooted, bind_eq_ok, reject_eq_ok, pure_eq_ok, exists_const,
    List.any_eq_true, decide_eq_true_eq, not_exists, not_and, Nat.not_le]
  rfl

end Write

/-! ## Residency -/

section Residency

variable {hasher : StateHasher} {state : SegmentedFriState} {slots : Nat → SlotValue}

section

variable (rep : Represents hasher state slots)
include rep

section

variable {segId : Nat} (inside : segId < state.numSegments)
include inside

/-- Eviction moves a segment to disk and keeps the vector. -/
theorem Represents.evictSegment :
    Represents hasher (state.evictSegment segId) slots := by
  have cached := (rep.cached.remove segId).mono fun _ _ held => held.2
  simp only [SegmentedFriState.evictSegment]
  split
  case isFalse => exact { rep with cached }
  case isTrue resident =>
    refine rep.replace rfl rfl rfl (by simp) rfl (fun id member apart => ?_) inside
      (fun id apart => ⟨?_, rfl, ?_⟩) (fun _ _ _ _ => rfl) ?_ rep.beyond cached
    · exact (List.mem_insert_iff.mp member).resolve_left apart
    · exact (getD_set_apply (rep.segments_length ▸ inside) _ none id).trans (if_neg apart)
    · simp [List.mem_insert_iff, apart]
    · rw [tryGetSegmentColumns, getD_set_apply (rep.segments_length ▸ inside), if_pos rfl]
      exact ⟨fun _ found => (by cases found), fun _ present => absurd List.mem_insert_self present,
        (rep.segment segId inside).live_eq⟩

/-- Columns that hold the contents of a segment may be put back. -/
theorem Represents.restoreEvictedSegment (sized : columns.Sized (2 ^ state.effectiveLogSeg))
    (matching : ∀ index < 2 ^ state.effectiveLogSeg, columns.get index =
      segmentSlots slots state.effectiveLogSeg segId index) :
    Represents hasher (state.restoreEvictedSegment segId columns) slots := by
  have counted : columns.countLive = total occupied
      (segmentSlots slots state.effectiveLogSeg segId) (2 ^ state.effectiveLogSeg) :=
    sized.countLive_eq.trans (total_congr matching)
  refine rep.replace rfl rfl rfl (by simp [SegmentedFriState.restoreEvictedSegment])
    (by simp [SegmentedFriState.restoreEvictedSegment]) (fun id member _ => ?_) inside
    (fun id apart => ⟨?_, ?_, ?_⟩) (fun _ _ _ _ => rfl) ?_ rep.beyond
    ((rep.cached.remove segId).mono fun _ _ held => held.2)
  · exact List.mem_of_mem_filter member
  · exact (getD_set_apply (rep.segments_length ▸ inside) _ none id).trans (if_neg apart)
  · exact (getD_set_apply (rep.liveCounts_length ▸ inside) _ 0 id).trans (if_neg apart)
  · simp [SegmentedFriState.restoreEvictedSegment, apart]
  · rw [tryGetSegmentColumns, segmentLiveCount, SegmentedFriState.restoreEvictedSegment,
      getD_set_apply (rep.segments_length ▸ inside), if_pos rfl,
      getD_set_apply (rep.liveCounts_length ▸ inside), if_pos rfl]
    exact .of_columns sized matching counted (by simp)

/-- A current tree may be remembered. -/
theorem Represents.rememberExactSegmentTree {tree : ExactSegmentTree}
    (current : tree.Current hasher state.effectiveLogSeg
      (segmentSlots slots state.effectiveLogSeg segId)) :
    Represents hasher (state.rememberExactSegmentTree segId tree) slots := by
  unfold SegmentedFriState.rememberExactSegmentTree
  split
  · exact { rep with cached := rep.cached.insert ⟨inside, current⟩ }
  · exact rep

/-- Asking for the root of a segment that is not evicted gives the root of its slots; the answer may
leave a tree behind. -/
theorem Represents.exactSegmentRoot (present : segId ∉ state.evicted) :
    ∃ read, state.exactSegmentRoot hasher segId =
        (read, .ok (subtreeRoot hasher slots state.effectiveLogSeg segId)) ∧
      Represents hasher read slots ∧ read.logSlots = state.logSlots ∧
      read.evicted = state.evicted ∧ read.exactDirty = state.exactDirty := by
  have holds := rep.segment segId inside
  simp only [SegmentedFriState.exactSegmentRoot, isEvicted, present, decide_false,
    Bool.false_eq_true, if_false]
  split
  case h_1 _ _ tree found => exact ⟨state, by rw [rep.cachedRoot_eq found], rep, rfl, rfl, rfl⟩
  case h_2 _ missing =>
    refine ⟨state, ?_, rep, rfl, rfl, rfl⟩
    rw [zeroSlotRoot_eq, ← plainRoot_segmentSlots, plainRoot, subtreeRoot_of_empty]
    intro index _ high
    exact holds.absent missing present index (by simpa using high)
  case h_3 columns _ found =>
    obtain ⟨sized, reads, -⟩ := holds.resident columns found
    have current := (ExactSegmentTree.fromColumns_current hasher _ columns).congr reads
    refine ⟨_, by rw [current.root_eq, plainRoot_segmentSlots],
      rep.rememberExactSegmentTree inside current, ?_⟩
    unfold SegmentedFriState.rememberExactSegmentTree
    split <;> exact ⟨rfl, rfl, rfl⟩

end

end

end Residency

end SegmentedFriState

end ParanoidChain
