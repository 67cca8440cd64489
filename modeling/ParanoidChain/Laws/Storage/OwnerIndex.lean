import ParanoidChain.Laws.Chain.SlotState
import ParanoidChain.Storage.OwnerIndex

/-!
# The owner index is exact

`Indexes index slots` says that the index has one record for each live slot and no other. Removing
the record of a slot and adding one are the two steps of the incremental path, and adding is the only
step of the rebuild. Both end with the index of the slots after the block, which determines it.
-/

namespace ParanoidChain

open Lib Lib.Wire

/-- The index holds the record of every live slot, and nothing else. -/
def Indexes (index : OwnerIndex) (slots : Nat → SlotValue) : Prop :=
  ∀ key value, index key = some value ↔ ∃ slot < 2 ^ 32, slots slot ≠ .empty ∧
    key = slotIndexKey slot (slots slot) ∧ value = encodeOwnerIndexValue (slots slot).value

theorem toLeBytes_injective {w count : Nat} (size : w = 8 * count) {first second : BitVec w}
    (same : toLeBytes count first = toLeBytes count second) : first = second := by
  rw [← fromLeBytes_toLeBytes size first, same, fromLeBytes_toLeBytes size]

/-- A key names its slot. -/
theorem slotIndexKey_inj {slot other : Nat} {value value' : SlotValue} (low : slot < 2 ^ 32)
    (low' : other < 2 ^ 32) (same : slotIndexKey slot value = slotIndexKey other value') :
    slot = other := by
  have tails := (List.append_inj same (by simp [ownerKeyFromFields, putU128])).2
  have words := toLeBytes_injective (show 32 = 8 * 4 from rfl) (List.reverse_inj.mp tails)
  have numbers := congrArg BitVec.toNat words
  rwa [toNat_ofNat_of_lt low, toNat_ofNat_of_lt low']
    at numbers

variable {index : OwnerIndex} {slots : Nat → SlotValue} {slot : Nat} {value : SlotValue}

theorem Indexes.unique {other : OwnerIndex} (exact : Indexes index slots)
    (exact' : Indexes other slots) : index = other :=
  funext fun key => Option.ext fun value => (exact key value).trans (exact' key value).symm

/-- The index of no slots. -/
theorem indexes_none : Indexes (fun _ => none) fun _ => .empty :=
  fun key value => by simp

section

variable (exact : Indexes index slots)
include exact

/-- The record of a slot is there. -/
theorem Indexes.read (low : slot < 2 ^ 32) (live : slots slot ≠ .empty) :
    index (slotIndexKey slot (slots slot)) = some (encodeOwnerIndexValue (slots slot).value) :=
  (exact _ _).mpr ⟨slot, low, live, rfl, rfl⟩

/-- An empty slot has no record, under any owner. -/
theorem Indexes.absent (low : slot < 2 ^ 32) (empty : slots slot = .empty) (value : SlotValue) :
    index (slotIndexKey slot value) = none := by
  refine Option.eq_none_iff_forall_ne_some.mpr fun bytes found => ?_
  obtain ⟨other, low', live, key, -⟩ := (exact _ _).mp found
  obtain rfl := slotIndexKey_inj low low' key
  exact live empty

/-- Writing the record of a slot that had none, or had this one. -/
theorem Indexes.put (low : slot < 2 ^ 32) (live : value ≠ .empty)
    (free : slots slot = .empty ∨ slots slot = value) :
    Indexes (Function.update index (slotIndexKey slot value)
      (some (encodeOwnerIndexValue value.value))) (Function.update slots slot value) := by
  intro key bytes
  by_cases here : key = slotIndexKey slot value
  · subst here
    rw [Function.update_self, Option.some.injEq]
    constructor
    · rintro rfl
      exact ⟨slot, low, by simpa using live, by simp, by simp⟩
    · rintro ⟨other, low', -, same, rfl⟩
      obtain rfl := slotIndexKey_inj low low' same
      simp
  · rw [Function.update_of_ne here, exact]
    refine exists_congr fun other => and_congr_right fun low' => ?_
    by_cases same : other = slot
    · subst same
      rw [Function.update_self]
      rcases free with empty | held
      · simp [empty, here]
      · rw [held]
    · rw [Function.update_of_ne same]

/-- Deleting the record of a slot. -/
theorem Indexes.remove (low : slot < 2 ^ 32) :
    Indexes (Function.update index (slotIndexKey slot (slots slot)) none)
      (Function.update slots slot .empty) := by
  intro key bytes
  by_cases here : key = slotIndexKey slot (slots slot)
  · subst here
    rw [Function.update_self]
    simp only [reduceCtorEq, false_iff, not_exists, not_and]
    intro other low' live same
    obtain rfl := slotIndexKey_inj low low' same
    simp at live
  · rw [Function.update_of_ne here, exact]
    refine exists_congr fun other => and_congr_right fun low' => ?_
    by_cases same : other = slot
    · subst same
      simp [here]
    · rw [Function.update_of_ne same]

end

/-! ## The incremental path -/

theorem decode_encodeOwnerIndexValue (packedValue : Block128) :
    decodeOwnerIndexValue (encodeOwnerIndexValue packedValue) = .ok packedValue := by
  simp only [decodeOwnerIndexValue, encodeOwnerIndexValue, putU128, bind_eq_ok, reject_eq_ok,
    pure_eq_ok, length_toLeBytes, not_not]
  exact ⟨(), by decide, fromLeBytes_toLeBytes (show 128 = 8 * 16 from rfl) packedValue⟩

/-- The record of a slot is found and removed, and the index is that of the slot emptied. -/
theorem removeOwner_exact (exact : Indexes index slots) (low : slot < 2 ^ 32) :
    ∃ removed, removeOwner index slot (slots slot) = .ok removed ∧
      Indexes removed (Function.update slots slot .empty) := by
  unfold removeOwner
  split
  case isTrue live =>
    refine ⟨_, ?_, exact.remove low⟩
    simp only [bind_eq_ok, okOr_eq_ok, reject_eq_ok, pure_eq_ok, not_not]
    exact ⟨_, exact.read low live, _, decode_encodeOwnerIndexValue _, (), rfl, trivial⟩
  case isFalse empty =>
    have empty := not_not.mp empty
    exact ⟨index, rfl, by rwa [← empty, Function.update_eq_self]⟩

theorem lanes_ne_zero {slot : SlotValue} :
    (slot.value ≠ 0 ∨ slot.ownerHi ≠ 0 ∨ slot.ownerLo ≠ 0) ↔ slot ≠ .empty := by
  obtain ⟨value, ownerHi, ownerLo⟩ := slot
  simp only [SlotValue.empty, ne_eq, SlotValue.mk.injEq]
  tauto

/-- The record of a slot that was empty is added, and the index is that of the slot filled. -/
theorem addOwner_exact (exact : Indexes index slots) (low : slot < 2 ^ 32)
    (empty : slots slot = .empty) (value : SlotValue) :
    ∃ added, addOwner index slot value = .ok added ∧
      Indexes added (Function.update slots slot value) := by
  unfold addOwner
  split
  case isTrue lanes =>
    refine ⟨_, ?_, exact.put low (lanes_ne_zero.mp lanes) (.inl empty)⟩
    simp only [bind_eq_ok, reject_eq_ok, pure_eq_ok]
    exact ⟨(), by simp [exact.absent low empty], trivial⟩
  case isFalse lanes =>
    have dead : value = .empty := not_not.mp fun live => lanes (lanes_ne_zero.mpr live)
    exact ⟨index, rfl, by rwa [dead, ← empty, Function.update_eq_self]⟩

/-- The binary logarithm of the slots of a segment at a depth. -/
def segmentLog (depth : Nat) : Nat := min depth logSegmentSize

/-- The undo log lists every changed slot once, with its value before the block. -/
structure BlockUndoLog.Lists (undo : BlockUndoLog) (depth : Nat) (before after : Nat → SlotValue) :
    Prop where
  once : (undo.slotChanges.map Prod.fst).Nodup
  inside : ∀ change ∈ undo.slotChanges, change.1 < 2 ^ depth
  value : ∀ change ∈ undo.slotChanges, before change.1 = change.2
  changed : ∀ slot, before slot ≠ after slot → slot ∈ undo.slotChanges.map Prod.fst

/-- The dirty segments carry what every changed segment holds after the block. -/
structure Carries (dirtySegments : List DirtySegment) (depth : Nat) (before after : Nat → SlotValue) :
    Prop where
  effectiveLog : ∀ dirty ∈ dirtySegments, dirty.effectiveLog = segmentLog depth
  inside : ∀ dirty ∈ dirtySegments, dirty.segId < 2 ^ (depth - segmentLog depth)
  resident : ∀ dirty ∈ dirtySegments, ∀ columns, dirty.columns = some columns →
    columns.Sized (2 ^ segmentLog depth) ∧ ∀ localIdx < 2 ^ segmentLog depth,
      columns.get localIdx = after (dirty.segId * 2 ^ segmentLog depth + localIdx)
  emptied : ∀ dirty ∈ dirtySegments, dirty.columns = none → ∀ localIdx < 2 ^ segmentLog depth,
    after (dirty.segId * 2 ^ segmentLog depth + localIdx) = .empty
  changed : ∀ slot, before slot ≠ after slot →
    ∃ dirty ∈ dirtySegments, dirty.segId = slot / 2 ^ segmentLog depth

variable {depth : Nat} {before after : Nat → SlotValue} {dirtySegments : List DirtySegment}

theorem segmentLog_le (depth : Nat) : segmentLog depth ≤ 16 := Nat.min_le_right _ _

theorem segmentLog_le_depth (depth : Nat) : segmentLog depth ≤ depth := Nat.min_le_left _ _

theorem dirtyEffectiveLog_lt (carries : Carries dirtySegments depth before after) :
    dirtyEffectiveLog dirtySegments < 32 := by
  unfold dirtyEffectiveLog
  cases dirtySegments with
  | nil => decide
  | cons dirty rest =>
    have := segmentLog_le depth
    have same := carries.effectiveLog dirty (by simp)
    simp only [List.head?_cons, Option.map_some, Option.getD_some]
    omega

/-- A slot of the domain lies in a segment whose id is a 16-bit word. -/
theorem segment_lt (shallow : depth ≤ 32) {slot : Nat} (inside : slot < 2 ^ depth) :
    slot / 2 ^ segmentLog depth < 2 ^ 16 := by
  refine Nat.div_lt_of_lt_mul (inside.trans_le ?_)
  rw [← Nat.pow_add]
  refine Nat.pow_le_pow_right (by omega) ?_
  simp only [segmentLog, logSegmentSize]
  omega

/-- A slot by its segment and its place there. -/
theorem segment_place (slot depth : Nat) :
    slot / 2 ^ segmentLog depth * 2 ^ segmentLog depth + slot % 2 ^ segmentLog depth = slot ∧
      slot % 2 ^ segmentLog depth < 2 ^ segmentLog depth :=
  ⟨Nat.div_add_mod' _ _, Nat.mod_lt _ (Nat.two_pow_pos _)⟩

/-- The three encodings of a slot's value after the block. -/
theorem postValue_eq (carries : Carries dirtySegments depth before after) (shallow : depth ≤ 32)
    {slot : Nat} (inside : slot < 2 ^ depth) :
    postValue dirtySegments slot (before slot) = .ok (after slot) := by
  have unchanged (none : ∀ dirty ∈ dirtySegments, dirty.segId ≠ slot / 2 ^ segmentLog depth) :
      before slot = after slot := by
    by_contra moved
    obtain ⟨dirty, member, here⟩ := carries.changed slot moved
    exact none dirty member here
  obtain ⟨split, low⟩ := segment_place slot depth
  unfold postValue
  cases head : dirtySegments with
  | nil => simp [unchanged (by simp [head]), pure, Except.pure]
  | cons first rest =>
    have log : dirtyEffectiveLog (first :: rest) = segmentLog depth := by
      rw [← carries.effectiveLog first (by simp [head])]
      rfl
    simp only [log, Nat.mod_eq_of_lt (segment_lt shallow inside)]
    rw [← head]
    cases found : dirtySegments.find? fun dirty => dirty.segId == slot / 2 ^ segmentLog depth with
    | none =>
      have none : ∀ dirty ∈ dirtySegments, dirty.segId ≠ slot / 2 ^ segmentLog depth := by
        simpa using List.find?_eq_none.mp found
      simp [unchanged none, pure, Except.pure]
    | some dirty =>
      have member := List.mem_of_find?_eq_some found
      have here : dirty.segId = slot / 2 ^ segmentLog depth := by
        simpa using List.find?_some found
      cases columns : dirty.columns with
      | none =>
        have := carries.emptied dirty member columns _ low
        rw [here, split] at this
        simp [columns, this, pure, Except.pure]
      | some columns' =>
        obtain ⟨sized, reads⟩ := carries.resident dirty member columns' columns
        have value := reads _ low
        rw [here, split] at value
        simp only [Option.map_some, columns, bind_eq_ok, reject_eq_ok, pure_eq_ok, sized.values,
          sized.ownersHi, sized.ownersLo]
        exact ⟨(), by omega, value⟩

/-- The incremental path turns the index of the slots before the block into the one after it. -/
theorem updateOwnerIndex_exact {undo : BlockUndoLog} (shallow : depth ≤ 32)
    (exact : Indexes index before) (lists : undo.Lists depth before after)
    (carries : Carries dirtySegments depth before after) :
    ∃ updated, updateOwnerIndex dirtySegments undo index = .ok updated ∧
      Indexes updated after := by
  have domain : 2 ^ depth ≤ 2 ^ 32 := Nat.pow_le_pow_right (by omega) shallow
  obtain ⟨updated, ran, exact⟩ := foldlM_exists (f := updateOwner dirtySegments)
    (l := undo.slotChanges) (s := index)
    (P := fun done index => Indexes index fun slot =>
      if slot ∈ done.map Prod.fst then after slot else before slot) (by simpa using exact) (by
      intro done change rest index split exact
      have member : change ∈ undo.slotChanges := by simp [split]
      have low := (lists.inside change member).trans_le domain
      have new : change.1 ∉ done.map Prod.fst := by
        have once := lists.once
        rw [split, List.map_append, List.map_cons] at once
        exact fun old => (List.nodup_append'.mp once).2.2 old (by simp)
      have here : (if change.1 ∈ done.map Prod.fst then after change.1 else before change.1) =
          change.2 := by rw [if_neg new, lists.value change member]
      obtain ⟨removed, took, exact⟩ := removeOwner_exact exact low
      obtain ⟨added, put, exact⟩ := addOwner_exact exact low (Function.update_self _ _ _)
        (after change.1)
      refine ⟨added, ?_, ?_⟩
      · simp only [updateOwner, bind_eq_ok, mapError_ok_iff, reject_eq_ok, not_le]
        refine ⟨removed, here ▸ took, (), dirtyEffectiveLog_lt carries, after change.1, ?_, put⟩
        rw [← lists.value change member]
        exact postValue_eq carries shallow (lists.inside change member)
      · convert exact using 1
        funext slot
        by_cases same : slot = change.1
        · subst same
          simp
        · simp only [Function.update_of_ne same, List.map_append, List.mem_append, List.map_cons,
            List.map_nil, List.mem_singleton, same, or_false])
  refine ⟨updated, ran, ?_⟩
  convert exact using 1
  funext slot
  split
  case isTrue => rfl
  case isFalse unlisted =>
    by_contra moved
    exact unlisted (lists.changed slot (Ne.symm moved))

/-! ## The rebuild -/

/-- The segment table holds the slots of a state of some depth. A row that was written before the
domain grew to the size of a segment holds the first slots of its segment. -/
structure Durable (depth : Nat) (segments : Nat → Option SegmentRow) (slots : Nat → SlotValue) :
    Prop where
  id_lt : ∀ id row, segments id = some row → id < 2 ^ (depth - segmentLog depth)
  log_le : ∀ id row, segments id = some row → row.effectiveLog ≤ segmentLog depth
  whole : ∀ id row, segments id = some row → row.effectiveLog = segmentLog depth ∨ id = 0
  sized : ∀ id row, segments id = some row → row.columns.Sized (2 ^ row.effectiveLog)
  reads : ∀ id row, segments id = some row → ∀ localIdx < 2 ^ row.effectiveLog,
    row.columns.get localIdx = slots (id * 2 ^ row.effectiveLog + localIdx)
  covers : ∀ slot, slots slot ≠ .empty → ∃ row, segments (slot / 2 ^ segmentLog depth) = some row ∧
    slot % 2 ^ segmentLog depth < 2 ^ row.effectiveLog

variable {segments : Nat → Option SegmentRow}

open Classical in
/-- The slots of a set; the others read as empty. -/
noncomputable def restrictTo (set : Set Nat) (slots : Nat → SlotValue) (slot : Nat) : SlotValue :=
  if slot ∈ set then slots slot else .empty

theorem restrictTo_insert (set : Set Nat) (slots : Nat → SlotValue) (slot : Nat) :
    restrictTo (insert slot set) slots =
      Function.update (restrictTo set slots) slot (slots slot) := by
  classical
  funext other
  by_cases same : other = slot
  · subst same
    simp [restrictTo]
  · rw [Function.update_of_ne same, restrictTo, restrictTo]
    simp only [Set.mem_insert_iff, same, false_or]

theorem restrictTo_or (set : Set Nat) (slots : Nat → SlotValue) (slot : Nat) :
    restrictTo set slots slot = .empty ∨ restrictTo set slots slot = slots slot := by
  unfold restrictTo
  split
  · exact .inr rfl
  · exact .inl rfl

/-- One place of a segment. -/
theorem visitSlot_exact {set : Set Nat} {base localIdx : Nat} {columns : SegmentColumns}
    (exact : Indexes index (restrictTo set slots))
    (reads : columns.get localIdx = slots (base + localIdx)) (low : base + localIdx < 2 ^ 32) :
    ∃ after, visitSlot base columns index localIdx = .ok after ∧
      Indexes after (restrictTo (insert (base + localIdx) set) slots) := by
  unfold visitSlot
  rw [reads, restrictTo_insert]
  dsimp only
  split
  case isTrue zero =>
    have empty : slots (base + localIdx) = .empty := by
      by_contra live
      have := lanes_ne_zero.mpr live
      tauto
    refine ⟨index, rfl, ?_⟩
    rcases restrictTo_or set slots (base + localIdx) with held | held
    · rwa [empty, ← held, Function.update_eq_self]
    · rwa [← held, Function.update_eq_self]
  case isFalse lanes =>
    have live : slots (base + localIdx) ≠ .empty := lanes_ne_zero.mp (by tauto)
    refine ⟨_, ?_, exact.put low live (restrictTo_or set slots _)⟩
    simp only [bind_eq_ok, reject_eq_ok, pure_eq_ok]
    exact ⟨(), by omega, trivial⟩

/-- The slots that a row holds. -/
def rowSlots (id : Nat) (row : SegmentRow) : Set Nat :=
  {slot | ∃ localIdx < 2 ^ row.effectiveLog, slot = id * 2 ^ row.effectiveLog + localIdx}

variable {row : SegmentRow}

theorem Durable.row_lt (durable : Durable depth segments slots) (shallow : depth ≤ 32) {id : Nat}
    (found : segments id = some row) :
    (id + 1) * 2 ^ row.effectiveLog ≤ 2 ^ 32 := by
  have inside := durable.id_lt id row found
  have low := durable.log_le id row found
  calc (id + 1) * 2 ^ row.effectiveLog
      ≤ 2 ^ (depth - segmentLog depth) * 2 ^ segmentLog depth :=
        Nat.mul_le_mul inside (Nat.pow_le_pow_right (by omega) low)
    _ = 2 ^ depth := by
        rw [← Nat.pow_add, Nat.sub_add_cancel (segmentLog_le_depth depth)]
    _ ≤ 2 ^ 32 := Nat.pow_le_pow_right (by omega) shallow

theorem visitRow_exact (durable : Durable depth segments slots) (shallow : depth ≤ 32)
    {set : Set Nat} {id : Nat} (found : segments id = some row)
    (exact : Indexes index (restrictTo set slots)) :
    ∃ after, visitRow segments index id = .ok after ∧
      Indexes after (restrictTo (set ∪ rowSlots id row) slots) := by
  have fits := durable.row_lt shallow found
  have sized := durable.sized id row found
  have log := (durable.log_le id row found).trans (segmentLog_le depth)
  have base : id * 2 ^ row.effectiveLog % 2 ^ 64 = id * 2 ^ row.effectiveLog := by
    refine Nat.mod_eq_of_lt (Nat.lt_of_lt_of_le ?_ (show 2 ^ 32 ≤ 2 ^ 64 by decide))
    have := Nat.two_pow_pos row.effectiveLog
    rw [Nat.add_mul, Nat.one_mul] at fits
    omega
  obtain ⟨after, ran, exact⟩ := foldlM_exists
    (f := visitSlot (id * 2 ^ row.effectiveLog) row.columns)
    (l := List.range (2 ^ row.effectiveLog)) (s := index)
    (P := fun done index => Indexes index
      (restrictTo (set ∪ {slot | ∃ localIdx ∈ done, slot = id * 2 ^ row.effectiveLog + localIdx})
        slots)) (by simpa using exact) (by
      intro done localIdx rest index split exact
      have low : localIdx < 2 ^ row.effectiveLog := List.mem_range.mp (by simp [split])
      obtain ⟨after, ran, exact⟩ := visitSlot_exact exact (durable.reads id row found localIdx low) (by
        rw [Nat.add_mul, Nat.one_mul] at fits
        omega)
      refine ⟨after, ran, ?_⟩
      convert exact using 2
      ext slot
      simp only [Set.mem_union, Set.mem_ofPred_eq, List.mem_append, List.mem_singleton,
        Set.mem_insert_iff]
      grind)
  refine ⟨after, ?_, ?_⟩
  · simp only [visitRow, found, visitLiveOwnerRecords, bind_eq_ok, reject_eq_ok, sized.values,
      sized.ownersHi, sized.ownersLo, base]
    exact ⟨(), by simp, (), by omega, (), by omega, ran⟩
  · convert exact using 2
    ext slot
    simp [rowSlots]

/-- The cursor visits every row. -/
theorem mem_cursorIds {id : Nat} (found : segments id = some row) (low : id < 2 ^ 16) :
    id ∈ cursorIds segments := by
  refine List.mem_filter.mpr ⟨List.mem_map.mpr ⟨id % 2 ^ 8 * 2 ^ 8 + id / 2 ^ 8, ?_, ?_⟩,
    by simp [found]⟩
  · rw [List.mem_range]
    omega
  · omega

/-- The rebuild gives the index of the slots that the segment table holds. -/
theorem rebuildOwnerIndex_exact (durable : Durable depth segments slots) (shallow : depth ≤ 32) :
    ∃ rebuilt, rebuildOwnerIndex segments = .ok rebuilt ∧ Indexes rebuilt slots := by
  obtain ⟨rebuilt, ran, exact⟩ := foldlM_exists (f := visitRow segments) (l := cursorIds segments)
    (s := fun _ => none)
    (P := fun done index => Indexes index (restrictTo
      {slot | ∃ id ∈ done, ∃ row, segments id = some row ∧ slot ∈ rowSlots id row} slots)) (by
      convert indexes_none using 1
      funext slot
      simp [restrictTo]) (by
      intro done id rest index split exact
      have member : id ∈ cursorIds segments := by simp [split]
      obtain ⟨row, found⟩ := Option.isSome_iff_exists.mp (List.mem_filter.mp member).2
      obtain ⟨after, ran, exact⟩ := visitRow_exact durable shallow found exact
      refine ⟨after, ran, ?_⟩
      convert exact using 2
      ext slot
      simp only [Set.mem_union, Set.mem_ofPred_eq, List.mem_append, List.mem_singleton]
      constructor
      · rintro ⟨other, listed | rfl, held, stored, here⟩
        · exact .inl ⟨other, listed, held, stored, here⟩
        · obtain rfl := Option.some.inj (found.symm.trans stored)
          exact .inr here
      · rintro (⟨other, listed, held, stored, here⟩ | here)
        · exact ⟨other, .inl listed, held, stored, here⟩
        · exact ⟨id, .inr rfl, row, found, here⟩)
  refine ⟨rebuilt, ran, ?_⟩
  convert exact using 1
  funext slot
  unfold restrictTo
  split
  case isTrue => rfl
  case isFalse outside =>
    by_contra live
    obtain ⟨row, found, low⟩ := durable.covers slot live
    have small : slot / 2 ^ segmentLog depth < 2 ^ 16 :=
      (durable.id_lt _ row found).trans_le (Nat.pow_le_pow_right (by omega) (by
        simp only [segmentLog, logSegmentSize]
        omega))
    refine outside ⟨_, mem_cursorIds found small, row, found, slot % 2 ^ segmentLog depth, low, ?_⟩
    rcases durable.whole _ row found with whole | first
    · rw [whole, Nat.div_add_mod']
    · have split := Nat.div_add_mod' slot (2 ^ segmentLog depth)
      rw [first] at split ⊢
      omega

/-! ## The segment table after the block -/

variable {emptyColumns : StoreError}

/-- A dirty segment replaces its row or deletes it. -/
theorem putSegment_segments {store after : MdbxStore} {entry : DirtySegment × DirtySummary}
    (ran : MdbxStore.putSegment emptyColumns store entry = .ok after) :
    after.segments = Function.update store.segments entry.1.segId
      (entry.1.columns.map fun columns => ⟨entry.1.effectiveLog, columns⟩) := by
  unfold MdbxStore.putSegment at ran
  cases columns : entry.1.columns with
  | none =>
    simp only [columns, pure_eq_ok] at ran
    rw [← ran, Option.map_none]
  | some held =>
    simp only [columns, bind_eq_ok, reject_eq_ok, pure_eq_ok] at ran
    obtain ⟨_, -, rfl⟩ := ran
    rw [Option.map_some]

/-- A segment has the row of one of its dirty entries, or its old row when it has none. -/
theorem foldlM_putSegment {store after : MdbxStore} {entries : List (DirtySegment × DirtySummary)}
    (ran : entries.foldlM (MdbxStore.putSegment emptyColumns) store = .ok after) (id : Nat) :
    (∃ entry ∈ entries, entry.1.segId = id ∧ after.segments id =
        entry.1.columns.map fun columns => ⟨entry.1.effectiveLog, columns⟩) ∨
      (∀ entry ∈ entries, entry.1.segId ≠ id) ∧ after.segments id = store.segments id := by
  refine foldlM_induct (P := fun done (now : MdbxStore) =>
    (∃ entry ∈ done, entry.1.segId = id ∧ now.segments id =
        entry.1.columns.map fun columns => ⟨entry.1.effectiveLog, columns⟩) ∨
      (∀ entry ∈ done, entry.1.segId ≠ id) ∧ now.segments id = store.segments id)
    ran (.inr ⟨by simp, rfl⟩) ?_
  intro done entry rest now next _ held step
  rw [putSegment_segments step]
  by_cases here : entry.1.segId = id
  · exact .inl ⟨entry, by simp, here, by rw [← here, Function.update_self]⟩
  · rw [Function.update_of_ne (Ne.symm here)]
    rcases held with ⟨other, member, same, row⟩ | ⟨apart, row⟩
    · exact .inl ⟨other, by simp [member], same, row⟩
    · refine .inr ⟨fun other member => ?_, row⟩
      rcases List.mem_append.mp member with old | new
      · exact apart other old
      · rw [List.mem_singleton.mp new]
        exact here

theorem domainSegments_eq (shallow : depth ≤ 32) :
    MdbxStore.domainSegments depth = some (2 ^ (depth - segmentLog depth)) := by
  unfold MdbxStore.domainSegments segmentLog
  split
  case isTrue deep =>
    rw [Nat.min_eq_right deep.le, if_pos (by simp only [logSegmentSize]; omega)]
  case isFalse flat =>
    rw [Nat.min_eq_left (Nat.not_lt.mp flat), Nat.sub_self, Nat.pow_zero]

/-- A row of a smaller depth keeps its place when the domain grows. -/
theorem Durable.grow {earlier : Nat} (durable : Durable earlier segments slots)
    (grows : earlier ≤ depth) {id : Nat} (found : segments id = some row) :
    id < 2 ^ (depth - segmentLog depth) ∧ row.effectiveLog ≤ segmentLog depth ∧
      (row.effectiveLog = segmentLog depth ∨ id = 0) := by
  have inside := durable.id_lt id row found
  have low := durable.log_le id row found
  have whole := durable.whole id row found
  have wider : segmentLog earlier ≤ segmentLog depth := min_le_min_right _ grows
  refine ⟨inside.trans_le (Nat.pow_le_pow_right (by omega) ?_), low.trans wider, ?_⟩
  · simp only [segmentLog, logSegmentSize]
    omega
  · rcases Nat.lt_or_ge earlier logSegmentSize with small | full
    · rw [show earlier - segmentLog earlier = 0 by simp only [segmentLog]; omega] at inside
      exact .inr (by omega)
    · have same : segmentLog earlier = segmentLog depth := by
        simp only [segmentLog]
        omega
      rwa [same] at whole

/-- After growth a live slot is still in the row that a deeper segment names. -/
theorem Durable.covers_grow {earlier : Nat} (durable : Durable earlier segments slots)
    (grows : earlier ≤ depth) (live : slots slot ≠ .empty) :
    ∃ row, segments (slot / 2 ^ segmentLog depth) = some row ∧
      slot % 2 ^ segmentLog depth < 2 ^ row.effectiveLog := by
  obtain ⟨row, found, low⟩ := durable.covers slot live
  rcases Nat.lt_or_ge earlier logSegmentSize with small | full
  · -- one segment before, and the slot in the part of it that was there
    have first := durable.id_lt _ row found
    rw [show earlier - segmentLog earlier = 0 by simp only [segmentLog]; omega, Nat.pow_zero,
      Nat.lt_one_iff] at first
    have inside : slot < 2 ^ segmentLog earlier :=
      (Nat.div_eq_zero_iff_lt (Nat.two_pow_pos _)).mp first
    have wider : slot < 2 ^ segmentLog depth :=
      inside.trans_le (Nat.pow_le_pow_right (by omega) (min_le_min_right _ grows))
    rw [first] at found
    rw [Nat.mod_eq_of_lt inside] at low
    exact ⟨row, by rwa [Nat.div_eq_of_lt wider], by rwa [Nat.mod_eq_of_lt wider]⟩
  · have same : segmentLog earlier = segmentLog depth := by
      simp only [segmentLog]
      omega
    rw [same] at found low
    exact ⟨row, found, low⟩

/-- The commit leaves a segment table that holds the slots after the block. -/
theorem installSegments_durable {earlier : Nat} {store installed : MdbxStore}
    {summaries : List DirtySummary} {outOfDomain : StoreError}
    (durable : Durable earlier store.segments before) (grows : earlier ≤ depth)
    (shallow : depth ≤ 32) (carries : Carries dirtySegments depth before after)
    (paired : dirtySegments.length = summaries.length)
    (ran : store.installSegments dirtySegments summaries depth emptyColumns outOfDomain =
      .ok installed) :
    Durable depth installed.segments after := by
  simp only [MdbxStore.installSegments, bind_eq_ok, okOr_eq_ok, pure_eq_ok,
    domainSegments_eq shallow, Option.some.injEq] at ran
  obtain ⟨written, wrote, _, rfl, rfl⟩ := ran
  have fromDirty {entry : DirtySegment × DirtySummary}
      (member : entry ∈ dirtySegments.zip summaries) : entry.1 ∈ dirtySegments :=
    (List.of_mem_zip member).1
  have listed {dirty : DirtySegment} (member : dirty ∈ dirtySegments) :
      ∃ entry ∈ dirtySegments.zip summaries, entry.1 = dirty := by
    rw [← List.map_fst_zip (le_of_eq paired)] at member
    obtain ⟨entry, inside, rfl⟩ := List.mem_map.mp member
    exact ⟨entry, inside, rfl⟩
  -- slots of an old row whose segment is not dirty have kept their values
  have kept {id : Nat} {row : SegmentRow} (found : store.segments id = some row)
      (clean : ∀ entry ∈ dirtySegments.zip summaries, entry.1.segId ≠ id) {localIdx : Nat}
      (low : localIdx < 2 ^ row.effectiveLog) :
      before (id * 2 ^ row.effectiveLog + localIdx) =
        after (id * 2 ^ row.effectiveLog + localIdx) := by
    by_contra moved
    obtain ⟨dirty, member, here⟩ := carries.changed _ moved
    obtain ⟨entry, inside, rfl⟩ := listed member
    refine clean entry inside (here.trans ?_)
    obtain ⟨-, fits, whole | first⟩ := durable.grow grows found
    · rw [whole] at low ⊢
      rw [Nat.mul_comm, Nat.mul_add_div (Nat.two_pow_pos _), Nat.div_eq_of_lt low, Nat.add_zero]
    · rw [first, Nat.zero_mul, Nat.zero_add]
      exact Nat.div_eq_of_lt (low.trans_le (Nat.pow_le_pow_right (by omega) fits))
  -- a row in the domain is that of a dirty entry, or an old one of a clean segment
  have rows {id : Nat} {row : SegmentRow}
      (found : (written.purgeOutOfDomain (2 ^ (depth - segmentLog depth))).segments id = some row) :
      id < 2 ^ (depth - segmentLog depth) ∧
        ((∃ dirty ∈ dirtySegments, dirty.segId = id ∧ row.effectiveLog = segmentLog depth ∧
          dirty.columns = some row.columns) ∨
        (∀ entry ∈ dirtySegments.zip summaries, entry.1.segId ≠ id) ∧
          store.segments id = some row) := by
    simp only [MdbxStore.purgeOutOfDomain] at found
    split at found
    · simp at found
    next low =>
      refine ⟨by omega, ?_⟩
      rcases foldlM_putSegment wrote id with ⟨entry, inside, here, stored⟩ | ⟨clean, old⟩
      · rw [found] at stored
        obtain ⟨columns, held, rfl⟩ := Option.map_eq_some_iff.mp stored.symm
        exact .inl ⟨entry.1, fromDirty inside, here,
          carries.effectiveLog _ (fromDirty inside), held⟩
      · exact .inr ⟨clean, old ▸ found⟩
  refine ⟨fun id row found => (rows found).1, fun id row found => ?_, fun id row found => ?_,
    fun id row found => ?_, fun id row found localIdx low => ?_, fun slot live => ?_⟩
  · obtain ⟨-, ⟨_, -, -, log, -⟩ | ⟨-, old⟩⟩ := rows found
    · exact log.le
    · exact (durable.grow grows old).2.1
  · obtain ⟨-, ⟨_, -, -, log, -⟩ | ⟨-, old⟩⟩ := rows found
    · exact .inl log
    · exact (durable.grow grows old).2.2
  · obtain ⟨-, ⟨dirty, member, -, log, held⟩ | ⟨-, old⟩⟩ := rows found
    · rw [log]
      exact (carries.resident dirty member _ held).1
    · exact durable.sized id row old
  · obtain ⟨-, ⟨dirty, member, rfl, log, held⟩ | ⟨clean, old⟩⟩ := rows found
    · rw [log] at low ⊢
      exact (carries.resident dirty member _ held).2 localIdx low
    · rw [durable.reads id row old localIdx low, kept old clean low]
  · obtain ⟨place, low⟩ := segment_place slot depth
    have resident {id : Nat} {row : SegmentRow} (inside : id < 2 ^ (depth - segmentLog depth))
        (stored : written.segments id = some row) :
        (written.purgeOutOfDomain (2 ^ (depth - segmentLog depth))).segments id = some row := by
      simp only [MdbxStore.purgeOutOfDomain]
      rwa [if_neg (by omega)]
    rcases foldlM_putSegment wrote (slot / 2 ^ segmentLog depth) with
      ⟨entry, inside, here, stored⟩ | ⟨clean, old⟩
    · have member := fromDirty inside
      cases columns : entry.1.columns with
      | none =>
        have empty := carries.emptied entry.1 member columns _ low
        rw [here, place] at empty
        exact absurd empty live
      | some held =>
        rw [columns, Option.map_some] at stored
        refine ⟨_, resident (here ▸ carries.inside _ member) stored, ?_⟩
        rwa [carries.effectiveLog _ member]
    · have unchanged : before slot = after slot := by
        by_contra moved
        obtain ⟨dirty, member, here⟩ := carries.changed slot moved
        obtain ⟨entry, inside, rfl⟩ := listed member
        exact clean entry inside here
      obtain ⟨row, found, covered⟩ := durable.covers_grow grows (unchanged ▸ live)
      exact ⟨row, resident (durable.grow grows found).1 (old ▸ found), covered⟩

/-! ## The two paths agree -/

/-- From an exact index of the segment table before a block, the incremental path ends without an
error and with the exact index of the slots after it. Whenever the segment part of the commit
succeeds, its table holds these slots, and the rebuild from it gives the same index. -/
theorem owner_index_incremental_exact {earlier depth : Nat} {store : MdbxStore}
    {before after : Nat → SlotValue} {index : OwnerIndex} {undo : BlockUndoLog}
    {dirtySegments : List DirtySegment} (grows : earlier ≤ depth) (shallow : depth ≤ 32)
    (durable : Durable earlier store.segments before) (exact : Indexes index before)
    (lists : undo.Lists depth before after)
    (carries : Carries dirtySegments depth before after) :
    ∃ updated, updateOwnerIndex dirtySegments undo index = .ok updated ∧
      Indexes updated after ∧
      ∀ (summaries : List DirtySummary) (emptyColumns outOfDomain : StoreError)
        (installed : MdbxStore), dirtySegments.length = summaries.length →
        store.installSegments dirtySegments summaries depth emptyColumns outOfDomain =
          .ok installed →
        Durable depth installed.segments after ∧
          rebuildOwnerIndex installed.segments = .ok updated := by
  obtain ⟨updated, ran, exact'⟩ := updateOwnerIndex_exact shallow exact lists carries
  refine ⟨updated, ran, exact', fun summaries emptyColumns outOfDomain installed paired ran => ?_⟩
  have held := installSegments_durable durable grows shallow carries paired ran
  obtain ⟨rebuilt, again, exact''⟩ := rebuildOwnerIndex_exact held shallow
  exact ⟨held, again.trans (congrArg _ (exact''.unique exact'))⟩

/-- Two slots of which one is live. -/
def oneLive (place : Nat) (slot : SlotValue) : SegmentColumns := (SegmentColumns.newZero 2).put place slot

theorem sized_oneLive (place : Nat) (slot : SlotValue) : (oneLive place slot).Sized 2 :=
  (SegmentColumns.sized_newZero 2).put place slot

theorem get_oneLive {place : Nat} (inside : place < 2) (slot : SlotValue) :
    (oneLive place slot).get = Function.update (fun _ => .empty) place slot := by
  rw [oneLive, (SegmentColumns.sized_newZero 2).get_put inside]
  exact congrArg (Function.update · place slot) (funext (SegmentColumns.get_newZero 2))

/-- A store of depth one with these columns. -/
def oneSegmentStore (columns : SegmentColumns) : MdbxStore where
  segments id := if id = 0 then some ⟨1, columns⟩ else none
  segmentSummaries _ := none

theorem durable_oneLive {place : Nat} (inside : place < 2) (slot : SlotValue) :
    Durable 1 (oneSegmentStore (oneLive place slot)).segments
      (Function.update (fun _ => .empty) place slot) := by
  have only {id : Nat} {row : SegmentRow}
      (found : (oneSegmentStore (oneLive place slot)).segments id = some row) :
      id = 0 ∧ row = ⟨1, oneLive place slot⟩ := by
    simp only [oneSegmentStore] at found
    split at found
    · exact ⟨‹_›, (Option.some.inj found).symm⟩
    · simp at found
  refine ⟨?_, ?_, ?_, ?_, ?_, fun other live => ?_⟩
  · rintro id row found
    obtain ⟨rfl, rfl⟩ := only found
    decide
  · rintro id row found
    obtain ⟨rfl, rfl⟩ := only found
    exact le_of_eq rfl
  · rintro id row found
    exact .inr (only found).1
  · rintro id row found
    obtain ⟨rfl, rfl⟩ := only found
    exact sized_oneLive place slot
  · rintro id row found localIdx low
    obtain ⟨rfl, rfl⟩ := only found
    rw [get_oneLive inside]
    simp
  · obtain rfl : other = place := by
      by_contra apart
      exact live (Function.update_of_ne apart _ _)
    refine ⟨⟨1, oneLive other slot⟩, if_pos (Nat.div_eq_of_lt inside), ?_⟩
    exact Nat.mod_lt _ (by decide)

/-- The first of two slots is spent and the second one minted. -/
theorem owner_index_incremental_moves :
    ∃ updated, updateOwnerIndex [⟨0, 1, some (oneLive 1 ⟨7, 0, 3⟩)⟩]
        ⟨1, 1, 1, 1, [(0, ⟨5, 2, 0⟩), (1, .empty)], []⟩
        (Function.update (fun _ => none) (slotIndexKey 0 ⟨5, 2, 0⟩)
          (some (encodeOwnerIndexValue 5))) = .ok updated ∧
      Indexes updated (Function.update (fun _ => .empty) 1 ⟨7, 0, 3⟩) := by
  have moved {slot : Nat} (apart : Function.update (fun _ => SlotValue.empty) 0 ⟨5, 2, 0⟩ slot ≠
      Function.update (fun _ => SlotValue.empty) 1 ⟨7, 0, 3⟩ slot) : slot = 0 ∨ slot = 1 := by
    by_contra neither
    obtain ⟨first, second⟩ := not_or.mp neither
    exact apart (by rw [Function.update_of_ne first, Function.update_of_ne second])
  have lists : BlockUndoLog.Lists ⟨1, 1, 1, 1, [(0, ⟨5, 2, 0⟩), (1, .empty)], []⟩ 1
      (Function.update (fun _ => .empty) 0 ⟨5, 2, 0⟩)
      (Function.update (fun _ => .empty) 1 ⟨7, 0, 3⟩) :=
    ⟨by decide, by simp, by simp, fun slot apart => by simpa using moved apart⟩
  have carries : Carries [⟨0, 1, some (oneLive 1 ⟨7, 0, 3⟩)⟩] 1
      (Function.update (fun _ => .empty) 0 ⟨5, 2, 0⟩)
      (Function.update (fun _ => .empty) 1 ⟨7, 0, 3⟩) := by
    refine ⟨by simp [segmentLog, logSegmentSize], by simp, ?_, by simp, fun slot apart => ?_⟩
    · rintro dirty member columns held
      obtain rfl := List.mem_singleton.mp member
      obtain rfl := Option.some.inj held
      refine ⟨sized_oneLive _ _, fun localIdx low => ?_⟩
      rw [get_oneLive (by decide)]
      simp
    · refine ⟨_, List.mem_singleton_self _, ?_⟩
      rcases moved apart with rfl | rfl <;> rfl
  obtain ⟨updated, ran, exact, -⟩ := owner_index_incremental_exact le_rfl (by decide)
    (durable_oneLive (show 0 < 2 by decide) ⟨5, 2, 0⟩)
    (indexes_none.put (by decide) (by decide) (.inl rfl)) lists carries
  exact ⟨updated, ran, exact⟩

end ParanoidChain
