import ParanoidChain.Laws.Consensus.Preflight
import ParanoidChain.Laws.Tx.Wire
import ParanoidChain.Storage.Serial

/-!
# The row formats are canonical

A segment row is a list of live entries in ascending order, and such lists are the live entries of
columns of the segment's size: so encoding and decoding are one relation between columns and bytes
(`decodeSegment_eq_some`). An undo log reads back when its counts are within the decoder's caps,
which the limits on a block's records imply.
-/

namespace ParanoidChain

open Lib Lib.Wire

variable {src rest : List Byte}

@[simp] theorem reads_decodeSlotValue {slot : SlotValue} :
    Reads decodeSlotValue src slot rest ↔ src = encodeSlotValue slot ++ rest := by
  simp only [decodeSlotValue, reads_bind, reads_takeU128, reads_pure, encodeSlotValue]
  constructor
  · rintro ⟨value, _, rfl, hi, _, rfl, lo, _, rfl, rfl, rfl⟩
    simp
  · rintro rfl
    exact ⟨_, _, by simp, _, _, rfl, _, _, rfl, rfl, rfl⟩

@[simp] theorem length_encodeSlotValue (slot : SlotValue) : (encodeSlotValue slot).length = 48 := by
  simp [encodeSlotValue, putU128]

@[simp] theorem reads_decodeSegmentEntry {entry : U16 × SlotValue} :
    Reads decodeSegmentEntry src entry rest ↔ src = encodeSegmentEntry entry ++ rest := by
  simp only [decodeSegmentEntry, reads_bind, reads_takeU16, reads_decodeSlotValue, reads_pure,
    encodeSegmentEntry]
  constructor
  · rintro ⟨index, _, rfl, slot, _, rfl, rfl, rfl⟩
    simp
  · rintro rfl
    exact ⟨_, _, by simp, _, _, rfl, rfl, rfl⟩

@[simp] theorem length_encodeSegmentEntry (entry : U16 × SlotValue) :
    (encodeSegmentEntry entry).length = encodedSegmentEntryBytes := by
  simp [encodeSegmentEntry, putU16, encodedSegmentEntryBytes]

theorem length_flatMap_entries (entries : List (U16 × SlotValue)) :
    (entries.flatMap encodeSegmentEntry).length = entries.length * encodedSegmentEntryBytes := by
  rw [List.length_flatMap]
  simp

/-! ## Live entries -/

/-- Live entries of a segment, in ascending order. -/
structure CanonicalEntries (capacity : Nat) (entries : List (U16 × SlotValue)) : Prop where
  live : ∀ entry ∈ entries, entry.2 ≠ .empty
  inside : ∀ entry ∈ entries, entry.1.toNat < capacity
  sorted : entries.Pairwise fun first second => first.1 < second.1

/-- The scan of a row accepts canonical entries whose first place is behind the previous one. -/
theorem foldlM_nextEntry (capacity : Nat) (entries : List (U16 × SlotValue)) :
    ∀ previous : Option U16,
      (∃ last, entries.foldlM (nextEntry capacity) previous = some last) ↔
        CanonicalEntries capacity entries ∧
          ∀ before ∈ previous, ∀ entry ∈ entries, before < entry.1 := by
  induction entries with
  | nil => exact fun previous => ⟨fun _ => ⟨⟨by simp, by simp, .nil⟩, by simp⟩, fun _ => ⟨_, rfl⟩⟩
  | cons entry entries ih =>
    intro previous
    have next := ih (some entry.1)
    simp only [List.foldlM_cons, nextEntry, bind_eq_some,
      guard_eq_some, pure_eq_some, Option.some.injEq, SlotValue.isEmpty_eq_false,
      Option.mem_def, forall_eq'] at next ⊢
    constructor
    · rintro ⟨last, _, ⟨_, ⟨live, low, before⟩, rfl⟩, ran⟩
      obtain ⟨later, above⟩ := next.mp ⟨last, ran⟩
      refine ⟨⟨?_, ?_, List.pairwise_cons.mpr ⟨above, later.sorted⟩⟩, fun old held => ?_⟩
      · exact List.forall_mem_cons.mpr ⟨live, later.live⟩
      · exact List.forall_mem_cons.mpr ⟨low, later.inside⟩
      · exact List.forall_mem_cons.mpr ⟨before old held, fun other member =>
          BitVec.lt_trans (before old held) (above other member)⟩
    · rintro ⟨canonical, before⟩
      obtain ⟨above, sorted⟩ := List.pairwise_cons.mp canonical.sorted
      obtain ⟨live, lives⟩ := List.forall_mem_cons.mp canonical.live
      obtain ⟨low, lows⟩ := List.forall_mem_cons.mp canonical.inside
      obtain ⟨last, ran⟩ := next.mpr ⟨⟨lives, lows, sorted⟩, above⟩
      exact ⟨last, _, ⟨(), ⟨live, low, fun old held => before old held entry (by simp)⟩, rfl⟩, ran⟩

variable {capacity : Nat} {entries : List (U16 × SlotValue)}

/-- Without a previous entry the scan accepts exactly the canonical ones. -/
theorem foldlM_nextEntry_none :
    (∃ last, entries.foldlM (nextEntry capacity) none = some last) ↔
      CanonicalEntries capacity entries := by
  simp [foldlM_nextEntry]

/-! ## Columns and their live entries -/

namespace SegmentColumns

variable {columns others : SegmentColumns} {size : Nat}

/-- The live slots of columns, as the entries of a row. -/
def liveEntries (columns : SegmentColumns) : List (U16 × SlotValue) :=
  columns.liveIndices.map fun index => (BitVec.ofNat 16 index, columns.get index)

/-- Columns of a size from the entries of a row. -/
def ofEntries (size : Nat) (entries : List (U16 × SlotValue)) : SegmentColumns :=
  entries.foldl (fun columns entry => columns.put entry.1.toNat entry.2) (newZero size)

/-- The live places are those whose slot is not empty. -/
theorem mem_liveIndices (sized : columns.Sized size) {index : Nat} :
    index ∈ columns.liveIndices ↔ columns.get index ≠ .empty := by
  simp only [liveIndices, List.mem_filter, List.mem_range, Bool.not_eq_true', sized.values,
    SlotValue.isEmpty_eq_false, and_iff_right_iff_imp]
  intro live
  exact Nat.lt_of_not_le fun outside => live (sized.get_of_le outside)

theorem liveIndices_lt (sized : columns.Sized size) {index : Nat}
    (member : index ∈ columns.liveIndices) : index < size := by
  simpa [sized.values] using (List.mem_filter.mp member).1

theorem sorted_liveIndices (columns : SegmentColumns) : columns.liveIndices.Pairwise (· < ·) :=
  List.pairwise_lt_range.filter _

theorem nodup_liveIndices (columns : SegmentColumns) : columns.liveIndices.Nodup :=
  (sorted_liveIndices columns).nodup

theorem length_liveIndices_le (sized : columns.Sized size) : columns.liveIndices.length ≤ size := by
  simpa [liveIndices, sized.values] using
    List.length_filter_le (fun index => !(columns.get index).isEmpty) (List.range columns.values.length)

/-- Columns of one size that read alike are the same. -/
theorem Sized.ext (sized : columns.Sized size) (sized' : others.Sized size)
    (same : columns.get = others.get) : columns = others := by
  have lanes (index : Nat) : columns.values.getD index 0 = others.values.getD index 0 ∧
      columns.ownersHi.getD index 0 = others.ownersHi.getD index 0 ∧
      columns.ownersLo.getD index 0 = others.ownersLo.getD index 0 := by
    simpa [SegmentColumns.get] using congrFun same index
  have lane {first second : List Block128} (length : first.length = second.length)
      (reads : ∀ index, first.getD index 0 = second.getD index 0) : first = second := by
    refine List.ext_getElem length fun index low high => ?_
    have := reads index
    rwa [List.getD_eq_getElem _ _ low, List.getD_eq_getElem _ _ high] at this
  have values := lane (sized.values.trans sized'.values.symm) fun index => (lanes index).1
  have hi := lane (sized.ownersHi.trans sized'.ownersHi.symm) fun index => (lanes index).2.1
  have lo := lane (sized.ownersLo.trans sized'.ownersLo.symm) fun index => (lanes index).2.2
  cases columns
  cases others
  simp_all

/-- The writes that entries stand for. -/
def entryWrites (entries : List (U16 × SlotValue)) : List (Nat × SlotValue) :=
  entries.map fun entry => (entry.1.toNat, entry.2)

theorem foldl_put {writes : List (U16 × SlotValue)} (sized : columns.Sized size)
    (inside : ∀ entry ∈ writes, entry.1.toNat < size) :
    (writes.foldl (fun columns entry => columns.put entry.1.toNat entry.2) columns).Sized size ∧
      (writes.foldl (fun columns entry => columns.put entry.1.toNat entry.2) columns).get =
        overlay columns.get (entryWrites writes) := by
  induction writes generalizing columns with
  | nil => exact ⟨sized, rfl⟩
  | cons entry writes ih =>
    obtain ⟨here, others⟩ := List.forall_mem_cons.mp inside
    obtain ⟨kept, reads⟩ := ih (sized.put entry.1.toNat entry.2) others
    refine ⟨kept, reads.trans ?_⟩
    rw [sized.get_put here]
    rfl

theorem get_newZero_eq (size : Nat) : (newZero size).get = fun _ => .empty :=
  funext (get_newZero size)

theorem sized_ofEntries {entries : List (U16 × SlotValue)}
    (canonical : CanonicalEntries size entries) : (ofEntries size entries).Sized size :=
  (foldl_put (sized_newZero size) canonical.inside).1

/-- Columns filled from canonical entries hold them over an empty segment. -/
theorem get_ofEntries {entries : List (U16 × SlotValue)} (canonical : CanonicalEntries size entries) :
    (ofEntries size entries).get = overlay (fun _ => .empty) (entryWrites entries) := by
  rw [← get_newZero_eq size]
  exact (foldl_put (sized_newZero size) canonical.inside).2

end SegmentColumns

open SegmentColumns

/-- Canonical entries are sorted by place. -/
theorem CanonicalEntries.sorted_keys (canonical : CanonicalEntries capacity entries) :
    (entryWrites entries).Pairwise fun first second => first.1 < second.1 := by
  rw [entryWrites, List.pairwise_map]
  exact canonical.sorted.imp fun less => BitVec.lt_def.mp less

/-- The live entries of the columns that entries make are those entries. -/
theorem liveEntries_ofEntries (canonical : CanonicalEntries capacity entries) :
    (ofEntries capacity entries).liveEntries = entries := by
  have sized := sized_ofEntries canonical
  have distinct : ((entryWrites entries).map Prod.fst).Nodup :=
    SortedMap.Ascending.nodup_keys canonical.sorted_keys
  have reads : ∀ write ∈ entryWrites entries, (ofEntries capacity entries).get write.1 = write.2 := by
    intro write member
    rw [get_ofEntries canonical, overlay_mem distinct member]
  have indices : (ofEntries capacity entries).liveIndices = (entryWrites entries).map Prod.fst := by
    refine List.Perm.eq_of_pairwise
      (fun a b _ _ (less : a < b) (more : b < a) => absurd less (by omega))
      (sorted_liveIndices _) (List.pairwise_map.mpr canonical.sorted_keys)
      ((List.perm_ext_iff_of_nodup (nodup_liveIndices _) distinct).mpr fun index => ?_)
    rw [mem_liveIndices sized]
    constructor
    · intro live
      by_contra absent
      exact live (by rw [get_ofEntries canonical, overlay_of_not_mem absent])
    · intro member
      obtain ⟨write, inside, rfl⟩ := List.mem_map.mp member
      rw [reads write inside]
      obtain ⟨entry, found, rfl⟩ := List.mem_map.mp inside
      exact canonical.live entry found
  rw [liveEntries, indices, entryWrites, List.map_map, List.map_map]
  conv_rhs => rw [← List.map_id entries]
  refine List.map_congr_left fun entry member => ?_
  have here := reads (entry.1.toNat, entry.2) (List.mem_map_of_mem member)
  simp only [Function.comp_apply, id_eq]
  rw [here, BitVec.ofNat_toNat, BitVec.setWidth_eq]

variable {columns : SegmentColumns}

/-- Columns of at most `2 ^ 16` slots have canonical live entries, and these make the columns. -/
theorem canonical_liveEntries {size : Nat} (sized : columns.Sized size) (small : size ≤ 2 ^ 16) :
    CanonicalEntries size columns.liveEntries := by
  have index_eq {index : Nat} (member : index ∈ columns.liveIndices) :
      (BitVec.ofNat 16 index).toNat = index :=
    Nat.mod_eq_of_lt ((liveIndices_lt sized member).trans_le small)
  refine ⟨?_, ?_, ?_⟩
  · intro entry member
    obtain ⟨index, inside, rfl⟩ := List.mem_map.mp member
    exact (mem_liveIndices sized).mp inside
  · intro entry member
    obtain ⟨index, inside, rfl⟩ := List.mem_map.mp member
    rw [index_eq inside]
    exact liveIndices_lt sized inside
  · rw [liveEntries, List.pairwise_map]
    refine (sorted_liveIndices columns).imp_of_mem fun first second less => ?_
    rw [BitVec.lt_def, index_eq first, index_eq second]
    exact less

/-- A segment is rebuilt from its live entries. -/
theorem ofEntries_liveEntries {size : Nat} (sized : columns.Sized size) (small : size ≤ 2 ^ 16) :
    ofEntries size columns.liveEntries = columns := by
  have canonical := canonical_liveEntries sized small
  have writes : entryWrites columns.liveEntries =
      columns.liveIndices.map fun index => (index, columns.get index) := by
    rw [entryWrites, liveEntries, List.map_map]
    refine List.map_congr_left fun index member => ?_
    have := Nat.mod_eq_of_lt ((liveIndices_lt sized member).trans_le small)
    simpa using this
  refine (sized_ofEntries canonical).ext sized (funext fun index => ?_)
  rw [get_ofEntries canonical, writes]
  by_cases live : columns.get index = .empty
  · rw [overlay_of_not_mem, live]
    simpa [mem_liveIndices sized, Function.comp_def] using live
  · have distinct : ((columns.liveIndices.map fun index => (index, columns.get index)).map
        Prod.fst).Nodup := by
      rw [List.map_map]
      exact (nodup_liveIndices columns).map fun _ _ same => same
    exact overlay_mem distinct (List.mem_map.mpr ⟨index, (mem_liveIndices sized).mpr live, rfl⟩) _

/-! ## Segment rows -/

/-- The row of some entries. -/
def segmentRow (effectiveLogSeg : Byte) (entries : List (U16 × SlotValue)) : List Byte :=
  segmentHeader effectiveLogSeg entries.length ++ entries.flatMap encodeSegmentEntry

theorem length_segmentHeader (effectiveLogSeg : Byte) (liveCount : Nat) :
    (segmentHeader effectiveLogSeg liveCount).length = encodedSegmentHeaderBytes := by
  simp [segmentHeader, segmentEncodingMagic, putU32, encodedSegmentHeaderBytes]

theorem length_segmentRow (effectiveLogSeg : Byte) (entries : List (U16 × SlotValue)) :
    (segmentRow effectiveLogSeg entries).length =
      encodedSegmentHeaderBytes + entries.length * encodedSegmentEntryBytes := by
  rw [segmentRow, List.length_append, length_segmentHeader, length_flatMap_entries]

variable {effectiveLogSeg : Byte}

/-- The length computed in advance is that of a row, for a depth and a count that fit. -/
theorem encodedSegmentLenForLiveCount_eq_some {liveCount length : Nat} :
    encodedSegmentLenForLiveCount effectiveLogSeg liveCount = some length ↔
      effectiveLogSeg.toNat ≤ 16 ∧ liveCount ≤ 2 ^ effectiveLogSeg.toNat ∧
        encodedSegmentHeaderBytes + liveCount * encodedSegmentEntryBytes = length := by
  simp [encodedSegmentLenForLiveCount, Option.bind_eq_some_iff]

theorem two_pow_log_le (small : effectiveLogSeg.toNat ≤ 16) :
    2 ^ effectiveLogSeg.toNat ≤ 2 ^ 16 := Nat.pow_le_pow_right (by omega) small

theorem CanonicalEntries.length_le (canonical : CanonicalEntries capacity entries) :
    entries.length ≤ capacity := by
  have count := length_liveIndices_le (sized_ofEntries canonical)
  have same := congrArg List.length (liveEntries_ofEntries canonical)
  rw [liveEntries, List.length_map] at same
  omega

/-- A counted list of entries is read exactly from its encoding. -/
theorem reads_takeEntries {count : Nat} :
    Reads (takeList decodeSegmentEntry count) src entries rest ↔
      entries.length = count ∧ src = entries.flatMap encodeSegmentEntry ++ rest := by
  have law : ∀ src entry rest, Reads decodeSegmentEntry src entry rest ↔
      True ∧ src = encodeSegmentEntry entry ++ rest := by simp
  simp [reads_takeList law]

/-- A reader that is run to an option. -/
theorem run_toOption_eq_some {α : Type} {reader : Reader WireError α} {a : α} :
    (reader.run src).toOption = some (a, rest) ↔ Reads reader src a rest :=
  toOption_eq_some

/-- The entries of a payload of whole entries. -/
theorem segmentEntries_eq_some {payload : List Byte} {count : Nat}
    (whole : payload.length = count * encodedSegmentEntryBytes) :
    segmentEntries payload = some entries ↔ payload = entries.flatMap encodeSegmentEntry := by
  have size : payload.length / encodedSegmentEntryBytes = count := by
    rw [whole]
    exact Nat.mul_div_cancel _ (by decide)
  simp only [segmentEntries, size, Option.map_eq_some_iff, Prod.exists, run_toOption_eq_some,
    reads_takeEntries, exists_and_right, exists_eq_right]
  constructor
  · rintro ⟨rest, length, rfl⟩
    rw [List.length_append, length_flatMap_entries, length] at whole
    rw [List.eq_nil_of_length_eq_zero (show rest.length = 0 by omega), List.append_nil]
  · rintro rfl
    refine ⟨[], ?_, by simp⟩
    rw [length_flatMap_entries] at whole
    exact Nat.eq_of_mul_eq_mul_right (by decide) whole

/-- The header is the magic, the depth and the live count. -/
theorem reads_decodeSegmentHeader {liveCount : U32} :
    Reads decodeSegmentHeader src (effectiveLogSeg, liveCount) rest ↔
      src = segmentEncodingMagic ++ [effectiveLogSeg] ++ putU32 liveCount ++ rest := by
  simp only [decodeSegmentHeader, reads_bind, reads_take, reads_check, reject_eq_ok, reads_takeByte,
    reads_takeU32, reads_pure, not_not, Prod.mk.injEq]
  constructor
  · rintro ⟨_, _, ⟨-, rfl⟩, _, _, ⟨rfl, rfl⟩, _, _, rfl, _, _, rfl, ⟨rfl, rfl⟩, rfl⟩
    simp
  · rintro rfl
    exact ⟨_, _, ⟨rfl, by simp⟩, (), _, ⟨rfl, rfl⟩, _, _, rfl, _, _, rfl, ⟨rfl, rfl⟩, rfl⟩

variable {bytes : List Byte}

/-- A row is accepted when it is the row of canonical entries. -/
theorem decodeSparseSegment_eq_some {view : SparseSegmentView} :
    decodeSparseSegment bytes = some view ↔ ∃ entries, view.effectiveLogSeg.toNat ≤ 16 ∧
      CanonicalEntries (2 ^ view.effectiveLogSeg.toNat) entries ∧
      bytes = segmentRow view.effectiveLogSeg entries ∧
      view.liveCount = BitVec.ofNat 32 entries.length ∧
      view.payload = entries.flatMap encodeSegmentEntry := by
  obtain ⟨effectiveLogSeg, liveCount, payload⟩ := view
  simp only [decodeSparseSegment, bind_eq_some, Prod.exists,
    run_toOption_eq_some, guard_eq_some, pure_eq_some,
    encodedSegmentLenForLiveCount_eq_some, SparseSegmentView.mk.injEq, reads_decodeSegmentHeader]
  constructor
  · rintro ⟨_, liveCount, payload, rfl, _, small, _, ⟨-, few, rfl⟩, _, size, entries, found, last,
      ran, rfl, rfl, rfl⟩
    have whole : payload.length = liveCount.toNat * encodedSegmentEntryBytes := by
      simp only [List.length_append, segmentEncodingMagic, putU32, length_toLeBytes,
        List.length_cons, List.length_nil, encodedSegmentHeaderBytes] at size
      omega
    have payload_eq := (segmentEntries_eq_some whole).mp found
    have count : entries.length = liveCount.toNat := by
      rw [payload_eq, length_flatMap_entries] at whole
      exact Nat.eq_of_mul_eq_mul_right (by decide) whole
    refine ⟨entries, small, foldlM_nextEntry_none.mp ⟨last, ran⟩, ?_, ?_, payload_eq⟩
    · rw [segmentRow, segmentHeader, count, BitVec.ofNat_toNat, BitVec.setWidth_eq, payload_eq]
    · rw [count, BitVec.ofNat_toNat, BitVec.setWidth_eq]
  · rintro ⟨entries, small, canonical, rfl, rfl, rfl⟩
    obtain ⟨last, ran⟩ := foldlM_nextEntry_none.mpr canonical
    have few := canonical.length_le
    have count : (BitVec.ofNat 32 entries.length).toNat = entries.length :=
      Nat.mod_eq_of_lt (by have := two_pow_log_le small; omega)
    refine ⟨_, _, _, rfl, (), small, _, ⟨small, by rw [count]; exact few, rfl⟩, (), ?_, entries,
      (segmentEntries_eq_some (length_flatMap_entries entries)).mpr rfl, last, ran, rfl, rfl, rfl⟩
    rw [length_segmentRow, count]

/-- Canonical entries are written as their row, and no others are. -/
theorem encodeSparseSegmentEntries_eq_some :
    encodeSparseSegmentEntries effectiveLogSeg entries = some bytes ↔
      effectiveLogSeg.toNat ≤ 16 ∧ CanonicalEntries (2 ^ effectiveLogSeg.toNat) entries ∧
        segmentRow effectiveLogSeg entries = bytes := by
  simp only [encodeSparseSegmentEntries, bind_eq_some,
    guard_eq_some, pure_eq_some, encodedSegmentLenForLiveCount_eq_some]
  constructor
  · rintro ⟨_, -, _, ⟨small, -, -⟩, last, ran, _, -, rfl⟩
    exact ⟨small, foldlM_nextEntry_none.mp ⟨last, ran⟩, rfl⟩
  · rintro ⟨small, canonical, rfl⟩
    obtain ⟨last, ran⟩ := foldlM_nextEntry_none.mpr canonical
    have few := canonical.length_le
    have bound := two_pow_log_le small
    exact ⟨(), by omega, _, ⟨small, few, rfl⟩, last, ran, (), length_segmentRow _ _, rfl⟩

/-- A segment of the right size is written as the row of its live entries. -/
theorem encodeSegment_eq_some :
    encodeSegment columns effectiveLogSeg = some bytes ↔ effectiveLogSeg.toNat ≤ 16 ∧
      columns.Sized (2 ^ effectiveLogSeg.toNat) ∧
      segmentRow effectiveLogSeg columns.liveEntries = bytes := by
  have row : segmentHeader effectiveLogSeg columns.liveIndices.length ++
      columns.liveIndices.flatMap (fun index =>
        encodeSegmentEntry (BitVec.ofNat 16 index, columns.get index)) =
        segmentRow effectiveLogSeg columns.liveEntries := by
    rw [segmentRow, liveEntries, List.length_map, List.flatMap_map]
  have length : (segmentRow effectiveLogSeg columns.liveEntries).length =
      encodedSegmentHeaderBytes + columns.liveIndices.length * encodedSegmentEntryBytes := by
    rw [length_segmentRow, liveEntries, List.length_map]
  simp only [encodeSegment, row, bind_eq_some, guard_eq_some,
    pure_eq_some]
  constructor
  · rintro ⟨_, ⟨hi, lo⟩, _, ⟨-, size⟩, _, -, _, exact, rfl⟩
    refine ⟨?_, ⟨size, hi ▸ size, lo ▸ size⟩, rfl⟩
    by_contra large
    rw [show encodedSegmentLenForLiveCount effectiveLogSeg columns.liveIndices.length = none by
      simp [encodedSegmentLenForLiveCount, large], length] at exact
    simp [encodedSegmentHeaderBytes] at exact
  · rintro ⟨small, sized, rfl⟩
    have few := length_liveIndices_le sized
    have bound := two_pow_log_le small
    refine ⟨(), ⟨sized.values.trans sized.ownersHi.symm, sized.values.trans sized.ownersLo.symm⟩,
      (), ⟨by omega, sized.values⟩, (), by omega, (), ?_, rfl⟩
    rw [encodedSegmentLenForLiveCount_eq_some.mpr ⟨small, few, rfl⟩, length, Option.getD_some]

/-- Decoding is the inverse of encoding, on all bytes and all columns. -/
theorem decodeSegment_eq_some :
    decodeSegment bytes = some (effectiveLogSeg, columns) ↔
      encodeSegment columns effectiveLogSeg = some bytes := by
  simp only [decodeSegment, bind_eq_some, pure_eq_some, Prod.mk.injEq,
    decodeSparseSegment_eq_some, encodeSegment_eq_some]
  constructor
  · rintro ⟨view, ⟨entries, small, canonical, rfl, -, payload⟩, again, found, rfl, rfl⟩
    obtain rfl : entries = again := by
      have read := (segmentEntries_eq_some (length_flatMap_entries entries)).mpr rfl
      exact Option.some.inj (read.symm.trans (payload ▸ found))
    refine ⟨small, sized_ofEntries canonical, ?_⟩
    exact congrArg _ (liveEntries_ofEntries canonical)
  · rintro ⟨small, sized, rfl⟩
    have bound := two_pow_log_le small
    refine ⟨⟨effectiveLogSeg, _, _⟩, ⟨columns.liveEntries, small, canonical_liveEntries sized bound,
      rfl, rfl, rfl⟩, columns.liveEntries, (segmentEntries_eq_some (length_flatMap_entries _)).mpr rfl,
      rfl, ofEntries_liveEntries sized bound⟩

/-- The length of a row gives the number of its live slots. -/
theorem encodedSegmentLiveCountFromLen_eq (small : effectiveLogSeg.toNat ≤ 16)
    (few : entries.length ≤ 2 ^ effectiveLogSeg.toNat) :
    encodedSegmentLiveCountFromLen effectiveLogSeg (segmentRow effectiveLogSeg entries).length =
      some entries.length := by
  have bound := two_pow_log_le small
  have payload : encodedSegmentHeaderBytes + entries.length * encodedSegmentEntryBytes -
      encodedSegmentHeaderBytes = entries.length * encodedSegmentEntryBytes :=
    Nat.add_sub_cancel_left _ _
  have count : entries.length * encodedSegmentEntryBytes / encodedSegmentEntryBytes =
      entries.length := Nat.mul_div_cancel _ (by decide)
  simp only [encodedSegmentLiveCountFromLen, length_segmentRow, payload, count,
    bind_eq_some, guard_eq_some, Option.pure_def,
    encodedSegmentLenForLiveCount_eq_some]
  exact ⟨(), Nat.le_add_right _ _, (), Nat.mul_mod_left _ _, (), by omega, _, ⟨small, few, rfl⟩,
    (), rfl, trivial⟩

/-! ## Undo logs -/

/-- A slot change is read exactly from its encoding, for a slot of 32 bits. -/
theorem reads_decodeSlotChange {change : Nat × SlotValue} :
    Reads decodeSlotChange src change rest ↔
      change.1 < 2 ^ 32 ∧ src = encodeSlotChange change ++ rest := by
  obtain ⟨index, slot⟩ := change
  simp only [decodeSlotChange, reads_bind, reads_takeU32, reads_decodeSlotValue, reads_pure,
    encodeSlotChange, Prod.mk.injEq]
  constructor
  · rintro ⟨word, _, rfl, slot, _, rfl, ⟨rfl, rfl⟩, rfl⟩
    exact ⟨word.isLt, by simp⟩
  · rintro ⟨low, rfl⟩
    exact ⟨BitVec.ofNat 32 index, _, by simp, _, _, rfl, ⟨Nat.mod_eq_of_lt low, rfl⟩, rfl⟩

theorem length_encodeSlotChange (change : Nat × SlotValue) :
    (encodeSlotChange change).length = 52 := by
  simp [encodeSlotChange, putU32]

/-- An undo log whose indices are words and whose counts are within the caps. -/
structure BlockUndoLog.Fits (undo : BlockUndoLog) : Prop where
  index_lt : ∀ change ∈ undo.slotChanges, change.1 < 2 ^ 32
  changes_le : undo.slotChanges.length ≤ blockMaxActions
  hashes_le : undo.txHashes.length ≤ blockMaxTxs

/-- An undo log whose counts fit their words survives its encoding. -/
theorem decodeUndoLog_encodeUndoLog {undo : BlockUndoLog} (fits : undo.Fits) :
    decodeUndoLog (encodeUndoLog undo) = some undo := by
  have changes : (BitVec.ofNat 32 undo.slotChanges.length).toNat = undo.slotChanges.length :=
    Nat.mod_eq_of_lt (fits.changes_le.trans_lt (by decide))
  have hashes : (BitVec.ofNat 32 undo.txHashes.length).toNat = undo.txHashes.length :=
    Nat.mod_eq_of_lt (fits.hashes_le.trans_lt (by decide))
  have digests : ∀ src digest rest, Reads takeDigest src digest rest ↔
      True ∧ src = putDigest digest ++ rest := by simp
  have payload : (undo.slotChanges.flatMap encodeSlotChange ++
      undo.txHashes.flatMap putDigest).length =
        undo.slotChanges.length * 52 + undo.txHashes.length * 32 := by
    rw [List.length_append, List.length_flatMap, List.length_flatMap]
    simp [length_encodeSlotChange, putDigest]
  refine Option.map_eq_some_iff.mpr ⟨(undo, []), run_toOption_eq_some.mpr ?_, rfl⟩
  simp only [decodeUndoFields, encodeUndoLog, reads_bind, reads_takeU64, reads_takeU32, reads_check,
    reads_get, reject_eq_ok, reads_pure, reads_takeList fun _ _ _ => reads_decodeSlotChange,
    reads_takeList digests, List.append_assoc]
  refine ⟨_, _, rfl, _, _, rfl, _, _, rfl, _, _, rfl, _, _, rfl, _, _, rfl, (), _, ⟨?_, rfl⟩, _, _,
    ⟨rfl, rfl⟩, (), _, ⟨?_, rfl⟩, undo.slotChanges, _, ⟨changes.symm, fits.index_lt, rfl⟩,
    undo.txHashes, _, ⟨hashes.symm, by simp, by simp⟩, rfl, rfl⟩
  · rw [changes, hashes]
    have := fits.changes_le
    have := fits.hashes_le
    omega
  · rw [changes, hashes, not_not]
    exact payload

namespace UndoScan

variable {chain : ChainState} {block : Block} {scan : UndoScan}

/-- The scan records at most one change for each live record, at a slot a record can name. -/
structure Counted (scan : UndoScan) (count : Nat) : Prop where
  length_le : scan.slotChanges.length ≤ count
  index_lt : ∀ change ∈ scan.slotChanges, change.1 < 2 ^ 32

variable {count : Nat}

/-- Recording at most one change for a slot adds one to the count. -/
theorem Counted.record (counted : Counted scan count) (slot : U32)
    {changes : List (Nat × SlotValue)} (one : changes.length ≤ 1)
    (named : ∀ change ∈ changes, change.1 = slot.toNat) (touched : List U32) :
    Counted ⟨scan.slotChanges ++ changes, touched⟩ (count + 1) where
  length_le := by
    rw [List.length_append]
    exact Nat.add_le_add counted.length_le one
  index_lt change member := by
    rcases List.mem_append.mp member with old | new
    · exact counted.index_lt change old
    · rw [named change new]
      exact slot.isLt

theorem Counted.mono {more : Nat} (counted : Counted scan count) (wider : count ≤ more) :
    Counted scan more := ⟨counted.length_le.trans wider, counted.index_lt⟩

theorem Counted.undoInput (chain : ChainState) (counted : Counted scan count)
    (entry : Nat × TxInput) :
    Counted (undoInput chain scan entry) (count + 1) := by
  simp only [UndoScan.undoInput]
  split
  · exact counted.record entry.2.slotIndex (by simp) (by simp) _
  · exact counted.mono (Nat.le_succ count)

theorem Counted.undoOutput (chain : ChainState) (block : Block) (counted : Counted scan count)
    (entry : Nat × TxOutput) :
    Counted (undoOutput chain block scan entry) (count + 1) := by
  simp only [UndoScan.undoOutput]
  split
  · refine counted.record entry.2.slotIndex ?_ ?_ _
    · unfold outputChange
      split <;> [simp; split <;> simp]
    · unfold outputChange
      split <;> [simp; split <;> simp]
  · exact counted.mono (Nat.le_succ count)

/-- Steps that add at most one change add at most as many as there are entries. -/
theorem foldl_counted {α : Type} {step : UndoScan → α → UndoScan}
    (one : ∀ {scan count} (entry : α), Counted scan count → Counted (step scan entry) (count + 1))
    (entries : List α) (counted : Counted scan count) :
    Counted (entries.foldl step scan) (count + entries.length) := by
  induction entries generalizing scan count with
  | nil => exact counted
  | cons entry entries ih =>
    have := ih (one entry counted)
    rwa [Nat.add_assoc, Nat.add_comm 1] at this

/-- So the transactions of a block add at most one change for each input and each output. -/
theorem Counted.undoTxs (chain : ChainState) (block : Block) (txs : List Transaction)
    (counted : Counted scan count) :
    Counted (txs.foldl (undoTx chain block) scan)
      (count + (spendCount (txs.map Transaction.body) + mintCount (txs.map Transaction.body))) := by
  induction txs generalizing scan count with
  | nil => exact counted
  | cons tx txs ih =>
    have spent := foldl_counted (fun entry held => Counted.undoInput chain held entry)
      tx.body.liveInputs counted
    have minted := foldl_counted
      (fun entry held => Counted.undoOutput chain block held entry)
      tx.body.liveOutputs spent
    refine (ih minted).mono (le_of_eq ?_)
    simp [spendCount, mintCount, TxBody.spends, TxBody.mints]
    omega

end UndoScan

/-- A valid page stream has no more logical transactions than records. -/
theorem length_logicalTxids {hashes : TxHashes} {txs : List Transaction}
    {stream : BlockPageStreamFacts} (accepted : validateBlockPageStream hashes txs = .ok stream) :
    ∃ txids, tryComputeLogicalTxids hashes txs = .ok txids ∧ txids.length ≤ txs.length := by
  obtain ⟨coinbase, payouts, users, rfl, valid⟩ := validateBlockPageStream_valid accepted
  obtain ⟨groupPages, rfl, groups⟩ := valid.groups
  have nonempty : ∀ pages ∈ groupPages, 1 ≤ pages.length := by
    intro pages member
    obtain ⟨position, rfl⟩ := List.mem_iff_get.mp member
    have group := groups.get position.isLt (groups.length_eq ▸ position.isLt)
    simpa using group.pageCount.1
  have pages : groupPages.length ≤ groupPages.flatten.length := by
    rw [List.length_flatten]
    simpa using List.card_nsmul_le_sum (groupPages.map List.length) 1 (by simpa using nonempty)
  refine ⟨_, bind_eq_ok.mpr ⟨stream, accepted, rfl⟩, ?_⟩
  simp only [List.length_append, List.length_map, List.length_take, List.length_cons,
    valid.userStartIndex_eq, ← groups.length_eq]
  omega

/-- The undo log of an admitted block is within the decoder's caps, over any state. -/
theorem buildUndoLog_fits {hashes : ChainHashes} {block : Block} {facts : BlockResourcePreflight}
    {stream : BlockPageStreamFacts} (chain : ChainState)
    (preflight : validateBlockResourcePreflight hashes block = .ok facts)
    (accepted : validateBlockPageStream hashes.tx block.transactions = .ok stream) :
    ∃ undo, buildUndoLog hashes chain block = .ok undo ∧ undo.Fits := by
  obtain ⟨txids, computed, fewer⟩ := length_logicalTxids accepted
  obtain ⟨short, actions⟩ := validateBlockResourcePreflight_counts preflight
  have none : UndoScan.Counted ⟨[], []⟩ 0 := ⟨Nat.le_refl 0, by simp⟩
  have counted := none.undoTxs chain block block.transactions
  refine ⟨_, bind_eq_ok.mpr ⟨txids, computed, rfl⟩, counted.index_lt, ?_, fewer.trans short⟩
  exact (counted.length_le.trans_eq (Nat.zero_add _)).trans actions

/-! ## Both formats -/

/-- A segment row decodes to columns exactly when they encode to it, and its length tells their live
slots; columns of the size of a segment always encode. The sparse encoder gives the same rows on the
live entries of such columns and rejects every other list. The undo log of an admitted block reads
back, whatever the state it was built over. -/
theorem storage_codecs_canonical :
    (∀ (bytes : List Byte) (effectiveLogSeg : Byte) (columns : SegmentColumns),
      decodeSegment bytes = some (effectiveLogSeg, columns) →
        encodeSegment columns effectiveLogSeg = some bytes ∧
        encodedSegmentLiveCountFromLen effectiveLogSeg bytes.length =
          some columns.liveIndices.length) ∧
    (∀ (effectiveLogSeg : Byte) (columns : SegmentColumns), effectiveLogSeg.toNat ≤ 16 →
      columns.Sized (2 ^ effectiveLogSeg.toNat) →
        ∃ bytes, encodeSegment columns effectiveLogSeg = some bytes ∧
          decodeSegment bytes = some (effectiveLogSeg, columns) ∧
          encodeSparseSegmentEntries effectiveLogSeg columns.liveEntries = some bytes) ∧
    (∀ (effectiveLogSeg : Byte) (entries : List (U16 × SlotValue)),
      (¬ ∃ columns : SegmentColumns, effectiveLogSeg.toNat ≤ 16 ∧
        columns.Sized (2 ^ effectiveLogSeg.toNat) ∧ entries = columns.liveEntries) →
        encodeSparseSegmentEntries effectiveLogSeg entries = none) ∧
    ∀ (hashes : ChainHashes) (chain : ChainState) (block : Block) (facts : BlockResourcePreflight)
      (stream : BlockPageStreamFacts), validateBlockResourcePreflight hashes block = .ok facts →
      validateBlockPageStream hashes.tx block.transactions = .ok stream →
        ∃ undo, buildUndoLog hashes chain block = .ok undo ∧
          undo.slotChanges.length ≤ blockMaxActions ∧ undo.txHashes.length ≤ blockMaxTxs ∧
          decodeUndoLog (encodeUndoLog undo) = some undo := by
  refine ⟨fun bytes effectiveLogSeg columns decoded => ?_,
    fun effectiveLogSeg columns small sized => ?_, fun effectiveLogSeg entries other => ?_,
    fun hashes chain block facts stream preflight accepted => ?_⟩
  · have encoded := decodeSegment_eq_some.mp decoded
    obtain ⟨small, sized, rfl⟩ := encodeSegment_eq_some.mp encoded
    have count : columns.liveEntries.length = columns.liveIndices.length := List.length_map _
    refine ⟨encoded, ?_⟩
    rw [encodedSegmentLiveCountFromLen_eq small (count ▸ length_liveIndices_le sized), count]
  · have encoded := encodeSegment_eq_some.mpr ⟨small, sized, rfl⟩
    exact ⟨_, encoded, decodeSegment_eq_some.mpr encoded, encodeSparseSegmentEntries_eq_some.mpr
      ⟨small, canonical_liveEntries sized (two_pow_log_le small), rfl⟩⟩
  · refine Option.eq_none_iff_forall_ne_some.mpr fun bytes encoded => other ?_
    obtain ⟨small, canonical, -⟩ := encodeSparseSegmentEntries_eq_some.mp encoded
    exact ⟨ofEntries _ entries, small, sized_ofEntries canonical,
      (liveEntries_ofEntries canonical).symm⟩
  · obtain ⟨undo, built, fits⟩ := buildUndoLog_fits chain preflight accepted
    exact ⟨undo, built, fits.changes_le, fits.hashes_le, decodeUndoLog_encodeUndoLog fits⟩

end ParanoidChain
