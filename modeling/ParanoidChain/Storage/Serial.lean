import ParanoidChain.Consensus.DaPrune

/-!
# Row formats of the store

The byte formats of undo logs and of segments. A segment row is sparse: a header with the segment's
size and the number of its live slots, then these slots with their local indices in ascending order.
Nothing is returned where a decoder refuses, and nothing where an assertion of an encoder fails.
-/

namespace ParanoidChain

open Lib Lib.Wire

/-! ## Slot values -/

/-- `encode_slot_value`. -/
def encodeSlotValue (slot : SlotValue) : List Byte :=
  putU128 slot.value ++ putU128 slot.ownerHi ++ putU128 slot.ownerLo

/-- `decode_slot_value`. -/
def decodeSlotValue : Reader WireError SlotValue := do
  let value ← takeU128
  let ownerHi ← takeU128
  let ownerLo ← takeU128
  return ⟨value, ownerHi, ownerLo⟩

/-! ## Undo logs -/

def encodeSlotChange (change : Nat × SlotValue) : List Byte :=
  putU32 (BitVec.ofNat 32 change.1) ++ encodeSlotValue change.2

def decodeSlotChange : Reader WireError (Nat × SlotValue) := do
  let index ← takeU32
  let slot ← decodeSlotValue
  return (index.toNat, slot)

/-- `encode_undo_log`. -/
def encodeUndoLog (undo : BlockUndoLog) : List Byte :=
  putU64 undo.blockHeight ++ putU32 undo.logSlotsBefore ++ putU64 undo.activeSlotCountBefore ++
    putU64 undo.allocCounterBefore ++ putU32 (BitVec.ofNat 32 undo.slotChanges.length) ++
    putU32 (BitVec.ofNat 32 undo.txHashes.length) ++
    undo.slotChanges.flatMap encodeSlotChange ++ undo.txHashes.flatMap putDigest

/-- The fields of an undo log, in order; the counts are bounded before anything is read for them. -/
def decodeUndoFields : Reader WireError BlockUndoLog := do
  let blockHeight ← takeU64
  let logSlotsBefore ← takeU32
  let activeSlotCountBefore ← takeU64
  let allocCounterBefore ← takeU64
  let changes ← takeU32
  let hashes ← takeU32
  check (reject (blockMaxActions < changes.toNat ∨ blockMaxTxs < hashes.toNat) .lengthOverflow)
  let payload ← get
  check (reject (payload.length ≠ changes.toNat * 52 + hashes.toNat * 32) .truncated)
  let slotChanges ← takeList decodeSlotChange changes.toNat
  let txHashes ← takeList takeDigest hashes.toNat
  return { blockHeight, logSlotsBefore, activeSlotCountBefore, allocCounterBefore, slotChanges,
           txHashes }

/-- `decode_undo_log`. -/
def decodeUndoLog (bytes : List Byte) : Option BlockUndoLog :=
  (decodeUndoFields.run bytes).toOption.map Prod.fst

/-! ## Segments -/

/-- `SEGMENT_ENCODING_MAGIC`: `SGS1`. -/
def segmentEncodingMagic : List Byte := [0x53, 0x47, 0x53, 0x31]
def encodedSegmentHeaderBytes : Nat := 9
/-- `ENCODED_SEGMENT_ENTRY_BYTES`: an index and three lanes. -/
def encodedSegmentEntryBytes : Nat := 2 + 3 * 16

/-- `encoded_segment_len_for_live_count`. -/
def encodedSegmentLenForLiveCount (effectiveLogSeg : Byte) (liveCount : Nat) : Option Nat := do
  guard (effectiveLogSeg.toNat ≤ 16)
  guard (liveCount ≤ 2 ^ effectiveLogSeg.toNat)
  return encodedSegmentHeaderBytes + liveCount * encodedSegmentEntryBytes

/-- `encoded_segment_live_count_from_len`. -/
def encodedSegmentLiveCountFromLen (effectiveLogSeg : Byte) (encodedLen : Nat) : Option Nat := do
  guard (encodedSegmentHeaderBytes ≤ encodedLen)
  let payloadLen := encodedLen - encodedSegmentHeaderBytes
  guard (payloadLen % encodedSegmentEntryBytes = 0)
  let liveCount := payloadLen / encodedSegmentEntryBytes
  guard (liveCount < 2 ^ 32)
  let expected ← encodedSegmentLenForLiveCount effectiveLogSeg liveCount
  guard (expected = encodedLen)
  return liveCount

def encodeSegmentEntry (entry : U16 × SlotValue) : List Byte :=
  putU16 entry.1 ++ encodeSlotValue entry.2

def decodeSegmentEntry : Reader WireError (U16 × SlotValue) := do
  let localIndex ← takeU16
  let slot ← decodeSlotValue
  return (localIndex, slot)

/-- The header of a segment row. -/
def segmentHeader (effectiveLogSeg : Byte) (liveCount : Nat) : List Byte :=
  segmentEncodingMagic ++ [effectiveLogSeg] ++ putU32 (BitVec.ofNat 32 liveCount)

/-- A live slot in the segment, after the ones before it. -/
def nextEntry (capacity : Nat) (previous : Option U16) (entry : U16 × SlotValue) :
    Option (Option U16) := do
  guard (entry.2.isEmpty = false ∧ entry.1.toNat < capacity ∧
    ∀ before ∈ previous, before < entry.1)
  return some entry.1

/-- `SparseSegmentView`, over the bytes of its entries. -/
structure SparseSegmentView where
  effectiveLogSeg : Byte
  liveCount : U32
  payload : List Byte
  deriving DecidableEq, Repr

/-- The entries of a payload, one for every fifty bytes. -/
def segmentEntries (payload : List Byte) : Option (List (U16 × SlotValue)) :=
  ((takeList decodeSegmentEntry (payload.length / encodedSegmentEntryBytes)).run payload).toOption.map
    Prod.fst

/-- The header of a segment row: magic, size and live count. -/
def decodeSegmentHeader : Reader WireError (Byte × U32) := do
  let magic ← take .truncated 4
  check (reject (magic ≠ segmentEncodingMagic) .badMarker)
  let effectiveLogSeg : Byte ← takeWord .truncated 8 1
  let liveCount ← takeU32
  return (effectiveLogSeg, liveCount)

/-- `decode_sparse_segment`. -/
def decodeSparseSegment (bytes : List Byte) : Option SparseSegmentView := do
  let ((effectiveLogSeg, liveCount), payload) ← (decodeSegmentHeader.run bytes).toOption
  guard (effectiveLogSeg.toNat ≤ 16)
  let expected ← encodedSegmentLenForLiveCount effectiveLogSeg liveCount.toNat
  guard (bytes.length = expected)
  let entries ← segmentEntries payload
  let _ ← entries.foldlM (nextEntry (2 ^ effectiveLogSeg.toNat)) none
  return ⟨effectiveLogSeg, liveCount, payload⟩

/-- `encode_sparse_segment_entries`. -/
def encodeSparseSegmentEntries (effectiveLogSeg : Byte) (entries : List (U16 × SlotValue)) :
    Option (List Byte) := do
  guard (entries.length < 2 ^ 32)
  let encodedLen ← encodedSegmentLenForLiveCount effectiveLogSeg entries.length
  let _ ← entries.foldlM (nextEntry (2 ^ effectiveLogSeg.toNat)) none
  let encoded := segmentHeader effectiveLogSeg entries.length ++ entries.flatMap encodeSegmentEntry
  guard (encoded.length = encodedLen)
  return encoded

namespace SegmentColumns

/-- The local indices of the live slots, in order. -/
def liveIndices (columns : SegmentColumns) : List Nat :=
  (List.range columns.values.length).filter fun index => !(columns.get index).isEmpty

end SegmentColumns

/-- `encode_segment`. -/
def encodeSegment (columns : SegmentColumns) (effectiveLogSeg : Byte) : Option (List Byte) := do
  let size := columns.values.length
  guard (size = columns.ownersHi.length ∧ size = columns.ownersLo.length)
  guard (effectiveLogSeg.toNat < 64 ∧ size = 2 ^ effectiveLogSeg.toNat)
  let liveCount := columns.liveIndices.length
  guard (liveCount < 2 ^ 32)
  let encoded := segmentHeader effectiveLogSeg liveCount ++ columns.liveIndices.flatMap fun index =>
    encodeSegmentEntry (BitVec.ofNat 16 index, columns.get index)
  guard (encoded.length = (encodedSegmentLenForLiveCount effectiveLogSeg liveCount).getD 0)
  return encoded

/-- `decode_segment`. -/
def decodeSegment (bytes : List Byte) : Option (Byte × SegmentColumns) := do
  let sparse ← decodeSparseSegment bytes
  let entries ← segmentEntries sparse.payload
  let columns := entries.foldl (fun columns entry => columns.put entry.1.toNat entry.2)
    (SegmentColumns.newZero (2 ^ sparse.effectiveLogSeg.toNat))
  return (sparse.effectiveLogSeg, columns)

end ParanoidChain
