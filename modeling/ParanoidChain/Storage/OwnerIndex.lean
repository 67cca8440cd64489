import ParanoidChain.Consensus.DaPrune
import ParanoidChain.Lib.Wire
import ParanoidChain.Storage.Store

/-!
# The owner index

The table of live slots by owner. A block updates it from its undo log and its dirty segments; a
reorg clears it and writes it again from the segment table. Keys and values are bytes, and the row
that a key leads to is unique, so the table is a function on byte strings.
-/

namespace ParanoidChain

open Lib Lib.Wire

/-- The owner-index table. -/
abbrev OwnerIndex := List Byte → Option (List Byte)

def ownerIndexValueBytes : Nat := 16

/-- `owner_key_from_fields`. -/
def ownerKeyFromFields (ownerHi ownerLo : Block128) : List Byte := putU128 ownerHi ++ putU128 ownerLo

/-- `owner_index_key`: the owner, then the slot in big-endian order. -/
def ownerIndexKey (owner : List Byte) (slotIndex : U32) : List Byte :=
  owner ++ (toLeBytes 4 slotIndex).reverse

/-- `encode_owner_index_value`. -/
def encodeOwnerIndexValue (packedValue : Block128) : List Byte := putU128 packedValue

/-- `decode_owner_index_value`. -/
def decodeOwnerIndexValue (bytes : List Byte) : Except StoreError Block128 := do
  reject (bytes.length ≠ ownerIndexValueBytes) (.decode "invalid owner-index value length")
  return fromLeBytes 128 bytes

/-! ## The incremental path -/

/-- The binary logarithm of the slots of a segment, which all dirty segments share. -/
def dirtyEffectiveLog (dirtySegments : List DirtySegment) : Nat :=
  (dirtySegments.head?.map DirtySegment.effectiveLog).getD logSegmentSize

/-- The value of a slot after the block. A segment that is not dirty is unchanged, and a deleted one
is empty. -/
def postValue (dirtySegments : List DirtySegment) (slotIndex : Nat) (prevValue : SlotValue) :
    Except StoreError SlotValue :=
  let effLog := dirtyEffectiveLog dirtySegments
  let segId := slotIndex / 2 ^ effLog % 2 ^ 16
  let localIdx := slotIndex % 2 ^ effLog
  match (dirtySegments.find? fun dirty => dirty.segId == segId).map DirtySegment.columns with
  | none => return prevValue
  | some none => return .empty
  | some (some columns) => do
    reject (columns.values.length ≤ localIdx ∨ columns.ownersHi.length ≤ localIdx ∨
        columns.ownersLo.length ≤ localIdx)
      (StoreError.decode "owner-index dirty segment is truncated")
    return columns.get localIdx

/-- The key of a live slot. -/
def slotIndexKey (slotIndex : Nat) (slot : SlotValue) : List Byte :=
  ownerIndexKey (ownerKeyFromFields slot.ownerHi slot.ownerLo) (BitVec.ofNat 32 slotIndex)

/-- Remove the record of a slot as it was before the block. -/
def removeOwner (index : OwnerIndex) (slotIndex : Nat) (prevValue : SlotValue) :
    Except StoreError OwnerIndex :=
  if prevValue ≠ .empty then do
    let key := slotIndexKey slotIndex prevValue
    let existing ← okOr (StoreError.decode "missing pre-block owner-index record") (index key)
    let value ← decodeOwnerIndexValue existing
    reject (value ≠ prevValue.value) (StoreError.decode "pre-block owner-index value mismatch")
    return Function.update index key none
  else return index

/-- Add the record of a slot as it is after the block. -/
def addOwner (index : OwnerIndex) (slotIndex : Nat) (slot : SlotValue) :
    Except StoreError OwnerIndex :=
  if slot.value ≠ 0 ∨ slot.ownerHi ≠ 0 ∨ slot.ownerLo ≠ 0 then do
    let key := slotIndexKey slotIndex slot
    reject ((index key).isSome = true) (StoreError.decode "duplicate post-block owner-index record")
    return Function.update index key (some (encodeOwnerIndexValue slot.value))
  else return index

/-- One slot of the undo log; a shift by a whole word is a panic. -/
def updateOwner (dirtySegments : List DirtySegment) (index : OwnerIndex)
    (change : Nat × SlotValue) : Except (Fault StoreError) OwnerIndex := do
  let removed ← (removeOwner index change.1 change.2).mapError .err
  reject (32 ≤ dirtyEffectiveLog dirtySegments) .panic
  let post ← (postValue dirtySegments change.1 change.2).mapError .err
  (addOwner removed change.1 post).mapError .err

/-- The owner-index part of `commit_block` for a block. -/
def updateOwnerIndex (dirtySegments : List DirtySegment) (undoLog : BlockUndoLog)
    (index : OwnerIndex) : Except (Fault StoreError) OwnerIndex :=
  undoLog.slotChanges.foldlM (updateOwner dirtySegments) index

/-! ## The rebuild -/

/-- The record of one place of a segment, unless it is empty. -/
def visitSlot (segmentBase : Nat) (columns : SegmentColumns) (index : OwnerIndex) (localIdx : Nat) :
    Except StoreError OwnerIndex :=
  let slot := columns.get localIdx
  if slot.value = 0 ∧ slot.ownerHi = 0 ∧ slot.ownerLo = 0 then return index
  else do
    reject (2 ^ 32 ≤ segmentBase + localIdx) (StoreError.decode "owner-index slot exceeds u32 domain")
    return Function.update index (slotIndexKey (segmentBase + localIdx) slot)
      (some (encodeOwnerIndexValue slot.value))

/-- `visit_live_owner_records`, writing the records. -/
def visitLiveOwnerRecords (segmentId effectiveLog : Nat) (columns : SegmentColumns)
    (index : OwnerIndex) : Except StoreError OwnerIndex := do
  reject (columns.values.length ≠ columns.ownersHi.length ∨
      columns.values.length ≠ columns.ownersLo.length)
    (.decode "owner-index segment columns disagree")
  reject (64 ≤ effectiveLog) (.decode "owner-index segment log is invalid")
  reject (2 ^ effectiveLog < columns.values.length)
    (.decode "owner-index segment exceeds effective domain")
  -- the shift is checked, the bits it drops are not
  let segmentBase := segmentId * 2 ^ effectiveLog % 2 ^ 64
  (List.range columns.values.length).foldlM (visitSlot segmentBase columns) index

/-- The segment ids in the order of a cursor over their little-endian keys. -/
def cursorIds (segments : Nat → Option SegmentRow) : List Nat :=
  ((List.range (2 ^ 16)).map fun place => place / 2 ^ 8 + 2 ^ 8 * (place % 2 ^ 8)).filter fun id =>
    (segments id).isSome

def visitRow (segments : Nat → Option SegmentRow) (index : OwnerIndex) (id : Nat) :
    Except StoreError OwnerIndex :=
  match segments id with
  | some row => visitLiveOwnerRecords id row.effectiveLog row.columns index
  | none => return index

/-- The owner-index part of `commit_reorg`: the cleared table, written from the segments. -/
def rebuildOwnerIndex (segments : Nat → Option SegmentRow) : Except StoreError OwnerIndex :=
  (cursorIds segments).foldlM (visitRow segments) fun _ => none

end ParanoidChain
