import ParanoidChain.Tx.BodyHash

/-!
# Slots, segment columns and the exact-state hashes

A slot holds three field lanes, and all-zero means empty or spent. A segment stores its slots as
three parallel columns. The two hash functions of the exact state are arbitrary.
-/

namespace ParanoidChain

def logSegmentSize : Nat := 16

/-- `(pack(amount, creation_id), owner)`. -/
structure SlotValue where
  value : Block128
  ownerHi : Block128
  ownerLo : Block128
  deriving DecidableEq, Repr

namespace SlotValue

/-- `SlotValue::EMPTY`. -/
def empty : SlotValue := ⟨0, 0, 0⟩

def isEmpty (slot : SlotValue) : Bool := decide (slot = empty)

def fromParts (amount creationId : U64) (ownerHi ownerLo : Block128) : SlotValue :=
  ⟨packAmountCreationId amount creationId, ownerHi, ownerLo⟩

def withOwnerFields (amount creationId : U64) (owner : Block128 × Block128) : SlotValue :=
  fromParts amount creationId owner.1 owner.2

def amount (slot : SlotValue) : U64 := (unpackAmountCreationId slot.value).1

def creationId (slot : SlotValue) : U64 := (unpackAmountCreationId slot.value).2

end SlotValue

/-- The hash functions of the exact state. -/
structure StateHasher where
  slotLeafHash : SlotValue → Digest
  stateNodeHash : Digest → Digest → Digest

namespace StateHasher

/-- An executable choice of the hash functions, to evaluate concrete runs with. -/
def sample : StateHasher where
  slotLeafHash slot :=
    slot.value.setWidth 256 * 3 + slot.ownerHi.setWidth 256 * 5 + slot.ownerLo.setWidth 256 * 7 + 1
  stateNodeHash left right := left * 11 + right * 13 + 2

variable (hasher : StateHasher)

/-- `zero_slot_roots`: the roots of all-empty subtrees of height `0` up to `maxDepth`. -/
def zeroSlotRoots : Nat → List Digest
  | 0 => [hasher.slotLeafHash .empty]
  | depth + 1 =>
    let roots := zeroSlotRoots depth
    let zero := roots.getD depth 0
    roots ++ [hasher.stateNodeHash zero zero]

/-- `zero_slot_roots(depth)[depth]`. -/
def zeroSlotRoot (depth : Nat) : Digest := (hasher.zeroSlotRoots depth).getD depth 0

end StateHasher

/-- The three columns of one segment. -/
structure SegmentColumns where
  values : List Block128
  ownersHi : List Block128
  ownersLo : List Block128
  deriving DecidableEq, Repr

namespace SegmentColumns

def newZero (size : Nat) : SegmentColumns :=
  ⟨List.replicate size 0, List.replicate size 0, List.replicate size 0⟩

/-- The slot at a local index. -/
def get (columns : SegmentColumns) (index : Nat) : SlotValue :=
  ⟨columns.values.getD index 0, columns.ownersHi.getD index 0, columns.ownersLo.getD index 0⟩

/-- Write the slot at a local index. -/
def put (columns : SegmentColumns) (index : Nat) (slot : SlotValue) : SegmentColumns :=
  ⟨columns.values.set index slot.value, columns.ownersHi.set index slot.ownerHi,
    columns.ownersLo.set index slot.ownerLo⟩

/-- Append `extra` empty slots. -/
def extend (columns : SegmentColumns) (extra : Nat) : SegmentColumns :=
  ⟨columns.values ++ List.replicate extra 0, columns.ownersHi ++ List.replicate extra 0,
    columns.ownersLo ++ List.replicate extra 0⟩

/-- Keep the first `keep` slots. -/
def truncate (columns : SegmentColumns) (keep : Nat) : SegmentColumns :=
  ⟨columns.values.take keep, columns.ownersHi.take keep, columns.ownersLo.take keep⟩

/-- Whether every lane from `keep` on is zero. -/
def upperIsEmpty (columns : SegmentColumns) (keep : Nat) : Bool :=
  (columns.values.drop keep).all (· == 0) && (columns.ownersHi.drop keep).all (· == 0) &&
    (columns.ownersLo.drop keep).all (· == 0)

/-- `count_live`: the places with a non-zero lane. -/
def countLive (columns : SegmentColumns) : Nat :=
  ((columns.values.zip columns.ownersHi).zip columns.ownersLo).countP fun ((value, hi), lo) =>
    value != 0 || hi != 0 || lo != 0

/-- Whether every column has the declared length. -/
def hasLength (columns : SegmentColumns) (size : Nat) : Bool :=
  columns.values.length == size && columns.ownersHi.length == size &&
    columns.ownersLo.length == size

end SegmentColumns

end ParanoidChain
