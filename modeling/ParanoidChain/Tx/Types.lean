import ParanoidChain.Lib.Checked
import Mathlib.Data.List.Basic

/-!
# Transparent transaction types

The one transaction form: eight possible spends and two possible outputs, with liveness stated only
by the validity bitmap. Machine words are bit vectors of the width the code gives them, `usize` is
`Nat`, and a 32-byte array is a 256-bit word in little-endian order, so the two field lanes of an
address are its low and its high half.

The counts `liveInputCount` and `liveOutputCount` are population counts of bitmap slices, while
`liveInputs` and `liveOutputs` enumerate records; `Laws/Tx/Types.lean` proves the two agree.
-/

namespace ParanoidChain

/-- `u16`. -/
abbrev U16 := BitVec 16
/-- `u32`. -/
abbrev U32 := BitVec 32
/-- `u64`. -/
abbrev U64 := BitVec 64
/-- `u128`. -/
abbrev U128 := BitVec 128
/-- A 128-bit field lane. -/
abbrev Block128 := BitVec 128
/-- A 32-byte digest. -/
abbrev Digest := BitVec 256

instance : LawfulBEq U32 := instLawfulBEq

/-- A 32-byte owner address. -/
structure Address where
  bytes : BitVec 256
  deriving DecidableEq, Repr

/-- The two field lanes of an address, low bytes first. -/
def Address.asFields (address : Address) : Block128 × Block128 :=
  (address.bytes.extractLsb' 0 128, address.bytes.extractLsb' 128 128)

/-- The all-zero address. -/
def Address.zero : Address := ⟨0⟩

/-- `TX_INPUTS`. -/
abbrev txInputs : Nat := 8
/-- `TX_OUTPUTS`. -/
abbrev txOutputs : Nat := 2
/-- `TX_ACTIONS`. -/
abbrev txActions : Nat := txInputs + txOutputs

theorem txInputs_pos : 0 < txInputs := by decide

theorem txOutputs_pos : 0 < txOutputs := by decide

theorem one_lt_txOutputs : 1 < txOutputs := by decide

/-- `TX_VALIDITY_MASK`: the ten liveness bits. -/
def txValidityMask : U16 := (1#16 <<< txActions) - 1

/-- Bitmap bit of logical output `index`. -/
def outputBitmapBit (index : Nat) : U16 := 1#16 <<< (txInputs + index)

/-- Amount and creation id packed into one lane, the amount in the low half. -/
def packAmountCreationId (amount creationId : U64) : Block128 :=
  (creationId.setWidth 128 <<< 64) ||| amount.setWidth 128

/-- The pair `(amount, creation_id)` of a packed lane. -/
def unpackAmountCreationId (packed : Block128) : U64 × U64 :=
  (packed.setWidth 64, (packed >>> 64).setWidth 64)

/-- One possible spend; its owner is stated once, by `TxBody.inputOwner`. -/
structure TxInput where
  slotIndex : U32
  amount : U64
  creationId : U64
  deriving DecidableEq, Repr

/-- The all-zero record of a dead input. -/
def TxInput.dummy : TxInput := ⟨0, 0, 0⟩

/-- One possible fresh output. -/
structure TxOutput where
  slotIndex : U32
  amount : U64
  owner : Address
  deriving DecidableEq, Repr

/-- The all-zero record of a dead output. -/
def TxOutput.dummy : TxOutput := ⟨0, 0, .zero⟩

/-- The sole transaction body. -/
structure TxBody where
  epochAnchor : Digest
  fee : U64
  inputOwner : Address
  inputs : Vector TxInput txInputs
  outputs : Vector TxOutput txOutputs
  validityBitmap : U16
  isCoinbase : Bool
  deriving DecidableEq, Repr

namespace TxBody

/-- The primary block reward: a system mint with exactly the first output live. -/
def isPrimaryCoinbaseShape (body : TxBody) : Bool :=
  body.isCoinbase && body.validityBitmap == outputBitmapBit 0

/-- The development payout: a system mint with exactly both outputs live. -/
def isDevelopmentPayoutShape (body : TxBody) : Bool :=
  body.isCoinbase && body.validityBitmap == (outputBitmapBit 0 ||| outputBitmapBit 1)

def inputIsLive (body : TxBody) (index : Nat) : Bool :=
  decide (index < txInputs) && (body.validityBitmap &&& (1#16 <<< index)) != 0

def outputIsLive (body : TxBody) (index : Nat) : Bool :=
  decide (index < txOutputs) && (body.validityBitmap &&& outputBitmapBit index) != 0

/-- The records of an array with their positions, as `iter().enumerate()` yields them. -/
def enumerate {α : Type} {n : Nat} (records : Vector α n) : List (Nat × α) :=
  records.toList.zipIdx.map Prod.swap

/-- Live inputs with their positions. -/
def liveInputs (body : TxBody) : List (Nat × TxInput) :=
  (enumerate body.inputs).filter fun entry => body.inputIsLive entry.1

/-- Live outputs with their positions. -/
def liveOutputs (body : TxBody) : List (Nat × TxOutput) :=
  (enumerate body.outputs).filter fun entry => body.outputIsLive entry.1

end TxBody

/-- `count_ones` of a 16-bit word. -/
def countOnes (word : U16) : Nat := (List.range 16).countP fun bit => word.getLsbD bit

namespace TxBody

def liveInputCount (body : TxBody) : Nat := countOnes (body.validityBitmap &&& 0x00ff)

def liveOutputCount (body : TxBody) : Nat :=
  countOnes ((body.validityBitmap >>> txInputs) &&& 0x0003)

/-- The live input records, positions dropped. -/
def spends (body : TxBody) : List TxInput := body.liveInputs.map Prod.snd

/-- The live output records, positions dropped. -/
def mints (body : TxBody) : List TxOutput := body.liveOutputs.map Prod.snd

end TxBody

/-- A block transaction is exactly one body. -/
structure Transaction where
  body : TxBody
  deriving DecidableEq, Repr

end ParanoidChain
