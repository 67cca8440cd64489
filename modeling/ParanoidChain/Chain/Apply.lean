import ParanoidChain.Chain.State
import ParanoidChain.Consensus.Params

/-!
# Applying one transaction body

`apply_tx_checked_deferred_root` checks a body against the state, collects the slot writes in one
batch and applies it. The checks only read, so they are one function that returns what is to be
written (`TxEffect`); after them the batch is in range and the `expect` of the source cannot fail.
-/

namespace ParanoidChain

open Lib

inductive ApplyError where
  | slotOutOfRange
  | unknownOrSpentInput
  | outputSlotNotEmpty
  | duplicateOutputSlot
  | inputOutputSlotOverlap
  | activeSlotCountUnderflow
  | activeSlotCountOverflow
  | allocCounterOverflow
  | coinbaseMintHeightMissing
  | exactStateUnavailable
  | circulatingSupplyInvariant
  deriving DecidableEq, Repr

/-- The slot value an input claims. -/
def TxInput.claimed (input : TxInput) (owner : Address) : SlotValue :=
  .withOwnerFields input.amount input.creationId owner.asFields

/-- The slot value an output mints under a creation id. -/
def TxOutput.minted (output : TxOutput) (creationId : U64) : SlotValue :=
  .withOwnerFields output.amount creationId output.owner.asFields

/-- What a checked body writes: the batch of slots and the new counters. -/
structure TxEffect where
  deltas : List (Nat × SlotValue)
  activeSlotCount : U64
  allocCounter : U64
  circulatingSupplyMicronoid : U128

namespace ChainState

/-- Distinct output slots that no input of the body names. -/
def checkOutputSlot (inputSlots seen : List U32) (entry : Nat × TxOutput) :
    Except ApplyError (List U32) := do
  let seen ← insertFresh .duplicateOutputSlot seen entry.2.slotIndex
  reject (entry.2.slotIndex ∈ inputSlots) .inputOutputSlotOverlap
  pure seen

/-- A slot of the domain whose segment is in memory. -/
def checkSlotAvailable (chain : ChainState) (slotIndex : U32) : Except ApplyError Unit := do
  reject (chain.state.numSlots ≤ slotIndex.toNat) .slotOutOfRange
  reject (chain.state.isEvicted (chain.state.segIdOf slotIndex.toNat) = true) .exactStateUnavailable

/-- One live input: the slot holds what is claimed. -/
def checkInput (chain : ChainState) (owner : Address) (entry : Nat × TxInput) :
    Except ApplyError Unit := do
  chain.checkSlotAvailable entry.2.slotIndex
  reject (chain.state.slot entry.2.slotIndex.toNat ≠ entry.2.claimed owner) .unknownOrSpentInput

/-- The creation id of one output: the primary coinbase is tagged with its height. -/
def outputCreationId (body : TxBody) (coinbaseMintHeight : Option U64) (allocCursor : U64) :
    Except ApplyError U64 :=
  if body.isPrimaryCoinbaseShape then
    coinbaseCreationId <$> okOr .coinbaseMintHeightMissing coinbaseMintHeight
  else pure allocCursor

/-- One live output: the slot is free and takes the next creation id. -/
def mintOutput (chain : ChainState) (body : TxBody) (coinbaseMintHeight : Option U64)
    (cursor : U64 × List (Nat × SlotValue)) (entry : Nat × TxOutput) :
    Except ApplyError (U64 × List (Nat × SlotValue)) := do
  chain.checkSlotAvailable entry.2.slotIndex
  reject (chain.state.slot entry.2.slotIndex.toNat ≠ .empty) .outputSlotNotEmpty
  let allocCursor ← okOr .allocCounterOverflow (checkedAdd cursor.1 1)
  let creationId ← outputCreationId body coinbaseMintHeight allocCursor
  pure (allocCursor, cursor.2 ++ [(entry.2.slotIndex.toNat, entry.2.minted creationId)])

/-- Everything `apply_tx_checked_deferred_root` checks before it writes. -/
def checkTx (chain : ChainState) (body : TxBody) (coinbaseMintHeight : Option U64) :
    Except ApplyError TxEffect := do
  reject (body.isCoinbase = true ∧ coinbaseMintHeight = none) .coinbaseMintHeightMissing
  let inputSlots ← body.liveInputs.foldlM (fun seen entry =>
    insertFresh .unknownOrSpentInput seen entry.2.slotIndex) []
  let _ ← body.liveOutputs.foldlM (checkOutputSlot inputSlots) []
  forM body.liveInputs (chain.checkInput body.inputOwner)
  let spent := body.liveInputs.map fun entry => (entry.2.slotIndex.toNat, SlotValue.empty)
  let activeAfterSpends ← okOr .activeSlotCountUnderflow
    (checkedSub chain.activeSlotCount (BitVec.ofNat 64 body.liveInputCount))
  let activeAfter ← okOr .activeSlotCountOverflow
    (checkedAdd activeAfterSpends (BitVec.ofNat 64 body.liveOutputCount))
  let finalAllocCounter ← okOr .allocCounterOverflow
    (checkedAdd chain.allocCounter (BitVec.ofNat 64 body.liveOutputCount))
  reject (isCoinbaseCreationId finalAllocCounter = true) .allocCounterOverflow
  let minted ← body.liveOutputs.foldlM (chain.mintOutput body coinbaseMintHeight)
    (chain.allocCounter, spent)
  let supply ← okOr .circulatingSupplyInvariant (chain.supplyAfterSlotUpdates minted.2)
  pure
    { deltas := minted.2
      activeSlotCount := activeAfter
      allocCounter := finalAllocCounter
      circulatingSupplyMicronoid := supply }

/-- `apply_tx_checked_deferred_root`. -/
def applyTxCheckedDeferredRoot (hasher : StateHasher) (chain : ChainState) (body : TxBody)
    (coinbaseMintHeight : Option U64) : Except (Fault ApplyError) ChainState := do
  let effect ← (chain.checkTx body coinbaseMintHeight).mapError .err
  let state ← (chain.state.applyDeltaUnrooted hasher effect.deltas).mapError fun _ => .panic
  pure
    { chain with
      state
      activeSlotCount := effect.activeSlotCount
      allocCounter := effect.allocCounter
      circulatingSupplyMicronoid := effect.circulatingSupplyMicronoid }

end ChainState

end ParanoidChain
