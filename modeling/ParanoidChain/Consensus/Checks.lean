import ParanoidChain.Chain.Block
import ParanoidChain.Tx.PublicLogic

/-!
# Consensus errors and the per-transaction checks

The texts an error carries are constructors here, and each docstring gives the text.
-/

namespace ParanoidChain

open Lib

/-- Errors of `apply_block`. -/
inductive BlockApplyError where
  | tx (error : ApplyError)
  | tooManyTransactions
  | genesisHasTransactions
  | invalidTxBody
  | invalidPagedSpend
  | slotConflict
  | headerStateRootMismatch
  | headerTxRootMismatch
  | headerActiveSlotCountMismatch
  | headerAllocCounterMismatch
  | headerLogSlotsMismatch
  | multipleCoinbase
  | coinbaseNotFirst
  | coinbaseHasInputs
  deriving DecidableEq, Repr

/-- The `limit` field of `BlockResourceLimitExceeded`. -/
inductive ResourceLimit where
  /-- `user_pages`. -/
  | userPages
  /-- `logical_txs`. -/
  | logicalTxs
  /-- `live_inputs`. -/
  | liveInputs
  /-- `user_outputs`. -/
  | userOutputs
  /-- `outputs`. -/
  | outputs
  /-- `actions`. -/
  | actions
  /-- `distinct_segments`. -/
  | distinctSegments
  deriving DecidableEq, Repr

/-- The text of `ShapeMismatch`. -/
inductive ShapeReason where
  /-- `body semantics: {e}`. -/
  | bodySemantics (error : PublicLogicError)
  /-- `coinbase semantics: {error}`. -/
  | coinbaseSemantics (error : PublicLogicError)
  /-- `development payout has non-canonical body semantics`. -/
  | developmentPayoutSemantics
  /-- `block log_slots is outside the u32 slot domain`. -/
  | logSlotsOutsideDomain
  /-- `live input slot is outside block log_slots`. -/
  | inputOutsideDomain
  /-- `live output slot is outside block log_slots`. -/
  | outputOutsideDomain
  /-- `claimable fee sum overflow`. -/
  | claimableFeeSumOverflow
  /-- `invalid fixed transaction body`. -/
  | invalidFixedBody
  /-- `{:?}` of an error of `apply_block` that has no consensus error of its own. -/
  | applyBlock (error : BlockApplyError)
  deriving DecidableEq, Repr

/-- The text of `InvalidPagedSpend`. -/
inductive PagedSpendReason where
  /-- The text of the stream error. -/
  | stream (error : BlockPageStreamError)
  /-- `invalid block page stream`. -/
  | invalidBlockPageStream
  deriving DecidableEq, Repr

/-- The errors of the native checks; those of the proof layer are not reached from here. -/
inductive ConsensusError where
  | invalidPoW
  | badParentHash
  | badHeight
  | badDifficultyTarget
  | badTimestamp
  | tooManyTxs
  | blockResourceLimitExceeded (limit : ResourceLimit) (actual max : Nat)
  | badTxRoot
  | slotConflict
  | invalidPagedSpend (reason : PagedSpendReason)
  | badEpochAnchor
  | missingCoinbase
  | multipleCoinbase
  | coinbaseNotFirst
  | badCoinbaseOwner
  | inflatedCoinbase
  | badCoinbaseAnchor
  | missingDevelopmentPayout
  | unexpectedDevelopmentPayout
  | badDevelopmentPayout
  | belowMinFee (required actual : Nat)
  | badLogSlotsExpansion
  | badStateRoot
  | shapeMismatch (reason : ShapeReason)
  deriving DecidableEq, Repr

/-- `validate_tx_consensus`. -/
def validateTxConsensus (tx : Transaction) : Except ConsensusError Unit := do
  (validateBodySemanticsNoHash tx.body).mapError fun error => .shapeMismatch (.bodySemantics error)
  reject (tx.body.isCoinbase = false ∧ tx.body.epochAnchor = 0) .badEpochAnchor

/-- The slots of one transaction join the block-wide set: its inputs, then its outputs. -/
def touchSlots (touched : List U32) (tx : Transaction) : Except ConsensusError (List U32) := do
  let touched ← tx.body.liveInputs.foldlM (fun touched entry =>
    insertFresh .slotConflict touched entry.2.slotIndex) touched
  tx.body.liveOutputs.foldlM (fun touched entry =>
    insertFresh .slotConflict touched entry.2.slotIndex) touched

/-- `validate_block_slot_conflicts`. -/
def validateBlockSlotConflicts (txs : List Transaction) : Except ConsensusError Unit := do
  let _ ← txs.foldlM touchSlots []
  pure ()

end ParanoidChain
