import ParanoidChain.Chain.ApplyBlock

/-!
# Undo logs

What a block overwrites, recorded before it is applied, and the restoration of it. A reorg reverts
the slots, shrinks the domain to the recorded depth and then restores the two counters.
-/

namespace ParanoidChain

open Lib

/-- `BlockUndoLog`. -/
structure BlockUndoLog where
  blockHeight : U64
  logSlotsBefore : U32
  activeSlotCountBefore : U64
  allocCounterBefore : U64
  slotChanges : List (Nat × SlotValue)
  txHashes : List Digest
  deriving DecidableEq, Repr

/-- The accumulators of `build_undo_log`. -/
structure UndoScan where
  slotChanges : List (Nat × SlotValue)
  touchedSlots : List U32
  deriving DecidableEq, Repr

namespace UndoScan

/-- The slots a child may mint into: twice the parent's when the block grows the domain. -/
def childSlots (chain : ChainState) (block : Block) : Nat :=
  let parentSlots := chain.state.numSlots
  if block.header.logSlots.toNat = saturatingAdd 32 chain.state.logSlots 1 then
    if parentSlots * 2 < 2 ^ 64 then parentSlots * 2 else parentSlots
  else parentSlots

/-- One live input: the value of a slot inside the domain, once. -/
def undoInput (chain : ChainState) (scan : UndoScan) (entry : Nat × TxInput) : UndoScan :=
  let slotIndex := entry.2.slotIndex
  if slotIndex.toNat < chain.state.numSlots ∧ slotIndex ∉ scan.touchedSlots then
    { slotChanges := scan.slotChanges ++ [(slotIndex.toNat, chain.state.slot slotIndex.toNat)]
      touchedSlots := slotIndex :: scan.touchedSlots }
  else scan

/-- The record of one minted slot; in the new upper half it is empty. -/
def outputChange (chain : ChainState) (block : Block) (slotIndex : Nat) :
    List (Nat × SlotValue) :=
  if slotIndex < chain.state.numSlots then [(slotIndex, chain.state.slot slotIndex)]
  else if slotIndex < childSlots chain block then [(slotIndex, .empty)]
  else []

/-- One live output. -/
def undoOutput (chain : ChainState) (block : Block) (scan : UndoScan) (entry : Nat × TxOutput) :
    UndoScan :=
  let slotIndex := entry.2.slotIndex
  if slotIndex ∉ scan.touchedSlots then
    { slotChanges := scan.slotChanges ++ outputChange chain block slotIndex.toNat
      touchedSlots := slotIndex :: scan.touchedSlots }
  else scan

/-- One record: its inputs, then its outputs. -/
def undoTx (chain : ChainState) (block : Block) (scan : UndoScan) (tx : Transaction) : UndoScan :=
  tx.body.liveOutputs.foldl (undoOutput chain block)
    (tx.body.liveInputs.foldl (undoInput chain) scan)

end UndoScan

/-- `build_undo_log`. -/
def buildUndoLog (hashes : ChainHashes) (stateBefore : ChainState) (block : Block) :
    Except BlockPageStreamError BlockUndoLog := do
  let txHashes ← tryComputeLogicalTxids hashes.tx block.transactions
  let scan := block.transactions.foldl (UndoScan.undoTx stateBefore block) ⟨[], []⟩
  return {
    blockHeight := block.header.height
    logSlotsBefore := BitVec.ofNat 32 stateBefore.state.logSlots
    activeSlotCountBefore := stateBefore.activeSlotCount
    allocCounterBefore := stateBefore.allocCounter
    slotChanges := scan.slotChanges
    txHashes }

namespace ChainState

/-- `revert_block`: the recorded slots of the domain, newest first, and the supply. -/
def revertBlock (hasher : StateHasher) (chain : ChainState) (undo : BlockUndoLog) :
    Except ApplyError ChainState := do
  let circulatingSupplyMicronoid ← okOr .circulatingSupplyInvariant
    (chain.supplyAfterSlotUpdates undo.slotChanges)
  let restoredSlots := undo.slotChanges.reverse.filter fun change => change.1 < chain.state.numSlots
  let state ← (chain.state.applyDeltaUnrooted hasher restoredSlots).mapError fun _ =>
    .slotOutOfRange
  return { chain with state, circulatingSupplyMicronoid }

/-- `restore_state_counters`. -/
def restoreStateCounters (chain : ChainState) (undo : BlockUndoLog) : ChainState :=
  { chain with
    activeSlotCount := undo.activeSlotCountBefore
    allocCounter := undo.allocCounterBefore }

end ChainState

end ParanoidChain
