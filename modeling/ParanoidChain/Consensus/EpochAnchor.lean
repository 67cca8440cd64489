import ParanoidChain.Consensus.Header

/-!
# The transaction epoch anchor

Every user page of a block names the id of one earlier header, the anchor of its epoch. The anchor is
carried along the chain by `next_tx_epoch_anchor_id`, and it can be looked up by height.
-/

namespace ParanoidChain

open Lib

/-- `TxEpochHeightDecomposition`. -/
structure TxEpochHeightDecomposition where
  quotient : U64
  remainder : BitVec 8
  deriving DecidableEq, Repr

def TxEpochHeightDecomposition.isBoundary (decomposition : TxEpochHeightDecomposition) : Bool :=
  decomposition.remainder == 0

/-- `checked_tx_epoch_height_decomposition`. -/
def checkedTxEpochHeightDecomposition (height : U64) : Option TxEpochHeightDecomposition := do
  let epoch := BitVec.ofNat 64 txEpochBlocks
  let quotient := height / epoch
  let remainder := height % epoch
  let product ← checkedMul quotient epoch
  let recomposed ← checkedAdd product remainder
  guard (recomposed = height ∧ remainder < epoch)
  guard (remainder.toNat < 2 ^ 8)
  return ⟨quotient, remainder.setWidth 8⟩

/-- `next_tx_epoch_anchor_id`; nothing is returned when its `expect` fails. -/
def nextTxEpochAnchorId (startAnchorId : Digest) (acceptedChildHeight : U64)
    (acceptedChildId : Digest) : Option Digest := do
  let decomposition ← checkedTxEpochHeightDecomposition acceptedChildHeight
  return if acceptedChildHeight ≠ 0 ∧ decomposition.isBoundary = true then acceptedChildId
    else startAnchorId

/-- `resolve_user_epoch_anchor_id`. -/
def resolveUserEpochAnchorId (hashes : ChainHashes) (childHeight : Nat)
    (headerAt : Nat → Option BlockHeader) : Option Digest :=
  (headerAt (txEpochAnchorHeightForChild childHeight)).map hashes.blockId

end ParanoidChain
