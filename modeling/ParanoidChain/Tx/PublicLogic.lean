import ParanoidChain.Tx.PagedSpend

/-!
# Fixed-body semantics

The canonical body checks of `public_logic.rs`. A block runs them on its system records only: user
pages are balanced as groups, so the per-body balance here is not asked of them.
-/

namespace ParanoidChain

open Lib

inductive PublicLogicError where
  | bitmapHighBits (bitmap : U16)
  | deadInputNotZero (index : Nat)
  | deadOutputNotZero (index : Nat)
  | noLiveInputs
  | coinbaseInputOwner
  | coinbaseBitmap (bitmap : U16)
  | duplicateInputSlot (slot : U32)
  | duplicateOutputSlot (slot : U32)
  | inputOutputSlotOverlap (slot : U32)
  | inputSumOverflow
  | outputSumOverflow
  | outputPlusFeeOverflow
  | balanceMismatch (inputSum outputSum : U128) (fee : U64)
  deriving DecidableEq, Repr

/-- One live output of `unique_slots`: not met before, and no input's slot. -/
def uniqueOutputSlot (inputs seen : List U32) (entry : Nat × TxOutput) :
    Except PublicLogicError (List U32) := do
  let seen ← insertFresh (.duplicateOutputSlot entry.2.slotIndex) seen entry.2.slotIndex
  reject (entry.2.slotIndex ∈ inputs) (.inputOutputSlotOverlap entry.2.slotIndex)
  pure seen

/-- Every live record of the body names its own slot. -/
def uniqueSlots (body : TxBody) : Except PublicLogicError Unit := do
  let inputs ← body.liveInputs.foldlM (fun seen entry =>
    insertFresh (.duplicateInputSlot entry.2.slotIndex) seen entry.2.slotIndex) []
  let _ ← body.liveOutputs.foldlM (uniqueOutputSlot inputs) []
  pure ()

/-- The record counts and the checked sums of the live records. -/
def sums (body : TxBody) : Except PublicLogicError (Nat × Nat × U128 × U128) := do
  let inputSum ← body.liveInputs.foldlM (fun sum entry =>
    okOr .inputSumOverflow (checkedAdd sum (toBlock128 entry.2.amount))) 0
  let outputSum ← body.liveOutputs.foldlM (fun sum entry =>
    okOr .outputSumOverflow (checkedAdd sum (toBlock128 entry.2.amount))) 0
  return (body.liveInputCount, body.liveOutputCount, inputSum, outputSum)

/-- The system records: no owner, no fee, and one of the two fixed bitmaps. -/
def validateCoinbaseSemantics (body : TxBody) : Except PublicLogicError Unit := do
  reject (body.inputOwner ≠ .zero) .coinbaseInputOwner
  reject (¬ (body.validityBitmap = outputBitmapBit 0 ∨
      body.validityBitmap = outputBitmapBit 0 ||| outputBitmapBit 1) ∨ body.fee ≠ 0)
    (.coinbaseBitmap body.validityBitmap)
  uniqueSlots body

/-- A user body: some input, distinct slots, and inputs that pay for outputs and fee. -/
def validateUserSemantics (body : TxBody) : Except PublicLogicError Unit := do
  reject (body.liveInputCount = 0) .noLiveInputs
  uniqueSlots body
  let (_, _, inputSum, outputSum) ← sums body
  let expected ← okOr .outputPlusFeeOverflow (checkedAdd outputSum (toBlock128 body.fee))
  reject (inputSum ≠ expected) (.balanceMismatch inputSum outputSum body.fee)

/-- `validate_body_semantics_no_hash`, which `TxBody::validate_canonical` calls. -/
def validateBodySemanticsNoHash (body : TxBody) : Except PublicLogicError Unit := do
  reject ((body.validityBitmap &&& ~~~txValidityMask) ≠ 0) (.bitmapHighBits body.validityBitmap)
  forM (TxBody.enumerate body.inputs) fun (index, input) =>
    reject (body.inputIsLive index = false ∧ input ≠ .dummy) (.deadInputNotZero index)
  forM (TxBody.enumerate body.outputs) fun (index, output) =>
    reject (body.outputIsLive index = false ∧ output ≠ .dummy) (.deadOutputNotZero index)
  if body.isCoinbase = true then validateCoinbaseSemantics body else validateUserSemantics body

end ParanoidChain
